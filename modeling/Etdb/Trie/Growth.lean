import Etdb.Trie.Supply
import Etdb.Trie.Insertion

/- Reallocations that fail in etdb_trie_add_block. A run in front of given results goes as the
   run with an allocator that never fails, for as long as the results it takes are successes;
   the first failure leaves an array short, and the update goes on into it. -/
namespace EtdbTrie
open ByteXor ByteTree Trie
namespace Trie

/-- What comes of an operation that leads from `t` to `t'` while the allocator works: `k`
    growths take three results each, and the outcome `x` is the same if these are successes. -/
def Weathers (failed : Option ρ → Prop) (t t' : Trie) (ret : Trie → ρ) (rs : List Bool)
    (x : Option ρ) : Prop :=
  ∃ k : Nat, t'.capacity = 2 ^ k * t.capacity ∧
    (false ∉ rs.take (3 * k) → x = some (ret (t'.supply (rs.drop (3 * k))))) ∧
    (false ∈ rs.take (3 * k) → failed x)

def Stops (x : Option ρ) : Prop := x = none

def Short (x : Option (Int × Trie)) : Prop := ∀ e t, x = some (e, t) → 0 ≤ e ∧ t.ninfoLen ≤ e

section
variable {t t' t1 : Trie} {T : ByteTree.Tree Int} {loc : Path → Int} {w : Path} {m : Entries}
    {rs : List Bool}
variable {e origin base : Int} {label first : UInt8} {rest labels key : List UInt8}

theorem Weathers.bind {failed : Option ρ → Prop} {failed' : Option τ → Prop} {ret : Trie → ρ}
    {ret' : Trie → τ} {x : Option ρ} {f : ρ → Option τ} (head : Weathers failed t t1 ret rs x)
    (stuck : failed x → failed' (x >>= f))
    (tail : ∀ rs, Weathers failed' t1 t' ret' rs (f (ret (t1.supply rs)))) :
    Weathers failed' t t' ret' rs (x >>= f) := by
  obtain ⟨k, grown, fine, bad⟩ := head
  obtain ⟨l, grown', fine', bad'⟩ := tail (rs.drop (3 * k))
  have split : rs.take (3 * (k + l)) = rs.take (3 * k) ++ (rs.drop (3 * k)).take (3 * l) := by
    rw [Nat.mul_add, List.take_add]
  refine ⟨k + l, ?_, ?_, ?_⟩
  · rw [grown', grown, pow_add, Int.mul_left_comm, ← Int.mul_assoc]
  · intro granted
    rw [split, List.mem_append, not_or] at granted
    rw [fine granted.1]
    refine (fine' granted.2).trans ?_
    rw [List.drop_drop, Nat.mul_add]
  · intro missing
    by_cases early : false ∈ rs.take (3 * k)
    · exact stuck (bad early)
    · rw [split, List.mem_append] at missing
      rw [fine early]
      exact bad' (missing.resolve_left early)

theorem Weathers.start {failed : Option ρ → Prop} {ret : Trie → ρ} {x : Option ρ}
    (same : t1.capacity = t.capacity)
    (tail : Weathers failed t1 t' ret rs x) : Weathers failed t t' ret rs x := by
  obtain ⟨k, grown, outcome⟩ := tail
  exact ⟨k, grown.trans (by rw [same]), outcome⟩

theorem still_capacity {f : Trie → Option ρ} {ret : Trie → ρ} (run : f t = some (ret t'))
    (blind : ∀ rs cap, f (t.arm rs cap) = some (ret (t'.arm rs cap)))
    (inj : ∀ u u', ret u = ret u' → u = u') : t'.capacity = t.capacity := by
  have own : t' = t'.arm t.reallocs t.capacity := inj _ _ (Option.some.inj (run.symm.trans (blind _ _)))
  rw [own, arm]

theorem weathers_still {failed : Option ρ → Prop} {f : Trie → Option ρ} {ret : Trie → ρ}
    (run : f t = some (ret t'))
    (blind : ∀ rs cap, f (t.arm rs cap) = some (ret (t'.arm rs cap)))
    (inj : ∀ u u', ret u = ret u' → u = u')
    (rs : List Bool) : Weathers failed t t' ret rs (f (t.supply rs)) := by
  have kept := still_capacity run blind inj
  refine ⟨0, by simp [kept], fun _ => ?_, by simp⟩
  refine (blind rs t.capacity).trans ?_
  rw [← kept]
  rfl

/- What a reallocation that succeeds does. -/
def grownNode (t : Trie) (n p : Int) : Trie :=
  { t with node := fun i => if p ≤ i ∧ i < n then ⟨0, 0⟩ else t.node i, nodeLen := n }
def grownNinfo (t : Trie) (n p : Int) : Trie :=
  { t with ninfo := fun i => if p ≤ i ∧ i < n then blankNinfo else t.ninfo i, ninfoLen := n }
def grownBlock (t : Trie) (n p : Int) : Trie :=
  { t with block := fun b => if p ≤ b ∧ b < n then freshBlock else t.block b, blockLen := n }

def grownBy (t : Trie) (a b c : Bool) : Trie :=
  let t1 := { t with capacity := 2 * t.capacity }
  let t2 := if a then t1.grownNode (2 * t.capacity) t.capacity else t1
  let t3 := if b then t2.grownNinfo (2 * t.capacity) t.capacity else t2
  if c then t3.grownBlock (2 * t.capacity / 256) (t.capacity / 256) else t3

theorem growCapacity_full (full : t.size = t.capacity) (rs : List Bool) : (t.supply rs).growCapacity =
    (t.grownBy (rs.headD true) (rs.tail.headD true) (rs.tail.tail.headD true)).supply (rs.drop 3) := by
  have full' : (t.supply rs).size = (t.supply rs).capacity := full
  rw [growCapacity, if_pos full']
  rcases rs with _ | ⟨_ | _, _ | ⟨_ | _, _ | ⟨_ | _, rs⟩⟩⟩ <;> rfl

theorem granted_iff : false ∉ rs.take 3 ↔
    rs.headD true = true ∧ rs.tail.headD true = true ∧ rs.tail.tail.headD true = true := by
  rcases rs with _ | ⟨a, _ | ⟨b, _ | ⟨c, rs⟩⟩⟩ <;> simp

theorem growCapacity_short (sized : Sized t) (full : t.size = t.capacity) (missing : false ∈ rs.take 3) :
    (t.supply rs).growCapacity.size = t.size ∧ ((t.supply rs).growCapacity.nodeLen = t.size ∨
      (t.supply rs).growCapacity.ninfoLen = t.size ∨
      (t.supply rs).growCapacity.blockLen = t.size / 256) := by
  have nodeLen := sized.nodeLen; have ninfoLen := sized.ninfoLen; have blockLen := sized.blockLen
  have some := mt granted_iff.mpr (not_not.mpr missing)
  rw [growCapacity_full full, full]
  cases h1 : rs.headD true
  · cases rs.tail.headD true <;> cases rs.tail.tail.headD true <;> exact ⟨full, Or.inl nodeLen⟩
  cases h2 : rs.tail.headD true
  · cases rs.tail.tail.headD true <;> exact ⟨full, Or.inr (Or.inl ninfoLen)⟩
  cases h3 : rs.tail.tail.headD true
  · exact ⟨full, Or.inr (Or.inr blockLen)⟩
  exact absurd ⟨h1, h2, h3⟩ some

theorem growCapacity_capacity (sized : Sized t) (full : t.size = t.capacity) :
    t.growCapacity.capacity = 2 * t.capacity := by
  have bare : t = t.supply [] := by rw [← sized.reallocs]; rfl
  rw [congrArg growCapacity bare, growCapacity_full full]
  rfl

theorem growCapacity_supply (sized : Sized t) (full : t.size = t.capacity) (granted : false ∉ rs.take 3) :
    (t.supply rs).growCapacity = t.growCapacity.supply (rs.drop 3) := by
  obtain ⟨h1, h2, h3⟩ := granted_iff.mp granted
  have bare : t = t.supply [] := by rw [← sized.reallocs]; rfl
  rw [growCapacity_full full, h1, h2, h3]
  rw [congrArg growCapacity bare, growCapacity_full full]
  rfl

def raise (t : Trie) : Trie := { t with size := t.size + 256 }

theorem linkNodes_arm (s : Int) (rs : List Bool) (cap : Int) :
    (t.arm rs cap).linkNodes s = (t.linkNodes s).map fun t => t.arm rs cap := by
  by_cases inside : t.InNode s ∧ t.InNode (s + 255)
  · have inside' : (t.arm rs cap).InNode s ∧ (t.arm rs cap).InNode (s + 255) := inside
    rw [linkNodes, linkNodes, if_pos inside, if_pos inside']
    rfl
  · have outside' : ¬ ((t.arm rs cap).InNode s ∧ (t.arm rs cap).InNode (s + 255)) := inside
    rw [linkNodes, linkNodes, if_neg inside, if_neg outside']
    rfl

theorem openBlock_eq (t : Trie) : t.openBlock = (do
    let u ← t.raise.modifyBlock (t.size / 256) fun b => { b with ehead := t.size }
    let u ← u.linkNodes t.size
    let u ← u.pushBlock (t.size / 256) .opened (u.head .opened = 0)
    some (u.size / 256 - 1, u)) := rfl

theorem openBlock_arm (rs : List Bool) (cap : Int) :
    (t.arm rs cap).openBlock = onTrie (fun t => t.arm rs cap) t.openBlock := by
  have c := unseen_arm rs cap
  have raised : (t.arm rs cap).raise = t.raise.arm rs cap := rfl
  have size : (t.arm rs cap).size = t.size := rfl
  rw [openBlock_eq, openBlock_eq, raised, size, c.modifyBlock]
  simp only [onTrie, linkNodes_arm, c.pushBlock, c.head, c.size, Option.bind_eq_bind, Option.map_bind,
    Option.bind_map, Option.map_some, Function.comp_def]

theorem modifyBlock_some {b : Int} {f : Block → Block} (run : t.modifyBlock b f = some t') :
    t.InBlock b ∧ t' = t.setBlock b (f (t.block b)) := by
  by_cases inside : t.InBlock b
  · rw [modifyBlock_inside inside] at run
    exact ⟨inside, (Option.some.inj run).symm⟩
  · simp [modifyBlock, blockAt, inside] at run

theorem setHead_ninfoLen (k : BlockList) (v : Int) : (t.setHead k v).ninfoLen = t.ninfoLen := by
  cases k <;> rfl

theorem pushBlock_lens {b : Int} {k : BlockList} {empty : Bool} (run : t.pushBlock b k empty = some t') :
    t'.size = t.size ∧ t'.ninfoLen = t.ninfoLen := by
  cases empty with
  | true =>
    obtain ⟨t1, run1, last⟩ := Option.bind_eq_some_iff.mp run
    obtain rfl := (modifyBlock_some run1).2
    obtain rfl := Option.some.inj last
    exact ⟨setHead_size .., setHead_ninfoLen ..⟩
  | false =>
    obtain ⟨tail, _, run⟩ := Option.bind_eq_some_iff.mp run
    obtain ⟨t1, run1, run⟩ := Option.bind_eq_some_iff.mp run
    obtain ⟨tail', _, run⟩ := Option.bind_eq_some_iff.mp run
    obtain ⟨t2, run2, run⟩ := Option.bind_eq_some_iff.mp run
    obtain ⟨t3, run3, last⟩ := Option.bind_eq_some_iff.mp run
    obtain rfl := (modifyBlock_some run1).2
    obtain rfl := (modifyBlock_some run2).2
    obtain rfl := (modifyBlock_some run3).2
    obtain rfl := Option.some.inj last
    exact ⟨setHead_size .., setHead_ninfoLen ..⟩

/-- A new block behind the end of the node or block array cannot be written, and behind that
    of the ninfo array it has no infos. -/
theorem openBlock_short {b : Int} (align : t.size % 256 = 0) (run : t.openBlock = some (b, t'))
    (short : t.nodeLen = t.size ∨ t.ninfoLen = t.size ∨ t.blockLen = t.size / 256) :
    b * 256 = t.size ∧ t'.ninfoLen = t.size := by
  rw [openBlock_eq] at run
  obtain ⟨t1, run1, run⟩ := Option.bind_eq_some_iff.mp run
  obtain ⟨t2, run2, run⟩ := Option.bind_eq_some_iff.mp run
  obtain ⟨t3, run3, last⟩ := Option.bind_eq_some_iff.mp run
  obtain ⟨block, rfl⟩ := modifyBlock_some run1
  obtain ⟨node, same⟩ := Option.ite_none_right_eq_some.mp run2
  obtain rfl := Option.some.inj same
  obtain ⟨size, ninfoLen⟩ := pushBlock_lens run3
  obtain ⟨rfl, rfl⟩ := Prod.ext_iff.mp (Option.some.inj last)
  have inBlock : t.size / 256 < t.blockLen := block.2.2
  have inNode : t.size < t.nodeLen := node.1.2.2
  have size' : t3.size = t.size + 256 := size
  have ninfoLen' : t3.ninfoLen = t.ninfoLen := ninfoLen
  exact ⟨by dsimp only; omega, by dsimp only; omega⟩

def newPlace (t : Trie) : Option (Int × Trie) := do
  let (bi, t) ← t.addBlock
  some (bi * 256, t)

theorem newPlace_eq {u : Trie} {b : Int} (grown : t.growCapacity = u) (run : u.openBlock = some (b, t')) :
    t.newPlace = some (b * 256, t') := by
  subst grown
  exact bind_run run rfl

theorem newPlace_weathers (sized : Sized t) (run : t.newPlace = some (e, t')) (rs : List Bool) :
    Weathers Short t t' (fun t => (e, t)) rs (t.supply rs).newPlace := by
  obtain ⟨⟨b, t1⟩, opened, same⟩ := Option.bind_eq_some_iff.mp run
  obtain ⟨rfl, rfl⟩ := Prod.ext_iff.mp (Option.some.inj same)
  have inj : ∀ (c : Int) (u u' : Trie), (c, u) = (c, u') → u = u' := fun _ _ _ h => (Prod.ext_iff.mp h).2
  have blind : ∀ rs cap, (t.growCapacity.arm rs cap).openBlock =
    some (b, t1.arm rs cap) := fun rs cap => by
    rw [openBlock_arm, show t.growCapacity.openBlock = _ from opened]
    rfl
  have kept : t1.capacity = t.growCapacity.capacity := still_capacity (f := openBlock) opened blind
    (inj b)
  by_cases full : t.size = t.capacity
  · refine ⟨1, ?_, fun granted => ?_, fun missing => ?_⟩
    · rw [kept, growCapacity_capacity sized full, pow_one]
    · refine newPlace_eq (growCapacity_supply sized full granted) ?_
      rw [supply, blind, ← kept]
      rfl
    · intro e' u run'
      obtain ⟨⟨b', u'⟩, opened', same'⟩ := Option.bind_eq_some_iff.mp run'
      obtain ⟨rfl, rfl⟩ := Prod.ext_iff.mp (Option.some.inj same')
      obtain ⟨size, short⟩ := growCapacity_short sized full missing
      have align := sized.size; have pos := sized.pos
      rw [← size] at short align pos
      obtain ⟨start, ninfoLen⟩ := openBlock_short align opened' short
      dsimp only
      omega
  · have grown : ∀ rs cap, t.size ≠ cap → (t.arm rs cap).growCapacity = t.arm rs cap :=
      fun _ _ h => if_neg h
    rw [growCapacity, if_neg full] at kept blind
    refine ⟨0, by simp [kept], fun _ => ?_, by simp⟩
    refine newPlace_eq (grown rs t.capacity full) ?_
    rw [blind, ← kept]
    rfl

theorem findPlace_weathers (sized : Sized t) (run : t.findPlace = some (e, t')) (rs : List Bool) :
    Weathers Short t t' (fun t => (e, t)) rs (t.supply rs).findPlace := by
  have inj : ∀ u u' : Trie, (e, u) = (e, u') → u = u' := fun _ _ h => (Prod.ext_iff.mp h).2
  unfold findPlace at run
  split at run
  · rename_i close
    obtain ⟨b, read, same⟩ := Option.bind_eq_some_iff.mp run
    obtain ⟨rfl, rfl⟩ := Prod.ext_iff.mp (Option.some.inj same)
    have found : ∀ rs cap, (t.arm rs cap).findPlace = some (b.ehead, t.arm rs cap) := fun rs cap =>
      (if_pos close).trans (bind_run read rfl)
    exact weathers_still (found t.reallocs t.capacity) found inj rs
  split at run
  · rename_i close opened
    obtain ⟨b, read, same⟩ := Option.bind_eq_some_iff.mp run
    obtain ⟨rfl, rfl⟩ := Prod.ext_iff.mp (Option.some.inj same)
    have found : ∀ rs cap, (t.arm rs cap).findPlace = some (b.ehead, t.arm rs cap) := fun rs cap =>
      (if_neg close).trans ((if_pos opened).trans (bind_run read rfl))
    exact weathers_still (found t.reallocs t.capacity) found inj rs
  · rename_i close opened
    have new : (t.supply rs).findPlace = (t.supply rs).newPlace := (if_neg close).trans (if_neg opened)
    rw [new]
    exact newPlace_weathers sized run rs

theorem findPlaceInterval_weathers (free : Free t) (run : t.findPlaceInterval first rest = some (e, t'))
    (rs : List Bool) : Weathers Short t t' (fun t => (e, t)) rs
    ((t.supply rs).findPlaceInterval first rest) := by
  have inj : ∀ (α : Type) (a : α) (u u' : Trie), (a, u) = (a, u') → u = u' :=
    fun _ _ _ _ h => (Prod.ext_iff.mp h).2
  by_cases opened : t.blockHeadOpen ≠ 0
  · obtain ⟨inside, found, t1, scan, free1, _⟩ := scanOpen_head first rest free opened
    have blind : ∀ rs cap, scanOpen first rest (t.prevBlock t.blockHeadOpen) (t.size / 256).toNat
      t.blockHeadOpen
        (t.arm rs cap) = some (found, t1.arm rs cap) := fun rs cap => by
      rw [(unseen_arm rs cap).scanOpen, scan]
      rfl
    have kept := still_capacity (f := scanOpen first rest _ _ _) scan blind (inj _ found)
    cases found with
    | some c =>
      have place : ∀ rs cap, (t.arm rs cap).findPlaceInterval first rest =
        some (c, t1.arm rs cap) := fun rs cap =>
        (if_pos opened).trans (bind_run (blockAt_inside inside) (bind_run (blind rs cap) rfl))
      have ideal : t.findPlaceInterval first rest = some (c, t1) :=
        (if_pos opened).trans (bind_run (blockAt_inside inside) (bind_run scan rfl))
      obtain ⟨rfl, rfl⟩ := Prod.ext_iff.mp (Option.some.inj (ideal.symm.trans run))
      exact weathers_still (f := fun u => u.findPlaceInterval first rest) ideal place (inj _ c) rs
    | none =>
      have place : ∀ rs, (t.supply rs).findPlaceInterval first rest =
        (t1.supply rs).newPlace := fun rs => by
        rw [supply, supply, kept]
        exact (if_pos opened).trans
          (bind_run (blockAt_inside inside) (bind_run (blind rs t.capacity) rfl))
      have ideal : t.findPlaceInterval first rest = t1.newPlace :=
        (if_pos opened).trans (bind_run (blockAt_inside inside) (bind_run scan rfl))
      rw [ideal] at run
      rw [place]
      exact (newPlace_weathers free1.sized run rs).start kept
  · have new : ∀ rs, (t.supply rs).findPlaceInterval first rest = (t.supply rs).newPlace :=
      fun rs => if_neg opened
    have ideal : t.findPlaceInterval first rest = t.newPlace := if_neg opened
    rw [ideal] at run
    rw [new]
    exact newPlace_weathers free.sized run rs

theorem placeFor_weathers (free : Free t) (run : t.placeFor first rest = some (e, t')) (rs : List Bool) :
    Weathers Short t t' (fun t => (e, t)) rs ((t.supply rs).placeFor first rest) := by
  unfold placeFor at run ⊢
  split at run
  · rename_i alone
    rw [if_pos alone]
    exact findPlace_weathers free.sized run rs
  · rename_i several
    rw [if_neg several]
    exact findPlaceInterval_weathers free run rs

theorem takeEmpty_ninfoLen {i : Int} (run : t.takeEmpty i label origin = some t') :
    t'.ninfoLen = t.ninfoLen := by
  have same := (transparent_cutNinfo t.ninfoLen).takeEmpty t i label origin
  rw [run] at same
  have cut : t.cutNinfo t.ninfoLen = t := rfl
  have back := Option.some.inj (run.symm.trans
    ((congrArg (fun u => u.takeEmpty i label origin) cut).symm.trans same))
  exact (congrArg ninfoLen back).trans rfl

/-- The rest of a first child's insertion once its cell `e` is found. -/
def addAt (t : Trie) (e origin : Int) (label : UInt8) : Option (Int × Int × Trie) := do
  let t ← t.takeEmpty e label origin
  let t ← t.writeBase origin (xorByte e label)
  let t ← t.pushSibling origin (xorByte e label) label false
  some (e, origin, t)

theorem addChild_bare (bare : base < 0) :
    t.addChild origin base label = t.findPlace >>= fun r => r.2.addAt r.1 origin label := by
  have flag : decide (0 ≤ base) = false := decide_eq_false (by omega)
  simp [addChild, popEmptyNode, addAt, bare, flag, Option.bind_assoc]

theorem writeBase_some {i v : Int} (run : t.writeBase i v = some t') : t'.ninfoLen = t.ninfoLen := by
  obtain ⟨n, _, rfl⟩ := Option.map_eq_some_iff.mp run
  rfl

theorem writeChild_some {i : Int} (run : t.writeChild i label = some t') : t'.ninfoLen = t.ninfoLen := by
  obtain ⟨n, _, rfl⟩ := Option.map_eq_some_iff.mp run
  rfl

theorem writeSibling_short {i : Int} (short : t.ninfoLen ≤ i) : t.writeSibling i label = none := by
  have outside : ¬ t.InNinfo i := fun inside => by have := inside.2.2; omega
  simp [writeSibling, modifyNinfo, ninfoAt, outside]

theorem addAt_short (short : t.ninfoLen ≤ e) : t.addAt e origin label = none := by
  by_contra some
  obtain ⟨r, run⟩ := Option.ne_none_iff_exists'.mp some
  obtain ⟨t1, run1, run⟩ := Option.bind_eq_some_iff.mp run
  obtain ⟨t2, run2, run⟩ := Option.bind_eq_some_iff.mp run
  obtain ⟨t3, run3, _⟩ := Option.bind_eq_some_iff.mp run
  have len1 := takeEmpty_ninfoLen run1
  have len2 := writeBase_some run2
  obtain ⟨i, _, run3⟩ := Option.bind_eq_some_iff.mp run3
  obtain ⟨t4, run4, _⟩ := Option.bind_eq_some_iff.mp run3
  rw [xorByte_cancel, writeSibling_short (by omega)] at run4
  cases run4

def onThird (g : Trie → Trie) (x : Option (Int × Int × Trie)) : Option (Int × Int × Trie) :=
  x.map fun r => (r.1, r.2.1, g r.2.2)

theorem addAt_unseen {g : Trie → Trie} (c : Unseen g) (t : Trie) (e origin : Int) (label : UInt8) :
    (g t).addAt e origin label = onThird g (t.addAt e origin label) := by
  simp [addAt, onThird, c.takeEmpty, c.writeBase, c.pushSibling, Option.map_bind, Option.bind_map]

theorem weathers_third {failed : Option (Int × Int × Trie) → Prop}
    {f : Trie → Option (Int × Int × Trie)} {a b : Int}
    (run : f t = some (a, b, t')) (unseen : ∀ g, Unseen g → f (g t) = onThird g (f t)) (rs : List Bool) :
    Weathers failed t t' (fun t => (a, b, t)) rs (f (t.supply rs)) := by
  refine weathers_still run (fun rs cap => ?_) (fun _ _ h => (Prod.ext_iff.mp (Prod.ext_iff.mp h).2).2) rs
  rw [unseen _ (unseen_arm rs cap), run]
  rfl

theorem addChild_weathers {dest origin' : Int} (sized : Sized t)
    (run : t.addChild origin base label = some (dest, origin', t')) (rs : List Bool) :
    Weathers Stops t t' (fun t => (dest, origin', t)) rs ((t.supply rs).addChild origin base label) := by
  by_cases bare : base < 0
  · rw [addChild_bare bare] at run ⊢
    obtain ⟨⟨e, t1⟩, found, rest⟩ := Option.bind_eq_some_iff.mp run
    refine (findPlace_weathers sized found rs).bind (fun short => ?_) (fun rs => ?_)
    · cases place : (t.supply rs).findPlace with
      | none => rfl
      | some r => exact addAt_short (short r.1 r.2 place).2
    · exact weathers_third (f := fun u => u.addAt e origin label) rest
        (fun g c => addAt_unseen c t1 e origin label) rs
  · have settled : 0 ≤ base := by omega
    refine weathers_third (f := fun u => u.addChild origin base label) run (fun g c => ?_) rs
    simp [addChild, onThird, c.popEmptyNode t settled, onTrie, c.pushSibling,
      Option.map_bind, Option.bind_map]

def moveTo (t : Trie) (e : Int) (flag : Bool) (toPn origin base_ : Int) (labelN : UInt8) (fromN : Int)
    (first : UInt8) (rest : List UInt8) : Option (Int × Int × Trie) := do
  let base := xorByte e first
  let t ← t.writeBase origin base
  let (fromN, t) ← resolveLoop flag toPn origin base base_ labelN (first :: rest) fromN t
  some (if flag then xorByte base labelN else toPn, fromN, t)

/-- The rest of a relocation once the cell `e` is found. -/
def relocateAt (t : Trie) (e : Int) (flag : Bool) (toPn origin base_ : Int) (labelN : UInt8) (fromN : Int)
    (first : UInt8) (rest : List UInt8) : Option (Int × Int × Trie) :=
  if flag ∧ first = labelN then
    t.writeChild origin labelN >>= fun t => t.moveTo e flag toPn origin base_ labelN fromN first rest
  else t.moveTo e flag toPn origin base_ labelN fromN first rest

section
variable {flag : Bool} {toPn base_ fromN dest origin' : Int} {labelN : UInt8}

theorem relocate_eq : t.relocate flag toPn origin base_ labelN fromN (first :: rest) =
    t.placeFor first rest >>= fun r =>
      r.2.relocateAt r.1 flag toPn origin base_ labelN fromN first rest := rfl

theorem relocateAt_unseen {g : Trie → Trie} (c : Unseen g) (t : Trie) (settled : 0 ≤ e) :
    (g t).relocateAt e flag toPn origin base_ labelN fromN first rest =
      onThird g (t.relocateAt e flag toPn origin base_ labelN fromN first rest) := by
  have settled' : 0 ≤ xorByte e first := (xorByte_nonneg e first).mpr settled
  simp [relocateAt, moveTo, onThird, c.writeChild, c.writeBase, c.resolveLoop _ settled',
    onTrie, Option.map_bind, Option.bind_map, apply_ite (Option.map _)]

theorem popEmptyNode_ninfoLen {i : Int} (settled : 0 ≤ base)
    (run : t.popEmptyNode base label origin = some (i, t')) :
    i = xorByte base label ∧ t'.ninfoLen = t.ninfoLen := by
  rw [popEmptyNode, if_neg (by omega)] at run
  obtain ⟨t1, taken, same⟩ := Option.bind_eq_some_iff.mp run
  obtain ⟨rfl, rfl⟩ := Prod.ext_iff.mp (Option.some.inj same)
  exact ⟨rfl, takeEmpty_ninfoLen taken⟩

theorem moveTo_short (settled : 0 ≤ e) (short : t.ninfoLen ≤ e) :
    t.moveTo e flag toPn origin base_ labelN fromN first rest = none := by
  by_contra some
  obtain ⟨r, run⟩ := Option.ne_none_iff_exists'.mp some
  obtain ⟨t1, run1, run⟩ := Option.bind_eq_some_iff.mp run
  obtain ⟨r2, loop, _⟩ := Option.bind_eq_some_iff.mp run
  obtain ⟨r3, round, _⟩ := Option.bind_eq_some_iff.mp loop
  obtain ⟨⟨i, t4⟩, pop, round⟩ := Option.bind_eq_some_iff.mp round
  obtain ⟨t5, write, _⟩ := Option.bind_eq_some_iff.mp round
  obtain ⟨cell, len⟩ := popEmptyNode_ninfoLen ((xorByte_nonneg e first).mpr settled) pop
  have len1 := writeBase_some run1
  rw [cell, xorByte_cancel, writeSibling_short (by omega)] at write
  cases write

theorem relocateAt_short (settled : 0 ≤ e) (short : t.ninfoLen ≤ e) :
    t.relocateAt e flag toPn origin base_ labelN fromN first rest = none := by
  unfold relocateAt
  split
  · cases write : t.writeChild origin labelN with
    | none => rfl
    | some t1 =>
      have len := writeChild_some write
      exact moveTo_short settled (by omega)
  · exact moveTo_short settled short

theorem relocate_weathers (free : Free t)
    (run : t.relocate flag toPn origin base_ labelN fromN labels = some (dest, origin', t'))
    (rs : List Bool) : Weathers Stops t t' (fun t => (dest, origin', t)) rs
      ((t.supply rs).relocate flag toPn origin base_ labelN fromN labels) := by
  cases labels with
  | nil => cases run
  | cons first rest =>
    rw [relocate_eq] at run ⊢
    obtain ⟨⟨e, t1⟩, found, tail⟩ := Option.bind_eq_some_iff.mp run
    refine (placeFor_weathers free found rs).bind (fun short => ?_) (fun rs => ?_)
    · cases place : (t.supply rs).placeFor first rest with
      | none => rfl
      | some r =>
        obtain ⟨settled, behind⟩ := short r.1 r.2 place
        exact relocateAt_short settled behind
    · obtain ⟨e', t2, found', _, _, fits, _⟩ := placeFor_spec free first rest
      obtain ⟨rfl, rfl⟩ := Prod.ext_iff.mp (Option.some.inj (found'.symm.trans found))
      have settled : 0 ≤ e' := by have := fits.1.1; omega
      exact weathers_third (f := fun u => u.relocateAt _ flag toPn origin base_
        labelN fromN first rest) tail (fun g c => relocateAt_unseen c _ settled) rs

theorem resolve_weathers (free : Free t) {baseN : Int}
    (run : t.resolve fromN baseN labelN = some (dest, origin', t')) (rs : List Bool) :
    Weathers Stops t t' (fun t => (dest, origin', t)) rs ((t.supply rs).resolve fromN baseN labelN) := by
  have c := unseen_arm rs t.capacity
  obtain ⟨n, readN, run⟩ := Option.bind_eq_some_iff.mp run
  obtain ⟨p, readP, run⟩ := Option.bind_eq_some_iff.mp run
  obtain ⟨infoN, childN, run⟩ := Option.bind_eq_some_iff.mp run
  obtain ⟨infoP, childP, run⟩ := Option.bind_eq_some_iff.mp run
  obtain ⟨own, consulted, run⟩ := Option.bind_eq_some_iff.mp run
  have consulted' := (c.consult t baseN p.base 256 infoN.child infoP.child).trans consulted
  have reads : ∀ r, (if own then do
        let labels ← (t.supply rs).setChild baseN infoN.child (some labelN)
        (t.supply rs).relocate true (xorByte baseN labelN) fromN baseN labelN fromN labels
      else do
        let labels ← (t.supply rs).setChild p.base infoP.child none
        (t.supply rs).relocate false (xorByte baseN labelN) n.check p.base labelN fromN labels) = r →
      (t.supply rs).resolve fromN baseN labelN = r := fun r rest => by
    refine bind_run readN ?_
    refine bind_run readP ?_
    refine bind_run childN ?_
    refine bind_run childP ?_
    exact bind_run consulted' rest
  rw [reads _ rfl]
  cases own with
  | true =>
    obtain ⟨labels, listed, run⟩ := Option.bind_eq_some_iff.mp run
    have listed' := (c.setChild t baseN infoN.child (some labelN)).trans listed
    rw [if_pos rfl, show (t.supply rs).setChild _ _ _ = _ from listed']
    exact relocate_weathers free run rs
  | false =>
    obtain ⟨labels, listed, run⟩ := Option.bind_eq_some_iff.mp run
    have listed' := (c.setChild t p.base infoP.child none).trans listed
    rw [if_neg Bool.false_ne_true, show (t.supply rs).setChild _ _ _ = _ from listed']
    exact relocate_weathers free run rs

end

theorem follow_weathers {dest origin' : Int} (free : Free t)
    (run : t.follow origin label = some (dest, origin', t'))
    (rs : List Bool) : Weathers Stops t t' (fun t => (dest, origin', t)) rs
    ((t.supply rs).follow origin label) := by
  obtain ⟨n, readN, run⟩ := Option.bind_eq_some_iff.mp run
  have down : ∀ r, (if n.base < 0 then (t.supply rs).addChild origin n.base label else do
        let m ← (t.supply rs).nodeAt (xorByte n.base label)
        if m.check < 0 then (t.supply rs).addChild origin n.base label
        else if m.check ≠ origin then (t.supply rs).resolve origin n.base label
        else some (xorByte n.base label, origin, t.supply rs)) = r →
      (t.supply rs).follow origin label = r := fun r rest => bind_run readN rest
  rw [down _ rfl]
  split at run
  · rename_i bare
    rw [if_pos bare]
    exact addChild_weathers free.sized run rs
  rename_i settled
  obtain ⟨m, readM, run⟩ := Option.bind_eq_some_iff.mp run
  rw [if_neg settled, show (t.supply rs).nodeAt _ = _ from readM, Option.bind_eq_bind, Option.bind_some]
  split at run
  · rename_i empty
    rw [if_pos empty]
    exact addChild_weathers free.sized run rs
  rename_i taken
  rw [if_neg taken]
  split at run
  · rename_i other
    rw [if_pos other]
    exact resolve_weathers free run rs
  · rename_i own
    rw [if_neg own]
    obtain ⟨rfl, same⟩ := Prod.ext_iff.mp (Option.some.inj run)
    obtain ⟨rfl, rfl⟩ := Prod.ext_iff.mp same
    exact weathers_third (f := fun u => some (_, _, u)) rfl (fun _ _ => rfl) rs

theorem stops_bind {x : Option ρ} {f : ρ → Option τ} (stops : Stops x) : Stops (x >>= f) := by
  rw [Stops] at stops ⊢
  rw [stops]
  rfl

theorem followAll_weathers {dest : Int} (inserting : Inserting t T loc w) (proper : 0 ∉ labels)
    (run : t.followAll (loc w) labels = some (dest, t')) (rs : List Bool) :
    Weathers Stops t t' (fun t => (dest, t)) rs ((t.supply rs).followAll (loc w) labels) := by
  induction labels generalizing t T loc w rs with
  | nil =>
    obtain ⟨rfl, rfl⟩ := Prod.ext_iff.mp (Option.some.inj run)
    exact weathers_still (f := fun u => some (_, u)) rfl (fun _ _ => rfl)
      (fun _ _ h => (Prod.ext_iff.mp h).2) rs
  | cons c rest ih =>
    obtain ⟨first, later⟩ := not_or.mp (mt List.mem_cons.mpr proper)
    obtain ⟨loc1, t1, run1, free1, rep1, shape1, live1, mem1⟩ :=
      follow_step inserting.free inserting.shape
      inserting.live inserting.rep inserting.mem inserting.inner (Ne.symm first)
    obtain ⟨r, run1', run2⟩ := Option.bind_eq_some_iff.mp run
    obtain rfl := Option.some.inj (run1.symm.trans run1')
    exact (follow_weathers inserting.free run1 rs).bind stops_bind fun rs =>
      ih ⟨free1, shape1, live1, rep1, mem1, Ne.symm first⟩ later run2 rs

def putValue (t : Trie) (dest v : Int) : Option (Int × Trie) := do
  let n ← t.nodeAt dest
  let t ← t.writeBase dest v
  some (n.base, t)

theorem update_eq (v : Int) (some : key ≠ []) : t.update key v =
    t.followAll 0 (encode key) >>= fun r => r.2.follow r.1 0 >>= fun r => r.2.2.putValue r.1 v := by
  rw [update_follows t key v some, followAll_append]
  simp only [followAll, putValue, Option.bind_eq_bind, Option.bind_assoc, Option.bind_some]

theorem update_weathers {a v : Int} (good : Good t T) (some : key ≠ [])
    (run : t.update key v = Option.some (a, t'))
    (rs : List Bool) : Weathers Stops t t' (fun t => (a, t)) rs ((t.supply rs).update key v) := by
  obtain ⟨loc, rep⟩ := good.rep
  have start : Inserting t T loc [] :=
    ⟨good.free, good.shape, good.live.mono (fun _ => False.elim), rep, trivial, id⟩
  obtain ⟨loc1, t1, T1, run1, inserting1⟩ := followAll_spec start (zero_not_encode key)
  have weathers := followAll_weathers start (zero_not_encode key) run1
  rw [rep.root] at run1 weathers
  rw [update_eq v some] at run ⊢
  obtain ⟨r1, run1', run⟩ := Option.bind_eq_some_iff.mp run
  obtain rfl := Option.some.inj (run1.symm.trans run1')
  obtain ⟨⟨dest, origin', t2⟩, run2, run3⟩ := Option.bind_eq_some_iff.mp run
  refine (weathers rs).bind stops_bind fun rs => ?_
  refine (follow_weathers inserting1.free run2 rs).bind stops_bind fun rs => ?_
  refine weathers_still (f := fun u => u.putValue dest v) run3 (fun rs cap => ?_)
    (fun _ _ h => (Prod.ext_iff.mp h).2) rs
  have c := unseen_arm rs cap
  have commutes : (t2.arm rs cap).putValue dest v = onTrie (fun t => t.arm rs cap)
    (t2.putValue dest v) := by
    simp [putValue, onTrie, c.nodeAt, c.writeBase, Option.map_bind, Option.bind_map]
  rw [commutes, run3]
  rfl

theorem call_weathers {c : Call} {a : Int} (good : Good t T) (proper : c.key ≠ [])
    (run : t.call c = some (a, t'))
    (rs : List Bool) : Weathers Stops t t' (fun t => (a, t)) rs ((t.supply rs).call c) := by
  cases c with
  | update key v => exact update_weathers good proper run rs
  | erase key =>
    refine weathers_still (f := fun u => u.erase key) run (fun rs cap => ?_)
      (fun _ _ h => (Prod.ext_iff.mp h).2) rs
    rw [(unseen_arm rs cap).erase, show t.erase key = _ from run]
    rfl

theorem calls_weathers {calls : List Call} {answers : List Int} (good : Good t T) (models : Models T m)
    (nonneg : ∀ key x, m key = some x → 0 ≤ x) (valid : ∀ c ∈ calls, c.Valid) (roomy : m.RoomyRun calls)
    (run : t.calls calls = some (answers, t')) (rs : List Bool) :
    Weathers Stops t t' (fun t => (answers, t)) rs ((t.supply rs).calls calls) := by
  induction calls generalizing t T m answers rs with
  | nil =>
    obtain ⟨rfl, rfl⟩ := Prod.ext_iff.mp (Option.some.inj run)
    exact weathers_still (f := fun u => some (_, u)) rfl (fun _ _ => rfl)
      (fun _ _ h => (Prod.ext_iff.mp h).2) rs
  | cons c rest ih =>
    have first := valid c List.mem_cons_self
    obtain ⟨a, t1, T1, run1, good1, models1, _⟩ := call_spec good models first.proper roomy.1
    rw [Entries.kept, if_neg (not_refused nonneg c)] at models1
    obtain ⟨r1, run1', run2⟩ := Option.bind_eq_some_iff.mp run
    obtain rfl := Option.some.inj (run1.symm.trans run1')
    obtain ⟨⟨l, t2⟩, run3, same⟩ := Option.bind_eq_some_iff.mp run2
    obtain ⟨rfl, rfl⟩ := Prod.ext_iff.mp (Option.some.inj same)
    refine (call_weathers good first.proper run1 rs).bind stops_bind fun rs => ?_
    refine (ih good1 models1 (nonneg_apply nonneg first)
      (fun d hd => valid d (List.mem_cons_of_mem c hd)) roomy.2
      run3 rs).bind stops_bind fun rs => ?_
    exact weathers_still (f := fun u => some (a :: l, u)) rfl (fun _ _ => rfl)
      (fun _ _ h => (Prod.ext_iff.mp h).2) rs

end
end Trie
end EtdbTrie
