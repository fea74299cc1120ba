import Etdb.Trie.Operations

/- etdb_store_follow against etdb_trie_follow, with every page access an access to an array.
   The helpers are the trie's, rewritten so that the pages are fetched before anything is
   written; etdb_store_resolve has its body commented out, and so has no answer. -/
namespace EtdbStore
open EtdbTrie ByteXor

/-- The part of etdb_store_t that etdb_store_follow uses; none is an index outside the files. -/
structure Paged where
  node : Int → Option Node
  ninfo : Int → Option Ninfo
  block : Int → Option Block
  blockHeadFull : Int
  blockHeadClose : Int
  blockHeadOpen : Int

namespace Paged

def head (s : Paged) : BlockList → Int
  | .full => s.blockHeadFull
  | .close => s.blockHeadClose
  | .opened => s.blockHeadOpen

def setHead (s : Paged) : BlockList → Int → Paged
  | .full, v => { s with blockHeadFull := v }
  | .close, v => { s with blockHeadClose := v }
  | .opened, v => { s with blockHeadOpen := v }

def modifyNode (s : Paged) (i : Int) (f : Node → Node) : Option Paged :=
  (s.node i).map fun n => { s with node := Function.update s.node i (some (f n)) }
def modifyNinfo (s : Paged) (i : Int) (f : Ninfo → Ninfo) : Option Paged :=
  (s.ninfo i).map fun n => { s with ninfo := Function.update s.ninfo i (some (f n)) }
def modifyBlock (s : Paged) (b : Int) (f : Block → Block) : Option Paged :=
  (s.block b).map fun v => { s with block := Function.update s.block b (some (f v)) }

def popBlock (s : Paged) (bi : Int) (headIn : BlockList) (last : Bool) : Option Paged :=
  if last then some (s.setHead headIn 0)
  else do
    let b ← s.block bi
    let prev := b.prev
    let next := b.next
    let _ ← s.block prev
    let _ ← s.block next
    let s ← s.modifyBlock prev fun v => { v with next := b.next }
    let b ← s.block bi
    let s ← s.modifyBlock next fun v => { v with prev := b.prev }
    let b ← s.block bi
    some (if bi = s.head headIn then s.setHead headIn b.next else s)

def pushBlock (s : Paged) (bi : Int) (headOut : BlockList) (empty : Bool) : Option Paged := do
  let _ ← s.block bi
  if empty then do
    let s ← s.modifyBlock bi fun v => { v with prev := bi, next := bi }
    some (s.setHead headOut bi)
  else do
    let head := s.head headOut
    let blockHead ← s.block head
    let prev := blockHead.prev
    let _ ← s.block prev
    let s ← s.modifyBlock bi fun v => { v with prev := blockHead.prev, next := head }
    let s ← s.modifyBlock prev fun v => { v with next := bi }
    let s ← s.modifyBlock head fun v => { v with prev := bi }
    some (s.setHead headOut bi)

def transferBlock (s : Paged) (bi : Int) (headIn headOut : BlockList) : Option Paged := do
  let b ← s.block bi
  let s ← s.popBlock bi headIn (bi = b.next)
  let b ← s.block bi
  s.pushBlock bi headOut (s.head headOut = 0 && b.num ≠ 0)

/-- etdb_store_find_place. With neither list it asks etdb_store_alloc_block, which ends
    without a return. -/
def findPlace (s : Paged) : Option Int :=
  if s.blockHeadClose ≠ 0 then do
    let b ← s.block s.blockHeadClose
    some b.ehead
  else if s.blockHeadOpen ≠ 0 then do
    let b ← s.block s.blockHeadOpen
    some b.ehead
  else none

/-- The part of etdb_store_pop_empty_node that unlinks the cell `e`. -/
def unlinkEmpty (s : Paged) (e : Int) : Option Paged := do
  let bi := e / 256
  let n ← s.node e
  let s ← s.modifyBlock bi fun b => { b with num := b.num - 1 }
  let b ← s.block bi
  if b.num = 0 ∧ bi ≠ 0 then s.transferBlock bi .close .full
  else do
    let prev := -n.base
    let next := -n.check
    let _ ← s.node prev
    let _ ← s.node next
    let s ← s.modifyNode prev fun v => { v with check := n.check }
    let n ← s.node e
    let s ← s.modifyNode next fun v => { v with base := n.base }
    let n ← s.node e
    let s ← if e = b.ehead then s.modifyBlock bi fun b => { b with ehead := -n.check } else some s
    if bi ≠ 0 ∧ b.num = 1 ∧ b.trial ≠ maxTrial then s.transferBlock bi .opened .close else some s

def takeEmpty (s : Paged) (e : Int) (label : UInt8) (origin : Int) : Option Paged := do
  let s ← s.unlinkEmpty e
  let s ← s.modifyNode e fun n => { n with base := if label ≠ 0 then -1 else 0 }
  s.modifyNode e fun n => { n with check := origin }

def popEmptyNode (s : Paged) (base : Int) (label : UInt8) (origin : Int) : Option (Int × Paged) :=
  if base < 0 then do
    let e ← s.findPlace
    let s ← s.takeEmpty e label origin
    let s ← s.modifyNode origin fun n => { n with base := xorByte e label }
    some (e, s)
  else do
    let s ← s.takeEmpty (xorByte base label) label origin
    some (xorByte base label, s)

/-- etdb_store_push_sibling; the old sibling is written after the new one. -/
def pushSibling (s : Paged) (origin base : Int) (label : UInt8) (flag : Bool) : Option Paged := do
  let i ← s.ninfo origin
  if flag ∧ i.child = 0 then do
    let z ← s.ninfo (xorByte base i.child)
    let s ← s.modifyNinfo (xorByte base i.child) fun v => { v with sibling := label }
    s.modifyNinfo (xorByte base label) fun v => { v with sibling := z.sibling }
  else do
    let s ← s.modifyNinfo origin fun v => { v with child := label }
    s.modifyNinfo (xorByte base label) fun v => { v with sibling := i.child }

def addChild (s : Paged) (origin base : Int) (label : UInt8) : Option (Int × Int × Paged) := do
  let (dest, s) ← s.popEmptyNode base label origin
  let s ← s.pushSibling origin (xorByte dest label) label (0 ≤ base)
  some (dest, origin, s)

/-- etdb_store_resolve: a comment and the closing brace of a function that has a result. -/
def resolve (_ : Paged) (_ _ : Int) (_ : UInt8) : Option (Int × Int × Paged) := none

/-- etdb_store_follow; the pointer `from` is a result, as in the trie. -/
def follow (s : Paged) (origin : Int) (label : UInt8) : Option (Int × Int × Paged) := do
  let n ← s.node origin
  if n.base < 0 then s.addChild origin n.base label
  else do
    let m ← s.node (xorByte n.base label)
    if m.check < 0 then s.addChild origin n.base label
    else s.resolve origin n.base label

end Paged

def contents (t : Trie) : Paged :=
  ⟨t.nodeAt, t.ninfoAt, t.blockAt, t.blockHeadFull, t.blockHeadClose, t.blockHeadOpen⟩

def slot (t : Trie) (origin : Int) (label : UInt8) : Int := xorByte (t.node origin).base label

/-- A parent without children finds a cell in a listed block; otherwise the cell of the
    label is free or belongs to the parent. -/
def Ready (t : Trie) (origin : Int) (label : UInt8) : Prop :=
  (t.node origin).base < 0 ∧ (t.blockHeadClose ≠ 0 ∨ t.blockHeadOpen ≠ 0) ∨
  0 ≤ (t.node origin).base ∧ ((t.node (slot t origin label)).check < 0 ∨
  (t.node (slot t origin label)).check = origin)

/-- The same node and the same contents, or a bad access in both. -/
def Agrees (s : Paged) (t : Trie) (origin : Int) (label : UInt8) : Prop :=
  s.follow origin label = (t.follow origin label).map fun (dest, origin', t') =>
  (dest, origin', contents t')

/-- The child is new, and label 0 does not come to a chain that starts with 0 and goes on. -/
def Attaches (t : Trie) (origin : Int) (label : UInt8) : Prop :=
  (t.node origin).base < 0 ∨ (t.node (slot t origin label)).check < 0 ∧
    (label = 0 → (t.ninfo origin).child = 0 → (t.ninfo (slot t origin label)).sibling = 0)

instance (t : Trie) (origin : Int) (label : UInt8) : Decidable (Ready t origin label) :=
  inferInstanceAs (Decidable (_ ∧ _ ∨ _ ∧ _))
instance (t : Trie) (origin : Int) (label : UInt8) : Decidable (Attaches t origin label) :=
  inferInstanceAs (Decidable (_ ∨ _ ∧ _))

section
variable {t t' : Trie} {s : Paged} {i c e bi base origin dest : Int} {k kIn kOut : BlockList}
    {label : UInt8}

@[simp] theorem head_contents (k : BlockList) : (contents t).head k = t.head k := by cases k <;> rfl

theorem setHead_contents (k : BlockList) (v : Int) :
    (contents t).setHead k v = contents (t.setHead k v) := by
  cases k <;> rfl

theorem setHead_ninfo (k : BlockList) (v : Int) : (t.setHead k v).ninfo = t.ninfo := by cases k <;> rfl

theorem modifyNode_inverse {f : Node → Node} (run : t.modifyNode i f = some t') :
    t.InNode i ∧ t' = t.setNode i (f (t.node i)) := by
  by_cases inside : t.InNode i
  · rw [Trie.modifyNode_inside inside] at run
    exact ⟨inside, (Option.some.inj run).symm⟩
  · simp [Trie.modifyNode, Trie.nodeAt, inside] at run

theorem modifyNinfo_inverse {f : Ninfo → Ninfo} (run : t.modifyNinfo i f = some t') :
    t.InNinfo i ∧ t' = t.setNinfo i (f (t.ninfo i)) := by
  by_cases inside : t.InNinfo i
  · rw [Trie.modifyNinfo_inside inside] at run
    exact ⟨inside, (Option.some.inj run).symm⟩
  · simp [Trie.modifyNinfo, Trie.ninfoAt, inside] at run

theorem modifyBlock_inverse {f : Block → Block} (run : t.modifyBlock c f = some t') :
    t.InBlock c ∧ t' = t.setBlock c (f (t.block c)) := by
  by_cases inside : t.InBlock c
  · rw [Trie.modifyBlock_inside inside] at run
    exact ⟨inside, (Option.some.inj run).symm⟩
  · simp [Trie.modifyBlock, Trie.blockAt, inside] at run

theorem nodeAt_inverse {n : Node} (read : t.nodeAt i = some n) : t.InNode i ∧ n = t.node i := by
  by_cases inside : t.InNode i
  · rw [Trie.nodeAt_inside inside] at read
    exact ⟨inside, (Option.some.inj read).symm⟩
  · simp [Trie.nodeAt, inside] at read

theorem ninfoAt_inverse {n : Ninfo} (read : t.ninfoAt i = some n) : t.InNinfo i ∧ n = t.ninfo i := by
  by_cases inside : t.InNinfo i
  · rw [Trie.ninfoAt_inside inside] at read
    exact ⟨inside, (Option.some.inj read).symm⟩
  · simp [Trie.ninfoAt, inside] at read

theorem blockAt_inverse {b : Block} (read : t.blockAt c = some b) : t.InBlock c ∧ b = t.block c := by
  by_cases inside : t.InBlock c
  · rw [Trie.blockAt_inside inside] at read
    exact ⟨inside, (Option.some.inj read).symm⟩
  · simp [Trie.blockAt, inside] at read

theorem modifyNode_same {f : Node → Node} (inside : t.InNode i) :
    (contents t).modifyNode i f = some (contents (t.setNode i (f (t.node i)))) := by
  have read : (contents t).node i = some (t.node i) := Trie.nodeAt_inside inside
  rw [Paged.modifyNode, read]
  refine congrArg some ?_
  simp only [contents, Paged.mk.injEq]
  refine ⟨funext fun j => ?_, rfl, rfl, rfl, rfl, rfl⟩
  by_cases here : j = i
  · subst here
    rw [Function.update_self]
    exact ((Trie.nodeAt_inside (t := t.setNode j _) inside).trans (by simp [Trie.setNode])).symm
  · rw [Function.update_of_ne here]
    simp only [Trie.nodeAt, Trie.setNode, Function.update_of_ne here]
    rfl

theorem modifyNinfo_same {f : Ninfo → Ninfo} (inside : t.InNinfo i) :
    (contents t).modifyNinfo i f = some (contents (t.setNinfo i (f (t.ninfo i)))) := by
  have read : (contents t).ninfo i = some (t.ninfo i) := Trie.ninfoAt_inside inside
  rw [Paged.modifyNinfo, read]
  refine congrArg some ?_
  simp only [contents, Paged.mk.injEq]
  refine ⟨rfl, funext fun j => ?_, rfl, rfl, rfl, rfl⟩
  by_cases here : j = i
  · subst here
    rw [Function.update_self]
    exact ((Trie.ninfoAt_inside (t := t.setNinfo j _) inside).trans (by simp [Trie.setNinfo])).symm
  · rw [Function.update_of_ne here]
    simp only [Trie.ninfoAt, Trie.setNinfo, Function.update_of_ne here]
    rfl

theorem modifyBlock_same {f : Block → Block} (inside : t.InBlock c) :
    (contents t).modifyBlock c f = some (contents (t.setBlock c (f (t.block c)))) := by
  have read : (contents t).block c = some (t.block c) := Trie.blockAt_inside inside
  rw [Paged.modifyBlock, read]
  refine congrArg some ?_
  simp only [contents, Paged.mk.injEq]
  refine ⟨rfl, rfl, funext fun j => ?_, rfl, rfl, rfl⟩
  by_cases here : j = c
  · subst here
    rw [Function.update_self]
    exact ((Trie.blockAt_inside (t := t.setBlock j _) inside).trans (by simp [Trie.setBlock])).symm
  · rw [Function.update_of_ne here]
    simp only [Trie.blockAt, Trie.setBlock, Function.update_of_ne here]
    rfl

theorem popBlock_same {last : Bool} (run : t.popBlock bi k last = some t') :
    (contents t).popBlock bi k last = some (contents t') ∧ t'.ninfo = t.ninfo := by
  cases last with
  | true =>
    obtain rfl := Option.some.inj run
    exact ⟨congrArg some (setHead_contents k 0), setHead_ninfo k 0⟩
  | false =>
    simp only [Trie.popBlock, Bool.false_eq_true, if_false, Option.bind_eq_bind,
      Option.bind_eq_some_iff] at run
    obtain ⟨b, read, t1, first, b1, read1, t2, second, b2, read2, last⟩ := run
    obtain ⟨here, rfl⟩ := blockAt_inverse read
    obtain ⟨prevIn, rfl⟩ := modifyBlock_inverse first
    obtain ⟨_, rfl⟩ := blockAt_inverse read1
    have same1 : (t.setBlock (t.block bi).prev { t.block (t.block bi).prev with next :=
      (t.block bi).next }).block bi =
        t.block bi := by
      by_cases alone : bi = (t.block bi).prev
      · rw [← alone]
        simp [Trie.setBlock]
      · simp [Trie.setBlock, alone]
    rw [same1] at second
    obtain ⟨nextIn, rfl⟩ := modifyBlock_inverse second
    obtain ⟨_, rfl⟩ := blockAt_inverse read2
    obtain rfl := Option.some.inj last
    set t1 := t.setBlock (t.block bi).prev { t.block (t.block bi).prev with next :=
      (t.block bi).next } with first_def
    have same2 : (t1.setBlock (t.block bi).next { t1.block (t.block bi).next with prev :=
      (t.block bi).prev }).block bi =
        t.block bi := by
      rw [← same1]
      by_cases alone : bi = (t1.block bi).next
      · rw [← alone]
        simp [Trie.setBlock]
      · simp [Trie.setBlock, alone]
    refine ⟨?_, ?_⟩
    · simp only [Paged.popBlock, Bool.false_eq_true, if_false]
      refine bind_run read ?_
      refine bind_run (Trie.blockAt_inside prevIn) ?_
      refine bind_run (Trie.blockAt_inside (t := t) nextIn) ?_
      refine bind_run (modifyBlock_same prevIn) ?_
      refine bind_run (read1.trans (congrArg some same1)) ?_
      refine bind_run (modifyBlock_same nextIn) ?_
      refine bind_run (read2.trans (congrArg some same2)) ?_
      rw [head_contents, setHead_contents, same2, ← apply_ite contents]
    · split
      · rw [setHead_ninfo]
        rfl
      · rfl

theorem pushBlock_same {empty : Bool} (run : t.pushBlock bi k empty = some t') :
    (contents t).pushBlock bi k empty = some (contents t') ∧ t'.ninfo = t.ninfo := by
  cases empty with
  | true =>
    simp only [Trie.pushBlock, if_true, Option.bind_eq_bind, Option.bind_eq_some_iff] at run
    obtain ⟨t1, first, last⟩ := run
    obtain ⟨inside, rfl⟩ := modifyBlock_inverse first
    obtain rfl := Option.some.inj last
    refine ⟨?_, setHead_ninfo k bi⟩
    refine bind_run (Trie.blockAt_inside inside) ?_
    rw [if_pos rfl]
    refine bind_run (modifyBlock_same inside) ?_
    exact congrArg some (setHead_contents k bi)
  | false =>
    simp only [Trie.pushBlock, Bool.false_eq_true, if_false, Option.bind_eq_bind,
      Option.bind_eq_some_iff] at run
    obtain ⟨tail, read, t1, first, tail1, read1, t2, second, t3, third, last⟩ := run
    obtain ⟨headIn, rfl⟩ := blockAt_inverse read
    obtain ⟨inside, rfl⟩ := modifyBlock_inverse first
    obtain ⟨_, rfl⟩ := blockAt_inverse read1
    have same1 : ((t.setBlock bi { t.block bi with prev := (t.block (t.head k)).prev, next := t.head k }).block
        (t.head k)).prev = (t.block (t.head k)).prev := by
      by_cases alone : t.head k = bi
      · rw [← alone]
        simp [Trie.setBlock]
      · simp [Trie.setBlock, alone]
    rw [same1] at second
    obtain ⟨prevIn, rfl⟩ := modifyBlock_inverse second
    obtain ⟨headIn', rfl⟩ := modifyBlock_inverse third
    obtain rfl := Option.some.inj last
    refine ⟨?_, setHead_ninfo k bi⟩
    refine bind_run (Trie.blockAt_inside inside) ?_
    rw [if_neg (by decide), head_contents]
    refine bind_run (Trie.blockAt_inside headIn) ?_
    refine bind_run (Trie.blockAt_inside (t := t) prevIn) ?_
    refine bind_run (modifyBlock_same inside) ?_
    refine bind_run (modifyBlock_same prevIn) ?_
    refine bind_run (modifyBlock_same headIn') ?_
    exact congrArg some (setHead_contents k bi)

theorem transferBlock_same (run : t.transferBlock bi kIn kOut = some t') :
    (contents t).transferBlock bi kIn kOut = some (contents t') ∧ t'.ninfo = t.ninfo := by
  simp only [Trie.transferBlock, Option.bind_eq_bind, Option.bind_eq_some_iff] at run
  obtain ⟨b, read, t1, pop, b1, read1, push⟩ := run
  obtain ⟨popped, keep⟩ := popBlock_same pop
  obtain ⟨pushed, keep'⟩ := pushBlock_same push
  refine ⟨?_, keep'.trans keep⟩
  refine bind_run read ?_
  refine bind_run popped ?_
  refine bind_run read1 ?_
  rw [head_contents]
  exact pushed

theorem findPlace_same (listed : t.blockHeadClose ≠ 0 ∨ t.blockHeadOpen ≠ 0)
    (run : t.findPlace = some (e, t')) : t' = t ∧ (contents t).findPlace = some e := by
  by_cases close : t.blockHeadClose ≠ 0
  · rw [Trie.findPlace, if_pos close] at run
    obtain ⟨b, read, found⟩ := Option.bind_eq_some_iff.mp run
    cases found
    refine ⟨rfl, (if_pos close).trans ?_⟩
    exact bind_run read rfl
  · have opened := listed.resolve_left close
    rw [Trie.findPlace, if_neg close, if_pos opened] at run
    obtain ⟨b, read, found⟩ := Option.bind_eq_some_iff.mp run
    cases found
    refine ⟨rfl, (if_neg close).trans ((if_pos opened).trans ?_)⟩
    exact bind_run read rfl

/- A cell that is its own neighbour gets its own link back. -/

theorem setNode_check (t : Trie) (e i : Int) :
    (t.setNode i { t.node i with check := (t.node e).check }).node e = t.node e := by
  by_cases alone : e = i
  · subst alone
    simp [Trie.setNode]
  · simp [Trie.setNode, alone]

theorem setNode_base (t : Trie) (e i : Int) :
    (t.setNode i { t.node i with base := (t.node e).base }).node e = t.node e := by
  by_cases alone : e = i
  · subst alone
    simp [Trie.setNode]
  · simp [Trie.setNode, alone]

theorem unlinkEmpty_same (run : t.unlinkEmpty e = some t') :
    (contents t).unlinkEmpty e = some (contents t') ∧ t'.ninfo = t.ninfo := by
  simp only [Trie.unlinkEmpty, Option.bind_eq_bind, Option.bind_eq_some_iff] at run
  obtain ⟨n, read, t1, count, b, readB, rest⟩ := run
  obtain ⟨countIn, rfl⟩ := modifyBlock_inverse count
  by_cases full : b.num = 0 ∧ e / 256 ≠ 0
  · rw [if_pos full] at rest
    obtain ⟨moved, keep⟩ := transferBlock_same rest
    refine ⟨?_, keep⟩
    refine bind_run read ?_
    refine bind_run (modifyBlock_same countIn) ?_
    refine bind_run readB ?_
    rw [if_pos full]
    exact moved
  · rw [if_neg full, Option.bind_eq_some_iff] at rest
    obtain ⟨t2, first, rest⟩ := rest
    obtain ⟨n1, read1, rest⟩ := Option.bind_eq_some_iff.mp rest
    obtain ⟨t3, second, rest⟩ := Option.bind_eq_some_iff.mp rest
    obtain ⟨n2, read2, rest⟩ := Option.bind_eq_some_iff.mp rest
    obtain ⟨_, rfl⟩ := nodeAt_inverse read
    obtain ⟨prevIn, rfl⟩ := modifyNode_inverse first
    obtain ⟨_, rfl⟩ := nodeAt_inverse read1
    set t1 := t.setBlock (e / 256) { t.block (e / 256) with num := (t.block (e / 256)).num - 1 }
    set t2 := t1.setNode (-(t.node e).base) { t1.node (-(t.node e).base) with check := (t.node e).check }
    have same1 : t2.node e = t.node e := setNode_check t1 e _
    rw [same1] at second
    obtain ⟨nextIn, rfl⟩ := modifyNode_inverse second
    obtain ⟨_, rfl⟩ := nodeAt_inverse read2
    set t3 := t2.setNode (-(t.node e).check) { t2.node (-(t.node e).check) with base := (t.node e).base }
    have same2 : t3.node e = t.node e := by
      dsimp only [t3]
      rw [← same1, setNode_base]
    rw [same2] at rest
    obtain ⟨t4, turned, keep, rest⟩ : ∃ t4,
      (if e = b.ehead then (contents t3).modifyBlock (e / 256) (fun b =>
          { b with ehead := -(t.node e).check }) else some (contents t3)) = some (contents t4) ∧
            t4.ninfo = t3.ninfo ∧
        (if e / 256 ≠ 0 ∧ b.num = 1 ∧ b.trial ≠ maxTrial then t4.transferBlock (e / 256) .opened .close
          else some t4) = some t' := by
      by_cases turn : e = b.ehead
      · rw [if_pos turn] at rest
        obtain ⟨t4, third, rest⟩ := Option.bind_eq_some_iff.mp rest
        obtain ⟨turnIn, rfl⟩ := modifyBlock_inverse third
        exact ⟨_, (if_pos turn).trans (modifyBlock_same turnIn), rfl, rest⟩
      · rw [if_neg turn] at rest
        exact ⟨t3, if_neg turn, rfl, rest⟩
    have linked : (contents t).unlinkEmpty e =
        if e / 256 ≠ 0 ∧ b.num = 1 ∧ b.trial ≠ maxTrial then (contents t4).transferBlock
        (e / 256) .opened .close
        else some (contents t4) := by
      refine bind_run read ?_
      refine bind_run (modifyBlock_same countIn) ?_
      refine bind_run readB ?_
      rw [if_neg full]
      refine bind_run (Trie.nodeAt_inside (t := t1) prevIn) ?_
      refine bind_run (Trie.nodeAt_inside (t := t1) nextIn) ?_
      refine bind_run (modifyNode_same prevIn) ?_
      refine bind_run (read1.trans (congrArg some same1)) ?_
      refine bind_run (modifyNode_same nextIn) ?_
      refine bind_run (read2.trans (congrArg some same2)) ?_
      by_cases turn : e = b.ehead
      · rw [if_pos turn] at turned ⊢
        exact bind_run turned rfl
      · rw [if_neg turn] at turned ⊢
        exact bind_run turned rfl
    rw [linked]
    by_cases move : e / 256 ≠ 0 ∧ b.num = 1 ∧ b.trial ≠ maxTrial
    · rw [if_pos move] at rest ⊢
      obtain ⟨moved, keep'⟩ := transferBlock_same rest
      exact ⟨moved, keep'.trans keep⟩
    · rw [if_neg move] at rest ⊢
      obtain rfl := Option.some.inj rest
      exact ⟨rfl, keep⟩

theorem takeEmpty_same (run : t.takeEmpty e label origin = some t') :
    (contents t).takeEmpty e label origin = some (contents t') ∧ t'.ninfo = t.ninfo := by
  simp only [Trie.takeEmpty, Option.bind_eq_bind, Option.bind_eq_some_iff] at run
  obtain ⟨t1, unlink, t2, first, second⟩ := run
  obtain ⟨unlinked, keep⟩ := unlinkEmpty_same unlink
  obtain ⟨inside, rfl⟩ := modifyNode_inverse first
  obtain ⟨inside', rfl⟩ := modifyNode_inverse second
  refine ⟨?_, keep⟩
  refine bind_run unlinked ?_
  refine bind_run (modifyNode_same inside) ?_
  exact modifyNode_same inside'

theorem popEmptyNode_same (listed : base < 0 → t.blockHeadClose ≠ 0 ∨ t.blockHeadOpen ≠ 0)
    (run : t.popEmptyNode base label origin = some (dest, t')) :
    (contents t).popEmptyNode base label origin = some (dest, contents t') ∧ t'.ninfo = t.ninfo ∧
      (0 ≤ base → dest = xorByte base label) := by
  by_cases first : base < 0
  · rw [Trie.popEmptyNode, if_pos first] at run
    simp only [Option.bind_eq_bind, Option.bind_eq_some_iff] at run
    obtain ⟨⟨e, t0⟩, place, t1, take, t2, write, done⟩ := run
    obtain ⟨rfl, found⟩ := findPlace_same (listed first) place
    obtain ⟨taken, keep⟩ := takeEmpty_same take
    obtain ⟨inside, rfl⟩ := modifyNode_inverse write
    cases done
    refine ⟨(if_pos first).trans ?_, keep, by omega⟩
    refine bind_run found ?_
    refine bind_run taken ?_
    exact bind_run (modifyNode_same inside) rfl
  · rw [Trie.popEmptyNode, if_neg first] at run
    simp only [Option.bind_eq_bind, Option.bind_eq_some_iff] at run
    obtain ⟨t1, take, done⟩ := run
    obtain ⟨taken, keep⟩ := takeEmpty_same take
    cases done
    exact ⟨(if_neg first).trans (bind_run taken rfl), keep, fun _ => rfl⟩

/-- Both write the same two fields, in the other order; with label 0 behind a chain that
    starts with 0 they are one field. -/
theorem pushSibling_same {flag : Bool} (run : t.pushSibling origin base label flag = some t') :
    (contents t).pushSibling origin base label flag = some (contents t') ↔
      (flag = true → label = 0 → (t.ninfo origin).child = 0 →
      (t.ninfo (xorByte base label)).sibling = 0) := by
  obtain ⟨i, read, rest⟩ := Option.bind_eq_some_iff.mp run
  obtain ⟨originIn, rfl⟩ := ninfoAt_inverse read
  by_cases behind : flag = true ∧ (t.ninfo origin).child = 0
  · rw [if_pos behind, behind.2, xorByte_zero] at rest
    obtain ⟨z, readZ, rest⟩ := Option.bind_eq_some_iff.mp rest
    obtain ⟨t1, first, second⟩ := Option.bind_eq_some_iff.mp rest
    obtain ⟨zeroIn, rfl⟩ := ninfoAt_inverse readZ
    obtain ⟨labelIn, rfl⟩ := modifyNinfo_inverse first
    obtain ⟨_, rfl⟩ := modifyNinfo_inverse second
    have ran : (contents t).pushSibling origin base label flag = some (contents
        ((t.setNinfo base { t.ninfo base with sibling := label }).setNinfo (xorByte base label)
          { (t.setNinfo base { t.ninfo base with sibling := label }).ninfo (xorByte base label) with
            sibling := (t.ninfo base).sibling })) := by
      refine bind_run read ?_
      rw [if_pos behind, behind.2, xorByte_zero]
      refine bind_run readZ ?_
      refine bind_run (modifyNinfo_same zeroIn) ?_
      exact modifyNinfo_same (t := t.setNinfo base _) labelIn
    rw [ran]
    by_cases zero : label = 0
    · subst zero
      simp only [xorByte_zero, behind.1, behind.2, forall_const]
      constructor
      · intro equal
        have cell := congrArg (fun s => (s.ninfo base).map Ninfo.sibling) (Option.some.inj equal)
        simpa [contents, Trie.ninfoAt, Trie.InNinfo, Trie.setNinfo, zeroIn.1,
          zeroIn.2.1, zeroIn.2.2] using cell
      · intro ends
        refine congrArg (fun t => some (contents t)) ?_
        simp [Trie.setNinfo, ends]
    · have other : xorByte base label ≠ base := fun same =>
        zero (xorByte_injective base label 0 (by rw [same, xorByte_zero]))
      refine ⟨fun _ _ bad => absurd bad zero, fun _ => congrArg (fun t => some (contents t)) ?_⟩
      simp [Trie.setNinfo, Function.update_comm other, other, other.symm]
  · rw [if_neg behind] at rest
    obtain ⟨t1, first, second⟩ := Option.bind_eq_some_iff.mp rest
    obtain ⟨labelIn, rfl⟩ := modifyNinfo_inverse first
    obtain ⟨_, rfl⟩ := modifyNinfo_inverse second
    have ran : (contents t).pushSibling origin base label flag = some (contents
        ((t.setNinfo origin { t.ninfo origin with child := label }).setNinfo (xorByte base label)
          { (t.setNinfo origin { t.ninfo origin with child := label }).ninfo (xorByte base label) with
            sibling := (t.ninfo origin).child })) := by
      refine bind_run read ?_
      rw [if_neg behind]
      refine bind_run (modifyNinfo_same originIn) ?_
      exact modifyNinfo_same (t := t.setNinfo origin _) labelIn
    rw [ran]
    refine ⟨fun _ flagged _ child => absurd ⟨flagged, child⟩ behind, fun _ =>
      congrArg (fun t => some (contents t)) ?_⟩
    by_cases self : xorByte base label = origin
    · simp [Trie.setNinfo, self]
    · simp [Trie.setNinfo, Function.update_comm self, self, Ne.symm self]

theorem addChild_same {origin' : Int} (listed : base < 0 → t.blockHeadClose ≠ 0 ∨ t.blockHeadOpen ≠ 0)
    (run : t.addChild origin base label = some (dest, origin', t')) :
    (contents t).addChild origin base label = some (dest, origin', contents t') ↔
      (0 ≤ base → label = 0 → (t.ninfo origin).child = 0 →
      (t.ninfo (xorByte base label)).sibling = 0) := by
  obtain ⟨⟨e, t1⟩, pop, rest⟩ := Option.bind_eq_some_iff.mp run
  obtain ⟨t2, push, done⟩ := Option.bind_eq_some_iff.mp rest
  cases done
  obtain ⟨popped, keep, place⟩ := popEmptyNode_same listed pop
  have ran : (contents t).addChild origin base label =
      ((contents t1).pushSibling origin (xorByte dest label) label (0 ≤ base)).bind fun s =>
      some (dest, origin, s) :=
    bind_run popped rfl
  have pushed := pushSibling_same push
  rw [xorByte_cancel, keep, decide_eq_true_iff] at pushed
  have whole : (contents t).addChild origin base label = some (dest, origin, contents t') ↔
      (contents t1).pushSibling origin (xorByte dest label) label (0 ≤ base) = some (contents t') := by
    rw [ran, Option.bind_eq_some_iff]
    constructor
    · rintro ⟨s, here, same⟩
      cases same
      exact here
    · intro here
      exact ⟨_, here, rfl⟩
  rw [whole, pushed]
  constructor
  · intro ends high
    rw [← place high]
    exact ends high
  · intro ends high
    rw [place high]
    exact ends high

/-- For a parent that may take the label, the two agree exactly when the child is new and
    its label does not meet a chain through 0; the store gives no answer for a child that
    is there already. -/
theorem store_follow_agrees (same : s = contents t) (ready : Ready t origin label)
    (runs : (t.follow origin label).isSome) : Agrees s t origin label ↔ Attaches t origin label := by
  subst same
  obtain ⟨⟨dest, origin', t'⟩, run⟩ := Option.isSome_iff_exists.mp runs
  rw [Agrees, run]
  simp only [Option.map_some]
  obtain ⟨n, read, rest⟩ := Option.bind_eq_some_iff.mp run
  obtain ⟨inside, rfl⟩ := nodeAt_inverse read
  by_cases first : (t.node origin).base < 0
  · rw [if_pos first] at rest
    have listed := ready.resolve_right (fun later => by omega)
    have ran : (contents t).follow origin label = (contents t).addChild origin (t.node origin).base
      label := bind_run read (if_pos first)
    rw [ran, addChild_same (fun _ => listed.2) rest]
    exact iff_of_true (fun high => by omega) (Or.inl first)
  · rw [if_neg first] at rest
    obtain ⟨m, look, rest⟩ := Option.bind_eq_some_iff.mp rest
    obtain ⟨slotIn, rfl⟩ := nodeAt_inverse look
    by_cases free : (t.node (xorByte (t.node origin).base label)).check < 0
    · rw [if_pos free] at rest
      have ran : (contents t).follow origin label = (contents t).addChild origin
        (t.node origin).base label :=
        bind_run read ((if_neg first).trans (bind_run look (if_pos free)))
      rw [ran, addChild_same (fun low => absurd low first) rest]
      constructor
      · intro ends
        exact Or.inr ⟨free, ends (by omega)⟩
      · rintro (low | ⟨_, ends⟩) _
        · exact absurd low first
        · exact ends
    · have ran : (contents t).follow origin label = none :=
        bind_run read ((if_neg first).trans (bind_run look (if_neg free)))
      rw [ran]
      refine iff_of_false (by simp) ?_
      rintro (low | ⟨here, _⟩)
      · exact first low
      · exact free here

end

def emptyTrie : Trie := (EtdbTrie.init []).get (by decide)

def oneChild : Trie := ((emptyTrie.follow 0 97).get (by decide +kernel)).2.2

def twoChildren : Trie := ((oneChild.follow 0 98).get (by decide +kernel)).2.2

theorem store_follow_agrees_once : Agrees (contents twoChildren) twoChildren 0 99 ∧
    ¬ Agrees (contents twoChildren) twoChildren 0 97 := by
  have fresh : Agrees (contents twoChildren) twoChildren 0 99 ↔ Attaches twoChildren 0 99 :=
    store_follow_agrees rfl (by decide +kernel) (by decide +kernel)
  have known : Agrees (contents twoChildren) twoChildren 0 97 ↔ Attaches twoChildren 0 97 :=
    store_follow_agrees rfl (by decide +kernel) (by decide +kernel)
  exact ⟨fresh.mpr (by decide +kernel), fun agrees => absurd (known.mp agrees) (by decide +kernel)⟩

theorem known_child_unanswered :
    ¬ ∀ (s : Paged) (t : Trie) (origin : Int) (label : UInt8), s = contents t →
    Ready t origin label → (t.follow origin label).isSome → Agrees s t origin label := by
  intro always
  have agrees := always (contents oneChild) oneChild 0 97 rfl (by decide +kernel) (by decide +kernel)
  have silent : ((contents oneChild).follow 0 97).isSome = false := by decide +kernel
  have served : (oneChild.follow 0 97).isSome = true := by decide +kernel
  have both := congrArg Option.isSome agrees
  rw [silent, Option.isSome_map, served] at both
  cases both

end EtdbStore
