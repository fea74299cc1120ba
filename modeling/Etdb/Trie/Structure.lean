import Etdb.Trie.Runs

/- The shape of the arrays after any sequence of calls on keys that start with one of the
   database's type heads, in terms of the arrays alone. Such keys leave most labels of
   the root unused, so that every erase finds room in block 0. -/
namespace EtdbTrie
open ByteXor ByteChain ByteTree CircularRing Trie

def typeHeads : List UInt8 := [48, 49, 50, 51, 97, 98]

def Typed (key : List UInt8) : Prop := ∃ head rest, key = head :: rest ∧ head ∈ typeHeads

namespace Trie

/-- A node that sits at its parent's base under label 0. -/
def ValueSlot (t : Trie) (i : Int) : Prop := i ≠ 0 ∧ i = xorByte (t.node (t.node i).check).base 0

def Inner (t : Trie) (i : Int) : Prop := t.Occ i ∧ ¬ t.ValueSlot i

def Child (t : Trie) (p : Int) (label : UInt8) : Prop :=
  xorByte (t.node p).base label ≠ 0 ∧ t.Occ (xorByte (t.node p).base label) ∧
    (t.node (xorByte (t.node p).base label)).check = p

/-- The labels that ninfo chains to `p`, up to the 0 that ends them. -/
def SiblingChain (t : Trie) (p : Int) (l : List UInt8) : Prop :=
  ∃ c rest, l = c :: rest ∧ (t.ninfo p).child = c ∧ Chain (t.siblingFrom (t.node p).base) c rest

/-- Going down from `i` along labels, each child pointing back to its parent. -/
def Walk (t : Trie) (i : Int) : List UInt8 → Int → Prop
  | [], j => i = j
  | c :: l, j => t.Occ (xorByte (t.node i).base c) ∧ (t.node (xorByte (t.node i).base c)).check = i ∧
      Walk t (xorByte (t.node i).base c) l j

structure EncodesTree (t : Trie) (m : Entries) : Prop where
  root : t.Inner 0
  parent : ∀ i, t.Occ i → i ≠ 0 → t.Inner (t.node i).check ∧
    ∃ label : UInt8, i = xorByte (t.node (t.node i).check).base label
  chain : ∀ p, t.Inner p → ∃ l, t.SiblingChain p l ∧ l.Nodup ∧ 0 ∉ l.tail ∧
    ∀ label, label ∈ l ↔ t.Child p label ∨ p = 0 ∧ label = 0
  value : ∀ key v, m key = some v → ∃ i, t.Walk 0 (encode key ++ [0]) i ∧ t.ValueSlot i ∧ (t.node i).base = v
  onPath : ∀ i, t.Occ i → ∃ labels, t.Walk 0 labels i ∧
    (i ≠ 0 → ∃ key, m key ≠ none ∧ labels <+: encode key ++ [0])

def ListLinked (t : Trie) (blocks : List Int) : Prop := IsRing t.nextBlock t.prevBlock blocks

structure FreeExact (t : Trie) : Prop where
  size : t.size ≤ t.capacity ∧ t.size % 256 = 0 ∧ t.capacity % 256 = 0
  ring : ∀ b, 0 ≤ b → b < t.size / 256 → ∃ l, IsRing t.nextFree t.prevFree l ∧
    (∀ i, i ∈ l ↔ (0 < i ∧ i < t.size ∧ (t.node i).check < 0) ∧ i / 256 = b) ∧
    (l ≠ [] → (t.block b).ehead ∈ l) ∧ (b ≠ 0 → (t.block b).num = l.length)
  full : ∃ l, t.ListLinked (0 :: l) ∧ t.blockHeadFull = l.headD 0 ∧
    ∀ b, b ∈ l ↔ (0 < b ∧ b < t.size / 256) ∧ (t.block b).num = 0
  opened : ∃ l, t.ListLinked l ∧ (l = [] ∧ t.blockHeadOpen = 0 ∨ t.blockHeadOpen ∈ l) ∧
    ∀ b, b ∈ l ↔ (0 < b ∧ b < t.size / 256) ∧ 2 ≤ (t.block b).num ∧ (t.block b).trial < maxTrial
  close : ∃ l, t.ListLinked l ∧ (l = [] ∧ t.blockHeadClose = 0 ∨ t.blockHeadClose ∈ l) ∧
    ∀ b, b ∈ l ↔ (0 < b ∧ b < t.size / 256) ∧ (t.block b).num ≠ 0 ∧
      ¬ (2 ≤ (t.block b).num ∧ (t.block b).trial < maxTrial)

end Trie

section
variable {t : Trie} {T : ByteTree.Tree Int} {m : Entries} {loc : Path → Int} {w : Path} {i : Int}
    {c : UInt8}
variable {key : List UInt8}

theorem Trie.Rep.slot_iff (rep : Rep t T loc Settled NoSpare) (mem : T.Mem w) :
    t.ValueSlot (loc w) ↔ Tree.Leaf w := by
  cases w with
  | nil => simp [ValueSlot, rep.root, Tree.Leaf]
  | cons c w =>
    have proper : loc (c :: w) ≠ 0 := fun zero => by
      have := (rep.loc_zero mem).mp zero
      cases this
    simp only [ValueSlot, rep.check c w mem, Tree.Leaf]
    constructor
    · rintro ⟨_, place⟩
      rw [rep.place c w mem id] at place
      exact xorByte_injective _ _ _ place
    · rintro rfl
      exact ⟨proper, rep.place 0 w mem id⟩

theorem Trie.Rep.node_of_occ (rep : Rep t T loc Settled NoSpare) (occ : t.Occ i) :
    ∃ w, T.Mem w ∧ loc w = i := ((rep.occ i).mp occ).resolve_right id

theorem Trie.walk_snoc {j : Int} {l : List UInt8} (walk : t.Walk i l j)
    (occ : t.Occ (xorByte (t.node j).base c))
    (check : (t.node (xorByte (t.node j).base c)).check = j) :
    t.Walk i (l ++ [c]) (xorByte (t.node j).base c) := by
  induction l generalizing i with
  | nil =>
    obtain rfl : i = j := walk
    exact ⟨occ, check, rfl⟩
  | cons d l ih => exact ⟨walk.1, walk.2.1, ih walk.2.2⟩

theorem Trie.Rep.walk (rep : Rep t T loc Settled NoSpare) (mem : T.Mem w) :
    t.Walk 0 w.reverse (loc w) := by
  induction w with
  | nil => exact rep.root.symm
  | cons c w ih =>
    have place := rep.place c w mem id
    have occ := rep.occ_node mem
    have check := rep.check c w mem
    rw [place] at occ check
    rw [List.reverse_cons, place]
    exact walk_snoc (ih mem.1) occ check

theorem Trie.Rep.child_iff (rep : Rep t T loc Settled NoSpare) (mem : T.Mem w) :
    t.Child (loc w) c ↔ c ∈ T.kids w := by
  constructor
  · rintro ⟨proper, occ, check⟩
    obtain ⟨u, memU, cell⟩ := rep.node_of_occ occ
    cases u with
    | nil =>
      rw [rep.root] at cell
      exact absurd cell.symm proper
    | cons q v =>
      rw [← cell, rep.check q v memU] at check
      obtain rfl := rep.inj v w memU.1 mem check
      rw [rep.place q v memU id] at cell
      rw [← xorByte_injective _ _ _ cell]
      exact memU.2
  · intro kid
    have memC : T.Mem (c :: w) := ⟨mem, kid⟩
    have proper : loc (c :: w) ≠ 0 := fun zero => by
      have := (rep.loc_zero memC).mp zero
      cases this
    rw [Child, ← rep.place c w memC id]
    exact ⟨proper, rep.occ_node memC, rep.check c w memC⟩

theorem Trie.Rep.chained (rep : Rep t T loc Settled NoSpare) (shape : T.Shape) (mem : T.Mem w)
    (settled : w = [] ∨ T.kids w ≠ []) : ∃ l, t.SiblingChain (loc w) l ∧ l.Nodup ∧ 0 ∉ l.tail ∧
      ∀ label, label ∈ l ↔ t.Child (loc w) label ∨ loc w = 0 ∧ label = 0 := by
  refine ⟨labels T w, ?_, labels_nodup shape w, labels_zeroFirst shape w, fun d => ?_⟩
  · obtain ⟨c, l, list⟩ : ∃ c l, labels T w = c :: l := by
      rcases settled with rfl | some
      · exact ⟨0, _, rfl⟩
      · exact labels_some some
    obtain ⟨first, chain⟩ := rep.chain w c l mem id list
    exact ⟨c, l, list, first, chain⟩
  · rw [rep.child_iff mem, rep.loc_zero mem]
    by_cases root : w = []
    · subst root
      simp [labels, or_comm]
    · simp [labels_proper root, root]

theorem encodesTree_of_good (good : Good t T) (models : Models T m) : t.EncodesTree m := by
  obtain ⟨loc, rep⟩ := good.rep
  have inner : ∀ w, T.Mem w → (t.Inner (loc w) ↔ ¬ Tree.Leaf w) := fun w mem => by
    rw [Trie.Inner, rep.slot_iff mem]
    exact and_iff_right (rep.occ_node mem)
  refine ⟨?_, ?_, ?_, ?_, ?_⟩
  · rw [← rep.root]
    exact (inner [] trivial).mpr id
  · intro i occ proper
    obtain ⟨w, mem, rfl⟩ := rep.node_of_occ occ
    cases w with
    | nil => exact absurd rep.root proper
    | cons c w =>
      rw [rep.check c w mem]
      exact ⟨(inner w mem.1).mpr (good.shape.no_leaf_kid mem), c, rep.place c w mem id⟩
  · intro p node
    obtain ⟨w, mem, rfl⟩ := rep.node_of_occ node.1
    have proper := (inner w mem).mp node
    exact rep.chained good.shape mem (settled_of_live good.live mem proper)
  · intro key v held
    have slot := models.slot (show m key ≠ none by simp [held])
    have value := (models.stored key).trans held
    have walk := rep.walk slot
    rw [List.reverse_cons, pathOf, List.reverse_reverse] at walk
    refine ⟨_, walk, (rep.slot_iff slot).mpr rfl, ?_⟩
    exact (rep.value _ slot).trans (Tree.stored_eq_some.mp value).2
  · intro i occ
    obtain ⟨w, mem, rfl⟩ := rep.node_of_occ occ
    refine ⟨_, rep.walk mem, fun proper => ?_⟩
    have some : w ≠ [] := by
      rintro rfl
      exact proper rep.root
    obtain ⟨q, slot, suffix⟩ := Tree.reach_slot good.live good.deep mem some
    obtain ⟨key, rfl, value⟩ := models.value slot
    refine ⟨key, by simp [value], ?_⟩
    have begins := List.reverse_prefix.mpr suffix
    rwa [List.reverse_cons, pathOf, List.reverse_reverse] at begins

theorem Trie.Free.exact (free : Free t) : t.FreeExact := by
  have sized := free.sized
  have lists := free.lists
  have kinds : ∀ b k, On t (fun b => some (kindOf (t.block b))) k b ↔
      (0 < b ∧ b < t.size / 256) ∧ kindOf (t.block b) = k := by
    intro b k
    simp only [On, Option.some.injEq, and_assoc]
  have full : ∀ v : Block, kindOf v = .full ↔ v.num = 0 := by
    intro v
    unfold kindOf
    split
    · simp [*]
    · split <;> simp [*]
  have opened : ∀ v : Block, kindOf v = .opened ↔ 2 ≤ v.num ∧ v.trial < maxTrial := by
    intro v
    unfold kindOf
    split
    · rename_i zero
      simp [zero]
    · split <;> simp [*]
  have close : ∀ v : Block, kindOf v = .close ↔ v.num ≠ 0 ∧ ¬ (2 ≤ v.num ∧ v.trial < maxTrial) := by
    intro v
    unfold kindOf
    split
    · simp [*]
    · split <;> simp [*]
  refine ⟨⟨sized.le, sized.size, sized.capacity⟩, ?_, ?_, ?_, ?_⟩
  · intro b low high
    obtain ⟨l, r⟩ := free.ring b (sized.inBlock.mpr ⟨low, high⟩)
    refine ⟨l, r.ring, r.mem, r.ehead, fun listed => ?_⟩
    rw [r.num, if_neg listed]
    simp
  · obtain ⟨l, ok⟩ := lists .full
    refine ⟨l, ok.ring, ?_, fun b => by rw [ok.mem, kinds, full]⟩
    refine (ok.full rfl).trans ?_
    cases l with
    | nil => exact (ring_single.mp ok.ring).1
    | cons x l => exact (ring_first ok.ring).1
  · obtain ⟨l, ok⟩ := lists .opened
    exact ⟨l, ok.ring, ok.head (by decide), fun b => by rw [ok.mem, kinds, opened]⟩
  · obtain ⟨l, ok⟩ := lists .close
    exact ⟨l, ok.ring, ok.head (by decide), fun b => by rw [ok.mem, kinds, close]⟩

theorem head_plain {head : UInt8} (type : head ∈ typeHeads) : head ≠ 0 ∧ head ≠ percent := by
  simp only [typeHeads, List.mem_cons, List.not_mem_nil, or_false] at type
  rcases type with rfl | rfl | rfl | rfl | rfl | rfl <;> exact ⟨by decide, by decide⟩

theorem typed_head (typed : Typed key) : ∃ head ∈ typeHeads, (encode key).head? = some head := by
  obtain ⟨head, rest, rfl, type⟩ := typed
  refine ⟨head, type, ?_⟩
  have plain := head_plain type
  rw [encode_cons, labelsOf_plain plain.1 plain.2]
  rfl

theorem typed_roomy (typed : ∀ key, m key ≠ none → Typed key) (c : Call) : m.Roomy c := by
  cases c with
  | update _ _ => trivial
  | erase key =>
    refine Or.inr (Or.inl ⟨1, by decide, fun k held head => ?_⟩)
    obtain ⟨a, type, head'⟩ := typed_head (typed k held)
    rw [head] at head'
    obtain rfl := Option.some.inj head'
    revert type
    decide

theorem kept_typed (typed : ∀ key, m key ≠ none → Typed key) {c : Call} (own : Typed c.key)
    (key : List UInt8) (held : m.kept c key ≠ none) : Typed key := by
  unfold Entries.kept at held
  split at held
  · exact typed key held
  · cases c with
    | update k v =>
      simp only [Entries.apply, Function.update_apply] at held
      split at held
      · rename_i same
        rw [same]
        exact own
      · exact typed key held
    | erase k =>
      simp only [Entries.apply, Function.update_apply] at held
      split at held
      · exact absurd rfl held
      · exact typed key held

theorem typed_calls (calls : List Call) (good : Good t T) (models : Models T m)
    (typed : ∀ key, m key ≠ none → Typed key) (own : ∀ c ∈ calls, Typed c.key) :
    ∃ answers t' T', t.calls calls = some (answers, t') ∧ Good t' T' ∧ Models T' (m.keptAfter calls) := by
  induction calls generalizing t T m with
  | nil => exact ⟨[], t, T, rfl, good, models⟩
  | cons c rest ih =>
    have first := own c List.mem_cons_self
    have proper : c.key ≠ [] := by
      obtain ⟨head, tail, key, _⟩ := first
      simp [key]
    obtain ⟨a, t1, T1, run, good1, models1, _⟩ := call_spec good models proper (typed_roomy typed c)
    obtain ⟨answers, t2, T2, run2, good2, models2⟩ := ih good1 models1 (kept_typed typed first)
      (fun d hd => own d (List.mem_cons_of_mem c hd))
    exact ⟨a :: answers, t2, T2, bind_run run (bind_run run2 rfl), good2, models2⟩

/-- Whatever calls on typed keys were made, the arrays encode the tree of the stored keys. -/
theorem trie_encodes_tree (calls : List Call) (own : ∀ c ∈ calls, Typed c.key) :
    ∃ answers t, (init [] >>= fun t => t.calls calls) = some (answers, t) ∧
      t.EncodesTree (Entries.empty.keptAfter calls) := by
  obtain ⟨t, run, good⟩ := init_good
  obtain ⟨answers, t', T', run', good', models'⟩ := typed_calls calls good models_empty
    (fun _ held => absurd rfl held) own
  exact ⟨answers, t', bind_run run run', encodesTree_of_good good' models'⟩

theorem trie_encodes_tree_once : ∃ answers t,
    (init [] >>= fun t => t.calls [.update [48, 0] 5, .update [97] (-2), .erase [97]]) =
      some (answers, t) ∧
      t.EncodesTree (Entries.empty.keptAfter [.update [48, 0] 5, .update [97] (-2), .erase [97]]) :=
  trie_encodes_tree [.update [48, 0] 5, .update [97] (-2), .erase [97]] (by
    simp only [List.mem_cons, List.not_mem_nil, or_false, forall_eq_or_imp, forall_eq, Call.key]
    exact ⟨⟨48, [0], rfl, by decide⟩, ⟨97, [], rfl, by decide⟩, ⟨97, [], rfl, by decide⟩⟩)

/-- Whatever calls on typed keys were made, the free space is exact. -/
theorem trie_free_exact (calls : List Call) (own : ∀ c ∈ calls, Typed c.key) :
    ∃ answers t, (init [] >>= fun t => t.calls calls) = some (answers, t) ∧ t.FreeExact := by
  obtain ⟨t, run, good⟩ := init_good
  obtain ⟨answers, t', T', run', good', _⟩ := typed_calls calls good models_empty
    (fun _ held => absurd rfl held) own
  exact ⟨answers, t', bind_run run run', good'.free.exact⟩

theorem trie_free_exact_once : ∃ answers t,
    (init [] >>= fun t => t.calls [.update [98] 5, .erase [98], .update [51, 37] 0]) = some (answers, t) ∧
      t.FreeExact :=
  trie_free_exact [.update [98] 5, .erase [98], .update [51, 37] 0] (by
    simp only [List.mem_cons, List.not_mem_nil, or_false, forall_eq_or_imp, forall_eq, Call.key]
    exact ⟨⟨98, [], rfl, by decide⟩, ⟨98, [], rfl, by decide⟩, ⟨51, [37], rfl, by decide⟩⟩)

end
end EtdbTrie
