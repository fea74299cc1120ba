import Etdb.Trie.Resolve

/- One step down from a node: etdb_trie_follow, and reading a child's cell. -/
namespace EtdbTrie
open ByteXor ByteChain ByteTree
namespace Trie
section
variable {t t' : Trie} {T : ByteTree.Tree Int} {loc : Path → Int} {X : Path → Prop} {spare : Int → Prop}
variable {f u v w : Path} {c d p q : UInt8} {base e i : Int}

theorem Rep.base_nonneg (rep : Rep t T loc X spare) (mem : T.Mem w) (settled : w = [] ∨ T.kids w ≠ []) :
    0 ≤ (t.node (loc w)).base := by
  by_cases root : w = []
  · rw [root]
    exact Int.le_of_eq rep.rootBase.symm
  · have := rep.high w mem root (settled.resolve_left root)
    omega

theorem Rep.label_inside (rep : Rep t T loc Settled NoSpare) (free : Free t) (mem : T.Mem w)
    (settled : w = [] ∨ T.kids w ≠ []) (c : UInt8) : t.InNode (xorByte (t.node (loc w)).base c) := by
  have size := free.sized.size; have pos := free.sized.pos
  have block := xorByte_block (t.node (loc w)).base c
  have nonneg := rep.base_nonneg mem settled
  by_cases root : w = []
  · rw [root, rep.rootBase] at block ⊢
    exact free.sized.inNode.mpr (by omega)
  · obtain ⟨d, l, list⟩ := List.exists_cons_of_ne_nil (settled.resolve_left root)
    have kid : T.Mem (d :: w) := ⟨mem, by simp [list]⟩
    have inside := (rep.occ_node kid).2.1
    have block' := xorByte_block (t.node (loc w)).base d
    rw [← rep.place d w kid id] at block'
    exact free.sized.inNode.mpr (by omega)

/-- Besides its children's cells, a family's other cells are free or belong to others. -/
theorem Rep.child_check (rep : Rep t T loc Settled NoSpare) (mem : T.Mem w)
    (settled : w = [] ∨ T.kids w ≠ []) (inside : t.InNode (xorByte (t.node (loc w)).base c))
    (free : Free t) : (t.node (xorByte (t.node (loc w)).base c)).check = loc w ↔ c ∈ T.kids w := by
  constructor
  · intro same
    rcases empty_or_occ (free.sized.inNode.mp inside) with empty | occ
    · have := empty.2.2
      have := (rep.occ_node mem).1
      omega
    · obtain ⟨v, memV, cell⟩ := ((rep.occ _).mp occ).resolve_right id
      rw [← cell] at same
      cases v with
      | nil =>
        rw [rep.root, rep.rootNode] at same
        have := (rep.occ_node mem).1
        dsimp only at same
        omega
      | cons q u =>
        rw [rep.check q u memV] at same
        obtain rfl := rep.inj u w memV.1 mem same
        have place := rep.place q u memV id
        rw [xorByte_injective _ _ _ (cell.symm.trans place)]
        exact memV.2
  · intro kid
    rw [← rep.place c w ⟨mem, kid⟩ id]
    exact rep.check c w ⟨mem, kid⟩

theorem Rep.missing (rep : Rep t T loc Settled NoSpare) (mem : T.Mem w)
    (settled : w = [] ∨ T.kids w ≠ []) (fresh : c ∉ T.kids w) (proper : w = [] → c ≠ 0) (free : Free t) :
    t.Empty (xorByte (t.node (loc w)).base c) ∨ w ≠ [] ∧ t.Occ (xorByte (t.node (loc w)).base c) := by
  have inside := rep.label_inside free mem settled c
  rcases empty_or_occ (free.sized.inNode.mp inside) with empty | occ
  · exact Or.inl empty
  · refine Or.inr ⟨?_, occ⟩
    rintro rfl
    obtain ⟨v, memV, cell⟩ := ((rep.occ _).mp occ).resolve_right id
    rw [rep.rootBase] at cell
    have low := xorByte_block 0 c
    cases v with
    | nil =>
      have zero : c = 0 := xorByte_injective 0 c 0 (by rw [← cell, rep.root, xorByte_zero])
      exact proper rfl zero
    | cons q u =>
      have place := rep.place q u memV id
      by_cases root : u = []
      · subst root
        rw [rep.rootBase, cell] at place
        rw [xorByte_injective _ _ _ place] at fresh
        exact fresh memV.2
      · have high := rep.high u memV.1 root (List.ne_nil_of_mem memV.2)
        have block := xorByte_block (t.node (loc u)).base q
        rw [← place, cell] at block
        omega

theorem addChild_more (free : Free t) (shape : T.Shape) (rep : Rep t T loc Settled NoSpare)
    (mem : T.Mem w)
    (inner : ¬ Tree.Leaf w) (proper : w = [] → c ≠ 0) (settled : w = [] ∨ T.kids w ≠ [])
    (fresh : c ∉ T.kids w) (empty : t.Empty (xorByte (t.node (loc w)).base c)) :
    ∃ loc' t', t.addChild (loc w) (t.node (loc w)).base c = some (loc' (c :: w), loc' w, t') ∧ Free t' ∧
      Rep t' (T.add w c 0) loc' Settled NoSpare := by
  have nonneg := rep.base_nonneg mem settled
  have occW := rep.occ_node mem
  obtain ⟨t1, run1, free1, taken⟩ := pop_at c free nonneg empty occW.1
  have rep1 := rep.taken taken
  have base1 : (t1.node (loc w)).base = (t.node (loc w)).base := by rw [taken.node _ occW]
  obtain ⟨d, l, list⟩ : ∃ d l, labels T w = d :: l := by
    by_cases root : w = []
    · exact ⟨0, T.kids [], if_pos root⟩
    · rw [labels_proper root]
      exact List.exists_cons_of_ne_nil (settled.resolve_left root)
  have freshLabel : c ∉ d :: l := by
    rw [← list]
    unfold labels
    split
    · rename_i root
      rw [root] at fresh
      simp [proper root, fresh]
    · exact fresh
  obtain ⟨family, first⟩ := rep1.family shape mem id list
  have occE : t1.Occ (xorByte (t1.node (loc w)).base c) := by
    rw [base1]
    exact (taken.occ _).mpr (Or.inr rfl)
  obtain ⟨t2, run2, pushed, hangs⟩ := pushSibling_more free1 family (rep1.occ_node mem) first
    freshLabel occE
  rw [base1] at pushed hangs run2
  have apart : loc w ≠ xorByte (t.node (loc w)).base c := rep1.apart _ w rfl mem
  have attaching : Attaching t1 t2 T loc Settled w c (xorByte (t.node (loc w)).base c) := by
    refine attaching_more rep1 mem id list (by rw [base1]) (by rw [base1]; exact pushed)
      (by rw [base1]; exact hangs) (fun _ => Iff.rfl) (fun _ _ => rfl) (fun _ _ => rfl) rfl ?_ ?_ ?_
    · rw [pushed.node]; exact taken.here
    · rw [pushed.child _ apart.symm, taken.blank]; rfl
    · intro root
      exact rep1.high w mem root (settled.resolve_left root)
  refine ⟨_, t2, ?_, pushed.free, rep1.attach shape mem inner fresh proper attaching⟩
  have old : Function.update loc (c :: w) (xorByte (t.node (loc w)).base c) w = loc w :=
    Function.update_of_ne (by simp) ..
  rw [old, Function.update_self]
  refine bind_run run1 ?_
  dsimp only
  rw [xorByte_cancel, decide_eq_true nonneg]
  exact bind_run run2 rfl

theorem addChild_first (free : Free t) (shape : T.Shape) (rep : Rep t T loc Settled NoSpare)
    (mem : T.Mem w) (inner : ¬ Tree.Leaf w) (proper : w ≠ []) (bare : T.kids w = []) :
    ∃ loc' t', t.addChild (loc w) (t.node (loc w)).base c = some (loc' (c :: w), loc' w, t') ∧ Free t' ∧
      Rep t' (T.add w c 0) loc' Settled NoSpare := by
  have occW := rep.occ_node mem
  have negative : (t.node (loc w)).base < 0 := by
    cases w with
    | nil => exact absurd rfl proper
    | cons d v => rw [rep.bare d v mem inner id bare]; omega
  have notZero : loc w ≠ 0 := fun zero => proper ((rep.loc_zero mem).mp zero)
  have childless := rep.childless w mem id (by rw [labels_proper proper, bare])
  obtain ⟨e, t1, t2, run1, block, free2, taken, occ2, shape2⟩ := pop_anywhere c free negative occW
    notZero
  have rep1 := rep.taken taken
  have occE2 : t2.Occ e := (occ2 e).mpr ((taken.occ e).mpr (Or.inr rfl))
  have occW2 : t2.Occ (loc w) := (occ2 _).mpr (rep1.occ_node mem)
  have apart : ∀ v, T.Mem v → loc v ≠ e := fun v memV => rep1.apart e v rfl memV
  have ninfo2 : t2.ninfo = t1.ninfo := by rw [shape2]; rfl
  have nodeW2 : t2.node (loc w) = ⟨xorByte e c, (t.node (loc w)).check⟩ := by
    rw [shape2]
    simp [setNode]
  have nodeOther2 : ∀ i, i ≠ loc w → t2.node i = t1.node i := fun i hi => by
    rw [shape2]
    simp [setNode, hi]
  have positive : 0 < e := by
    have := occE2.1
    omega
  obtain ⟨t3, run3, pushed, hangs⟩ := pushSibling_first (xorByte e c) c free2 occW2
    (by rw [ninfo2, taken.ninfo _ occW, childless]) (by rw [xorByte_cancel]; exact occE2)
  rw [xorByte_cancel] at pushed
  have attaching : Attaching t1 t3 T loc Settled w c e := by
    refine ⟨fun i => (pushed.occ i).trans (occ2 i), ?_, ?_, ?_, ?_, Or.inr ⟨bare, proper⟩, ?_, ?_,
      ?_, ?_, ?_⟩
    · rw [pushed.node, nodeOther2 e (apart w mem).symm]
      exact taken.here
    · rw [pushed.child e (apart w mem).symm, ninfo2, taken.blank]
      rfl
    · intro u memU other
      rw [pushed.node]
      exact nodeOther2 _ (fun same => other (rep.inj u w memU mem same))
    · rw [pushed.node, nodeW2, taken.node _ occW]
    · intro _
      rw [pushed.node, nodeW2, xorByte_cancel]
    · intro _
      rw [pushed.node, nodeW2]
      have := xorByte_block e c
      dsimp only
      omega
    · intro u memU other
      rw [pushed.child _ (fun same => other (rep.inj u w memU mem same)), ninfo2]
    · intro u memU _ _
      rw [pushed.sibling _ (apart u memU), ninfo2]
    · intro _ x l list
      rw [labels_proper proper, bare] at list
      obtain ⟨child, chain⟩ := hangs x l list
      refine ⟨child, ?_⟩
      rw [pushed.node, nodeW2]
      exact chain
  refine ⟨_, t3, ?_, pushed.free, rep1.attach shape mem inner (by simp [bare])
    (fun root => absurd root proper) attaching⟩
  have old : Function.update loc (c :: w) e w = loc w := Function.update_of_ne (by simp) ..
  rw [old, Function.update_self]
  refine bind_run run1 ?_
  dsimp only
  rw [decide_eq_false (by omega)]
  exact bind_run run3 rfl

theorem follow_spec (free : Free t) (shape : T.Shape) (rep : Rep t T loc Settled NoSpare) (mem : T.Mem w)
    (inner : ¬ Tree.Leaf w) (proper : w = [] → c ≠ 0) :
    ∃ loc' t', t.follow (loc w) c = some (loc' (c :: w), loc' w, t') ∧ Free t' ∧
      Rep t' (T.grow w c 0) loc' Settled NoSpare := by
  have occW := rep.occ_node mem
  have readW : t.nodeAt (loc w) = some (t.node (loc w)) := nodeAt_inside (occW.inNode free.sized)
  by_cases settled : w = [] ∨ T.kids w ≠ []
  · have nonneg := rep.base_nonneg mem settled
    have inside := rep.label_inside free mem settled c
    have ran : t.follow (loc w) c = if (t.node (xorByte (t.node (loc w)).base c)).check < 0
        then t.addChild (loc w) (t.node (loc w)).base c
        else if (t.node (xorByte (t.node (loc w)).base c)).check ≠ loc w
        then t.resolve (loc w) (t.node (loc w)).base c
        else some (xorByte (t.node (loc w)).base c, loc w, t) := by
      refine bind_run readW ?_
      refine (if_neg (by omega)).trans ?_
      exact bind_run (nodeAt_inside inside) rfl
    have check := rep.child_check (c := c) mem settled inside free
    rw [ran]
    by_cases kid : c ∈ T.kids w
    · have here := check.mpr kid
      have := occW.1
      rw [if_neg (by omega), if_neg (by simp [here])]
      refine ⟨loc, t, ?_, free, ?_⟩
      · rw [rep.place c w ⟨mem, kid⟩ id]
      · rw [Tree.grow, if_pos kid]
        exact rep
    · rw [Tree.grow, if_neg kid]
      rcases rep.missing mem settled kid proper free with empty | ⟨root, occ⟩
      · rw [if_pos empty.2.2]
        exact addChild_more free shape rep mem inner proper settled kid empty
      · have notZero : xorByte (t.node (loc w)).base c ≠ 0 := by
          have := rep.high w mem root (settled.resolve_left root)
          have := xorByte_block (t.node (loc w)).base c
          omega
        have := occ.check notZero
        rw [if_neg (by omega), if_pos (fun h => kid (check.mp h))]
        exact resolve_spec free shape rep mem root inner (settled.resolve_left root) kid occ
  · simp only [not_or, not_not] at settled
    have fresh : c ∉ T.kids w := by simp [settled.2]
    rw [Tree.grow, if_neg fresh]
    have negative : (t.node (loc w)).base < 0 := by
      cases w with
      | nil => exact absurd rfl settled.1
      | cons d v => rw [rep.bare d v mem inner id settled.2]; omega
    have ran : t.follow (loc w) c = t.addChild (loc w) (t.node (loc w)).base c :=
      bind_run readW (if_pos negative)
    rw [ran]
    exact addChild_first free shape rep mem inner settled.1 settled.2

end
end Trie
end EtdbTrie
