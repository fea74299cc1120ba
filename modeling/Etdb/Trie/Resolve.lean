import Etdb.Trie.Chains
import Etdb.Trie.Represents

/- etdb_trie_resolve: a family moves child by child to another base. Between two rounds
   the tree is intact except that nothing holds of the family's own chain and that part
   of its children still lie at the old base. -/
namespace EtdbTrie
open ByteXor ByteChain ByteTree
namespace Trie
section
variable {t t' : Trie} {T : ByteTree.Tree Int} {loc : Path → Int} {X : Path → Prop} {spare : Int → Prop}
variable {f u v w : Path} {c d p q next : UInt8} {base base_ dest e i : Int}

theorem Rep.family (rep : Rep t T loc X spare) (shape : T.Shape) (mem : T.Mem w) (settled : ¬ X w)
    {l : List UInt8} (list : labels T w = c :: l) :
    Family t (t.node (loc w)).base c l ∧ (t.ninfo (loc w)).child = c := by
  obtain ⟨child, chain⟩ := rep.chain w c l mem settled list
  refine ⟨⟨chain, fun d hd => ?_, list ▸ labels_nodup shape w⟩, child⟩
  obtain ⟨x, memX, cell, _⟩ := rep.label_cell mem settled (list ▸ hd)
  rw [cell]
  exact rep.occ_node memX

/-- One child in its new cell, the old one not yet given back. -/
structure Moved (t t' : Trie) (T : ByteTree.Tree Int) (loc : Path → Int) (f : Path) (p next : UInt8)
    (dest : Int) : Prop where
  free : Free t'
  size : t.size ≤ t'.size
  moving : Moving t t' T loc f p dest
  link : (t'.ninfo dest).sibling = next
  ninfo : ∀ i, t.Occ i → t'.ninfo i = t.ninfo i

theorem Rep.base_of_kids (rep : Rep t T loc X spare) (shape : T.Shape) (mem : T.Mem (p :: f))
    (settled : ¬ X (p :: f)) : 0 < (t.node (loc (p :: f))).base ∧ p ≠ 0 ↔ T.kids (p :: f) ≠ [] := by
  constructor
  · rintro ⟨pos, proper⟩ none
    rw [rep.bare p f mem proper settled none] at pos
    omega
  · intro some
    have proper : p ≠ 0 := by
      rintro rfl
      exact some (shape.leaf f)
    have high := rep.high _ mem (by simp) some
    exact ⟨by omega, proper⟩

/-- A new cell with the base of an old one, in its family's chain but without children yet. -/
structure Copied (t t' : Trie) (parent old : Int) (next : UInt8) (dest : Int) : Prop where
  free : Free t'
  size : t.size ≤ t'.size
  fresh : ¬ t.Occ dest
  occ : ∀ i, t'.Occ i ↔ t.Occ i ∨ i = dest
  here : t'.node dest = ⟨(t.node old).base, parent⟩
  blank : t'.ninfo dest = ⟨next, 0⟩
  node : ∀ i, t.Occ i → t'.node i = t.node i
  ninfo : ∀ i, t.Occ i → t'.ninfo i = t.ninfo i

theorem copyCell_spec {parent old : Int} (free : Free t) (occF : t.Occ parent) (occP : t.Occ old)
    (settled : 0 ≤ base) (room : t.Empty (xorByte base p)) (next : UInt8) :
    ∃ t1 t2 t3, t.popEmptyNode base p parent = some (xorByte base p, t1) ∧
      t1.writeSibling (xorByte base p) next = some t2 ∧
      t2.moveNode p (xorByte base p) old = (if 0 < (t.node old).base ∧ p ≠ 0 then do
        let i_ ← t3.ninfoAt old
        let s ← t3.writeChild (xorByte base p) i_.child
        s.reparent (t.node old).base (xorByte base p) 256 i_.child
      else some t3) ∧ Copied t t3 parent old next (xorByte base p) := by
  obtain ⟨t1, run1, free1, taken⟩ := pop_at p free settled room occF.1
  have occ1 : t1.Occ (xorByte base p) := (taken.occ _).mpr (Or.inr rfl)
  let t2 := t1.setNinfo (xorByte base p) ⟨next, (t1.ninfo (xorByte base p)).child⟩
  have free2 : Free t2 := free1.setNinfo occ1
  have apart : ∀ i, t.Occ i → i ≠ xorByte base p := fun i occ same => taken.fresh (same ▸ occ)
  let t3 := t2.setNode (xorByte base p) ⟨(t.node old).base, parent⟩
  have check2 : (t2.node (xorByte base p)).check = parent := by
    show (t1.node _).check = _
    rw [taken.here]
  have node2 : ∀ i, t.Occ i → t2.node i = t.node i := taken.node
  obtain ⟨free3, occ3⟩ := free2.setNode (n := ⟨(t.node old).base, parent⟩) occ1 (Or.inr occF.1)
  refine ⟨t1, t2, t3, run1, writeSibling_inside (occ1.inNinfo free1.sized), ?_, free3, taken.size,
    taken.fresh, fun i => (occ3 i).trans (taken.occ i), ?_, ?_, fun i occ => ?_, fun i occ => ?_⟩
  · refine bind_run (nodeAt_inside (((taken.occ _).mpr (Or.inl occP)).inNode free2.sized)) ?_
    rw [node2 _ occP]
    refine bind_run (a := t3) ?_ rfl
    rw [writeBase_inside (occ1.inNode free2.sized), check2]
  · simp [t3, setNode]
  · simp [t3, t2, setNode, setNinfo, taken.blank, blankNinfo]
  · simp only [t3, setNode, Function.update_of_ne (apart i occ)]
    exact node2 i occ
  · simp only [t3, t2, setNode, setNinfo, Function.update_of_ne (apart i occ)]
    exact taken.ninfo i occ

theorem Copied.bare (copied : Copied t t' (loc f) (loc (p :: f)) next dest)
    (rep : Rep t T loc (· = f) NoSpare) (mem : T.Mem (p :: f)) (kids : T.kids (p :: f) = []) :
    Moved t t' T loc f p next dest := by
  have childless : (t.ninfo (loc (p :: f))).child = 0 :=
    rep.childless _ mem (by simp) (by rw [labels_cons, kids])
  refine ⟨copied.free, copied.size, ⟨copied.fresh, copied.occ, copied.here, ?_, ?_, ?_, ?_, ?_⟩, ?_,
    copied.ninfo⟩
  · rw [copied.blank, childless]
  · exact fun v memV _ _ => copied.node _ (rep.occ_node memV)
  · intro d memD
    have inside := memD.2
    rw [kids] at inside
    cases inside
  · exact fun v memV _ => congrArg _ (copied.ninfo _ (rep.occ_node memV))
  · exact fun v memV _ => congrArg _ (copied.ninfo _ (rep.occ_node memV))
  · rw [copied.blank]

theorem Copied.adopt (copied : Copied t t' (loc f) (loc (p :: f)) next dest) (shape : T.Shape)
    (rep : Rep t T loc (· = f) NoSpare) (mem : T.Mem (p :: f)) (kids : T.kids (p :: f) ≠ []) :
    ∃ t5, (do
        let i_ ← t'.ninfoAt (loc (p :: f))
        let s ← t'.writeChild dest i_.child
        s.reparent (t.node (loc (p :: f))).base dest 256 i_.child) = some t5 ∧
      Moved t t5 T loc f p next dest := by
  obtain ⟨c, l, list⟩ := List.exists_cons_of_ne_nil kids
  obtain ⟨family, child⟩ := rep.family shape mem (by simp) ((labels_cons T p f).trans list)
  have occ1 : t'.Occ dest := (copied.occ _).mpr (Or.inr rfl)
  have occP := rep.occ_node mem
  let t4 := t'.setNinfo dest ⟨next, c⟩
  have free4 : Free t4 := copied.free.setNinfo occ1
  have ninfo4 : ∀ i, t.Occ i → t4.ninfo i = t.ninfo i := fun i occ => by
    have apart : i ≠ dest := fun same => copied.fresh (same ▸ occ)
    simp only [t4, setNinfo, Function.update_of_ne apart]
    exact copied.ninfo i occ
  have family4 : Family t4 (t.node (loc (p :: f))).base c l := by
    refine ⟨chain_congr family.chain (fun d hd => ?_), fun d hd =>
      (copied.occ _).mpr (Or.inl (family.inside d hd)), family.nodup⟩
    rw [siblingFrom, ninfo4 _ (family.inside d hd)]
  obtain ⟨t5, run5, r⟩ := reparent_spec dest free4 family4 occ1.1 family.short
  have cells : ∀ d ∈ c :: l, xorByte (t.node (loc (p :: f))).base d = loc (d :: p :: f) := fun d hd =>
    (rep.place d (p :: f) ⟨mem, list ▸ hd⟩ (by simp)).symm
  refine ⟨t5, ?_, r.free, ?_, ⟨copied.fresh, fun i => (r.occ i).trans (copied.occ i), ?_, ?_, ?_, ?_, ?_,
    ?_⟩, ?_, fun i occ => ?_⟩
  · refine bind_run (ninfoAt_inside (((copied.occ _).mpr (Or.inl occP)).inNinfo copied.free.sized)) ?_
    rw [copied.ninfo _ occP, child]
    refine bind_run (a := t4) ?_ run5
    rw [writeChild_inside (occ1.inNinfo copied.free.sized), copied.blank]
  · rw [r.size]
    exact copied.size
  · rw [r.others]
    · exact copied.here
    · intro d hd same
      exact copied.fresh (same ▸ family.inside d hd)
  · rw [r.ninfo, child]
    simp [t4, setNinfo]
  · intro v memV _ other
    rw [r.others]
    · exact copied.node _ (rep.occ_node memV)
    · intro d hd same
      rw [cells d hd] at same
      exact other d (rep.inj _ _ memV ⟨mem, list ▸ hd⟩ same)
  · intro d memD
    have hd : d ∈ c :: l := list ▸ memD.2
    have listed := r.listed d hd
    rw [cells d hd] at listed
    rw [listed, ← copied.node _ (rep.occ_node memD)]
    rfl
  · intro v memV _
    rw [r.ninfo]
    exact congrArg _ (ninfo4 _ (rep.occ_node memV))
  · intro v memV _
    rw [r.ninfo]
    exact congrArg _ (ninfo4 _ (rep.occ_node memV))
  · rw [r.ninfo]
    simp [t4, setNinfo]
  · rw [r.ninfo]
    exact ninfo4 i occ

theorem moveCell_spec (free : Free t) (shape : T.Shape) (rep : Rep t T loc (· = f) NoSpare)
    (mem : T.Mem (p :: f)) (settled : 0 ≤ base) (room : t.Empty (xorByte base p)) (next : UInt8) :
    ∃ t1 t2 t3, t.popEmptyNode base p (loc f) = some (xorByte base p, t1) ∧
      t1.writeSibling (xorByte base p) next = some t2 ∧
      t2.moveNode p (xorByte base p) (loc (p :: f)) = some t3 ∧
      Moved t t3 T loc f p next (xorByte base p) := by
  obtain ⟨t1, t2, t3, run1, run2, start, copied⟩ :=
    copyCell_spec free (rep.occ_node mem.1) (rep.occ_node mem) settled room next
  by_cases kids : T.kids (p :: f) = []
  · have stay := (rep.base_of_kids shape mem (by simp)).not.mpr (by simpa using kids)
    rw [if_neg stay] at start
    exact ⟨t1, t2, t3, run1, run2, start, copied.bare rep mem kids⟩
  · rw [if_pos ((rep.base_of_kids shape mem (by simp)).mpr kids)] at start
    obtain ⟨t5, run5, moved⟩ := copied.adopt shape rep mem kids
    exact ⟨t1, t2, t5, run1, run2, start.trans run5, moved⟩

/-- The family of `f` on its way from `base_` to `base`: the labels `done` have arrived,
    the cells for those in `rest` are reserved. -/
structure Relocating (t : Trie) (T : ByteTree.Tree Int) (loc : Path → Int) (f : Path) (base base_ : Int)
    (done rest : List UInt8) : Prop where
  free : Free t
  shape : T.Shape
  rep : Rep t T loc (· = f) NoSpare
  mem : T.Mem f
  proper : f ≠ []
  high : 256 ≤ base
  high_ : 256 ≤ base_
  baseHere : (t.node (loc f)).base = base
  kids : ∀ d ∈ done, d ∈ T.kids f
  moved : ∀ d ∈ done, loc (d :: f) = xorByte base d
  waiting : ∀ d ∈ rest, T.Mem (d :: f) → loc (d :: f) = xorByte base_ d
  room : ∀ d ∈ rest, t.Empty (xorByte base d)
  links : ∀ a d b, done = a ++ d :: b → t.siblingFrom base d = (b ++ rest).headD 0
  child : (t.ninfo (loc f)).child = (done ++ rest).headD 0
  nodup : (done ++ rest).Nodup

/-- What a round has to establish besides the tree itself. -/
structure Advance (t t' : Trie) (T T' : ByteTree.Tree Int) (loc loc' : Path → Int) (f : Path) (base : Int)
    (done rest : List UInt8) (p : UInt8) : Prop where
  size : t.size ≤ t'.size
  occ : ∀ i, t'.Occ i → t.Occ i ∨ i = xorByte base p
  origin : loc' f = loc f
  baseHere : (t'.node (loc f)).base = (t.node (loc f)).base
  child : (t'.ninfo (loc f)).child = (t.ninfo (loc f)).child
  kids : ∀ d, d ∈ T'.kids f ↔ d ∈ T.kids f ∨ d = p
  here : loc' (p :: f) = xorByte base p
  others : ∀ d, d ≠ p → T.Mem (d :: f) → loc' (d :: f) = loc (d :: f)
  link : t'.siblingFrom base p = rest.headD 0
  linked : ∀ d ∈ done, t'.siblingFrom base d = t.siblingFrom base d

theorem Relocating.advance {T' : ByteTree.Tree Int} {loc' : Path → Int} {done rest : List UInt8}
    (r : Relocating t T loc f base base_ done (p :: rest)) (free : Free t') (shape : T'.Shape)
    (rep : Rep t' T' loc' (· = f) NoSpare) (mem : T'.Mem f)
    (a : Advance t t' T T' loc loc' f base done rest p) :
    Relocating t' T' loc' f base base_ (done ++ [p]) rest := by
  have nodup := r.nodup
  have out : p ∉ done := fun h => (List.nodup_append.mp nodup).2.2 p h p List.mem_cons_self rfl
  have later : p ∉ rest := (List.nodup_cons.mp (List.nodup_append.mp nodup).2.1).1
  refine ⟨free, shape, rep, mem, r.proper, r.high, r.high_, ?_, ?_, ?_, ?_, ?_, ?_,
    ?_, by simpa using nodup⟩
  · rw [a.origin, a.baseHere, r.baseHere]
  · intro d hd
    rcases List.mem_append.mp hd with old | new
    · exact (a.kids d).mpr (Or.inl (r.kids d old))
    · exact (a.kids d).mpr (Or.inr (List.mem_singleton.mp new))
  · intro d hd
    rcases List.mem_append.mp hd with old | new
    · rw [a.others d (fun same => out (same ▸ old)) ⟨r.mem, r.kids d old⟩, r.moved d old]
    · rw [List.mem_singleton.mp new, a.here]
  · intro d hd memD
    have other : d ≠ p := fun same => later (same ▸ hd)
    have old : T.Mem (d :: f) := ⟨r.mem, ((a.kids d).mp memD.2).resolve_right other⟩
    rw [a.others d other old]
    exact r.waiting d (List.mem_cons_of_mem p hd) old
  · intro d hd
    have empty := r.room d (List.mem_cons_of_mem p hd)
    refine empty.keep a.size (fun occ => ?_)
    rcases a.occ _ occ with old | same
    · exact empty.not_occ old
    · exact later (xorByte_injective base d p same ▸ hd)
  · intro x d b split
    rcases List.eq_nil_or_concat' b with rfl | ⟨b', z, rfl⟩
    · obtain ⟨_, last⟩ := List.append_inj' split rfl
      obtain rfl : p = d := by simpa using last
      simpa using a.link
    · have split' : done ++ [p] = (x ++ d :: b') ++ [z] := by simpa using split
      obtain ⟨old, same⟩ := List.append_inj' split' rfl
      have zp : p = z := by simpa using same
      have hd : d ∈ done := by simp [old]
      rw [a.linked d hd, r.links x d b' old, zp]
      simp
  · rw [a.origin, a.child, r.child]
    simp

theorem plain_round (flag : Bool) (fromN : Int) (labelN : UInt8) {toPn : Int} {done rest : List UInt8}
    (r : Relocating t T loc f base base_ done (p :: rest)) (mem : T.Mem (p :: f))
    (apart : xorByte base_ p ≠ toPn) :
    ∃ t', resolveRound flag toPn (loc f) base base_ labelN p (rest.headD 0) fromN t =
        some (if !flag ∧ xorByte base_ p = fromN then xorByte base p else fromN, t') ∧
      Relocating t' T (Function.update loc (p :: f) (xorByte base p)) f base base_ (done ++ [p]) rest ∧
      ∀ v, T.Mem v → (t'.node (Function.update loc (p :: f) (xorByte base p) v)).base =
        (t.node (loc v)).base := by
  have room := r.room p List.mem_cons_self
  have source := r.waiting p List.mem_cons_self mem
  have high := r.high; have high_ := r.high_
  obtain ⟨t1, t2, t3, run1, run2, run3, m⟩ :=
    moveCell_spec r.free r.shape r.rep mem (by omega) room (rest.headD 0)
  have rep3 := r.rep.move mem rfl m.moving
  have occP3 : t3.Occ (loc (p :: f)) := (m.moving.occ _).mpr (Or.inl (r.rep.occ_node mem))
  have block : loc (p :: f) / 256 ≠ 0 := by
    have := xorByte_block base_ p
    rw [source]
    omega
  obtain ⟨t4, run4, free4, released, _⟩ := push_released m.free occP3 (by omega) (Or.inl block)
  have origin : Function.update loc (p :: f) (xorByte base p) f = loc f :=
    Function.update_of_ne (by simp) ..
  have rep4 := rep3.released released
  have occF := r.rep.occ_node r.mem
  have sourceF : loc f ≠ loc (p :: f) := fun same => by
    have := r.rep.inj _ _ r.mem mem same
    simp at this
  have bases : ∀ v, T.Mem v → (t4.node (Function.update loc (p :: f) (xorByte base p) v)).base =
      (t.node (loc v)).base := by
    intro v memV
    rw [released.node _ (rep3.occ_node memV) (rep3.apart _ v rfl memV)]
    exact m.moving.base v memV
  refine ⟨t4, ?_, r.advance free4 r.shape rep4 r.mem ?_, bases⟩
  · refine bind_run run1 ?_
    refine bind_run run2 ?_
    refine (if_neg (fun h => apart h.2)).trans ?_
    rw [← source]
    refine bind_run run3 ?_
    refine (if_neg (fun h => apart (source ▸ h.2))).trans ?_
    exact bind_run run4 rfl
  · refine ⟨Int.le_trans m.size released.size, ?_, origin, ?_, ?_, ?_, Function.update_self .., ?_,
      ?_, ?_⟩
    · intro i occ
      exact (m.moving.occ i).mp ((released.occ i).mp occ).1
    · rw [← bases f r.mem, origin]
    · rw [released.ninfo _ sourceF, m.ninfo _ occF]
    · intro d
      constructor
      · exact Or.inl
      · rintro (old | rfl)
        · exact old
        · exact mem.2
    · intro d other _
      exact Function.update_of_ne (fun same => other (List.cons.inj same).1) ..
    · rw [siblingFrom, released.ninfo _, m.link]
      exact fun same => m.moving.fresh (same ▸ r.rep.occ_node mem)
    · intro d hd
      have memD : T.Mem (d :: f) := ⟨r.mem, r.kids d hd⟩
      have other : d ≠ p := by
        rintro rfl
        exact (List.nodup_append.mp r.nodup).2.2 d hd d List.mem_cons_self rfl
      rw [siblingFrom, siblingFrom, ← r.moved d hd, released.ninfo _, m.ninfo _ (r.rep.occ_node memD)]
      intro same
      exact other (List.cons.inj (r.rep.inj _ _ memD mem same)).1

theorem newcomer_round (fromN : Int) {done rest : List UInt8}
    (r : Relocating t T loc f base base_ done (c :: rest)) (inner : ¬ Tree.Leaf f)
    (fresh : c ∉ T.kids f) :
    ∃ t', resolveRound true (xorByte base_ c) (loc f) base base_ c c (rest.headD 0) fromN t =
        some (fromN, t') ∧
      Relocating t' (T.add f c 0) (Function.update loc (c :: f) (xorByte base c)) f base base_
        (done ++ [c]) rest := by
  have room := r.room c List.mem_cons_self
  have high := r.high
  have occF := r.rep.occ_node r.mem
  have root : f = [] → c ≠ 0 := fun h => absurd h r.proper
  obtain ⟨t1, run1, free1, taken⟩ := pop_at c r.free (by omega) room occF.1
  have occ1 : t1.Occ (xorByte base c) := (taken.occ _).mpr (Or.inr rfl)
  let t2 := t1.setNinfo (xorByte base c) ⟨rest.headD 0, (t1.ninfo (xorByte base c)).child⟩
  have rep1 := r.rep.taken taken
  have ninfo2 : ∀ i, i ≠ xorByte base c → t2.ninfo i = t1.ninfo i := fun i hi => by
    simp [t2, setNinfo, hi]
  have apart : ∀ u, T.Mem u → loc u ≠ xorByte base c := fun u mem => rep1.apart _ u rfl mem
  have a : Attaching t1 t2 T loc (· = f) f c (xorByte base c) := by
    refine ⟨fun _ => Iff.rfl, taken.here, ?_, fun _ _ _ => rfl, rfl, Or.inl rfl,
      fun h => absurd rfl h, ?_, ?_, ?_, fun h => absurd rfl h⟩
    · simp [t2, setNinfo, taken.blank, blankNinfo]
    · intro _
      show 256 ≤ (t1.node (loc f)).base
      rw [taken.node _ occF, r.baseHere]
      exact high
    · intro u mem _
      rw [ninfo2 _ (apart u mem)]
    · intro u mem _ _
      rw [ninfo2 _ (apart u mem)]
  have rep2 := rep1.attach r.shape r.mem inner fresh root a
  have old : ∀ u, T.Mem u → Function.update loc (c :: f) (xorByte base c) u = loc u := by
    intro u mem
    refine Function.update_of_ne ?_ ..
    rintro rfl
    exact fresh mem.2
  refine ⟨t2, ?_, r.advance (free1.setNinfo occ1) (Tree.shape_add r.shape r.mem inner fresh root) rep2
    ((Tree.mem_add r.shape r.mem fresh).mpr (Or.inl r.mem)) ?_⟩
  · refine bind_run run1 ?_
    refine bind_run (writeSibling_inside (occ1.inNinfo free1.sized)) ?_
    exact if_pos ⟨rfl, rfl⟩
  · refine ⟨taken.size, fun i => (taken.occ i).mp, old f r.mem, ?_, ?_, ?_,
      Function.update_self .., ?_, ?_, ?_⟩
    · show (t1.node (loc f)).base = _
      rw [taken.node _ occF]
    · rw [ninfo2 _ (apart f r.mem), taken.ninfo _ occF]
    · intro d
      rw [Tree.add_kids, if_pos rfl, Tree.mem_insertLabel]
      tauto
    · intro d _ mem
      exact old _ mem
    · simp [siblingFrom, t2, setNinfo]
    · intro d hd
      have memD : T.Mem (d :: f) := ⟨r.mem, r.kids d hd⟩
      rw [siblingFrom, siblingFrom, ← r.moved d hd, ninfo2 _ (apart _ memD),
        taken.ninfo _ (r.rep.occ_node memD)]

theorem attaching_more {t2 t4 : Trie} {l : List UInt8} (rep : Rep t T loc X (· = e)) (mem : T.Mem w)
    (settled : ¬ X w) (list : labels T w = d :: l) (cell : e = xorByte (t.node (loc w)).base c)
    (pushed : Relabelled t t2 (loc w) (fun i => i = e ∨ i = xorByte (t.node (loc w)).base d))
    (hangs : Hangs t2 (loc w) (t.node (loc w)).base (Tree.insertLabel c (d :: l)))
    (occ : ∀ i, t4.Occ i ↔ t2.Occ i) (node : ∀ i, i ≠ e → t4.node i = t2.node i)
    (ninfo : ∀ i, i ≠ e → t4.ninfo i = t2.ninfo i) (link : (t4.ninfo e).sibling = (t2.ninfo e).sibling)
    (here : t4.node e = ⟨bareBase c, loc w⟩) (blank : (t4.ninfo e).child = 0)
    (high : w ≠ [] → 256 ≤ (t.node (loc w)).base) : Attaching t t4 T loc X w c e := by
  have apart : ∀ u, T.Mem u → loc u ≠ e := fun u memU => rep.apart e u rfl memU
  have node' : ∀ u, T.Mem u → t4.node (loc u) = t.node (loc u) := fun u memU => by
    rw [node _ (apart u memU), pushed.node]
  have siblings : ∀ i, (t4.ninfo i).sibling = (t2.ninfo i).sibling := by
    intro i
    by_cases same : i = e
    · rw [same, link]
    · rw [ninfo i same]
  refine ⟨fun i => (occ i).trans (pushed.occ i), here, blank, fun u memU _ =>
    node' u memU, ?_, Or.inl ?_, ?_, ?_, ?_, ?_, ?_⟩
  · rw [node' w mem]
  · rw [node' w mem]
  · intro _
    rw [node' w mem]
    exact cell
  · intro proper
    rw [node' w mem]
    exact high proper
  · intro u memU other
    rw [ninfo _ (apart u memU)]
    exact pushed.child _ (fun same => other (rep.inj u w memU mem same))
  · intro u memU notKid notRoot
    rw [siblings]
    refine pushed.sibling _ ?_
    rintro (same | same)
    · exact apart u memU same
    · obtain ⟨y, memY, here', which⟩ := rep.label_cell (d := d) mem settled (by simp [list])
      have uy : u = y := rep.inj u y memU memY (same.trans here')
      rcases which with ⟨kid, _⟩ | ⟨top, _, empty⟩
      · exact notKid d (uy.trans kid)
      · exact notRoot top (uy.trans empty)
  · intro _ x m split
    rw [list] at split
    obtain ⟨child, chain⟩ := hangs x m split
    refine ⟨by rw [ninfo _ (apart w mem), child], chain_congr chain ?_⟩
    intro y _
    rw [node' w mem, siblings]

structure TakenOver (t t' : Trie) (T : ByteTree.Tree Int) (loc : Path → Int) (X : Path → Prop) (w : Path)
    (c : UInt8) (e : Int) : Prop where
  free : Free t'
  size : t'.size = t.size
  attaching : Attaching t t' T loc X w c e
  node : ∀ i, i ≠ e → t'.node i = t.node i
  child : ∀ i, i ≠ e → i ≠ loc w → (t'.ninfo i).child = (t.ninfo i).child
  sibling : ∀ i, i ≠ e → (∀ d ∈ T.kids w, i ≠ loc (d :: w)) → (t'.ninfo i).sibling = (t.ninfo i).sibling

theorem takeOver_spec (free : Free t) (shape : T.Shape) (rep : Rep t T loc X (· = e)) (mem : T.Mem w)
    (settled : ¬ X w) (proper : w ≠ []) (kids : T.kids w ≠ []) (fresh : c ∉ T.kids w) (inside : e ≠ 0)
    (cell : e = xorByte (t.node (loc w)).base c) :
    ∃ t', t.takeOver e (loc w) c = some t' ∧ TakenOver t t' T loc X w c e := by
  obtain ⟨d, l, kids'⟩ := List.exists_cons_of_ne_nil kids
  have list : labels T w = d :: l := (labels_proper proper).trans kids'
  obtain ⟨family, first⟩ := rep.family shape mem settled list
  have occE : t.Occ e := (rep.occ e).mpr (Or.inr rfl)
  have occW := rep.occ_node mem
  obtain ⟨t2, run2, pushed, hangs⟩ := pushSibling_more (x := c) free family occW first
    (by rw [← kids']; exact fresh) (by rw [← cell]; exact occE)
  rw [← cell] at pushed
  have occE2 : t2.Occ e := (pushed.occ e).mpr occE
  let t3 := t2.setNinfo e ⟨(t2.ninfo e).sibling, 0⟩
  have free3 : Free t3 := pushed.free.setNinfo occE2
  let t4 := t3.setNode e ⟨bareBase c, (t3.node e).check⟩
  let t5 := t4.setNode e ⟨bareBase c, loc w⟩
  obtain ⟨free4, occ4⟩ := free3.setNode (n := ⟨bareBase c, (t3.node e).check⟩) occE2
    (Or.inr (Occ.check (t := t3) occE2 inside))
  obtain ⟨free5, occ5⟩ := free4.setNode (n := ⟨bareBase c, loc w⟩) ((occ4 e).mpr occE2) (Or.inr occW.1)
  have back : xorByte e c = (t.node (loc w)).base := by rw [cell, xorByte_cancel]
  have node5 : ∀ i, i ≠ e → t5.node i = t2.node i := fun i hi => by
    simp [t5, t4, t3, setNode, setNinfo, hi]
  have ninfo5 : ∀ i, i ≠ e → t5.ninfo i = t2.ninfo i := fun i hi => by
    simp [t5, t4, t3, setNode, setNinfo, hi]
  have firstCell : xorByte (t.node (loc w)).base d = loc (d :: w) :=
    (rep.place d w ⟨mem, by simp [kids']⟩ settled).symm
  refine ⟨t5, ?_, free5, pushed.size, ?_, ?_, ?_, ?_⟩
  · rw [takeOver, back]
    refine bind_run run2 ?_
    refine bind_run (writeChild_inside (occE2.inNinfo pushed.free.sized)) ?_
    refine bind_run (a := t4) (writeBase_inside (t := t3) (Occ.inNode (t := t3) free3.sized occE2)) ?_
    refine (writeCheck_inside (t := t4) (((occ4 e).mpr occE2).inNode free4.sized)).trans ?_
    simp [t5, t4, setNode]
  · refine attaching_more rep mem settled list cell pushed hangs (fun i => (occ5 i).trans (occ4 i))
      node5 ninfo5 ?_ ?_ ?_ (fun _ => rep.high w mem proper kids)
    · simp [t5, t4, t3, setNode, setNinfo]
    · simp [t5, setNode]
    · simp [t5, t4, t3, setNode, setNinfo]
  · intro i hi
    rw [node5 i hi, pushed.node]
  · intro i hi other
    rw [ninfo5 i hi]
    exact pushed.child i other
  · intro i hi other
    rw [ninfo5 i hi]
    refine pushed.sibling i ?_
    rintro (same | same)
    · exact hi same
    · exact other d (by simp [kids']) (same.trans firstCell)

theorem TakenOver.advance {t3 t4 : Trie} {loc1 : Path → Int} {done rest : List UInt8}
    (seized : TakenOver t3 t4 T loc1 (· = f) w c (loc (q :: f)))
    (stand : loc1 = Function.update loc (q :: f) (xorByte base q))
    (r : Relocating t T loc f base base_ done (q :: rest))
    (m : Moved t t3 T loc f q (rest.headD 0) (xorByte base q))
    (rep : Rep t3 T loc1 (· = f) (· = loc (q :: f)))
    (mem : T.Mem (q :: f)) (memW : T.Mem w) (other : w ≠ f) (fresh : c ∉ T.kids w) :
    Advance t t4 T (T.add w c 0) loc (Function.update loc1 (c :: w) (loc (q :: f))) f base done rest q := by
  have locOther : ∀ u, u ≠ q :: f → loc1 u = loc u := fun u hu => by
    rw [stand, Function.update_of_ne hu]
  have origin : loc1 f = loc f := locOther f (by simp)
  have old : ∀ u, T.Mem u → Function.update loc1 (c :: w) (loc (q :: f)) u = loc1 u := by
    intro u memU
    refine Function.update_of_ne ?_ ..
    rintro rfl
    exact fresh memU.2
  have apartF : loc f ≠ loc (q :: f) := by
    rw [← origin]
    exact rep.apart _ f rfl r.mem
  have notW : loc f ≠ loc1 w := fun same =>
    other (rep.inj w f memW r.mem (same.symm.trans origin.symm))
  have memKid : ∀ d ∈ done, T.Mem (d :: f) := fun d hd => ⟨r.mem, r.kids d hd⟩
  have locKid : ∀ d, d ≠ q → loc1 (d :: f) = loc (d :: f) := fun d hd =>
    locOther _ (fun same => hd (List.cons.inj same).1)
  have notKid : ∀ x, T.Mem (x :: f) → ∀ d ∈ T.kids w, loc1 (x :: f) ≠ loc1 (d :: w) := by
    intro x memX d hd same
    exact other (List.cons.inj (rep.inj _ _ memX ⟨memW, hd⟩ same)).2.symm
  have here : loc1 (q :: f) = xorByte base q := by rw [stand, Function.update_self]
  refine ⟨by rw [seized.size]; exact m.size, fun i occ => ?_, (old f r.mem).trans origin, ?_, ?_, fun d => ?_,
    (old _ mem).trans here, fun d hd memD => ?_, ?_, fun d hd => ?_⟩
  · exact (m.moving.occ i).mp ((seized.attaching.occ i).mp occ)
  · have base3 := m.moving.base f r.mem
    rw [← stand, origin] at base3
    rw [seized.node _ apartF, base3]
  · rw [seized.child _ apartF notW, m.ninfo _ (r.rep.occ_node r.mem)]
  · rw [Tree.add_kids, if_neg other.symm]
    constructor
    · exact Or.inl
    · rintro (h | rfl)
      · exact h
      · exact mem.2
  · exact (old _ memD).trans (locKid d hd)
  · rw [siblingFrom, ← here, seized.sibling _ (rep.apart _ _ rfl mem) (notKid q mem), here, m.link]
  · have distinct : d ≠ q := by
      rintro rfl
      exact (List.nodup_append.mp r.nodup).2.2 d hd d List.mem_cons_self rfl
    have memD := memKid d hd
    have apartD := rep.apart _ _ rfl memD
    have kidD := notKid d memD
    rw [locKid d distinct] at apartD kidD
    rw [siblingFrom, siblingFrom, ← r.moved d hd, seized.sibling _ apartD kidD,
      m.ninfo _ (r.rep.occ_node memD)]

/-- The round of the contested cell, when the other family is the one that moves: its
    occupant `q` leaves and the newcomer, a child of `w`, takes the cell over. -/
theorem contested_round {done rest : List UInt8} (r : Relocating t T loc f base base_ done (q :: rest))
    (mem : T.Mem (q :: f)) (memW : T.Mem w) (other : w ≠ f) (proper : w ≠ []) (inner : ¬ Tree.Leaf w)
    (kids : T.kids w ≠ []) (fresh : c ∉ T.kids w)
    (cell : xorByte base_ q = xorByte (t.node (loc w)).base c) :
    ∃ t' loc', resolveRound false (xorByte base_ q) (loc f) base base_ c q (rest.headD 0) (loc w) t =
        some (loc' w, t') ∧
      Relocating t' (T.add w c 0) loc' f base base_ (done ++ [q]) rest ∧
      loc' (c :: w) = xorByte base_ q ∧ loc' f = loc f := by
  have room := r.room q List.mem_cons_self
  have source := r.waiting q List.mem_cons_self mem
  have high := r.high; have high_ := r.high_
  obtain ⟨t1, t2, t3, run1, run2, run3, m⟩ :=
    moveCell_spec r.free r.shape r.rep mem (by omega) room (rest.headD 0)
  let loc1 := Function.update loc (q :: f) (xorByte base q)
  have rep3 : Rep t3 T loc1 (· = f) (· = loc (q :: f)) := r.rep.move mem rfl m.moving
  have block : loc (q :: f) ≠ 0 := by
    have := xorByte_block base_ q
    rw [source]
    omega
  have fromN : (if !false ∧ xorByte base_ q = loc w then xorByte base q else loc w) = loc1 w := by
    by_cases same : w = q :: f
    · subst same
      simp [loc1, source]
    · have apart : xorByte base_ q ≠ loc w := fun h =>
        same (r.rep.inj _ _ memW mem (h.symm.trans source.symm))
      simp [loc1, apart, same]
  obtain ⟨t4, run4, seized⟩ := takeOver_spec (w := w) (c := c) m.free r.shape rep3 memW other proper kids
    fresh block (by rw [m.moving.base w memW, source, cell])
  have top : w = [] → c ≠ 0 := fun root => absurd root proper
  have rep4 := rep3.attach r.shape memW inner fresh top seized.attaching
  have advance := seized.advance rfl r m rep3 mem memW other fresh
  have stands : Function.update loc1 (c :: w) (loc (q :: f)) w = loc1 w :=
    Function.update_of_ne (by simp) ..
  refine ⟨t4, Function.update loc1 (c :: w) (loc (q :: f)), ?_, r.advance seized.free
    (Tree.shape_add r.shape memW inner fresh top) rep4
    ((Tree.mem_add r.shape memW fresh).mpr (Or.inl r.mem)) advance, ?_, advance.origin⟩
  · rw [stands]
    refine bind_run run1 ?_
    refine bind_run run2 ?_
    refine (if_neg (by simp)).trans ?_
    rw [← source]
    refine bind_run run3 ?_
    rw [source, fromN]
    refine (if_pos (by simp)).trans ?_
    rw [← source]
    exact bind_run run4 rfl
  · rw [Function.update_self, source]

theorem plain_rounds (flag : Bool) (toPn : Int) (labelN : UInt8) {fromN : Int}
    {done ahead rest : List UInt8} (r : Relocating t T loc f base base_ done (ahead ++ rest))
    (plain : ∀ p ∈ ahead, T.Mem (p :: f) ∧ xorByte base_ p ≠ toPn) (memW : T.Mem w)
    (stand : fromN = loc w) (own : flag = true → w = f) :
    ∃ t' loc', resolveLoop flag toPn (loc f) base base_ labelN (ahead ++ rest) fromN t =
        resolveLoop flag toPn (loc f) base base_ labelN rest (loc' w) t' ∧
      Relocating t' T loc' f base base_ (done ++ ahead) rest ∧
      (∀ v, T.Mem v → (t'.node (loc' v)).base = (t.node (loc v)).base) ∧
      ∀ v, (∀ p ∈ ahead, v ≠ p :: f) → loc' v = loc v := by
  induction ahead generalizing t loc done fromN with
  | nil => exact ⟨t, loc, by rw [stand]; rfl, by simpa using r, fun _ _ => rfl, fun _ _ => rfl⟩
  | cons p ahead ih =>
    obtain ⟨mem, apart⟩ := plain p List.mem_cons_self
    obtain ⟨t1, run1, r1, bases1⟩ := plain_round flag fromN labelN r mem apart
    have source := r.waiting p (by simp) mem
    let loc1 := Function.update loc (p :: f) (xorByte base p)
    have stand1 : (if !flag ∧ xorByte base_ p = fromN then xorByte base p else fromN) = loc1 w := by
      by_cases same : w = p :: f
      · have notOwn : flag = false := by
          by_contra h
          have := own (by simpa using h)
          rw [this] at same
          simp at same
        subst same
        simp [loc1, notOwn, stand, source]
      · have stay : xorByte base_ p ≠ fromN := fun h =>
          same (r.rep.inj _ _ memW mem (stand.symm.trans (h.symm.trans source.symm)))
        rw [if_neg (fun h => stay h.2)]
        simp [loc1, same, stand]
    have origin : loc1 f = loc f := Function.update_of_ne (by simp) ..
    obtain ⟨t2, loc2, run2, r2, bases2, stays2⟩ := ih r1
      (fun d hd => plain d (List.mem_cons_of_mem p hd)) stand1
    refine ⟨t2, loc2, ?_, by simpa using r2, ?_, ?_⟩
    · refine bind_run run1 ?_
      rw [← origin]
      exact run2
    · intro v memV
      rw [bases2 v memV, bases1 v memV]
    · intro v other
      rw [stays2 v (fun d hd => other d (List.mem_cons_of_mem p hd))]
      exact Function.update_of_ne (other p List.mem_cons_self) ..

theorem Relocating.settle {done : List UInt8} (r : Relocating t T loc f base base_ done [])
    (all : T.kids f = done) (some : done ≠ []) : Rep t T loc Settled NoSpare := by
  have rep := r.rep
  have list : labels T f = done := (labels_proper r.proper).trans all
  refine ⟨rep.root, rep.rootNode, rep.inj, rep.occ, rep.apart, rep.check, ?_,
    rep.value, rep.high, ?_, ?_, ?_⟩
  · intro d v mem _
    by_cases here : v = f
    · subst here
      rw [r.baseHere]
      exact r.moved d (all ▸ mem.2)
    · exact rep.place d v mem here
  · intro d v mem proper _ none
    by_cases here : d :: v = f
    · rw [here, all] at none
      exact absurd none some
    · exact rep.bare d v mem proper here none
  · intro v d l mem _ split
    by_cases here : v = f
    · subst here
      rw [list] at split
      subst split
      refine ⟨by simpa using r.child, chain_of_links ?_ ?_⟩
      · intro before x after parts
        rw [r.baseHere]
        simpa using r.links before x after parts
      · have first := labels_zeroFirst r.shape v
        rw [list] at first
        exact first
    · exact rep.chain v d l mem here split
  · intro v mem _ none
    by_cases here : v = f
    · rw [here, list] at none
      exact absurd none some
    · exact rep.childless v mem here none

theorem Rep.disturb (rep : Rep t T loc Settled NoSpare) (proper : f ≠ []) (inner : ¬ Tree.Leaf f)
    (occ : ∀ i, t'.Occ i ↔ t.Occ i) (node : ∀ v, T.Mem v → v ≠ f → t'.node (loc v) = t.node (loc v))
    (check : (t'.node (loc f)).check = (t.node (loc f)).check) (high : 256 ≤ (t'.node (loc f)).base)
    (child : ∀ v, T.Mem v → v ≠ f → (t'.ninfo (loc v)).child = (t.ninfo (loc v)).child)
    (sibling : ∀ v, T.Mem v → (t'.ninfo (loc v)).sibling = (t.ninfo (loc v)).sibling) :
    Rep t' T loc (· = f) NoSpare := by
  refine ⟨rep.root, ?_, rep.inj, fun i => (occ i).trans (rep.occ i), fun _ _ =>
    False.elim, ?_, ?_, ?_, ?_, ?_, ?_, ?_⟩
  · have same := node [] trivial (fun h => proper h.symm)
    rw [rep.root] at same
    rw [same, rep.rootNode]
  · intro d v mem
    by_cases here : d :: v = f
    · rw [here, check, ← here]
      exact rep.check d v mem
    · rw [node _ mem here]
      exact rep.check d v mem
  · intro d v mem here
    rw [node v mem.1 here]
    exact rep.place d v mem id
  · intro v mem
    have here : 0 :: v ≠ f := by
      rintro rfl
      exact inner rfl
    rw [node _ mem here]
    exact rep.value v mem
  · intro v mem properV some
    by_cases here : v = f
    · rw [here]
      exact high
    · rw [node v mem here]
      exact rep.high v mem properV some
  · intro d v mem properD here none
    rw [node _ mem here]
    exact rep.bare d v mem properD id none
  · intro v d l mem here list
    obtain ⟨first, chain⟩ := rep.chain v d l mem id list
    refine ⟨by rw [child v mem here, first], chain_congr chain ?_⟩
    intro x hx
    obtain ⟨y, memY, cell, _⟩ := rep.label_cell mem id (list ▸ hx)
    rw [node v mem here, cell, sibling y memY]
  · intro v mem here none
    rw [child v mem here]
    exact rep.childless v mem id none

theorem placeFor_spec (free : Free t) (first : UInt8) (rest : List UInt8) :
    ∃ e t', t.placeFor first rest = some (e, t') ∧ Free t' ∧ Grown t t' ∧ t'.Fits e first rest ∧
      e / 256 ≠ 0 := by
  unfold placeFor
  split
  · rename_i alone
    obtain ⟨e, t', run, free', grown, empty, block⟩ := findPlace_spec free
    exact ⟨e, t', run, free', grown, ⟨empty, by simp [alone]⟩, block⟩
  · obtain ⟨e, t', run, free', grown, fits, on⟩ := findPlaceInterval_spec first rest free
    exact ⟨e, t', run, free', grown, fits, (Int.ne_of_lt on.1).symm⟩

/-- The head of the family's chain, written first when the newcomer comes before all. -/
structure Headed (t t' : Trie) (i : Int) (first : UInt8) : Prop where
  free : Free t'
  node : t'.node = t.node
  occ : ∀ j, t'.Occ j ↔ t.Occ j
  size : t'.size = t.size
  ninfo : ∀ j, j ≠ i → t'.ninfo j = t.ninfo j
  sibling : (t'.ninfo i).sibling = (t.ninfo i).sibling
  child : (t'.ninfo i).child = first

theorem writeHead_spec (flag : Bool) (labelN : UInt8) {first : UInt8} (free : Free t) (occ : t.Occ i)
    (head : flag = true ∧ first = labelN ∨ (t.ninfo i).child = first) :
    ∃ t', Headed t t' i first ∧ ∀ k : Trie → Option (Int × Int × Trie),
      (if flag = true ∧ first = labelN then t.writeChild i labelN >>= k
        else (some t : Option Trie) >>= k) = k t' := by
  by_cases h : flag = true ∧ first = labelN
  · refine ⟨t.setNinfo i ⟨(t.ninfo i).sibling, labelN⟩, ⟨free.setNinfo occ, rfl, fun _ => Iff.rfl, rfl,
      fun j hj => ?_, ?_, ?_⟩, fun k => ?_⟩
    · simp [setNinfo, hj]
    · simp [setNinfo]
    · simp [setNinfo, h.2]
    · rw [if_pos h, writeChild_inside (occ.inNinfo free.sized)]
      rfl
  · exact ⟨t, ⟨free, rfl, fun _ => Iff.rfl, rfl, fun _ _ => rfl, rfl, head.resolve_left h⟩,
      fun k => if_neg h⟩

theorem relocate_begin (flag : Bool) (labelN : UInt8) {first : UInt8} {rest : List UInt8} (free : Free t)
    (shape : T.Shape) (rep : Rep t T loc Settled NoSpare) (mem : T.Mem f) (proper : f ≠ [])
    (inner : ¬ Tree.Leaf f) (kids : T.kids f ≠ []) (nodup : (first :: rest).Nodup)
    (head : flag = true ∧ first = labelN ∨ (t.ninfo (loc f)).child = first) :
    ∃ base t1, Relocating t1 T loc f base (t.node (loc f)).base [] (first :: rest) ∧
      (∀ v, T.Mem v → v ≠ f → (t1.node (loc v)).base = (t.node (loc v)).base) ∧
      ∀ toPn fromN, t.relocate flag toPn (loc f) (t.node (loc f)).base labelN fromN (first :: rest) =
        (do
          let (fromN, s) ← resolveLoop flag toPn (loc f) base (t.node (loc f)).base labelN (first :: rest)
            fromN t1
          some (if flag then xorByte base labelN else toPn, fromN, s)) := by
  obtain ⟨e, t1, run1, free1, grown, fits, block⟩ := placeFor_spec free first rest
  have occF := (rep.grown grown).occ_node mem
  have high : 256 ≤ xorByte e first := by
    have := xorByte_block e first
    have := fits.1.1
    omega
  have same1 : ∀ v, T.Mem v → t1.node (loc v) = t.node (loc v) ∧ t1.ninfo (loc v) = t.ninfo (loc v) :=
    fun v memV => ⟨grown.node _ (rep.occ_node memV).2.1, grown.ninfo _ (rep.occ_node memV).2.1⟩
  have notZero : loc f ≠ 0 := fun zero => proper ((rep.loc_zero mem).mp zero)
  obtain ⟨t2, headed, step⟩ := writeHead_spec flag labelN free1 occF
    (by rw [(same1 f mem).2]; exact head)
  have occF2 := (headed.occ _).mpr occF
  let t3 := t2.setNode (loc f) ⟨xorByte e first, (t2.node (loc f)).check⟩
  obtain ⟨free3, occ3⟩ := headed.free.setNode (n := ⟨xorByte e first, (t2.node (loc f)).check⟩)
    occF2 (Or.inr (occF2.check notZero))
  have apart : ∀ v, T.Mem v → v ≠ f → loc v ≠ loc f := fun v memV other same =>
    other (rep.inj v f memV mem same)
  have node3 : ∀ v, T.Mem v → v ≠ f → t3.node (loc v) = t.node (loc v) := by
    intro v memV other
    simp only [t3, setNode, Function.update_of_ne (apart v memV other)]
    rw [headed.node, (same1 v memV).1]
  have here3 : t3.node (loc f) = ⟨xorByte e first, (t2.node (loc f)).check⟩ := by simp [t3, setNode]
  have rep3 : Rep t3 T loc (· = f) NoSpare := by
    refine rep.disturb proper inner (fun i => ?_) node3 ?_ ?_ ?_ ?_
    · rw [occ3, headed.occ, grown.occ]
    · rw [here3, headed.node, (same1 f mem).1]
    · rw [here3]
      exact high
    · intro v memV other
      show (t2.ninfo _).child = _
      rw [headed.ninfo _ (apart v memV other), (same1 v memV).2]
    · intro v memV
      show (t2.ninfo _).sibling = _
      by_cases same : loc v = loc f
      · rw [same, headed.sibling, (same1 f mem).2]
      · rw [headed.ninfo _ same, (same1 v memV).2]
  have room : ∀ d ∈ first :: rest, t3.Empty (xorByte (xorByte e first) d) := by
    intro d hd
    have empty : t1.Empty (xorByte (xorByte e first) d) := by
      rcases List.mem_cons.mp hd with rfl | later
      · rw [xorByte_cancel]
        exact fits.1
      · exact fits.2 d later
    refine empty.keep (Int.le_of_eq headed.size.symm) (fun occ => ?_)
    rw [occ3, headed.occ] at occ
    exact empty.not_occ occ
  refine ⟨xorByte e first, t3, ⟨free3, shape, rep3, mem, proper, high, rep.high f mem proper kids,
    by rw [here3], by simp, by simp, fun d _ memD => rep.place d f memD id, room, by simp, headed.child,
    by simpa using nodup⟩, fun v memV other => by rw [node3 v memV other], fun toPn fromN => ?_⟩
  refine bind_run run1 ?_
  refine (step _).trans ?_
  exact bind_run (writeBase_inside (occF2.inNode headed.free.sized)) rfl

/-- An occupied cell of a family that is not its child is a child of another family, and
    neither is the root's. -/
theorem Rep.conflict (rep : Rep t T loc Settled NoSpare) (mem : T.Mem w) (proper : w ≠ [])
    (kids : T.kids w ≠ []) (fresh : c ∉ T.kids w) (taken : t.Occ (xorByte (t.node (loc w)).base c)) :
    ∃ q u, T.Mem (q :: u) ∧ loc (q :: u) = xorByte (t.node (loc w)).base c ∧ u ≠ w ∧ u ≠ [] := by
  have high := rep.high w mem proper kids
  have block := xorByte_block (t.node (loc w)).base c
  obtain ⟨v, memV, cell⟩ := ((rep.occ _).mp taken).resolve_right id
  cases v with
  | nil =>
    rw [rep.root] at cell
    omega
  | cons q u =>
    have place := rep.place q u memV id
    refine ⟨q, u, memV, cell, ?_, ?_⟩
    · rintro rfl
      have same := xorByte_injective _ _ _ (place.symm.trans cell)
      exact fresh (same ▸ memV.2)
    · rintro rfl
      rw [rep.rootBase, cell] at place
      have low := xorByte_block 0 q
      omega

theorem relocate_own {l : List UInt8} (free : Free t) (shape : T.Shape)
    (rep : Rep t T loc Settled NoSpare)
    (mem : T.Mem w) (proper : w ≠ []) (inner : ¬ Tree.Leaf w) (fresh : c ∉ T.kids w)
    (list : T.kids w = d :: l) :
    ∃ loc' t', t.relocate true (xorByte (t.node (loc w)).base c) (loc w) (t.node (loc w)).base c (loc w)
        (Tree.insertLabel c (d :: l)) = some (loc' (c :: w), loc' w, t') ∧ Free t' ∧
      Rep t' (T.add w c 0) loc' Settled NoSpare := by
  have kids : T.kids w ≠ [] := by simp [list]
  obtain ⟨_, firstW⟩ := rep.family shape mem id ((labels_proper proper).trans list)
  have nodup := Tree.insertLabel_nodup (c := c) (list ▸ shape.nodup w) (list ▸ fresh)
  obtain ⟨first, rest, all⟩ := List.exists_cons_of_ne_nil (Tree.insertLabel_ne_nil (c := c) (l := d :: l))
  rw [all] at nodup ⊢
  have head : true = true ∧ first = c ∨ (t.ninfo (loc w)).child = first := by
    rw [firstW]
    simp only [Tree.insertLabel] at all
    split at all
    · exact Or.inr (List.cons.inj all).1
    · exact Or.inl ⟨rfl, (List.cons.inj all).1.symm⟩
  obtain ⟨base, t1, r1, _, relocated⟩ := relocate_begin true c free shape rep mem proper inner kids
    nodup head
  have member : c ∈ first :: rest := by
    rw [← all]
    exact Tree.mem_insertLabel.mpr (Or.inl rfl)
  obtain ⟨before, after, split⟩ := List.append_of_mem member
  rw [split] at r1 nodup
  have old : ∀ p ∈ before ++ c :: after, p ≠ c → T.Mem (p :: w) := by
    intro p hp distinct
    rw [← split, ← all, Tree.mem_insertLabel, ← list] at hp
    exact ⟨mem, hp.resolve_left distinct⟩
  have distinctBefore : ∀ p ∈ before, p ≠ c := fun p hp same =>
    (List.nodup_append.mp nodup).2.2 p hp c List.mem_cons_self same
  have distinctAfter : ∀ p ∈ after, p ≠ c := fun p hp same =>
    (List.nodup_cons.mp (List.nodup_append.mp nodup).2.1).1 (same ▸ hp)
  -- the rounds before the newcomer, its own, and those after it
  obtain ⟨t2, loc2, run2, r2, _, stays2⟩ := plain_rounds true
    (xorByte (t.node (loc w)).base c) c r1
    (fun p hp => ⟨old p (by simp [hp]) (distinctBefore p hp), fun same =>
      distinctBefore p hp (xorByte_injective _ _ _ same)⟩) mem rfl (fun _ => rfl)
  have origin2 : loc2 w = loc w := stays2 w (fun p _ => by simp)
  obtain ⟨t3, run3, r3⟩ := newcomer_round (loc2 w) r2 inner fresh
  have origin3 : Function.update loc2 (c :: w) (xorByte base c) w = loc2 w :=
    Function.update_of_ne (by simp) ..
  rw [show after = after ++ [] by simp] at r3
  obtain ⟨t4, loc4, run4, r4, _, stays4⟩ := plain_rounds true
    (xorByte (t.node (loc w)).base c) c r3
    (fun p hp => ⟨(Tree.mem_add shape mem fresh).mpr (Or.inl (old p (by simp [hp]) (distinctAfter p hp))),
      fun same => distinctAfter p hp (xorByte_injective _ _ _ same)⟩)
    ((Tree.mem_add shape mem fresh).mpr (Or.inl mem)) origin3.symm (fun _ => rfl)
  have here4 : loc4 (c :: w) = xorByte base c := by
    rw [stays4 (c :: w) (fun p hp same => distinctAfter p hp (List.cons.inj same).1.symm)]
    exact Function.update_self ..
  have kidsAll : (T.add w c 0).kids w = before ++ [c] ++ after := by
    rw [Tree.add_kids, if_pos rfl, list, all, split]
    simp
  refine ⟨loc4, t4, ?_, r4.free, r4.settle (by simpa using kidsAll) (by simp)⟩
  rw [relocated, split, here4]
  have rounds : resolveLoop true (xorByte (t.node (loc w)).base c) (loc w) base (t.node (loc w)).base c
      (before ++ c :: after) (loc w) t1 = some (loc4 w, t4) := by
    rw [run2]
    rw [origin2] at run3 run4 ⊢
    refine bind_run run3 ?_
    rw [List.append_nil, origin3, origin2] at run4
    exact run4
  exact bind_run rounds rfl

theorem relocate_other {u : Path} (free : Free t) (shape : T.Shape) (rep : Rep t T loc Settled NoSpare)
    (mem : T.Mem w) (proper : w ≠ []) (inner : ¬ Tree.Leaf w) (kids : T.kids w ≠ [])
    (fresh : c ∉ T.kids w)
    (memQ : T.Mem (q :: u)) (cell : loc (q :: u) = xorByte (t.node (loc w)).base c) (other : u ≠ w)
    (properU : u ≠ []) :
    ∃ loc' t', t.relocate false (loc (q :: u)) (loc u) (t.node (loc u)).base c (loc w) (T.kids u) =
        some (loc' (c :: w), loc' w, t') ∧ Free t' ∧ Rep t' (T.add w c 0) loc' Settled NoSpare := by
  have memU := memQ.1
  obtain ⟨first, rest, all⟩ := List.exists_cons_of_ne_nil (List.ne_nil_of_mem memQ.2)
  obtain ⟨_, firstU⟩ := rep.family shape memU id ((labels_proper properU).trans all)
  have nodup := shape.nodup u
  obtain ⟨base, t1, r1, bases1, relocated⟩ := relocate_begin false c free shape rep
    memU properU (shape.no_leaf_kid memQ) (List.ne_nil_of_mem memQ.2) (all ▸ nodup) (Or.inr firstU)
  obtain ⟨before, after, split⟩ := List.append_of_mem memQ.2
  rw [← all, split] at r1
  rw [split] at nodup
  have kid : ∀ p ∈ before ++ q :: after, T.Mem (p :: u) := fun p hp => ⟨memU, split ▸ hp⟩
  have placeQ := rep.place q u memQ id
  have distinctBefore : ∀ p ∈ before, p ≠ q := fun p hp same =>
    (List.nodup_append.mp nodup).2.2 p hp q List.mem_cons_self same
  have distinctAfter : ∀ p ∈ after, p ≠ q := fun p hp same =>
    (List.nodup_cons.mp (List.nodup_append.mp nodup).2.1).1 (same ▸ hp)
  have memAdd : ∀ v, T.Mem v → (T.add w c 0).Mem v := fun v memV =>
    (Tree.mem_add shape mem fresh).mpr (Or.inl memV)
  rw [placeQ] at cell ⊢
  obtain ⟨t2, loc2, run2, r2, bases2, stays2⟩ := plain_rounds false
    (xorByte (t.node (loc u)).base q) c r1
    (fun p hp => ⟨kid p (by simp [hp]), fun same =>
      distinctBefore p hp (xorByte_injective _ _ _ same)⟩) mem rfl (fun h => by cases h)
  have origin2 : loc2 u = loc u := stays2 u (fun p _ => by simp)
  have cell2 : xorByte (t.node (loc u)).base q = xorByte (t2.node (loc2 w)).base c := by
    rw [bases2 w mem, bases1 w mem (Ne.symm other), cell]
  obtain ⟨t3, loc3, run3, r3, here3, origin3⟩ :=
    contested_round r2 memQ mem (Ne.symm other) proper inner kids fresh cell2
  rw [show after = after ++ [] by simp] at r3
  obtain ⟨t4, loc4, run4, r4, _, stays4⟩ := plain_rounds false
    (xorByte (t.node (loc u)).base q) c r3
    (fun p hp => ⟨memAdd _ (kid p (by simp [hp])), fun same =>
      distinctAfter p hp (xorByte_injective _ _ _ same)⟩) (memAdd w mem) rfl (fun h => by cases h)
  have here4 : loc4 (c :: w) = xorByte (t.node (loc u)).base q := by
    rw [stays4 (c :: w) (fun p _ same => other (List.cons.inj same).2.symm), here3]
  have kidsAll : (T.add w c 0).kids u = before ++ [q] ++ after := by
    rw [Tree.add_kids, if_neg other, split]
    simp
  refine ⟨loc4, t4, ?_, r4.free, r4.settle (by simpa using kidsAll) (by simp)⟩
  rw [all, relocated, ← all, split, here4]
  have rounds : resolveLoop false (xorByte (t.node (loc u)).base q) (loc u) base (t.node (loc u)).base c
      (before ++ q :: after) (loc w) t1 = some (loc4 w, t4) := by
    rw [run2]
    rw [origin2] at run3 origin3
    refine bind_run run3 ?_
    rw [List.append_nil, origin3] at run4
    exact run4
  exact bind_run rounds rfl

/-- etdb_trie_resolve adds the newcomer to the tree and changes nothing else in it. -/
theorem resolve_spec (free : Free t) (shape : T.Shape) (rep : Rep t T loc Settled NoSpare) (mem : T.Mem w)
    (proper : w ≠ []) (inner : ¬ Tree.Leaf w) (kids : T.kids w ≠ []) (fresh : c ∉ T.kids w)
    (taken : t.Occ (xorByte (t.node (loc w)).base c)) :
    ∃ loc' t', t.resolve (loc w) (t.node (loc w)).base c = some (loc' (c :: w), loc' w, t') ∧ Free t' ∧
      Rep t' (T.add w c 0) loc' Settled NoSpare := by
  obtain ⟨q, u, memQ, cell, other, properU⟩ := rep.conflict mem proper kids fresh taken
  have memU := memQ.1
  have occW := rep.occ_node mem
  have occU := rep.occ_node memU
  obtain ⟨dW, lW, listW⟩ := List.exists_cons_of_ne_nil kids
  obtain ⟨dU, lU, listU⟩ := List.exists_cons_of_ne_nil (List.ne_nil_of_mem memQ.2)
  obtain ⟨familyW, firstW⟩ := rep.family shape mem id ((labels_proper proper).trans listW)
  obtain ⟨familyU, firstU⟩ := rep.family shape memU id ((labels_proper properU).trans listU)
  have setW := setChild_spec free familyW (some c) (fun x hx => by
    obtain rfl : c = x := by simpa using hx
    rw [← listW]; exact fresh)
  have setU := setChild_spec free familyU none (by simp)
  have ran : t.resolve (loc w) (t.node (loc w)).base c =
      (if decide (lW.length < lU.length) = true then
        t.relocate true (loc (q :: u)) (loc w) (t.node (loc w)).base c (loc w)
          (Tree.insertLabel c (dW :: lW))
      else t.relocate false (loc (q :: u)) (loc u) (t.node (loc u)).base c (loc w) (dU :: lU)) := by
    refine bind_run (nodeAt_inside (taken.inNode free.sized)) ?_
    rw [← cell, rep.check q u memQ]
    refine bind_run (nodeAt_inside (occU.inNode free.sized)) ?_
    refine bind_run (ninfoAt_inside (occW.inNinfo free.sized)) ?_
    refine bind_run (ninfoAt_inside (occU.inNinfo free.sized)) ?_
    rw [firstW, firstU]
    refine bind_run (consult_spec free familyW familyU familyW.short) ?_
    split
    · exact bind_run setW rfl
    · exact bind_run setU rfl
  rw [ran]
  split
  · rw [cell]
    exact relocate_own free shape rep mem proper inner fresh listW
  · rw [← listU]
    exact relocate_other free shape rep mem proper inner kids fresh memQ cell other properU

end
end Trie
end EtdbTrie
