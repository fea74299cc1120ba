import Etdb.Lib.ByteChain
import Etdb.Lib.ByteTree
import Etdb.Trie.Operations

/- The loops over sibling chains. A family is seen as its base and the list of its
   labels; nothing is said about a tree here. -/
namespace EtdbTrie
open ByteXor ByteChain ByteTree
namespace Trie

abbrev siblingFrom (t : Trie) (base : Int) (d : UInt8) : UInt8 := (t.ninfo (xorByte base d)).sibling

structure Family (t : Trie) (base : Int) (c : UInt8) (l : List UInt8) : Prop where
  chain : Chain (t.siblingFrom base) c l
  inside : ∀ d ∈ c :: l, t.Occ (xorByte base d)
  nodup : (c :: l).Nodup

section
variable {t t' : Trie} {base baseN baseP origin dest : Int} {c d x p : UInt8}
    {l m before after : List UInt8}

theorem Family.next (f : Family t base c l) : t.siblingFrom base c = l.headD 0 := chain_head f.chain

theorem Family.tail (f : Family t base c (d :: l)) : Family t base d l :=
  ⟨f.chain.2.2, fun x hx => f.inside x (List.mem_cons_of_mem c hx), (List.nodup_cons.mp f.nodup).2⟩

theorem Family.readNinfo (f : Family t base c l) (free : Free t) (label : d ∈ c :: l) :
    t.ninfoAt (xorByte base d) = some (t.ninfo (xorByte base d)) :=
  ninfoAt_inside ((f.inside d label).inNinfo free.sized)

theorem Family.short (f : Family t base c l) : l.length < 256 := by
  have := distinct_bytes f.nodup
  simp only [List.length_cons] at this
  omega

theorem consult_spec (free : Free t) (n : Family t baseN c l) (p : Family t baseP d m) {fuel : Nat}
    (enough : l.length < fuel) :
    t.consult baseN baseP fuel c d = some (decide (l.length < m.length)) := by
  induction fuel generalizing c d l m with
  | zero => omega
  | succ fuel ih =>
    refine bind_run (n.readNinfo free List.mem_cons_self) ?_
    refine bind_run (p.readNinfo free List.mem_cons_self) ?_
    have nextN : (t.ninfo (xorByte baseN c)).sibling = l.headD 0 := n.next
    have nextP : (t.ninfo (xorByte baseP d)).sibling = m.headD 0 := p.next
    rw [nextN, nextP]
    cases l with
    | nil =>
      cases m with
      | nil => simp
      | cons y ys => simp [p.chain.2.1]
    | cons x xs =>
      cases m with
      | nil => simp
      | cons y ys =>
        rw [if_pos ⟨n.chain.2.1, p.chain.2.1⟩]
        simp only [List.headD_cons, List.length_cons] at enough ⊢
        rw [ih n.tail p.tail (by omega)]
        simp

theorem collect_spec (free : Free t) (f : Family t base c l) (proper : c ≠ 0) {fuel : Nat}
    (enough : l.length + 1 < fuel) : t.collect base fuel c = some (c :: l) := by
  induction fuel generalizing c l with
  | zero => omega
  | succ fuel ih =>
    rw [collect, if_neg proper]
    refine bind_run (f.readNinfo free List.mem_cons_self) ?_
    have next : (t.ninfo (xorByte base c)).sibling = l.headD 0 := f.next
    rw [next]
    cases l with
    | nil =>
      obtain ⟨fuel, rfl⟩ : ∃ n, fuel = n + 1 :=
        ⟨fuel - 1, by simp only [List.length_nil] at enough; omega⟩
      rfl
    | cons y ys =>
      refine bind_run (ih f.tail f.chain.2.1 ?_) rfl
      simp only [List.length_cons] at enough
      omega

theorem collect_rest (free : Free t) (f : Family t base c l) :
    t.collect base 256 (l.headD 0) = some l := by
  cases l with
  | nil => rfl
  | cons y ys =>
    have := f.short
    exact collect_spec free f.tail f.chain.2.1 this

/-- The labels that are to be placed: a chain, with the newcomer if there is one. -/
def withLabel : Option UInt8 → List UInt8 → List UInt8
  | none, l => l
  | some x, l => Tree.insertLabel x l

theorem setChild_spec (free : Free t) (f : Family t base c l) (label : Option UInt8)
    (fresh : ∀ x ∈ label, x ∉ c :: l) :
    t.setChild base c label = some (withLabel label (c :: l)) := by
  have fits : (if c = 0 then c :: label.toList ++ l else label.toList ++ c :: l) =
      withLabel label (c :: l) := by
    cases label <;> by_cases zero : c = 0 <;> simp [withLabel, Tree.insertLabel, zero]
  have nodup : (withLabel label (c :: l)).Nodup := by
    cases label with
    | none => exact f.nodup
    | some x => exact Tree.insertLabel_nodup f.nodup (fresh x rfl)
  have short := distinct_bytes nodup
  by_cases zero : c = 0
  · rw [if_pos zero] at fits
    refine (if_pos zero).trans ?_
    refine bind_run (f.readNinfo free List.mem_cons_self) ?_
    have next : (t.ninfo (xorByte base c)).sibling = l.headD 0 := f.next
    rw [next]
    refine bind_run (collect_rest free f) ?_
    rw [← fits] at short ⊢
    exact if_pos short
  · rw [if_neg zero] at fits
    refine (if_neg zero).trans ?_
    have proper : (0 : UInt8) ∉ c :: l := by
      have later := zero_not_later f.chain
      simp [later, Ne.symm zero]
    have room := distinct_bytes (List.nodup_cons.mpr ⟨proper, f.nodup⟩)
    simp only [List.length_cons] at room
    refine bind_run (collect_spec free f zero (by omega)) ?_
    rw [← fits] at short ⊢
    exact if_pos short

structure Reparented (t t' : Trie) (base dest : Int) (labels : List UInt8) : Prop where
  free : Free t'
  size : t'.size = t.size
  occ : ∀ i, t'.Occ i ↔ t.Occ i
  ninfo : t'.ninfo = t.ninfo
  others : ∀ i, (∀ d ∈ labels, i ≠ xorByte base d) → t'.node i = t.node i
  listed : ∀ d ∈ labels, t'.node (xorByte base d) = ⟨(t.node (xorByte base d)).base, dest⟩

theorem Family.congr {l : List UInt8} (f : Family t base c l) (occ : ∀ i, t'.Occ i ↔ t.Occ i)
    (ninfo : t'.ninfo = t.ninfo) : Family t' base c l :=
  ⟨chain_congr f.chain (fun d _ => by rw [siblingFrom, ninfo]), fun d hd => (occ _).mpr (f.inside d hd),
    f.nodup⟩

theorem reparent_spec (dest : Int) (free : Free t) (f : Family t base c l) (parent : 0 ≤ dest)
    {fuel : Nat} (enough : l.length < fuel) :
    ∃ t', t.reparent base dest fuel c = some t' ∧ Reparented t t' base dest (c :: l) := by
  induction fuel generalizing t c l with
  | zero => omega
  | succ fuel ih =>
    have occ := f.inside c List.mem_cons_self
    let t1 := t.setNode (xorByte base c) ⟨(t.node (xorByte base c)).base, dest⟩
    obtain ⟨free1, occ1⟩ := free.setNode (n := ⟨(t.node (xorByte base c)).base, dest⟩) occ (Or.inr parent)
    have f1 : Family t1 base c l := f.congr occ1 rfl
    have next : (t1.ninfo (xorByte base c)).sibling = l.headD 0 := f1.next
    have ran : t.reparent base dest (fuel + 1) c =
        if l.headD 0 ≠ 0 then t1.reparent base dest fuel (l.headD 0) else some t1 := by
      refine bind_run (writeCheck_inside (occ.inNode free.sized)) ?_
      refine bind_run (f1.readNinfo free1 List.mem_cons_self) ?_
      rw [next]
    rw [ran]
    have here : t1.node (xorByte base c) = ⟨(t.node (xorByte base c)).base, dest⟩ := by
      simp [t1, Trie.setNode]
    have others : ∀ i, i ≠ xorByte base c → t1.node i = t.node i := fun i hi => by
      simp [t1, Trie.setNode, hi]
    cases l with
    | nil =>
      refine ⟨t1, rfl, free1, rfl, occ1, rfl, ?_, ?_⟩
      · intro i hi
        exact others i (hi c (by simp))
      · intro d hd
        rw [List.mem_singleton.mp hd]
        exact here
    | cons y ys =>
      rw [List.headD_cons, if_pos f.chain.2.1]
      simp only [List.length_cons] at enough
      obtain ⟨t2, run, r⟩ := ih free1 f1.tail (by omega)
      have distinct : ∀ d ∈ y :: ys, xorByte base d ≠ xorByte base c := by
        intro d hd same
        have := xorByte_injective base d c same
        exact (List.nodup_cons.mp f.nodup).1 (this ▸ hd)
      refine ⟨t2, run, r.free, r.size, fun i => (r.occ i).trans (occ1 i), r.ninfo, ?_, ?_⟩
      · intro i hi
        rw [r.others i (fun d hd => hi d (List.mem_cons_of_mem c hd)), others i (hi c (by simp))]
      · intro d hd
        rcases List.mem_cons.mp hd with rfl | later
        · rw [r.others _ (fun x hx same => distinct x hx same.symm), here]
        · rw [r.listed d later, others _ (distinct d later)]

/-- What a chain operation may change: the parent's child field and sibling fields of `cells`. -/
structure Relabelled (t t' : Trie) (origin : Int) (cells : Int → Prop) : Prop where
  free : Free t'
  occ : ∀ i, t'.Occ i ↔ t.Occ i
  size : t'.size = t.size
  node : t'.node = t.node
  child : ∀ i, i ≠ origin → (t'.ninfo i).child = (t.ninfo i).child
  sibling : ∀ i, ¬ cells i → (t'.ninfo i).sibling = (t.ninfo i).sibling

theorem relabelled_sibling {i : Int} {x : UInt8} {cells : Int → Prop} (free : Free t) (occ : t.Occ i)
    (cell : cells i) : Relabelled t (t.setNinfo i ⟨x, (t.ninfo i).child⟩) origin cells where
  free := free.setNinfo occ
  occ := fun _ => Iff.rfl
  size := rfl
  node := rfl
  child := by
    intro j _
    by_cases same : j = i <;> simp [setNinfo, same]
  sibling := by
    intro j out
    have other : j ≠ i := fun same => out (same ▸ cell)
    simp [setNinfo, other]

theorem relabelled_child {x : UInt8} {cells : Int → Prop} (free : Free t) (occ : t.Occ origin) :
    Relabelled t (t.setNinfo origin ⟨(t.ninfo origin).sibling, x⟩) origin cells where
  free := free.setNinfo occ
  occ := fun _ => Iff.rfl
  size := rfl
  node := rfl
  child := by
    intro j other
    simp [setNinfo, other]
  sibling := by
    intro j _
    by_cases same : j = origin <;> simp [setNinfo, same]

theorem Relabelled.trans {t'' : Trie} {cells : Int → Prop} (h : Relabelled t t' origin cells)
    (h' : Relabelled t' t'' origin cells) : Relabelled t t'' origin cells where
  free := h'.free
  occ := fun i => (h'.occ i).trans (h.occ i)
  size := h'.size.trans h.size
  node := h'.node.trans h.node
  child := fun i hi => (h'.child i hi).trans (h.child i hi)
  sibling := fun i hi => (h'.sibling i hi).trans (h.sibling i hi)

def Hangs (t : Trie) (origin base : Int) (labels : List UInt8) : Prop :=
  ∀ c l, labels = c :: l → (t.ninfo origin).child = c ∧ Chain (t.siblingFrom base) c l

theorem pushSibling_more (free : Free t) (f : Family t base c l) (parent : t.Occ origin)
    (first : (t.ninfo origin).child = c) (fresh : x ∉ c :: l) (cell : t.Occ (xorByte base x)) :
    ∃ t', t.pushSibling origin base x true = some t' ∧
      Relabelled t t' origin (fun i => i = xorByte base x ∨ i = xorByte base c) ∧
      Hangs t' origin base (Tree.insertLabel x (c :: l)) := by
  have apart : ∀ d ∈ c :: l, xorByte base d ≠ xorByte base x := fun d hd same =>
    fresh (xorByte_injective base d x same ▸ hd)
  have next : (t.ninfo (xorByte base c)).sibling = l.headD 0 := f.next
  by_cases zero : c = 0
  · let t1 := t.setNinfo (xorByte base x) ⟨l.headD 0, (t.ninfo (xorByte base x)).child⟩
    let t2 := t1.setNinfo (xorByte base c) ⟨x, (t1.ninfo (xorByte base c)).child⟩
    have occC := f.inside c List.mem_cons_self
    have r1 : Relabelled t t1 origin (fun i => i = xorByte base x ∨ i = xorByte base c) :=
      relabelled_sibling free cell (Or.inl rfl)
    have r2 : Relabelled t1 t2 origin (fun i => i = xorByte base x ∨ i = xorByte base c) :=
      relabelled_sibling r1.free ((r1.occ _).mpr occC) (Or.inr rfl)
    refine ⟨t2, ?_, r1.trans r2, ?_⟩
    · refine bind_run (ninfoAt_inside (parent.inNinfo free.sized)) ?_
      rw [first, if_pos ⟨rfl, zero⟩]
      refine bind_run (f.readNinfo free List.mem_cons_self) ?_
      rw [next]
      refine bind_run (writeSibling_inside (cell.inNinfo free.sized)) ?_
      exact writeSibling_inside (t := t1) (((r1.occ _).mpr occC).inNinfo r1.free.sized)
    · intro d m list
      simp only [Tree.insertLabel, if_pos zero] at list
      obtain ⟨rfl, rfl⟩ := List.cons.inj list
      have stepIn : t2.siblingFrom base c = x := by simp [siblingFrom, t2, setNinfo]
      have stepOut : t2.siblingFrom base x = t.siblingFrom base c := by
        have other := (apart c List.mem_cons_self).symm
        simp [siblingFrom, t2, t1, setNinfo, other, next]
      refine ⟨?_, chain_insert f.chain (fun h => fresh (by simp [h, zero])) stepIn stepOut ?_⟩
      · by_cases here : origin = xorByte base c
        · rw [← first, here]
          have other := apart c List.mem_cons_self
          simp [t2, t1, setNinfo, other]
        · by_cases there : origin = xorByte base x
          · rw [← first, there]
            have other := (apart c List.mem_cons_self).symm
            simp [t2, t1, setNinfo, other]
          · simp [t2, t1, setNinfo, here, there, first]
      · intro d hd
        have other : xorByte base d ≠ xorByte base c := by
          intro same
          exact (List.nodup_cons.mp f.nodup).1 (xorByte_injective base d c same ▸ hd)
        have other' := apart d (List.mem_cons_of_mem c hd)
        simp [siblingFrom, t2, t1, setNinfo, other, other']
  · let t1 := t.setNinfo (xorByte base x) ⟨c, (t.ninfo (xorByte base x)).child⟩
    let t2 := t1.setNinfo origin ⟨(t1.ninfo origin).sibling, x⟩
    have r1 : Relabelled t t1 origin (fun i => i = xorByte base x ∨ i = xorByte base c) :=
      relabelled_sibling free cell (Or.inl rfl)
    have r2 : Relabelled t1 t2 origin (fun i => i = xorByte base x ∨ i = xorByte base c) :=
      relabelled_child r1.free ((r1.occ _).mpr parent)
    have siblings : ∀ i, (t2.ninfo i).sibling = (t1.ninfo i).sibling := by
      intro i
      by_cases same : i = origin <;> simp [t2, setNinfo, same]
    refine ⟨t2, ?_, r1.trans r2, ?_⟩
    · refine bind_run (ninfoAt_inside (parent.inNinfo free.sized)) ?_
      rw [first, if_neg (by simp [zero])]
      refine bind_run (writeSibling_inside (cell.inNinfo free.sized)) ?_
      exact writeChild_inside (t := t1) (((r1.occ _).mpr parent).inNinfo r1.free.sized)
    · intro d m list
      simp only [Tree.insertLabel, if_neg zero] at list
      obtain ⟨rfl, rfl⟩ := List.cons.inj list
      refine ⟨by simp [t2, setNinfo], chain_push f.chain zero ?_ ?_⟩
      · rw [siblingFrom, siblings]
        simp [t1, setNinfo]
      · intro d hd
        rw [siblingFrom, siblings]
        simp [t1, setNinfo, apart d hd]

theorem pushSibling_first (base : Int) (x : UInt8) (free : Free t) (parent : t.Occ origin)
    (none : (t.ninfo origin).child = 0) (cell : t.Occ (xorByte base x)) :
    ∃ t', t.pushSibling origin base x false = some t' ∧
      Relabelled t t' origin (fun i => i = xorByte base x) ∧ Hangs t' origin base [x] := by
  let t1 := t.setNinfo (xorByte base x) ⟨0, (t.ninfo (xorByte base x)).child⟩
  let t2 := t1.setNinfo origin ⟨(t1.ninfo origin).sibling, x⟩
  have r1 : Relabelled t t1 origin (fun i => i = xorByte base x) := relabelled_sibling free cell rfl
  have r2 : Relabelled t1 t2 origin (fun i => i = xorByte base x) :=
    relabelled_child r1.free ((r1.occ _).mpr parent)
  refine ⟨t2, ?_, r1.trans r2, ?_⟩
  · refine bind_run (ninfoAt_inside (parent.inNinfo free.sized)) ?_
    rw [none, if_neg (by simp)]
    refine bind_run (writeSibling_inside (cell.inNinfo free.sized)) ?_
    exact writeChild_inside (t := t1) (((r1.occ _).mpr parent).inNinfo r1.free.sized)
  · intro d m list
    obtain ⟨rfl, rfl⟩ := List.cons.inj list
    refine ⟨by simp [t2, setNinfo], ?_⟩
    show t2.siblingFrom base x = 0
    by_cases same : xorByte base x = origin <;> simp [siblingFrom, t2, t1, setNinfo, same]

theorem Family.suffix (f : Family t base c (before ++ x :: after)) : Family t base x after := by
  induction before generalizing c with
  | nil => exact f.tail
  | cons d ds ih => exact ih f.tail

theorem popLater_spec (free : Free t) (f : Family t base c (before ++ x :: after))
    (last : (c :: before).getLast? = some p) {fuel : Nat} (enough : before.length < fuel) :
    t.popLater base x fuel c =
      some (t.setNinfo (xorByte base p) ⟨after.headD 0, (t.ninfo (xorByte base p)).child⟩) := by
  induction fuel generalizing c before with
  | zero => omega
  | succ fuel ih =>
    refine bind_run (f.readNinfo free List.mem_cons_self) ?_
    have next : (t.ninfo (xorByte base c)).sibling = (before ++ x :: after).headD 0 := f.next
    rw [next]
    cases before with
    | nil =>
      obtain rfl : c = p := by simpa using last
      rw [if_pos (by simp)]
      refine bind_run (f.readNinfo free (by simp)) ?_
      have after' : (t.ninfo (xorByte base x)).sibling = after.headD 0 := f.suffix.next
      rw [after']
      exact writeSibling_inside ((f.inside c List.mem_cons_self).inNinfo free.sized)
    | cons d ds =>
      have other : d ≠ x := by
        rintro rfl
        have := (List.nodup_cons.mp (List.nodup_cons.mp f.nodup).2).1
        exact this (by simp)
      rw [List.cons_append, List.headD_cons, if_neg other]
      simp only [List.length_cons] at enough
      exact ih f.tail (by simpa using last) (by omega)

theorem popSibling_spec (free : Free t) (f : Family t base c l) (parent : t.Occ origin)
    (first : (t.ninfo origin).child = c) (label : x ∈ c :: l) :
    ∃ t', t.popSibling origin base x = some t' ∧
      Relabelled t t' origin (fun i => ∃ d ∈ c :: l, i = xorByte base d) ∧
      Hangs t' origin base ((c :: l).erase x) := by
  by_cases head : c = x
  · subst head
    let t1 := t.setNinfo origin ⟨(t.ninfo origin).sibling, l.headD 0⟩
    refine ⟨t1, ?_, relabelled_child free parent, ?_⟩
    · refine bind_run (ninfoAt_inside (parent.inNinfo free.sized)) ?_
      rw [if_pos first]
      refine bind_run (f.readNinfo free List.mem_cons_self) ?_
      have next : (t.ninfo (xorByte base c)).sibling = l.headD 0 := f.next
      rw [next]
      exact writeChild_inside (parent.inNinfo free.sized)
    · intro d m list
      rw [List.erase_cons_head] at list
      subst list
      refine ⟨by simp [t1, setNinfo], chain_congr f.tail.chain ?_⟩
      intro y _
      by_cases same : xorByte base y = origin <;> simp [siblingFrom, t1, setNinfo, same]
  · obtain ⟨before, after, rfl⟩ :=
      List.append_of_mem ((List.mem_cons.mp label).resolve_left (Ne.symm head))
    obtain ⟨p, last⟩ : ∃ p, (c :: before).getLast? = some p :=
      ⟨_, List.getLast?_eq_some_getLast (by simp)⟩
    have short := f.short
    simp only [List.length_append, List.length_cons] at short
    have inside : p ∈ c :: (before ++ x :: after) := by
      have := List.mem_of_getLast? last
      simp only [List.mem_cons, List.mem_append] at this ⊢
      tauto
    have occP := f.inside p inside
    refine ⟨_, ?_, relabelled_sibling (x := after.headD 0) free occP ⟨p, inside, rfl⟩, ?_⟩
    · refine bind_run (ninfoAt_inside (parent.inNinfo free.sized)) ?_
      rw [first, if_neg head]
      exact popLater_spec free f last (by omega)
    · intro d m list
      have out : x ∉ before := by
        intro h
        have nodup := (List.nodup_cons.mp f.nodup).2
        exact (List.nodup_append.mp nodup).2.2 x h x List.mem_cons_self rfl
      have erased : (c :: (before ++ x :: after)).erase x = c :: (before ++ after) := by
        rw [List.erase_cons_tail (by simpa using head), List.erase_append_right _ out,
          List.erase_cons_head]
      rw [erased] at list
      obtain ⟨rfl, rfl⟩ := List.cons.inj list
      refine ⟨?_, chain_cut f.chain f.nodup last ?_ ?_⟩
      · by_cases same : origin = xorByte base p <;> simp [setNinfo, same, ← first]
      · have next : t.siblingFrom base x = after.headD 0 := f.suffix.next
        simp [siblingFrom, setNinfo, next]
      · intro y _ other
        have apart : xorByte base y ≠ xorByte base p :=
          fun same => other (xorByte_injective base y p same)
        simp [siblingFrom, setNinfo, apart]

end
end Trie
end EtdbTrie
