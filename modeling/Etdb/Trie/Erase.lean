import Etdb.Trie.Calls

/- etdb_trie_erase: the climb frees a value slot and the ancestors that are left without
   children. Block 0 can only take a cell back while its ring is not used up. -/
namespace EtdbTrie
open ByteXor ByteChain ByteTree
namespace Trie
section
variable {t t' : Trie} {T : ByteTree.Tree Int} {loc : Path → Int} {X : Path → Prop} {e w : Path}
    {c d : UInt8}
variable {l key : List UInt8} {i : Int}

def RootRoom (T : ByteTree.Tree Int) : Prop := ∃ x : UInt8, x ≠ 0 ∧ x ∉ T.kids []

/-- Removing the node at `e` is safe: it takes no child from the root, or block 0 has a free cell. -/
def Removable (T : ByteTree.Tree Int) (e : Path) : Prop := RootRoom T ∨ (T.prune e).kids [] = T.kids []

theorem Rep.root_room (rep : Rep t T loc X NoSpare) (settled : ∀ w, T.Mem w → T.kids w ≠ [] → ¬ X w)
    (free : Free t) (room : RootRoom T) : ∃ i, t.Empty i ∧ i / 256 = 0 := by
  obtain ⟨x, proper, unused⟩ := room
  have block := xorByte_block 0 x
  have pos := free.sized.pos
  have notZero : xorByte 0 x ≠ 0 := fun zero =>
    proper (xorByte_injective 0 x 0 (zero.trans (xorByte_zero 0).symm))
  refine ⟨xorByte 0 x, ?_, by omega⟩
  rcases empty_or_occ (t := t) (i := xorByte 0 x) (by omega) with empty | occ
  · exact empty
  · obtain ⟨v, memV, cell⟩ := ((rep.occ _).mp occ).resolve_right id
    cases v with
    | nil =>
      rw [rep.root] at cell
      exact absurd cell.symm notZero
    | cons q u =>
      have some : T.kids u ≠ [] := List.ne_nil_of_mem memV.2
      have place := rep.place q u memV (settled u memV.1 some)
      by_cases root : u = []
      · subst root
        rw [rep.rootBase, cell] at place
        rw [xorByte_injective _ _ _ place] at unused
        exact absurd memV.2 unused
      · have high := rep.high u memV.1 root some
        have block' := xorByte_block (t.node (loc u)).base q
        rw [← place, cell] at block'
        omega

theorem erase_alone (l : List UInt8) (c : UInt8) (member : c ∈ l) : l.erase c = [] ↔ l = [c] := by
  constructor
  · intro none
    have perm := List.perm_cons_erase member
    rw [none] at perm
    exact List.perm_singleton.mp perm
  · rintro rfl
    simp

theorem Rep.depth (rep : Rep t T loc X NoSpare) (mem : T.Mem w) : (w.length : Int) < t.size := by
  have chain : ∀ w, T.Mem w → ∃ l : List Path, l.Nodup ∧ l.length = w.length + 1 ∧
      ∀ u ∈ l, T.Mem u ∧ u.length ≤ w.length := by
    intro w
    induction w with
    | nil => exact fun _ => ⟨[[]], by simp, rfl, by simp [Tree.Mem]⟩
    | cons c w ih =>
      intro mem
      obtain ⟨l, nodup, length, inside⟩ := ih mem.1
      refine ⟨(c :: w) :: l, List.nodup_cons.mpr ⟨fun h => ?_, nodup⟩, by simp [length], ?_⟩
      · exact Nat.not_succ_le_self _ (inside _ h).2
      · intro u hu
        rcases List.mem_cons.mp hu with rfl | later
        · exact ⟨mem, Nat.le_refl _⟩
        · exact ⟨(inside u later).1, by simp only [List.length_cons]; have := (inside u later).2; omega⟩
  obtain ⟨l, nodup, length, inside⟩ := chain w mem
  have bounds : ∀ u ∈ l, 0 ≤ loc u ∧ loc u < t.size := fun u hu =>
    ⟨(rep.occ_node (inside u hu).1).1, (rep.occ_node (inside u hu).1).2.1⟩
  have images : (l.map fun u => (loc u).toNat).Nodup := by
    refine List.Nodup.map_on ?_ nodup
    intro x hx y hy same
    have := bounds x hx; have := bounds y hy
    exact rep.inj x y (inside x hx).1 (inside y hy).1 (by omega)
  have sub : (l.map fun u => (loc u).toNat) ⊆ List.range t.size.toNat := by
    intro n hn
    obtain ⟨u, hu, rfl⟩ := List.mem_map.mp hn
    have := bounds u hu
    exact List.mem_range.mpr (by omega)
  have short := (images.subperm sub).length_le
  simp only [List.length_map, List.length_range] at short
  omega

theorem labels_some (some : T.kids w ≠ []) : ∃ d l, labels T w = d :: l := by
  by_cases root : w = []
  · exact ⟨0, T.kids [], if_pos root⟩
  · rw [labels_proper root]
    exact List.exists_cons_of_ne_nil some

theorem climb_stops (mem : T.Mem (c :: w)) (list : labels T w = d :: l) :
    w = [] ∨ (T.kids w).erase c ≠ [] ↔ l ≠ [] := by
  have kids : T.kids w ≠ [] := List.ne_nil_of_mem mem.2
  have label : c ∈ d :: l := list ▸ kid_label mem.2
  by_cases root : w = []
  · subst root
    have rest := (List.cons.inj (show 0 :: T.kids [] = d :: l from list)).2
    simp only [true_or, true_iff]
    rw [← rest]
    exact kids
  · rw [labels_proper root] at list
    rw [ne_eq, erase_alone (T.kids w) c mem.2, list]
    constructor
    · rintro (h | h) rfl
      · exact root h
      · exact h (by rw [List.mem_singleton.mp label])
    · intro h
      exact Or.inr (fun same => h (List.cons.inj same).2)

theorem eraseLoop_turn (free : Free t) (shape : T.Shape) (rep : Rep t T loc (· = c :: w) NoSpare)
    (mem : T.Mem (c :: w)) (list : labels T w = d :: l) (fuel : Nat) :
    eraseLoop (fuel + 1) (loc w) (loc (c :: w)) t = (if l ≠ [] then do
      let t ← t.popSibling (loc w) (t.node (loc w)).base c
      let t ← t.pushEmptyNode (loc (c :: w))
      let _ ← t.nodeAt (loc w)
      some t
    else do
      let t ← t.pushEmptyNode (loc (c :: w))
      let n ← t.nodeAt (loc w)
      eraseLoop fuel n.check (loc w) t) := by
  have self : w ≠ c :: w := by simp
  have occW := rep.occ_node mem.1
  obtain ⟨family, first⟩ := rep.family shape mem.1 self list
  have labelByte : lowXor (t.node (loc w)).base (loc (c :: w)) = c := by
    rw [rep.place c w mem self]
    exact lowXor_step _ c
  have more : l.headD 0 ≠ 0 ↔ l ≠ [] := by
    cases l with
    | nil => simp
    | cons y ys => simp [family.chain.2.1]
  have readFirst : (t.ninfo (xorByte (t.node (loc w)).base d)).sibling = l.headD 0 := family.next
  refine bind_run (nodeAt_inside (occW.inNode free.sized)) ?_
  refine bind_run (ninfoAt_inside (occW.inNinfo free.sized)) ?_
  rw [first]
  refine bind_run (family.readNinfo free List.mem_cons_self) ?_
  rw [readFirst, labelByte]
  by_cases some : l ≠ []
  · rw [if_pos some, if_pos (more.mpr some)]
  · rw [if_neg some, if_neg (fun h => some (more.mp h))]

theorem climb_on (free : Free t) (shape : T.Shape) (rep : Rep t T loc (· = c :: w) NoSpare)
    (mem : T.Mem (c :: w)) (childless : T.kids (c :: w) = []) (proper : w ≠ []) (only : T.kids w = [c])
    (fuel : Nat) :
    ∃ t1, eraseLoop (fuel + 1) (loc w) (loc (c :: w)) t = eraseLoop fuel (t1.node (loc w)).check
    (loc w) t1 ∧
      Free t1 ∧ Rep t1 (T.remove w c) loc (· = w) NoSpare ∧ t1.size = t.size := by
  have self : w ≠ c :: w := by simp
  have occW := rep.occ_node mem.1
  have high := rep.high w mem.1 proper (by simp [only])
  have block := xorByte_block (t.node (loc w)).base c
  rw [← rep.place c w mem self] at block
  have notZero : loc (c :: w) ≠ 0 := by omega
  have apartW : loc w ≠ loc (c :: w) := fun same => self (rep.inj _ _ mem.1 mem same)
  obtain ⟨t1, run1, free1, released, size⟩ :=
    push_released free (rep.occ_node mem) notZero (Or.inl (by omega))
  have a : Detaching t t1 T loc (· = w) w c := by
    refine ⟨released.occ, ?_, ?_, ?_, fun h => absurd rfl h⟩
    · intro u memU other
      exact released.node _ (rep.occ_node memU) (fun same => other (rep.inj _ _ memU mem same))
    · intro u memU other _
      rw [released.ninfo _ (fun same => other (rep.inj _ _ memU mem same))]
    · intro u memU notKid _
      rw [released.ninfo _ (fun same => notKid c (rep.inj _ _ memU mem same))]
  have rep1 := rep.detach shape mem childless (fun root => absurd root proper) (fun u other _ => other) a
  refine ⟨t1, ?_, free1, rep1, size⟩
  rw [eraseLoop_turn free shape rep mem ((labels_proper proper).trans only), if_neg (by simp)]
  refine bind_run run1 ?_
  exact bind_run (nodeAt_inside (((released.occ _).mpr ⟨occW, apartW⟩).inNode free1.sized)) rfl

/-- A child taken out of the sibling chain, and then its cell back into the free list. -/
theorem detaching_of_released {t1 t2 : Trie} (rep : Rep t T loc X NoSpare) (mem : T.Mem (c :: w))
    (self : ¬ X w) (list : labels T w = d :: l) (more : l ≠ [])
    (nodup : (d :: l).Nodup)
    (popped : Relabelled t t1 (loc w) fun i => ∃ x ∈ d :: l, i = xorByte (t.node (loc w)).base x)
    (hangs : Hangs t1 (loc w) (t.node (loc w)).base ((d :: l).erase c))
    (released : Released t1 t2 (loc (c :: w))) : Detaching t t2 T loc Settled w c := by
  have memW := mem.1
  have label : c ∈ d :: l := list ▸ kid_label mem.2
  have place := rep.place c w mem self
  have apartW : loc w ≠ loc (c :: w) := fun same => by
    have := rep.inj _ _ memW mem same
    simp at this
  refine ⟨fun i => ?_, ?_, ?_, ?_, ?_⟩
  · rw [released.occ, popped.occ]
  · intro u memU other
    rw [released.node _ ((popped.occ _).mpr (rep.occ_node memU))
      (fun same => other (rep.inj _ _ memU mem same)), popped.node]
  · intro u memU other notW
    rw [released.ninfo _ (fun same => other (rep.inj _ _ memU mem same))]
    exact popped.child _ (fun same => notW (rep.inj _ _ memU memW same))
  · intro u memU notKid notRoot
    rw [released.ninfo _ (fun same => notKid c (rep.inj _ _ memU mem same))]
    refine popped.sibling _ ?_
    rintro ⟨x, hx, same⟩
    obtain ⟨y, memY, cell, which⟩ := rep.label_cell memW self (list ▸ hx)
    have uy : u = y := rep.inj u y memU memY (same.trans cell)
    rcases which with ⟨kid, _⟩ | ⟨top, _, root⟩
    · exact notKid x (uy.trans kid)
    · exact notRoot top (uy.trans root)
  · intro _
    have some : (d :: l).erase c ≠ [] := by
      rw [ne_eq, erase_alone _ _ label]
      exact fun same => more (List.cons.inj same).2
    obtain ⟨x, m, rest⟩ := List.exists_cons_of_ne_nil some
    obtain ⟨child, chain⟩ := hangs x m rest
    refine ⟨x, m, by rw [list, rest], by rw [released.ninfo _ apartW, child], chain_congr chain ?_⟩
    intro y hy
    have kept := (nodup.mem_erase_iff).mp (rest ▸ hy)
    rw [released.ninfo]
    intro same
    rw [place] at same
    exact kept.1 (xorByte_injective _ _ _ same)

theorem climb_stop (free : Free t) (shape : T.Shape) (rep : Rep t T loc (· = c :: w) NoSpare)
    (mem : T.Mem (c :: w)) (childless : T.kids (c :: w) = []) (stop : w = [] ∨ (T.kids w).erase c ≠ [])
    (room : w = [] → RootRoom T) (fuel : Nat) :
    ∃ t', eraseLoop (fuel + 1) (loc w) (loc (c :: w)) t = some t' ∧ Free t' ∧
      Rep t' (T.remove w c) loc Settled NoSpare ∧ t'.size = t.size := by
  have memW := mem.1
  have self : w ≠ c :: w := by simp
  have occW := rep.occ_node memW
  have occE := rep.occ_node mem
  have place := rep.place c w mem self
  have kidsW : T.kids w ≠ [] := List.ne_nil_of_mem mem.2
  have rootZero : w = [] → c ≠ 0 := by
    rintro rfl rfl
    exact shape.root mem.2
  obtain ⟨d, l, list⟩ := labels_some kidsW
  have last := (climb_stops mem list).mp stop
  have label : c ∈ d :: l := list ▸ kid_label mem.2
  obtain ⟨family, first⟩ := rep.family shape memW self list
  have notZero : loc (c :: w) ≠ 0 := fun zero => by
    have := (rep.loc_zero mem).mp zero
    cases this
  obtain ⟨t1, run1, popped, hangs⟩ := popSibling_spec free family occW first label
  have freeCell : loc (c :: w) / 256 ≠ 0 ∨ ∃ i, t1.Empty i ∧ i / 256 = 0 := by
    by_cases root : w = []
    · obtain ⟨i, empty, block⟩ := rep.root_room (fun v _ kids here => kids (here ▸ childless)) free
        (room root)
      refine Or.inr ⟨i, empty.keep (Int.le_of_eq popped.size.symm) ?_, block⟩
      rw [popped.occ]
      exact empty.not_occ
    · have high := rep.high w memW root kidsW
      have block := xorByte_block (t.node (loc w)).base c
      rw [← place] at block
      exact Or.inl (by omega)
  obtain ⟨t2, run2, free2, released, size⟩ :=
    push_released popped.free ((popped.occ _).mpr occE) notZero freeCell
  have apartW : loc w ≠ loc (c :: w) := fun same => self (rep.inj _ _ memW mem same)
  have a := detaching_of_released rep mem self list last family.nodup popped hangs released
  refine ⟨t2, ?_, free2, rep.detach shape mem childless rootZero (fun u other _ => other) a,
    size.trans popped.size⟩
  rw [eraseLoop_turn free shape rep mem list, if_pos last]
  refine bind_run run1 ?_
  refine bind_run run2 ?_
  exact bind_run (nodeAt_inside (((released.occ _).mpr ⟨(popped.occ _).mpr occW, apartW⟩).inNode
    free2.sized)) rfl

theorem eraseLoop_spec {fuel : Nat} (free : Free t) (shape : T.Shape) (rep : Rep t T loc (· = e) NoSpare)
    (mem : T.Mem e) (childless : T.kids e = []) (room : Removable T e) (parent : e = c :: w)
    (enough : e.length ≤ fuel) :
    ∃ t', eraseLoop fuel (loc w) (loc e) t = some t' ∧ Free t' ∧
    Rep t' (T.prune e) loc Settled NoSpare ∧ t'.size = t.size := by
  induction fuel generalizing t T e c w with
  | zero =>
    subst parent
    simp at enough
  | succ fuel ih =>
    subst parent
    by_cases stop : w = [] ∨ (T.kids w).erase c ≠ []
    · rw [Tree.prune, if_pos stop]
      refine climb_stop free shape rep mem childless stop ?_ fuel
      rintro rfl
      refine room.resolve_right (fun same => ?_)
      rw [Tree.prune, if_pos (Or.inl rfl), Tree.remove_kids, if_pos rfl] at same
      have := List.length_erase_of_mem mem.2
      rw [same] at this
      have := List.length_pos_of_mem mem.2
      omega
    · have goOn := not_or.mp stop
      have empty : (T.kids w).erase c = [] := not_not.mp goOn.2
      have pruned : T.prune (c :: w) = (T.remove w c).prune w := if_neg stop
      have rootKids : (T.remove w c).kids [] = T.kids [] := by
        rw [Tree.remove_kids, if_neg (Ne.symm goOn.1)]
      obtain ⟨t1, run1, free1, rep1, size1⟩ := climb_on free shape rep mem childless goOn.1
        ((erase_alone _ _ mem.2).mp empty) fuel
      have memW1 : (T.remove w c).Mem w := (Tree.mem_remove childless (shape.nodup w)).mpr
        ⟨mem.1, by simp⟩
      cases w with
      | nil => exact absurd rfl goOn.1
      | cons x w' =>
        have room1 : Removable (T.remove (x :: w') c) (x :: w') := by
          rcases room with ⟨y, proper, unused⟩ | same
          · exact Or.inl ⟨y, proper, by rw [rootKids]; exact unused⟩
          · right
            rw [← pruned, same, rootKids]
        obtain ⟨t2, run2, free2, rep2, size2⟩ :=
          ih (c := x) (w := w') free1 (Tree.shape_remove shape childless) rep1
          memW1 (by rw [Tree.remove_kids, if_pos rfl, empty]) room1 rfl (by simpa using enough)
        refine ⟨t2, ?_, free2, by rw [pruned]; exact rep2, size2.trans size1⟩
        rw [run1, rep1.check x w' memW1]
        exact run2

theorem Rep.repair (rep : Rep t T loc Settled NoSpare) (X : Path → Prop) : Rep t T loc X NoSpare :=
  ⟨rep.root, rep.rootNode, rep.inj, rep.occ, rep.apart, rep.check, fun c w mem _ => rep.place c w mem id,
    rep.value, rep.high, fun c w mem proper _ => rep.bare c w mem proper id,
    fun w c l mem _ => rep.chain w c l mem id, fun w mem _ => rep.childless w mem id⟩

theorem erase_missing (good : Good t T) (none : T.stored (pathOf key) = none) :
    t.erase key = some (-1, t) := by
  obtain ⟨origin, run, _⟩ := find_root good key
  have out := Tree.stored_eq_none.mp none
  refine bind_run run ?_
  rcases answer_missing _ out with h | h
  · rw [h]
    exact if_pos (Or.inr rfl)
  · rw [h]
    exact if_pos (Or.inl rfl)

/-- A value that looks like an answer of etdb_trie_find is not erased. -/
theorem erase_refused {x : Int} (good : Good t T) (stored : T.stored (pathOf key) = some x)
    (codes : x = noPath ∨ x = noValue) : t.erase key = some (-1, t) := by
  obtain ⟨origin, run, _⟩ := find_root good key
  obtain ⟨mem, value⟩ := Tree.stored_eq_some.mp stored
  refine bind_run run ?_
  rw [answer_stored _ mem, value]
  exact if_pos codes

theorem erase_run {x : Int} {loc : Path → Int} (good : Good t T) (stored : T.stored (pathOf key) = some x)
    (codes : ¬ (x = noPath ∨ x = noValue)) (rep : Rep t T loc Settled NoSpare)
    (climb : eraseLoop t.size.toNat (loc (pathOf key)) (loc (0 :: pathOf key)) t = some t') :
    t.erase key = some (x, t') := by
  obtain ⟨origin, run, place⟩ := find_root good key
  obtain ⟨mem, value⟩ := Tree.stored_eq_some.mp stored
  have occ := rep.occ_node mem.1
  refine bind_run run ?_
  rw [answer_stored _ mem, value, place loc rep mem.1]
  refine (if_neg codes).trans ?_
  have climbed : t.eraseImpl (loc (pathOf key)) = some t' := by
    refine bind_run (nodeAt_inside (occ.inNode good.free.sized)) ?_
    rw [← rep.place 0 (pathOf key) mem id]
    exact climb
  exact bind_run climbed rfl

theorem erase_spec {x : Int} (good : Good t T) (stored : T.stored (pathOf key) = some x)
    (codes : ¬ (x = noPath ∨ x = noValue)) (room : Removable T (0 :: pathOf key)) :
    ∃ t', t.erase key = some (x, t') ∧ Good t' (T.prune (0 :: pathOf key)) := by
  obtain ⟨loc, rep⟩ := good.rep
  obtain ⟨mem, _⟩ := Tree.stored_eq_some.mp stored
  have childless := good.shape.leaf (pathOf key)
  have short := rep.depth mem
  obtain ⟨t', run, free', rep', _⟩ := eraseLoop_spec good.free good.shape (rep.repair _) mem childless
    room rfl (show (0 :: pathOf key).length ≤ t.size.toNat by omega)
  have pruned := Tree.prune_pruned good.shape mem (by simp) childless
    (good.live.mono (fun _ => False.elim))
  exact ⟨t', erase_run good stored codes rep run, free', pruned.shape, pruned.live, loc, rep'⟩

/-- With the ring of block 0 used up its ehead is a child of the root, and freeing a cell
    of that block writes a negative base over the root's. -/
theorem pushEmptyNode_full (free : Free t) (occ : t.Occ i) (block : i / 256 = 0)
    (full : ∀ j, t.Empty j → j / 256 ≠ 0) (child : (t.node (t.block 0).ehead).check = 0) :
    ∃ t', t.pushEmptyNode i = some t' ∧ (t'.node 0).base = -i ∧ t'.InNode 0 := by
  have pos := free.sized.pos
  have hb : t.InBlock 0 := free.sized.inBlock.mpr (by omega)
  obtain ⟨l, ring⟩ := free.ring 0 hb
  have used : l = [] := List.eq_nil_iff_forall_not_mem.mpr (fun j hj => by
    have := (ring.mem j).mp hj
    exact full j this.1 this.2)
  have count : (t.block 0).num = 1 := by
    have := ring.num
    simpa [used] using this
  obtain ⟨headBlock, headPos⟩ := free.ehead 0 hb
  have inside : ∀ j, j / 256 = 0 → t.InNode j := fun j hj => free.sized.inNode.mpr (by omega)
  have hi := occ.inNinfo free.sized
  have head := inside _ headBlock
  let prev := (t.block 0).ehead
  let t1 := t.setBlock 0 { t.block 0 with num := 2 }
  let t2 := t1.setNode i ⟨-prev, (t1.node i).check⟩
  let t3 := t2.setNode i ⟨(t2.node i).base, 0⟩
  let t4 := t3.setNode 0 ⟨-i, (t3.node 0).check⟩
  let t5 := t4.setNode prev ⟨(t4.node prev).base, -i⟩
  let t6 := t5.setBlock 0 { t5.block 0 with trial := 0 }
  have prevNotZero : (0 : Int) ≠ prev := by
    simp only [prev]
    omega
  have root : (t6.node 0).base = -i := by
    simp [t6, t5, t4, setNode, setBlock, Function.update_of_ne prevNotZero]
  have linked : t1.linkEmpty i (t1.block 0) = some t6 := by
    have read : t1.block 0 = { t.block 0 with num := 2 } := by simp [t1, setBlock]
    have two : (t1.block 0).num ≠ 1 := by simp [read]
    have headIs : (t1.block 0).ehead = prev := by simp [read, prev]
    unfold linkEmpty
    simp only [block]
    rw [if_neg two, headIs]
    refine bind_run (nodeAt_inside (t := t1) head) ?_
    have next : -(t1.node prev).check = 0 := by
      have : (t1.node prev).check = 0 := child
      omega
    rw [next]
    refine bind_run (a := t2) (writeBase_inside (t := t1) (inside i block)) ?_
    refine bind_run (a := t3) (writeCheck_inside (t := t2) (inside i block)) ?_
    refine bind_run (a := t4) (writeBase_inside (t := t3) (inside 0 (by omega))) ?_
    refine bind_run (a := t5) (writeCheck_inside (t := t4) head) ?_
    exact bind_run (a := t5) rfl (modifyBlock_inside (t := t5) hb)
  let b3 : Block := if (t6.block 0).reject < t6.reject (t6.block 0).num
    then { t6.block 0 with reject := t6.reject (t6.block 0).num } else t6.block 0
  let t7 := t6.setBlock 0 b3
  have num6 : (t6.block 0).num = 2 := by simp [t6, t5, t4, t3, t2, t1, setNode, setBlock]
  let t8 := t7.setNinfo i ⟨0, (t7.ninfo i).child⟩
  let t9 := t8.setNinfo i ⟨(t8.ninfo i).sibling, 0⟩
  refine ⟨t9, ?_, root, inside 0 (by omega)⟩
  unfold pushEmptyNode
  simp only [block]
  refine bind_run (a := t1) ?_ ?_
  · rw [modifyBlock_inside hb, count]
    rfl
  refine bind_run (blockAt_inside (t := t1) hb) ?_
  refine bind_run linked ?_
  refine bind_run (blockAt_inside (t := t6) hb) ?_
  refine bind_run (a := t6.reject (t6.block 0).num) (if_pos (by rw [num6]; decide)) ?_
  have cleared : (t7.writeSibling i 0 >>= fun t => t.writeChild i 0) = some t9 :=
    bind_run (a := t8) (writeSibling_inside (t := t7) hi) (writeChild_inside (t := t8) hi)
  by_cases lower : (t6.block 0).reject < t6.reject (t6.block 0).num
  · rw [if_pos lower]
    refine bind_run (a := t7) ?_ cleared
    rw [modifyBlock_inside (t := t6) hb]
    simp only [t7, b3, if_pos lower]
  · rw [if_neg lower]
    refine bind_run (a := t7) ?_ cleared
    simp [t7, b3, if_neg lower, setBlock]

theorem Rep.root_filled (rep : Rep t T loc X NoSpare) (settled : ¬ X []) (full : ¬ RootRoom T)
    (proper : 0 < i) (block : i / 256 = 0) : t.Occ i ∧ (t.node i).check = 0 := by
  obtain ⟨x, cell⟩ := same_block_step 0 i (Int.le_refl 0) (by omega)
  have label : x ≠ 0 := by
    rintro rfl
    rw [xorByte_zero] at cell
    omega
  have kid : x ∈ T.kids [] := by
    by_contra unused
    exact full ⟨x, label, unused⟩
  have mem : T.Mem [x] := ⟨trivial, kid⟩
  have place := rep.place _ _ mem settled
  rw [rep.rootBase, cell] at place
  rw [← place]
  exact ⟨rep.occ_node mem, by rw [rep.check _ _ mem, rep.root]⟩

theorem climb_full (free : Free t) (shape : T.Shape) (rep : Rep t T loc (· = [c]) NoSpare)
    (mem : T.Mem [c]) (full : ¬ RootRoom T) (fuel : Nat) :
    ∃ t', eraseLoop (fuel + 1) (loc []) (loc [c]) t = some t' ∧ (t'.node 0).base < 0 ∧ t'.InNode 0 := by
  have self : [] ≠ [c] := by simp
  have occW := rep.occ_node mem.1
  have occE := rep.occ_node mem
  have place := rep.place c [] mem self
  have notZero : loc [c] ≠ 0 := fun zero => by
    have := (rep.loc_zero mem).mp zero
    cases this
  have nonneg := occE.1
  have block := xorByte_block 0 c
  rw [rep.rootBase] at place
  rw [← place] at block
  obtain ⟨d, l, list⟩ := labels_some (List.ne_nil_of_mem mem.2)
  have last := (climb_stops mem list).mp (Or.inl rfl)
  obtain ⟨family, first⟩ := rep.family shape mem.1 self list
  obtain ⟨t1, run1, popped, _⟩ := popSibling_spec free family occW first (list ▸ kid_label mem.2)
  have inBlock : t.InBlock 0 := free.sized.inBlock.mpr (by have := free.sized.pos; omega)
  have inBlock1 : t1.InBlock 0 := popped.free.sized.inBlock.mpr (by have := popped.free.sized.pos; omega)
  obtain ⟨headBlock, headPos⟩ := popped.free.ehead 0 inBlock1
  obtain ⟨t2, run2, base, inside⟩ := pushEmptyNode_full popped.free ((popped.occ _).mpr occE) (by omega)
    (fun j empty here =>
      empty.not_occ ((popped.occ j).mpr (rep.root_filled self full empty.1 here).1))
    (by rw [popped.node]; exact (rep.root_filled self full headPos headBlock).2)
  refine ⟨t2, ?_, by omega, inside⟩
  rw [eraseLoop_turn free shape rep mem list, if_pos last]
  refine bind_run run1 ?_
  refine bind_run run2 ?_
  rw [rep.root]
  exact bind_run (nodeAt_inside inside) rfl

theorem eraseLoop_full {fuel : Nat} (free : Free t) (shape : T.Shape) (rep : Rep t T loc (· = e) NoSpare)
    (mem : T.Mem e) (childless : T.kids e = []) (stuck : ¬ Removable T e) (parent : e = c :: w)
    (enough : e.length ≤ fuel) :
    ∃ t', eraseLoop fuel (loc w) (loc e) t = some t' ∧ (t'.node 0).base < 0 ∧ t'.InNode 0 := by
  induction fuel generalizing t T e c w with
  | zero =>
    subst parent
    simp at enough
  | succ fuel ih =>
    subst parent
    obtain ⟨full, changed⟩ := not_or.mp stuck
    by_cases root : w = []
    · subst root
      exact climb_full free shape rep mem full fuel
    · have rootKids : (T.remove w c).kids [] = T.kids [] := by
        rw [Tree.remove_kids, if_neg (Ne.symm root)]
      have empty : (T.kids w).erase c = [] := by
        by_contra kept
        rw [Tree.prune, if_pos (Or.inr kept)] at changed
        exact changed rootKids
      have pruned : T.prune (c :: w) = (T.remove w c).prune w :=
        if_neg (not_or.mpr ⟨root, not_not.mpr empty⟩)
      obtain ⟨t1, run1, free1, rep1, _⟩ := climb_on free shape rep mem childless root
        ((erase_alone _ _ mem.2).mp empty) fuel
      have memW1 : (T.remove w c).Mem w := (Tree.mem_remove childless (shape.nodup w)).mpr
        ⟨mem.1, by simp⟩
      obtain ⟨x, w', rfl⟩ := List.exists_cons_of_ne_nil root
      have stuck1 : ¬ Removable (T.remove (x :: w') c) (x :: w') := by
        rintro (⟨y, proper, unused⟩ | same)
        · exact full ⟨y, proper, by rw [← rootKids]; exact unused⟩
        · rw [← pruned, rootKids] at same
          exact changed same
      obtain ⟨t2, run2, base, inside⟩ :=
        ih (c := x) (w := w') free1 (Tree.shape_remove shape childless) rep1
        memW1 (by rw [Tree.remove_kids, if_pos rfl, empty]) stuck1 rfl (by simpa using enough)
      refine ⟨t2, ?_, base, inside⟩
      rw [run1, rep1.check x w' memW1]
      exact run2

/-- The call answers as it should but leaves the root with a negative base. -/
theorem erase_stuck {x : Int} (good : Good t T) (stored : T.stored (pathOf key) = some x)
    (codes : ¬ (x = noPath ∨ x = noValue)) (stuck : ¬ Removable T (0 :: pathOf key)) :
    ∃ t', t.erase key = some (x, t') ∧ (t'.node 0).base < 0 ∧ t'.InNode 0 := by
  obtain ⟨loc, rep⟩ := good.rep
  obtain ⟨mem, _⟩ := Tree.stored_eq_some.mp stored
  have short := rep.depth mem
  obtain ⟨t', run, base, inside⟩ := eraseLoop_full good.free good.shape (rep.repair _) mem
    (good.shape.leaf _) stuck rfl (show (0 :: pathOf key).length ≤ t.size.toNat by omega)
  exact ⟨t', erase_run good stored codes rep run, base, inside⟩

theorem search_trapped (base : (t.node 0).base < 0) (inside : t.InNode 0) (some : key ≠ []) :
    t.exactMatchSearch key = none := by
  obtain ⟨word, rest, rfl⟩ := List.exists_cons_of_ne_nil some
  have out : ¬ t.InNode (xorByte (t.node 0).base (wordLabels word).1) := by
    intro h
    have block := xorByte_block (t.node 0).base (wordLabels word).1
    have := h.1
    omega
  have step : t.findStep 0 (wordLabels word).1 = none := by
    refine bind_run (nodeAt_inside inside) ?_
    rw [nodeAt, if_neg out]
    rfl
  have found : t.find 0 (word :: rest) = none := by
    rw [find, step]
    rfl
  rw [exactMatchSearch, found]
  rfl

end
end Trie
end EtdbTrie
