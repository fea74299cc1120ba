import Mathlib.Logic.Function.Basic
import Mathlib.Data.List.Nodup
import Mathlib.Data.List.Infix

/- Trees with bytes on their edges. A node is named by the labels on the way to it,
   the last one first; the edge labelled 0 leads to the slot that holds a node's value.
   The children of a node are kept in order. -/
namespace ByteTree

abbrev Path := List UInt8

structure Tree (Value : Type) where
  kids : Path → List UInt8
  val : Path → Value

namespace Tree
variable {Value : Type}

def Mem (T : Tree Value) : Path → Prop
  | [] => True
  | c :: w => T.Mem w ∧ c ∈ T.kids w

instance decidableMem (T : Tree Value) : (w : Path) → Decidable (T.Mem w)
  | [] => isTrue trivial
  | c :: w =>
    have := decidableMem T w
    inferInstanceAs (Decidable (T.Mem w ∧ c ∈ T.kids w))

/-- Value slots come first, have no children of their own, and the root has none. -/
structure Shape (T : Tree Value) : Prop where
  nodup : ∀ w, (T.kids w).Nodup
  zeroFirst : ∀ w, 0 ∉ (T.kids w).tail
  root : 0 ∉ T.kids []
  leaf : ∀ w, T.kids (0 :: w) = []
  outside : ∀ w, ¬ T.Mem w → T.kids w = []

def Leaf : Path → Prop
  | [] => False
  | c :: _ => c = 0

instance : (w : Path) → Decidable (Leaf w)
  | [] => isFalse id
  | c :: _ => inferInstanceAs (Decidable (c = 0))

/-- Inner nodes have children, those in `X` and the root excepted. -/
def Live (T : Tree Value) (X : Path → Prop) : Prop :=
  ∀ w, T.Mem w → w ≠ [] → ¬ Leaf w → ¬ X w → T.kids w ≠ []

/-- A new label goes to the front, but behind 0. -/
def insertLabel (c : UInt8) : List UInt8 → List UInt8
  | [] => [c]
  | d :: l => if d = 0 then d :: c :: l else c :: d :: l

def add (T : Tree Value) (w : Path) (c : UInt8) (v : Value) : Tree Value where
  kids := Function.update T.kids w (insertLabel c (T.kids w))
  val := if c = 0 then Function.update T.val w v else T.val

def remove (T : Tree Value) (w : Path) (c : UInt8) : Tree Value :=
  { T with kids := Function.update T.kids w ((T.kids w).erase c) }

def setVal (T : Tree Value) (w : Path) (v : Value) : Tree Value :=
  { T with val := Function.update T.val w v }

/-- The child under a label, made with value `v` if it is missing. -/
def grow (T : Tree Value) (w : Path) (c : UInt8) (v : Value) : Tree Value :=
  if c ∈ T.kids w then T else T.add w c v

def growAll (T : Tree Value) (v : Value) : Path → List UInt8 → Tree Value
  | _, [] => T
  | w, c :: l => (T.grow w c v).growAll v (c :: w) l

/-- Removing a childless node and then every ancestor left without children. -/
def prune (T : Tree Value) : Path → Tree Value
  | [] => T
  | c :: w => if w = [] ∨ (T.kids w).erase c ≠ [] then T.remove w c else (T.remove w c).prune w

def put (T : Tree Value) (zero : Value) (labels : List UInt8) (v : Value) : Tree Value :=
  ((T.growAll zero [] labels).grow labels.reverse 0 zero).setVal labels.reverse v

def stored (T : Tree Value) (w : Path) : Option Value := if T.Mem (0 :: w) then some (T.val w) else none

def empty (v : Value) : Tree Value where
  kids := fun _ => []
  val := fun _ => v

section
variable {T : Tree Value} {u w : Path} {c d : UInt8} {v : Value} {X : Path → Prop}

theorem mem_of_suffix (mem : T.Mem w) (suffix : u <:+ w) : T.Mem u := by
  induction w with
  | nil =>
    rw [List.suffix_nil.mp suffix]
    trivial
  | cons c w ih =>
    rcases List.suffix_cons_iff.mp suffix with rfl | inner
    · exact mem
    · exact ih mem.1 inner

theorem Shape.no_leaf_kid (shape : Shape T) (mem : T.Mem (c :: w)) : ¬ Leaf w := by
  cases w with
  | nil => exact id
  | cons d w =>
    rintro rfl
    rw [Mem, shape.leaf w] at mem
    cases mem.2

theorem mem_insertLabel {l : List UInt8} : d ∈ insertLabel c l ↔ d = c ∨ d ∈ l := by
  cases l with
  | nil => simp [insertLabel]
  | cons e l =>
    simp only [insertLabel]
    split
    · simp only [List.mem_cons]; tauto
    · simp only [List.mem_cons]

theorem insertLabel_ne_nil {l : List UInt8} : insertLabel c l ≠ [] := by
  intro none
  have : c ∈ insertLabel c l := mem_insertLabel.mpr (Or.inl rfl)
  rw [none] at this
  cases this

theorem insertLabel_nodup {l : List UInt8} (nodup : l.Nodup) (fresh : c ∉ l) :
    (insertLabel c l).Nodup := by
  have front : (c :: l).Nodup := List.nodup_cons.mpr ⟨fresh, nodup⟩
  cases l with
  | nil => exact front
  | cons e l =>
    simp only [insertLabel]
    split
    · exact (List.Perm.swap e c l).nodup_iff.mp front
    · exact front

theorem insertLabel_zeroFirst {l : List UInt8} (first : 0 ∉ l.tail) (fresh : c ∉ l) :
    0 ∉ (insertLabel c l).tail := by
  cases l with
  | nil => simp [insertLabel]
  | cons e l =>
    simp only [insertLabel]
    simp only [List.tail_cons] at first
    split
    · rename_i zero
      have other : c ≠ 0 := fun h => fresh (by simp [h, zero])
      simp [first, other.symm]
    · rename_i proper
      simp [first, Ne.symm proper]

theorem add_kids (T : Tree Value) (w u : Path) (c : UInt8) (v : Value) :
    (T.add w c v).kids u = if u = w then insertLabel c (T.kids w) else T.kids u := by
  simp only [add, Function.update_apply]

theorem remove_kids (T : Tree Value) (w u : Path) (c : UInt8) :
    (T.remove w c).kids u = if u = w then (T.kids w).erase c else T.kids u := by
  simp only [remove, Function.update_apply]

theorem mem_add (shape : Shape T) (mem : T.Mem w) (fresh : c ∉ T.kids w) :
    (T.add w c v).Mem u ↔ T.Mem u ∨ u = c :: w := by
  induction u with
  | nil => simp [Mem]
  | cons d u ih =>
    simp only [Mem, ih, add_kids, List.cons.injEq]
    by_cases here : u = w
    · subst here
      simp only [mem, true_or, ↓reduceIte, true_and, and_true, mem_insertLabel]
      tauto
    · simp only [here, ↓reduceIte, and_false, or_false]
      constructor
      · rintro ⟨old | rfl, kid⟩
        · exact ⟨old, kid⟩
        · have out : ¬ T.Mem (c :: w) := fun h => fresh h.2
          rw [shape.outside _ out] at kid
          cases kid
      · rintro ⟨old, kid⟩
        exact ⟨Or.inl old, kid⟩

theorem shape_add (shape : Shape T) (mem : T.Mem w) (inner : ¬ Leaf w) (fresh : c ∉ T.kids w)
    (proper : w = [] → c ≠ 0) : Shape (T.add w c v) where
  nodup := by
    intro u
    rw [add_kids]
    split
    · exact insertLabel_nodup (shape.nodup w) fresh
    · exact shape.nodup u
  zeroFirst := by
    intro u
    rw [add_kids]
    split
    · exact insertLabel_zeroFirst (shape.zeroFirst w) fresh
    · exact shape.zeroFirst u
  root := by
    rw [add_kids]
    split
    · rename_i here
      rw [mem_insertLabel]
      rintro (zero | old)
      · exact proper here.symm zero.symm
      · exact shape.root (here ▸ old)
    · exact shape.root
  leaf := by
    intro u
    rw [add_kids, if_neg, shape.leaf]
    rintro rfl
    exact inner rfl
  outside := by
    intro u out
    rw [mem_add shape mem fresh] at out
    rw [add_kids, if_neg, shape.outside u (fun h => out (Or.inl h))]
    rintro rfl
    exact out (Or.inl mem)

theorem mem_remove (childless : T.kids (c :: w) = []) (nodup : (T.kids w).Nodup) :
    (T.remove w c).Mem u ↔ T.Mem u ∧ u ≠ c :: w := by
  induction u with
  | nil => simp [Mem]
  | cons d u ih =>
    simp only [Mem, ih, remove_kids, ne_eq, List.cons.injEq]
    by_cases here : u = w
    · subst here
      simp only [↓reduceIte, nodup.mem_erase_iff, and_true]
      constructor
      · rintro ⟨⟨mem, _⟩, other, kid⟩; exact ⟨⟨mem, kid⟩, other⟩
      · rintro ⟨⟨mem, kid⟩, other⟩; exact ⟨⟨mem, by simp⟩, other, kid⟩
    · simp only [here, ↓reduceIte, and_false, not_false_eq_true, and_true]
      constructor
      · rintro ⟨⟨mem, _⟩, kid⟩; exact ⟨mem, kid⟩
      · rintro ⟨mem, kid⟩
        refine ⟨⟨mem, ?_⟩, kid⟩
        rintro rfl
        rw [childless] at kid
        cases kid

theorem shape_remove (shape : Shape T) (childless : T.kids (c :: w) = []) : Shape (T.remove w c) where
  nodup := by
    intro u
    rw [remove_kids]
    split
    · exact (shape.nodup w).erase c
    · exact shape.nodup u
  zeroFirst := by
    intro u
    rw [remove_kids]
    split
    · have first := shape.zeroFirst w
      cases kids : T.kids w with
      | nil => simp
      | cons d l =>
        rw [kids, List.tail_cons] at first
        by_cases same : d = c
        · subst same
          rw [List.erase_cons_head]
          exact fun h => first (List.mem_of_mem_tail h)
        · rw [List.erase_cons_tail (by simpa using same), List.tail_cons]
          exact fun h => first (List.mem_of_mem_erase h)
    · exact shape.zeroFirst u
  root := by
    rw [remove_kids]
    split
    · rename_i here
      intro zero
      exact shape.root (here ▸ List.mem_of_mem_erase zero)
    · exact shape.root
  leaf := by
    intro u
    rw [remove_kids]
    split
    · rename_i here
      rw [← here, shape.leaf]
      rfl
    · exact shape.leaf u
  outside := by
    intro u out
    rw [mem_remove childless (shape.nodup w)] at out
    rw [remove_kids]
    split
    · rename_i here
      subst here
      by_cases mem : T.Mem u
      · have self : u ≠ c :: u := by simp
        exact absurd ⟨mem, self⟩ out
      · rw [shape.outside u mem]
        rfl
    · by_cases mem : T.Mem u
      · have same : u = c :: w := by
          by_contra other
          exact out ⟨mem, other⟩
        rw [same, childless]
      · exact shape.outside u mem

theorem Live.mono {Y : Path → Prop} (live : Live T X) (weaker : ∀ u, X u → Y u) : Live T Y :=
  fun u mem proper inner out => live u mem proper inner (fun h => out (weaker u h))

theorem mem_grow_self (shape : Shape T) (mem : T.Mem w) : (T.grow w c v).Mem (c :: w) := by
  unfold grow
  split
  · rename_i kid
    exact ⟨mem, kid⟩
  · rename_i fresh
    exact (mem_add shape mem fresh).mpr (Or.inr rfl)

theorem mem_grow (shape : Shape T) (mem : T.Mem w) :
    (T.grow w c v).Mem u ↔ T.Mem u ∨ u = c :: w := by
  unfold grow
  split
  · rename_i kid
    constructor
    · exact Or.inl
    · rintro (old | rfl)
      · exact old
      · exact ⟨mem, kid⟩
  · rename_i fresh
    exact mem_add shape mem fresh

theorem shape_grow (shape : Shape T) (mem : T.Mem w) (inner : ¬ Leaf w) (proper : w = [] → c ≠ 0) :
    Shape (T.grow w c v) := by
  unfold grow
  split
  · exact shape
  · rename_i fresh
    exact shape_add shape mem inner fresh proper

/-- Growing below the one bare node moves the exception to the new node. -/
theorem live_grow (shape : Shape T) (mem : T.Mem w) (live : Live T (· = w)) :
    Live (T.grow w c v) (· = c :: w) := by
  unfold grow
  split
  · rename_i kid
    intro u old proper inner _
    by_cases here : u = w
    · rw [here]
      exact List.ne_nil_of_mem kid
    · exact live u old proper inner here
  · rename_i fresh
    intro u old proper inner other
    rw [add_kids]
    split
    · exact insertLabel_ne_nil
    · rename_i here
      exact live u (((mem_add shape mem fresh).mp old).resolve_right other) proper inner here

theorem grow_val (zero : c ≠ 0) : (T.grow w c v).val = T.val := by
  unfold grow
  split
  · rfl
  · simp [add, zero]

structure Grew (T T' : Tree Value) (w : Path) : Prop where
  shape : Shape T'
  mem : T'.Mem w
  live : Live T' (· = w)
  slots : ∀ q, T'.Mem (0 :: q) ↔ T.Mem (0 :: q)
  val : T'.val = T.val

theorem growAll_grew {labels : List UInt8} (shape : Shape T) (mem : T.Mem w) (inner : ¬ Leaf w)
    (live : Live T (· = w)) (proper : 0 ∉ labels) :
    Grew T (T.growAll v w labels) (labels.reverse ++ w) := by
  induction labels generalizing T w with
  | nil => exact ⟨shape, mem, live, fun _ => Iff.rfl, rfl⟩
  | cons c l ih =>
    simp only [List.mem_cons, not_or] at proper
    have head : c ≠ 0 := Ne.symm proper.1
    obtain ⟨shape', mem', live', slots', val'⟩ := ih (T := T.grow w c v) (w := c :: w)
      (shape_grow shape mem inner (fun _ => head)) (mem_grow_self shape mem) head
      (live_grow shape mem live) proper.2
    have path : (c :: l).reverse ++ w = l.reverse ++ c :: w := by simp
    rw [path]
    refine ⟨shape', mem', live', fun q => ?_, val'.trans (grow_val head)⟩
    rw [growAll, slots', mem_grow shape mem]
    simp [Ne.symm head]

theorem mem_setVal : (T.setVal w v).Mem u ↔ T.Mem u := by
  induction u with
  | nil => exact Iff.rfl
  | cons c u ih => exact and_congr ih Iff.rfl

theorem shape_setVal (shape : Shape T) : Shape (T.setVal w v) :=
  ⟨shape.nodup, shape.zeroFirst, shape.root, shape.leaf, fun u out =>
    shape.outside u (fun h => out (mem_setVal.mpr h))⟩

theorem live_setVal (live : Live T X) : Live (T.setVal w v) X :=
  fun u mem => live u (mem_setVal.mp mem)

theorem growAll_append (T : Tree Value) (v : Value) (w : Path) (l m : List UInt8) :
    T.growAll v w (l ++ m) = (T.growAll v w l).growAll v (l.reverse ++ w) m := by
  induction l generalizing T w with
  | nil => rfl
  | cons c l ih => simp [growAll, ih]

structure Put (T T' : Tree Value) (w : Path) (v : Value) : Prop where
  shape : Shape T'
  live : Live T' (fun _ => False)
  stored : ∀ q, T'.stored q = if q = w then some v else T.stored q

theorem put_spec (zero : Value) {labels : List UInt8} (shape : Shape T) (live : Live T (fun _ => False))
    (proper : 0 ∉ labels) (some : labels ≠ []) :
    Put T (T.put zero labels v) labels.reverse v := by
  have grew := growAll_grew (v := zero) shape (w := []) trivial id
    (live.mono (fun _ => False.elim)) proper
  rw [List.append_nil] at grew
  have nonempty : labels.reverse ≠ [] := by simpa using some
  have inner : ¬ Leaf labels.reverse := by
    cases back : labels.reverse with
    | nil => exact id
    | cons c w =>
      rintro rfl
      have : (0 : UInt8) ∈ labels.reverse := by rw [back]; exact List.mem_cons_self
      exact proper (List.mem_reverse.mp this)
  have shape' := shape_grow (c := 0) (v := zero) grew.shape grew.mem inner
    (fun root => absurd root nonempty)
  have live' := live_grow (c := 0) (v := zero) grew.shape grew.mem grew.live
  refine ⟨shape_setVal shape', live_setVal fun u mem proper' inner' _ =>
    live' u mem proper' inner' ?_, ?_⟩
  · rintro rfl
    exact inner' rfl
  · intro q
    simp only [stored, put, mem_setVal, mem_grow grew.shape grew.mem, grew.slots,
      List.cons.injEq, true_and]
    by_cases here : q = labels.reverse
    · simp [here, setVal]
    · have value : (((T.growAll zero [] labels).grow labels.reverse 0 zero).setVal
        labels.reverse v).val q =
          T.val q := by
        simp only [setVal, Function.update_of_ne here, grow]
        split
        · rw [grew.val]
        · simp [add, here, grew.val]
      simp only [here, or_false, value, ↓reduceIte]

theorem put_previous (zero : Value) {labels : List UInt8} (shape : Shape T)
    (live : Live T (fun _ => False)) (proper : 0 ∉ labels) :
    ((T.growAll zero [] labels).grow labels.reverse 0 zero).val labels.reverse =
      (T.stored labels.reverse).getD zero := by
  have grew := growAll_grew (v := zero) shape (w := []) trivial id
    (live.mono (fun _ => False.elim)) proper
  rw [List.append_nil] at grew
  have slot := grew.slots labels.reverse
  unfold grow
  split
  · rename_i kid
    have mem : T.Mem (0 :: labels.reverse) := slot.mp ⟨grew.mem, kid⟩
    simp [stored, mem, grew.val]
  · rename_i fresh
    have out : ¬ T.Mem (0 :: labels.reverse) := fun h => fresh (slot.mpr h).2
    simp [stored, out, add]

theorem prune_val (T : Tree Value) (e : Path) : (T.prune e).val = T.val := by
  induction e generalizing T with
  | nil => rfl
  | cons c w ih =>
    unfold prune
    split
    · rfl
    · exact ih _

structure Pruned (T T' : Tree Value) (e : Path) : Prop where
  shape : Shape T'
  live : Live T' (fun _ => False)
  slots : ∀ q, T'.Mem (0 :: q) ↔ T.Mem (0 :: q) ∧ 0 :: q ≠ e

theorem prune_pruned {e : Path} (shape : Shape T) (mem : T.Mem e) (proper : e ≠ [])
    (childless : T.kids e = []) (live : Live T (· = e)) : Pruned T (T.prune e) e := by
  induction e generalizing T with
  | nil => exact absurd rfl proper
  | cons c w ih =>
    have removed := mem_remove (u := w) childless (shape.nodup w)
    have shape' := shape_remove shape childless
    unfold prune
    split
    · rename_i stop
      refine ⟨shape', ?_, fun q => mem_remove childless (shape.nodup w)⟩
      intro u memU properU innerU _
      rw [remove_kids]
      split
      · rename_i here
        exact stop.resolve_left (here ▸ properU)
      · have old := (mem_remove childless (shape.nodup w)).mp memU
        exact live u old.1 properU innerU old.2
    · rename_i go
      simp only [not_or, not_not] at go
      have memW : (T.remove w c).Mem w := removed.mpr ⟨mem.1, by simp⟩
      have bareW : (T.remove w c).kids w = [] := by rw [remove_kids, if_pos rfl, go.2]
      have liveW : Live (T.remove w c) (· = w) := by
        intro u memU properU innerU other
        rw [remove_kids, if_neg other]
        have old := (mem_remove childless (shape.nodup w)).mp memU
        exact live u old.1 properU innerU old.2
      obtain ⟨shape2, live2, slots2⟩ := ih shape' memW go.1 bareW liveW
      refine ⟨shape2, live2, fun q => ?_⟩
      rw [slots2, mem_remove childless (shape.nodup w)]
      have inner := shape.no_leaf_kid mem
      have apart : 0 :: q ≠ w := by
        rintro rfl
        exact inner rfl
      simp [apart]

theorem stored_eq_some : T.stored w = some v ↔ T.Mem (0 :: w) ∧ T.val w = v := by
  simp only [stored]
  split <;> simp [*]

theorem stored_eq_none : T.stored w = none ↔ ¬ T.Mem (0 :: w) := by
  simp [stored]

theorem stored_prune (shape : Shape T) (mem : T.Mem (0 :: w)) (live : Live T (fun _ => False))
    (q : Path) : (T.prune (0 :: w)).stored q = if q = w then none else T.stored q := by
  have pruned := prune_pruned shape mem (by simp) (shape.leaf w) (live.mono (fun _ => False.elim))
  simp only [stored, pruned.slots, prune_val, ne_eq, List.cons.injEq, true_and]
  by_cases here : q = w <;> simp [here]

theorem reach_slot {bound : Nat} (live : Live T (fun _ => False)) (deep : ∀ u, T.Mem u → u.length < bound)
    (mem : T.Mem w) (proper : w ≠ []) : ∃ q, T.Mem (0 :: q) ∧ w <:+ 0 :: q := by
  obtain ⟨rest, height⟩ : ∃ rest, bound = w.length + 1 + rest := ⟨bound - (w.length + 1), by
    have := deep w mem
    omega⟩
  induction rest generalizing w with
  | zero =>
    by_cases leaf : Leaf w
    · cases w with
      | nil => exact absurd rfl proper
      | cons c q =>
        obtain rfl : c = 0 := leaf
        exact ⟨q, mem, List.suffix_rfl⟩
    · obtain ⟨c, l, list⟩ := List.exists_cons_of_ne_nil (live w mem proper leaf id)
      have next := deep (c :: w) ⟨mem, by simp [list]⟩
      simp only [List.length_cons] at next
      omega
  | succ rest ih =>
    by_cases leaf : Leaf w
    · cases w with
      | nil => exact absurd rfl proper
      | cons c q =>
        obtain rfl : c = 0 := leaf
        exact ⟨q, mem, List.suffix_rfl⟩
    · obtain ⟨c, l, list⟩ := List.exists_cons_of_ne_nil (live w mem proper leaf id)
      have kid : T.Mem (c :: w) := ⟨mem, by simp [list]⟩
      obtain ⟨q, slot, suffix⟩ := ih kid (by simp) (by simp only [List.length_cons]; omega)
      exact ⟨q, slot, (List.suffix_cons c w).trans suffix⟩

theorem prune_root (T : Tree Value) (e : Path) :
    (T.prune e).kids [] = T.kids [] ∨
      ∃ a, e.getLast? = some a ∧ (T.prune e).kids [] = (T.kids []).erase a := by
  induction e generalizing T with
  | nil => exact Or.inl rfl
  | cons c w ih =>
    by_cases root : w = []
    · subst root
      refine Or.inr ⟨c, rfl, ?_⟩
      rw [prune, if_pos (Or.inl rfl), remove_kids, if_pos rfl]
    · have kids : (T.remove w c).kids [] = T.kids [] := by rw [remove_kids, if_neg (Ne.symm root)]
      have last : (c :: w).getLast? = w.getLast? := by
        obtain ⟨d, u, rfl⟩ := List.exists_cons_of_ne_nil root
        exact List.getLast?_cons_cons
      unfold prune
      split
      · exact Or.inl kids
      · rw [last, ← kids]
        exact ih (T.remove w c)

theorem prune_shared {q : Path} {a : UInt8} (shape : Shape T) (mem : T.Mem (0 :: w))
    (live : Live T (fun _ => False))
    (slot : T.Mem (0 :: q)) (other : q ≠ w) (last : w.getLast? = some a) (last' : q.getLast? = some a) :
    (T.prune (0 :: w)).kids [] = T.kids [] := by
  have pruned := prune_pruned shape mem (by simp) (shape.leaf w) (live.mono (fun _ => False.elim))
  refine (prune_root T (0 :: w)).resolve_right ?_
  rintro ⟨b, first, erased⟩
  have same : b = a := by
    cases w with
    | nil => cases last
    | cons d u =>
      rw [List.getLast?_cons_cons] at first
      exact Option.some.inj (first.symm.trans last)
  have kept : (T.prune (0 :: w)).Mem (0 :: q) :=
    (pruned.slots q).mpr ⟨slot, fun h => other (List.cons.inj h).2⟩
  have below : (T.prune (0 :: w)).Mem [a] := by
    obtain ⟨front, rfl⟩ := List.getLast?_eq_some_iff.mp last'
    exact mem_of_suffix kept (by
      rw [← List.cons_append]
      exact List.suffix_append _ _)
  have inside := below.2
  rw [erased, same] at inside
  exact (shape.nodup []).not_mem_erase inside

theorem prune_kids (T : Tree Value) (e u : Path) : (T.prune e).kids u ⊆ T.kids u := by
  induction e generalizing T with
  | nil => exact List.Subset.refl _
  | cons c w ih =>
    have step : (T.remove w c).kids u ⊆ T.kids u := by
      rw [remove_kids]
      split
      · rename_i here
        rw [here]
        exact List.erase_subset
      · exact List.Subset.refl _
    unfold prune
    split
    · exact step
    · exact List.Subset.trans (ih (T.remove w c)) step

theorem mem_prune {e : Path} (mem : (T.prune e).Mem u) : T.Mem u := by
  induction u with
  | nil => trivial
  | cons c u ih => exact ⟨ih mem.1, prune_kids T e u mem.2⟩

theorem prune_keeps {bound : Nat} {a : UInt8} (shape : Shape T) (mem : T.Mem (0 :: w))
    (live : Live T (fun _ => False)) (deep : ∀ u, T.Mem u → u.length < bound)
    (kid : a ∈ (T.prune (0 :: w)).kids []) : ∃ q, q ≠ w ∧ T.Mem (0 :: q) ∧ [a] <:+ 0 :: q := by
  have pruned := prune_pruned shape mem (by simp) (shape.leaf w) (live.mono (fun _ => False.elim))
  obtain ⟨q, slot, suffix⟩ := reach_slot (w := [a]) pruned.live (fun u h => deep u (mem_prune h))
    ⟨trivial, kid⟩ (by simp)
  obtain ⟨old, other⟩ := (pruned.slots q).mp slot
  exact ⟨q, fun same => other (by rw [same]), old, suffix⟩

/-- Pruning takes what lies on the path to the slot and on no other slot's. -/
theorem mem_prune_iff {bound : Nat} (shape : Shape T) (mem : T.Mem (0 :: w))
    (live : Live T (fun _ => False)) (deep : ∀ u, T.Mem u → u.length < bound) :
    (T.prune (0 :: w)).Mem u ↔ T.Mem u ∧
      ¬ (u ≠ [] ∧ u <:+ 0 :: w ∧ ∀ q, T.Mem (0 :: q) → q ≠ w → ¬ u <:+ 0 :: q) := by
  have pruned := prune_pruned shape mem (by simp) (shape.leaf w) (live.mono (fun _ => False.elim))
  constructor
  · rintro kept
    refine ⟨mem_prune kept, fun ⟨proper, _, alone⟩ => ?_⟩
    obtain ⟨q, slot, suffix⟩ := reach_slot pruned.live (fun u h => deep u (mem_prune h)) kept proper
    obtain ⟨old, other⟩ := (pruned.slots q).mp slot
    exact alone q old (fun same => other (by rw [same])) suffix
  · rintro ⟨old, shared⟩
    have keep : ∀ q, T.Mem (0 :: q) → q ≠ w → u <:+ 0 :: q → (T.prune (0 :: w)).Mem u :=
      fun q slot other suffix => mem_of_suffix ((pruned.slots q).mpr
        ⟨slot, fun same => other (List.cons.inj same).2⟩) suffix
    by_cases proper : u = []
    · rw [proper]
      trivial
    by_contra gone
    obtain ⟨q, slot, suffix⟩ := reach_slot live deep old proper
    have here : q = w := by
      by_contra other
      exact gone (keep q slot other suffix)
    subst here
    exact shared ⟨proper, suffix, fun q' slot' other on => gone (keep q' slot' other on)⟩

def SameBelow (a : UInt8) (T T' : Tree Value) : Prop :=
  (a ∈ T'.kids [] ↔ a ∈ T.kids []) ∧ ∀ w, w.getLast? = some a → T'.kids w = T.kids w ∧ T'.val w = T.val w

section
variable {T' T'' : Tree Value} {a b : UInt8}

theorem SameBelow.refl (a : UInt8) (T : Tree Value) : SameBelow a T T := ⟨Iff.rfl, fun _ _ => ⟨rfl, rfl⟩⟩

theorem SameBelow.trans (h : SameBelow a T T') (h' : SameBelow a T' T'') : SameBelow a T T'' :=
  ⟨h'.1.trans h.1, fun w last => ⟨(h'.2 w last).1.trans (h.2 w last).1,
  (h'.2 w last).2.trans (h.2 w last).2⟩⟩

theorem SameBelow.mem (same : SameBelow a T T') (last : w.getLast? = some a) : T'.Mem w ↔ T.Mem w := by
  induction w with
  | nil => cases last
  | cons c w ih =>
    cases w with
    | nil =>
      obtain rfl : c = a := Option.some.inj last
      exact and_congr Iff.rfl same.1
    | cons d u =>
      rw [List.getLast?_cons_cons] at last
      unfold Mem
      rw [ih last, (same.2 _ last).1]

theorem SameBelow.stored (same : SameBelow a T T') (last : w.getLast? = some a) :
    T'.stored w = T.stored w := by
  have slot : (0 :: w).getLast? = some a := by
    obtain ⟨d, u, rfl⟩ := List.exists_cons_of_ne_nil (show w ≠ [] by rintro rfl; cases last)
    rw [List.getLast?_cons_cons, last]
  unfold Tree.stored
  rw [(same.2 w last).2]
  simp only [same.mem slot]

theorem grow_apart (away : (c :: w).getLast? = some b) (other : a ≠ b) :
    SameBelow a T (T.grow w c v) := by
  unfold grow
  split
  · exact .refl a T
  · have elsewhere : ∀ u, u.getLast? = some a → u ≠ w := by
      rintro u last rfl
      obtain ⟨d, x, rfl⟩ := List.exists_cons_of_ne_nil (show u ≠ [] by rintro rfl; cases last)
      rw [List.getLast?_cons_cons, last] at away
      exact other (Option.some.inj away)
    refine ⟨?_, fun u last => ⟨?_, ?_⟩⟩
    · rw [add_kids]
      split
      · rename_i root
        subst root
        obtain rfl : c = b := Option.some.inj away
        rw [mem_insertLabel]
        simp [other]
      · exact Iff.rfl
    · rw [add_kids, if_neg (elsewhere u last)]
    · unfold add
      dsimp only
      split
      · exact Function.update_of_ne (elsewhere u last) _ _
      · rfl

theorem growAll_apart {labels : List UInt8} (away : (labels.reverse ++ w).getLast? = some b)
    (other : a ≠ b) : SameBelow a T (T.growAll v w labels) := by
  induction labels generalizing T w with
  | nil => exact .refl a T
  | cons c l ih =>
    have path : (c :: l).reverse ++ w = l.reverse ++ c :: w := by simp
    rw [path] at away
    have last : (c :: w).getLast? = some b := by
      rwa [List.getLast?_append_of_ne_nil _ (List.cons_ne_nil c w)] at away
    exact (grow_apart last other).trans (ih away)

theorem put_apart (zero : Value) {labels : List UInt8} (away : labels.head? = some b) (other : a ≠ b) :
    SameBelow a T (T.put zero labels v) := by
  have last : labels.reverse.getLast? = some b := by rw [List.getLast?_reverse, away]
  have grown : SameBelow a T (T.growAll zero [] labels) := growAll_apart (by rwa [List.append_nil]) other
  have slot : (0 :: labels.reverse).getLast? = some b := by
    obtain ⟨d, u, back⟩ := List.exists_cons_of_ne_nil
      (show labels.reverse ≠ [] by intro h; rw [h] at last; cases last)
    rw [back, List.getLast?_cons_cons, ← back, last]
  refine (grown.trans (grow_apart slot other)).trans ⟨Iff.rfl, fun w lastW => ⟨rfl, ?_⟩⟩
  refine Function.update_of_ne ?_ _ _
  rintro rfl
  exact other (Option.some.inj (lastW.symm.trans last))

theorem prune_apart {e : Path} (away : e.getLast? = some b) (other : a ≠ b) :
    SameBelow a T (T.prune e) := by
  induction e generalizing T with
  | nil => exact .refl a T
  | cons c w ih =>
    have step : SameBelow a T (T.remove w c) := by
      have elsewhere : ∀ u, u.getLast? = some a → u ≠ w := by
        rintro u last rfl
        obtain ⟨d, x, rfl⟩ := List.exists_cons_of_ne_nil (show u ≠ [] by rintro rfl; cases last)
        rw [List.getLast?_cons_cons, last] at away
        exact other (Option.some.inj away)
      refine ⟨?_, fun u last => ⟨?_, rfl⟩⟩
      · rw [remove_kids]
        split
        · rename_i root
          subst root
          obtain rfl : c = b := Option.some.inj away
          exact List.mem_erase_of_ne other
        · exact Iff.rfl
      · rw [remove_kids, if_neg (elsewhere u last)]
    unfold prune
    split
    · exact step
    · rename_i more
      obtain ⟨d, x, rfl⟩ := List.exists_cons_of_ne_nil (fun root => more (Or.inl root))
      rw [List.getLast?_cons_cons] at away
      exact step.trans (ih away)

end
end
end Tree
end ByteTree
