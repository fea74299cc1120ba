import Mathlib.Data.List.Nodup

/- Singly linked lists closed by a null link. The list is what a walk from a first link
   meets; the successor of the null link is never read. -/
namespace NullLinked
variable {Cell : Type*} {null : Cell} {next next' : Cell → Cell} {p x z : Cell}
  {l before after : List Cell}

def Linked (null : Cell) (next : Cell → Cell) : Cell → List Cell → Prop
  | p, [] => p = null
  | p, x :: xs => p = x ∧ x ≠ null ∧ Linked null next (next x) xs

theorem linked_congr (linked : Linked null next p l) (same : ∀ x ∈ l, next' x = next x) :
    Linked null next' p l := by
  induction l generalizing p with
  | nil => exact linked
  | cons x xs ih =>
    refine ⟨linked.1, linked.2.1, ?_⟩
    rw [same x List.mem_cons_self]
    exact ih linked.2.2 fun y member => same y (List.mem_cons_of_mem x member)

theorem linked_start (linked : Linked null next p l) (more : l ≠ []) : p ≠ null ∧ p ∈ l := by
  cases l with
  | nil => exact absurd rfl more
  | cons x xs =>
    obtain ⟨rfl, proper, _⟩ := linked
    exact ⟨proper, List.mem_cons_self⟩

theorem linked_proper (linked : Linked null next p l) : null ∉ l := by
  induction l generalizing p with
  | nil => exact List.not_mem_nil
  | cons x xs ih =>
    intro member
    cases List.mem_cons.mp member with
    | inl same => exact linked.2.1 same.symm
    | inr later => exact ih linked.2.2 later

theorem linked_behind (linked : Linked null next p (before ++ x :: after)) :
    Linked null next x (x :: after) := by
  induction before generalizing p with
  | nil => exact ⟨rfl, linked.2⟩
  | cons y ys ih => exact ih linked.2.2

theorem linked_unique {l' : List Cell} (linked : Linked null next p l)
    (linked' : Linked null next p l') : l = l' := by
  induction l generalizing p l' with
  | nil =>
    cases l' with
    | nil => rfl
    | cons y ys => exact absurd (linked'.1.symm.trans linked) linked'.2.1
  | cons x xs ih =>
    cases l' with
    | nil => exact absurd (linked.1.symm.trans linked') linked.2.1
    | cons y ys =>
      obtain rfl : x = y := linked.1.symm.trans linked'.1
      rw [ih linked.2.2 linked'.2.2]

/-- A walk that ends meets no cell twice: the two walks on from there would be one. -/
theorem linked_nodup (linked : Linked null next p l) : l.Nodup := by
  induction l generalizing p with
  | nil => exact List.nodup_nil
  | cons x xs ih =>
    refine List.nodup_cons.mpr ⟨fun member => ?_, ih linked.2.2⟩
    obtain ⟨before, after, rfl⟩ := List.append_of_mem member
    have whole : Linked null next x (x :: (before ++ x :: after)) := ⟨rfl, linked.2⟩
    have same := linked_unique whole (linked_behind linked.2.2)
    have lengths := congrArg List.length same
    simp only [List.length_cons, List.length_append] at lengths
    omega

theorem linked_extend (linked : Linked null next p (before ++ [z])) (proper : x ≠ null)
    (step : next' z = x) (stop : next' x = null) (same : ∀ y ∈ before, next' y = next y) :
    Linked null next' p (before ++ [z, x]) := by
  induction before generalizing p with
  | nil => exact ⟨linked.1, linked.2.1, step, proper, stop⟩
  | cons y ys ih =>
    refine ⟨linked.1, linked.2.1, ?_⟩
    rw [same y List.mem_cons_self]
    exact ih linked.2.2 fun c member => same c (List.mem_cons_of_mem y member)

theorem linked_push (linked : Linked null next p l) (proper : x ≠ null) (step : next' x = p)
    (same : ∀ y ∈ l, next' y = next y) : Linked null next' x (x :: l) := by
  refine ⟨rfl, proper, ?_⟩
  rw [step]
  exact linked_congr linked same

end NullLinked
