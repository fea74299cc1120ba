import Mathlib.Data.List.Nodup
import Mathlib.Data.List.Perm.Basic

/- Circular doubly linked rings over any cell type. A ring is the list of its
   members in order; the two link functions are only read on members, so every
   rule takes the new links pointwise and says nothing about other cells. -/
namespace CircularRing
variable {Cell : Type*} {next prev next' prev' : Cell → Cell}

/-- From `a` through the listed cells to `b`, with the back links. -/
def Linked (next prev : Cell → Cell) : Cell → List Cell → Cell → Prop
  | a, [], b => next a = b ∧ prev b = a
  | a, x :: xs, b => next a = x ∧ prev x = a ∧ Linked next prev x xs b

def IsRing (next prev : Cell → Cell) : List Cell → Prop
  | [] => True
  | a :: l => (a :: l).Nodup ∧ Linked next prev a l a

theorem linked_append (a b x : Cell) (l m : List Cell) :
    Linked next prev a (l ++ x :: m) b ↔ Linked next prev a l x ∧ Linked next prev x m b := by
  induction l generalizing a with
  | nil => simp [Linked, and_assoc]
  | cons y ys ih => simp [Linked, ih, and_assoc]

theorem linked_congr {a b : Cell} {l : List Cell} (linked : Linked next prev a l b)
    (forward : ∀ u ∈ a :: l, next' u = next u) (backward : ∀ u ∈ l ++ [b], prev' u = prev u) :
    Linked next' prev' a l b := by
  induction l generalizing a with
  | nil =>
    exact ⟨(forward a (by simp)).trans linked.1, (backward b (by simp)).trans linked.2⟩
  | cons x xs ih =>
    obtain ⟨step, back, rest⟩ := linked
    refine ⟨(forward a (by simp)).trans step, (backward x (by simp)).trans back, ?_⟩
    apply ih rest
    · intro u hu; exact forward u (List.mem_cons_of_mem a hu)
    · intro u hu; exact backward u (List.mem_cons_of_mem x hu)

theorem ring_nodup {l : List Cell} (ring : IsRing next prev l) : l.Nodup := by
  cases l with
  | nil => exact List.nodup_nil
  | cons a l => exact ring.1

theorem ring_congr {l : List Cell} (ring : IsRing next prev l)
    (forward : ∀ u ∈ l, next' u = next u) (backward : ∀ u ∈ l, prev' u = prev u) :
    IsRing next' prev' l := by
  cases l with
  | nil => trivial
  | cons a l =>
    refine ⟨ring.1, linked_congr ring.2 forward ?_⟩
    intro u hu
    apply backward u
    simpa [or_comm] using hu

theorem ring_turn {a : Cell} {l : List Cell} (ring : IsRing next prev (a :: l)) :
    IsRing next prev (l ++ [a]) := by
  cases l with
  | nil => exact ring
  | cons x xs =>
    obtain ⟨nodup, step, back, rest⟩ := ring
    refine ⟨?_, (linked_append x x a xs []).mpr ⟨rest, step, back⟩⟩
    exact (List.perm_append_singleton a (x :: xs)).nodup_iff.mpr nodup

theorem ring_rotate {l m : List Cell} (ring : IsRing next prev (l ++ m)) :
    IsRing next prev (m ++ l) := by
  induction l generalizing m with
  | nil => simpa using ring
  | cons a l ih =>
    have turned : IsRing next prev (l ++ (m ++ [a])) := by
      have := ring_turn ring
      simpa using this
    simpa using ih turned

theorem ring_from {x : Cell} {l : List Cell} (ring : IsRing next prev l) (member : x ∈ l) :
    ∃ m, IsRing next prev (x :: m) ∧ (x :: m).Perm l := by
  obtain ⟨before, after, rfl⟩ := List.append_of_mem member
  have perm : ((x :: after) ++ before).Perm (before ++ x :: after) := List.perm_append_comm
  exact ⟨after ++ before, ring_rotate ring, perm⟩

theorem linked_unique {a b : Cell} {l m : List Cell} (first : Linked next prev a l b)
    (second : Linked next prev a m b) (outFirst : b ∉ l) (outSecond : b ∉ m) : l = m := by
  induction l generalizing a m with
  | nil =>
    cases m with
    | nil => rfl
    | cons y ys =>
      obtain rfl : b = y := first.1.symm.trans second.1
      exact absurd List.mem_cons_self outSecond
  | cons x xs ih =>
    cases m with
    | nil =>
      obtain rfl : b = x := second.1.symm.trans first.1
      exact absurd List.mem_cons_self outFirst
    | cons y ys =>
      obtain rfl : x = y := first.1.symm.trans second.1
      rw [ih first.2.2 second.2.2 (List.not_mem_of_not_mem_cons outFirst)
        (List.not_mem_of_not_mem_cons outSecond)]

theorem ring_unique {a : Cell} {l m : List Cell} (first : IsRing next prev (a :: l))
    (second : IsRing next prev (a :: m)) : l = m :=
  linked_unique first.2 second.2 (List.nodup_cons.mp first.1).1 (List.nodup_cons.mp second.1).1

theorem ring_single {x : Cell} : IsRing next prev [x] ↔ next x = x ∧ prev x = x := by
  simp [IsRing, Linked]

theorem ring_first {x y : Cell} {l : List Cell} (ring : IsRing next prev (x :: y :: l)) :
    next x = y ∧ prev y = x := ⟨ring.2.1, ring.2.2.1⟩

theorem ring_last {x z : Cell} {l : List Cell} (ring : IsRing next prev (x :: (l ++ [z]))) :
    next z = x ∧ prev x = z :=
  ((linked_append x x z l []).mp ring.2).2

theorem next_member {x : Cell} {l : List Cell} (ring : IsRing next prev l) (member : x ∈ l) :
    next x ∈ l := by
  obtain ⟨m, turned, perm⟩ := ring_from ring member
  apply perm.subset
  cases m with
  | nil => simp [(ring_single.mp turned).1]
  | cons y ys => simp [(ring_first turned).1]

theorem prev_member {x : Cell} {l : List Cell} (ring : IsRing next prev l) (member : x ∈ l) :
    prev x ∈ l := by
  obtain ⟨m, turned, perm⟩ := ring_from ring member
  apply perm.subset
  rcases List.eq_nil_or_concat' m with rfl | ⟨ys, z, rfl⟩
  · simp [(ring_single.mp turned).2]
  · have last := ring_last turned
    simp [last.2]

theorem prev_next {x : Cell} {l : List Cell} (ring : IsRing next prev l) (member : x ∈ l) :
    prev (next x) = x := by
  obtain ⟨m, turned, _⟩ := ring_from ring member
  cases m with
  | nil => rw [(ring_single.mp turned).1, (ring_single.mp turned).2]
  | cons y ys => rw [(ring_first turned).1, (ring_first turned).2]

theorem next_prev {x : Cell} {l : List Cell} (ring : IsRing next prev l) (member : x ∈ l) :
    next (prev x) = x := by
  obtain ⟨m, turned, _⟩ := ring_from ring member
  rcases List.eq_nil_or_concat' m with rfl | ⟨ys, z, rfl⟩
  · rw [(ring_single.mp turned).2, (ring_single.mp turned).1]
  · have last := ring_last turned
    rw [last.2, last.1]

theorem linked_mirror {a b : Cell} {l : List Cell} (linked : Linked next prev a l b) :
    Linked prev next b l.reverse a := by
  induction l generalizing a with
  | nil => exact ⟨linked.2, linked.1⟩
  | cons x xs ih =>
    obtain ⟨step, back, rest⟩ := linked
    rw [List.reverse_cons]
    exact (linked_append b a x xs.reverse []).mpr ⟨ih rest, back, step⟩

theorem ring_mirror {a : Cell} {l : List Cell} (ring : IsRing next prev (a :: l)) :
    IsRing prev next (a :: l.reverse) := by
  refine ⟨?_, linked_mirror ring.2⟩
  exact ((List.reverse_perm l).cons a).nodup_iff.mpr ring.1

theorem alone_iff {x : Cell} {l : List Cell} (ring : IsRing next prev l) (member : x ∈ l) :
    next x = x ↔ l = [x] := by
  constructor
  · intro loop
    obtain ⟨m, turned, perm⟩ := ring_from ring member
    cases m with
    | nil => exact List.perm_singleton.mp perm.symm
    | cons y ys =>
      have step := (ring_first turned).1
      have distinct := (List.nodup_cons.mp turned.1).1
      simp [← step, loop] at distinct
  · rintro rfl
    exact (ring_single.mp ring).1

theorem ends_member {a : Cell} {l : List Cell} (ring : IsRing next prev (a :: l)) (some : l ≠ []) :
    next a ∈ l ∧ prev a ∈ l := by
  constructor
  · obtain ⟨y, ys, rfl⟩ := List.exists_cons_of_ne_nil some
    rw [(ring_first ring).1]
    exact List.mem_cons_self
  · rcases List.eq_nil_or_concat' l with rfl | ⟨ws, z, rfl⟩
    · exact absurd rfl some
    · rw [(ring_last ring).2]
      exact List.mem_append_right _ List.mem_cons_self

/-- Unlinking the head: its neighbours are joined, every other link stays. -/
theorem unlink_head {x : Cell} {l : List Cell} (ring : IsRing next prev (x :: l)) (some : l ≠ [])
    (joinNext : next' (prev x) = next x) (joinPrev : prev' (next x) = prev x)
    (forward : ∀ u ∈ l, u ≠ prev x → next' u = next u)
    (backward : ∀ u ∈ l, u ≠ next x → prev' u = prev u) : IsRing next' prev' l := by
  cases l with
  | nil => exact absurd rfl some
  | cons y ys =>
    have first := ring_first ring
    have nodup : (y :: ys).Nodup := (List.nodup_cons.mp ring.1).2
    rw [first.1] at joinNext joinPrev backward
    rcases List.eq_nil_or_concat' ys with rfl | ⟨ws, z, rfl⟩
    · have last := ring_last (l := []) ring
      rw [last.2] at joinNext joinPrev
      exact ring_single.mpr ⟨joinNext, joinPrev⟩
    · have last := ring_last (l := y :: ws) ring
      rw [last.2] at joinNext joinPrev forward
      refine ⟨nodup, (linked_append y y z ws []).mpr ⟨?_, joinNext, joinPrev⟩⟩
      have inner := ((linked_append y x z ws []).mp ring.2.2.2).1
      have zOut : z ∉ y :: ws := by
        have := List.nodup_append.mp (show (y :: ws ++ [z]).Nodup from nodup)
        intro hz; exact this.2.2 z hz z (by simp) rfl
      apply linked_congr inner
      · intro u hu
        exact forward u (by simp at hu ⊢; tauto) (fun same => zOut (same ▸ hu))
      · intro u hu
        refine backward u (by simp at hu ⊢; tauto) ?_
        rintro rfl
        exact (List.nodup_cons.mp nodup).1 hu

theorem unlink (next' prev' : Cell → Cell) {x : Cell} {l : List Cell} (ring : IsRing next prev l)
    (member : x ∈ l) (others : next x ≠ x)
    (joinNext : next' (prev x) = next x) (joinPrev : prev' (next x) = prev x)
    (forward : ∀ u ∈ l, u ≠ x → u ≠ prev x → next' u = next u)
    (backward : ∀ u ∈ l, u ≠ x → u ≠ next x → prev' u = prev u) :
    ∃ m, IsRing next' prev' m ∧ (x :: m).Perm l := by
  obtain ⟨m, turned, perm⟩ := ring_from ring member
  have out : x ∉ m := (List.nodup_cons.mp turned.1).1
  have inside : ∀ u ∈ m, u ∈ l ∧ u ≠ x := fun u hu =>
    ⟨perm.subset (by simp [hu]), fun same => out (same ▸ hu)⟩
  refine ⟨m, ?_, perm⟩
  apply unlink_head turned _ joinNext joinPrev
  · intro u hu; exact forward u (inside u hu).1 (inside u hu).2
  · intro u hu; exact backward u (inside u hu).1 (inside u hu).2
  · rintro rfl
    exact others (ring_single.mp turned).1

theorem relink {a b c : Cell} {l : List Cell} (linked : Linked next prev a l b) (nodup : (a :: l).Nodup)
    (step : next' (prev b) = c) (back : prev' c = prev b)
    (forward : ∀ u ∈ a :: l, u ≠ prev b → next' u = next u) (backward : ∀ u ∈ l, prev' u = prev u) :
    Linked next' prev' a l c := by
  rcases List.eq_nil_or_concat' l with rfl | ⟨ws, z, rfl⟩
  · obtain ⟨_, last⟩ := linked
    rw [last] at step back
    exact ⟨step, back⟩
  · obtain ⟨inner, _, last⟩ := (linked_append a b z ws []).mp linked
    rw [last] at step back forward
    refine (linked_append a c z ws []).mpr ⟨?_, step, back⟩
    have out : z ∉ a :: ws := by
      rw [← List.cons_append, List.nodup_append] at nodup
      exact fun inside => nodup.2.2 z inside z (by simp) rfl
    refine linked_congr inner (fun u inside => forward u ?_ fun same => out (same ▸ inside)) fun u inside =>
      backward u inside
    rw [← List.cons_append]
    exact List.mem_append_left _ inside

/-- The members of a second ring, without its head, in front of the head of the first. -/
theorem splice {h n : Cell} {l k : List Cell} (ring : IsRing next prev (h :: l))
    (more : IsRing next prev (n :: k)) (some : k ≠ []) (apart : ∀ u ∈ h :: l, u ∉ n :: k)
    (stepIn : next' (prev h) = next n) (backIn : prev' (next n) = prev h)
    (stepOut : next' (prev n) = h) (backOut : prev' h = prev n)
    (forward : ∀ u ∈ h :: l ++ k, u ≠ prev h → u ≠ prev n → next' u = next u)
    (backward : ∀ u ∈ l ++ k, u ≠ next n → prev' u = prev u) : IsRing next' prev' (h :: (l ++ k)) := by
  cases k with
  | nil => exact absurd rfl some
  | cons y ys =>
    have first := (ring_first more).1
    rw [first] at stepIn backIn backward
    have inside : prev h ∈ h :: l := prev_member ring List.mem_cons_self
    have last : prev n ∈ n :: y :: ys := prev_member more List.mem_cons_self
    have nodup : (h :: l ++ y :: ys).Nodup := List.nodup_append.mpr ⟨ring.1, (List.nodup_cons.mp more.1).2,
      fun u hu v hv same => apart u hu (same ▸ List.mem_cons_of_mem n hv)⟩
    refine ⟨nodup, (linked_append h h y l ys).mpr ⟨?_, ?_⟩⟩
    · refine relink ring.2 ring.1 stepIn backIn (fun u hu other => ?_) fun u hu => ?_
      · exact forward u (List.mem_append_left _ hu) other fun same => apart u hu (same ▸ last)
      · exact backward u (List.mem_append_left _ hu) fun same =>
          apart u (List.mem_cons_of_mem h hu) (same ▸ by simp)
    · refine relink more.2.2.2 (List.nodup_cons.mp more.1).2 stepOut backOut (fun u hu other => ?_)
        fun u hu => ?_
      · exact forward u (List.mem_append_right _ hu) (fun same =>
          apart u (same ▸ inside) (List.mem_cons_of_mem n hu)) other
      · refine backward u (List.mem_append_right _ (List.mem_cons_of_mem y hu)) fun same => ?_
        exact (List.nodup_cons.mp (List.nodup_cons.mp more.1).2).1 (same ▸ hu)

theorem insert_behind_head {a x : Cell} {l : List Cell} (ring : IsRing next prev (a :: l))
    (fresh : x ∉ a :: l) (stepIn : next' a = x) (stepOut : next' x = next a)
    (backIn : prev' x = a) (backOut : prev' (next a) = x)
    (forward : ∀ u ∈ l, next' u = next u)
    (backward : ∀ u ∈ a :: l, u ≠ next a → prev' u = prev u) :
    IsRing next' prev' (a :: x :: l) := by
  have nodup : (a :: x :: l).Nodup := by
    have := List.nodup_cons.mpr ⟨fresh, ring.1⟩
    exact (List.Perm.swap a x l).nodup_iff.mp this
  refine ⟨nodup, stepIn, backIn, ?_⟩
  cases l with
  | nil =>
    have loop := ring_single.mp ring
    rw [loop.1] at stepOut backOut
    exact ⟨stepOut, backOut⟩
  | cons y ys =>
    have first := ring_first ring
    rw [first.1] at stepOut backOut backward
    refine ⟨stepOut, backOut, linked_congr ring.2.2.2 forward ?_⟩
    intro u hu
    have distinct := List.nodup_cons.mp ring.1
    refine backward u (by simp at hu ⊢; tauto) ?_
    rintro rfl
    rcases List.mem_append.mp hu with inside | last
    · exact (List.nodup_cons.mp distinct.2).1 inside
    · exact distinct.1 (by simp at last; simp [last])

theorem insert_behind (next' prev' : Cell → Cell) {a x : Cell} {l : List Cell}
    (ring : IsRing next prev l) (member : a ∈ l)
    (fresh : x ∉ l) (stepIn : next' a = x) (stepOut : next' x = next a)
    (backIn : prev' x = a) (backOut : prev' (next a) = x)
    (forward : ∀ u ∈ l, u ≠ a → next' u = next u)
    (backward : ∀ u ∈ l, u ≠ next a → prev' u = prev u) :
    ∃ m, IsRing next' prev' m ∧ m.Perm (x :: l) := by
  obtain ⟨m, turned, perm⟩ := ring_from ring member
  refine ⟨a :: x :: m, ?_, (List.Perm.swap x a m).trans (perm.cons x)⟩
  apply insert_behind_head turned (fun hx => fresh (perm.subset hx)) stepIn stepOut backIn backOut
  · intro u hu
    refine forward u (perm.subset (by simp [hu])) ?_
    rintro rfl
    exact (List.nodup_cons.mp turned.1).1 hu
  · intro u hu; exact backward u (perm.subset hu)

/-- Consecutive integers, for rings that are laid out in order. -/
def runFrom : Int → Nat → List Int
  | _, 0 => []
  | s, n + 1 => s :: runFrom (s + 1) n

@[simp] theorem runFrom_length (s : Int) (n : Nat) : (runFrom s n).length = n := by
  induction n generalizing s with
  | zero => rfl
  | succ n ih => simp [runFrom, ih]

@[simp] theorem mem_runFrom {s i : Int} {n : Nat} : i ∈ runFrom s n ↔ s ≤ i ∧ i < s + n := by
  induction n generalizing s with
  | zero => simp [runFrom]
  | succ n ih => simp only [runFrom, List.mem_cons, ih]; omega

theorem run_linked {next prev : Int → Int} {s b : Int} {n : Nat}
    (forward : ∀ i, s ≤ i → i < s + n → next i = i + 1)
    (backward : ∀ i, s ≤ i → i < s + n → prev (i + 1) = i)
    (close : next (s + n) = b) (open' : prev b = s + n) : Linked next prev s (runFrom (s + 1) n) b := by
  induction n generalizing s with
  | zero => exact ⟨by simpa using close, by simpa using open'⟩
  | succ n ih =>
    have shift : s + (n + 1 : Nat) = s + 1 + n := by omega
    refine ⟨forward s (by omega) (by omega), backward s (by omega) (by omega), ih ?_ ?_ ?_ ?_⟩
    · intro i h1 h2; exact forward i (by omega) (by omega)
    · intro i h1 h2; exact backward i (by omega) (by omega)
    · rw [← shift]; exact close
    · rw [← shift]; exact open'

theorem run_nodup (s : Int) (n : Nat) : (runFrom s n).Nodup := by
  induction n generalizing s with
  | zero => exact List.nodup_nil
  | succ n ih =>
    refine List.nodup_cons.mpr ⟨fun h => ?_, ih (s + 1)⟩
    have := mem_runFrom.mp h
    omega

theorem run_ring {next prev : Int → Int} {s : Int} {n : Nat}
    (forward : ∀ i, s ≤ i → i < s + n → next i = i + 1)
    (backward : ∀ i, s ≤ i → i < s + n → prev (i + 1) = i)
    (close : next (s + n) = s) (open' : prev s = s + n) : IsRing next prev (runFrom s (n + 1)) :=
  ⟨run_nodup s (n + 1), run_linked forward backward close open'⟩

end CircularRing
