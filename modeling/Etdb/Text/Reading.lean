import Mathlib.Tactic.FieldSimp
import Mathlib.Tactic.Positivity
import Mathlib.Tactic.Ring
import Etdb.Lib.Decimal
import Etdb.Text.Numbers

/- What etdb_atoi and etdb_atof read, against the numbers that texts denote. Both set a
   flag for a sign and then refuse it, take any number of dots or none and no digit at
   all, and never look at how large the number grows. -/
namespace EtdbString

def sign (s : List UInt8) : Int := if s.head? = some minus then -1 else 1

def HasSign (s : List UInt8) : Prop := s.head? = some plus ∨ s.head? = some minus

instance (s : List UInt8) : Decidable (HasSign s) := inferInstanceAs (Decidable (_ ∨ _))

def afterSign (s : List UInt8) : List UInt8 := if HasSign s then s.tail else s

def IsNumeral (s : List UInt8) : Prop := s ≠ [] ∧ ∀ c ∈ s, isDigit c = true

instance (s : List UInt8) : Decidable (IsNumeral s) := inferInstanceAs (Decidable (_ ∧ _))

def FitsInt (i : Int) : Prop := -2147483648 ≤ i ∧ i ≤ 2147483647

instance (i : Int) : Decidable (FitsInt i) := inferInstanceAs (Decidable (_ ∧ _))

/-- The int that an optional sign and digits denote. -/
def intText (s : List UInt8) : Option Int :=
  let number := sign s * DecimalText.value (afterSign s)
  if IsNumeral (afterSign s) ∧ FitsInt number then some number else none

def fraction (s : List UInt8) : List UInt8 := (s.dropWhile isDigit).tail

/-- Digits, and at most one fractional part behind a dot. -/
structure IsDecimal (s : List UInt8) : Prop where
  whole : s.takeWhile isDigit ≠ []
  single : s.dropWhile isDigit = [] ∨ (s.dropWhile isDigit).head? = some dot
  digits : ∀ c ∈ fraction s, isDigit c = true

instance (s : List UInt8) : Decidable (IsDecimal s) :=
  letI : Decidable (∀ c ∈ fraction s, isDigit c = true) := List.decidableBAll _ _
  decidable_of_iff (_ ∧ _ ∧ _) ⟨fun ⟨whole, single, digits⟩ => ⟨whole, single, digits⟩,
    fun ⟨whole, single, digits⟩ => ⟨whole, single, digits⟩⟩

/-- The number that an optional sign, digits and a fractional part denote. -/
def decimalText (s : List UInt8) : Option ℚ :=
  let rest := afterSign s
  let part := (DecimalText.value (fraction rest) : ℚ) / 10 ^ (fraction rest).length
  if IsDecimal rest then some (sign s * (DecimalText.value rest + part)) else none

/-- Rounding does not leave the side of zero. -/
def Rounding.Signed (r : Rounding) : Prop := ∀ x, 0 ≤ x → 0 ≤ r.single x ∧ 0 ≤ r.double x

def AtoiRight (s : List UInt8) : Prop := atoi s = intText s

def AtofRight (s : List UInt8) : Prop :=
  match decimalText s with
  | none => ∀ r, atof r s = none
  | some x => atof exactly s = some x ∧
      ∀ r : Rounding, r.Signed → ∃ y, atof r s = some y ∧ (0 ≤ x → 0 ≤ y) ∧ (x < 0 → y ≤ 0)

section
variable {s l : List UInt8} {c : UInt8} {v k : Nat} {i : Int} {r : Rounding} {x ret step : ℚ}

theorem le_foldl_shift (s : List UInt8) (v : Nat) : v ≤ s.foldl DecimalText.shift v := by
  induction s generalizing v with
  | nil => exact le_refl v
  | cons c rest ih =>
    have := ih (DecimalText.shift v c)
    rw [List.foldl_cons]
    simp only [DecimalText.shift] at this ⊢
    omega

theorem atoiLoop_isSome : (atoiLoop s i).isSome ↔ ∀ c ∈ s, isDigit c = true := by
  induction s generalizing i with
  | nil => simp [atoiLoop]
  | cons c rest ih =>
    rw [atoiLoop, List.forall_mem_cons]
    by_cases first : isDigit c
    · rw [if_pos first, ih]
      simp [first]
    · rw [if_neg first]
      simp [first]

theorem atoiLoop_digits (digits : ∀ c ∈ s, isDigit c = true)
    (small : s.foldl DecimalText.shift v < 2147483648) :
    atoiLoop s v = some ((s.foldl DecimalText.shift v : Nat) : Int) := by
  induction s generalizing v with
  | nil => rfl
  | cons c rest ih =>
    obtain ⟨first, later⟩ := List.forall_mem_cons.mp digits
    rw [List.foldl_cons] at small ⊢
    have below : DecimalText.shift v c < 2147483648 := lt_of_le_of_lt (le_foldl_shift rest _) small
    have next : wrapInt ((v : Int) * 10 + (c.toNat - 48 : Nat)) = (DecimalText.shift v c : Nat) := by
      simp only [DecimalText.shift] at below ⊢
      rw [wrapInt, Int.bmod_eq_of_le] <;> push_cast <;> omega
    rw [atoiLoop, if_pos first, next]
    exact ih later small

theorem head_plain (digits : ∀ c ∈ s, c = dot ∨ isDigit c = true) : ¬ HasSign s := by
  cases s with
  | nil => simp [HasSign]
  | cons c rest =>
    have first := digits c List.mem_cons_self
    rintro (plus | minus)
    · obtain rfl := Option.some.inj plus
      revert first
      decide
    · obtain rfl := Option.some.inj minus
      revert first
      decide

theorem sign_plain (plain : ¬ HasSign s) : sign s = 1 := if_neg fun minus => plain (Or.inr minus)

theorem afterSign_plain (plain : ¬ HasSign s) : afterSign s = s := if_neg plain

theorem afterSign_signed (signed : HasSign s) : afterSign s = s.tail := if_pos signed

theorem flag_plain (plain : ¬ HasSign s) : s.head? ≠ some minus := fun minus => plain (Or.inr minus)

theorem value_digits (digits : ∀ c ∈ s, isDigit c = true) :
    DecimalText.value s = s.foldl DecimalText.shift 0 :=
  DecimalText.value_all digits

theorem atoi_isSome : (atoi s).isSome ↔ ∀ c ∈ s, isDigit c = true := by
  rw [atoi, Option.isSome_map, atoiLoop_isSome]

theorem atoi_right_iff (s : List UInt8) : AtoiRight s ↔ s ≠ [] ∧
    (IsNumeral s → DecimalText.value s < 2147483648) ∧
    ¬ (HasSign s ∧ IsNumeral s.tail ∧ FitsInt (sign s * DecimalText.value s.tail)) := by
  rw [AtoiRight]
  by_cases digits : ∀ c ∈ s, isDigit c = true
  · -- the text is read, and must be one that denotes an int
    have plain := head_plain fun c inside => Or.inr (digits c inside)
    have read : (atoi s).isSome := atoi_isSome.mpr digits
    rw [intText, afterSign_plain plain, sign_plain plain, one_mul]
    constructor
    · intro right
      by_cases number : IsNumeral s ∧ FitsInt (DecimalText.value s)
      · have := number.2.2
        exact ⟨number.1.1, fun _ => by omega, fun signed => plain signed.1⟩
      · rw [right, if_neg number] at read
        cases read
    · rintro ⟨some, small, _⟩
      have numeral : IsNumeral s := ⟨some, digits⟩
      have below := small numeral
      rw [if_pos ⟨numeral, by unfold FitsInt; omega⟩]
      rw [value_digits digits] at below ⊢
      have loop := atoiLoop_digits (v := 0) digits below
      rw [Nat.cast_zero] at loop
      rw [atoi, loop, if_neg (flag_plain plain), Option.map_some, mul_one]
  · -- the text is refused, and must be none that denotes an int
    have refused : atoi s = none := by
      rw [← Option.not_isSome_iff_eq_none, atoi_isSome]
      exact digits
    have some : s ≠ [] := by
      rintro rfl
      exact digits fun c inside => absurd inside List.not_mem_nil
    have notNumeral : ¬ IsNumeral s := fun numeral => digits numeral.2
    rw [refused, intText]
    by_cases signed : HasSign s
    · rw [afterSign_signed signed, eq_comm, ite_eq_right_iff]
      simp [some, notNumeral, signed]
    · rw [afterSign_plain signed, if_neg fun number => notNumeral number.1]
      simp [some, notNumeral, signed]

theorem atofLoop_isSome (r : Rounding) (s : List UInt8) (ret step : ℚ) :
    (atofLoop r s ret step).isSome ↔ ∀ c ∈ s, c = dot ∨ isDigit c = true := by
  induction s generalizing ret step with
  | nil => simp [atofLoop]
  | cons c rest ih =>
    rw [atofLoop, atofByte, List.forall_mem_cons]
    by_cases point : c = dot
    · rw [if_pos point]
      exact (ih ..).trans (and_iff_right (Or.inl point)).symm
    rw [if_neg point]
    by_cases first : isDigit c
    · rw [if_pos first]
      split <;> exact (ih ..).trans (and_iff_right (Or.inr first)).symm
    · rw [if_neg first]
      simp [point, first]

theorem atof_isSome : (atof r s).isSome ↔ ∀ c ∈ s, c = dot ∨ isDigit c = true := by
  rw [atof, Option.isSome_map, atofLoop_isSome]

theorem dot_not_digit : isDigit dot = false := by decide

theorem digit_not_dot (digit : isDigit c = true) : c ≠ dot := by
  rintro rfl
  rw [dot_not_digit] at digit
  cases digit

theorem count_whole (s : List UInt8) : s.count dot = (s.dropWhile isDigit).count dot := by
  have split := congrArg (List.count dot) (List.takeWhile_append_dropWhile (p := isDigit) (l := s))
  have none : (s.takeWhile isDigit).count dot = 0 :=
    List.count_eq_zero.mpr fun inside => digit_not_dot (List.mem_takeWhile_imp inside) rfl
  rw [List.count_append, none, Nat.zero_add] at split
  exact split.symm

theorem isDecimal_iff : IsDecimal s ↔
    (∀ c ∈ s, c = dot ∨ isDigit c = true) ∧ s.takeWhile isDigit ≠ [] ∧ s.count dot ≤ 1 := by
  have split := List.takeWhile_append_dropWhile (p := isDigit) (l := s)
  have front : ∀ c ∈ s.takeWhile isDigit, isDigit c = true :=
    fun c inside => List.mem_takeWhile_imp inside
  rw [count_whole]
  constructor
  · rintro ⟨whole, single, digits⟩
    cases tail : s.dropWhile isDigit with
    | nil =>
      refine ⟨fun c inside => Or.inr (front c ?_), whole, Nat.zero_le _⟩
      rwa [← split, tail, List.append_nil] at inside
    | cons d rest =>
      rw [fraction, tail, List.tail_cons] at digits
      rw [tail] at single
      obtain rfl : d = dot := by simpa using single
      refine ⟨fun c inside => ?_, whole, ?_⟩
      · rw [← split, tail] at inside
        rcases List.mem_append.mp inside with early | late
        · exact Or.inr (front c early)
        · rcases List.mem_cons.mp late with rfl | later
          · exact Or.inl rfl
          · exact Or.inr (digits c later)
      · rw [List.count_cons_self, List.count_eq_zero.mpr]
        exact fun inside => digit_not_dot (digits dot inside) rfl
  · rintro ⟨all, whole, once⟩
    cases tail : s.dropWhile isDigit with
    | nil => exact ⟨whole, Or.inl tail, by simp [fraction, tail]⟩
    | cons d rest =>
      have suffix : d :: rest <:+ s := tail ▸ List.dropWhile_suffix isDigit
      have stop : ¬ isDigit d = true := by
        have first := List.head?_dropWhile_not isDigit s
        rw [tail] at first
        simpa using first
      obtain rfl : d = dot := (all d (suffix.subset List.mem_cons_self)).resolve_right stop
      refine ⟨whole, Or.inr (by rw [tail]; rfl), fun c inside => ?_⟩
      rw [fraction, tail, List.tail_cons] at inside
      refine (all c (suffix.subset (List.mem_cons_of_mem _ inside))).resolve_left ?_
      rintro rfl
      rw [tail, List.count_cons_self] at once
      have := List.count_pos_iff.mpr inside
      omega

theorem foldl_shift_split (l : List UInt8) (v : Nat) :
    l.foldl DecimalText.shift v = v * 10 ^ l.length + l.foldl DecimalText.shift 0 := by
  induction l generalizing v with
  | nil => simp
  | cons c rest ih =>
    rw [List.foldl_cons, List.foldl_cons, ih, ih (DecimalText.shift 0 c), List.length_cons]
    simp only [DecimalText.shift]
    ring

theorem atofLoop_whole (digits : ∀ c ∈ l, isDigit c = true) (rest : List UInt8) :
    atofLoop exactly (l ++ rest) v 1 = atofLoop exactly rest (l.foldl DecimalText.shift v : Nat) 1 := by
  induction l generalizing v with
  | nil => rfl
  | cons c l ih =>
    obtain ⟨first, later⟩ := List.forall_mem_cons.mp digits
    have point := digit_not_dot first
    have next : (v : ℚ) * 10 + digit c = (DecimalText.shift v c : Nat) := by
      rw [DecimalText.shift, digit]
      push_cast
      ring
    rw [List.cons_append, atofLoop, atofByte, if_neg point, if_pos first, if_neg (lt_irrefl 1),
      List.foldl_cons, ← ih later, ← next]
    rfl

theorem atofLoop_fraction (k : Nat) (ret : ℚ) (digits : ∀ c ∈ l, isDigit c = true) :
    atofLoop exactly l ret (1 / 10 ^ (k + 1)) =
    some (ret + (l.foldl DecimalText.shift 0 : Nat) / 10 ^ (k + l.length)) := by
  induction l generalizing ret k with
  | nil => simp [atofLoop]
  | cons c l ih =>
    obtain ⟨first, later⟩ := List.forall_mem_cons.mp digits
    have point := digit_not_dot first
    have small : (1 : ℚ) / 10 ^ (k + 1) < 1 := by
      rw [div_lt_one (by positivity)]
      exact one_lt_pow₀ (by norm_num) (by omega)
    have smaller : (1 : ℚ) / 10 ^ (k + 1) * (1 / 10) = 1 / 10 ^ (k + 1 + 1) := by
      rw [pow_succ _ (k + 1)]
      field_simp
    rw [atofLoop, atofByte, if_neg point, if_pos first, if_pos small]
    change atofLoop exactly l (ret + digit c * (1 / 10 ^ (k + 1))) (1 / 10 ^ (k + 1) * (1 / 10)) = _
    rw [smaller, ih _ _ later, List.foldl_cons, foldl_shift_split l (DecimalText.shift 0 c)]
    have number : DecimalText.shift 0 c = c.toNat - 48 := by simp [DecimalText.shift]
    rw [number, digit, List.length_cons,
      show k + (l.length + 1) = k + 1 + l.length by omega, pow_add _ (k + 1)]
    push_cast
    congr 1
    field_simp
    ring

theorem atofLoop_exact (decimal : IsDecimal s) : atofLoop exactly s 0 1 =
    some (DecimalText.value s + (DecimalText.value (fraction s) : ℚ) / 10 ^ (fraction s).length) := by
  have split := List.takeWhile_append_dropWhile (p := isDigit) (l := s)
  have whole := atofLoop_whole (v := 0) (l := s.takeWhile isDigit)
    (fun c inside => List.mem_takeWhile_imp inside) (s.dropWhile isDigit)
  rw [split, Nat.cast_zero] at whole
  have number : DecimalText.value s = (s.takeWhile isDigit).foldl DecimalText.shift 0 := rfl
  rw [whole, value_digits decimal.digits, number]
  cases tail : s.dropWhile isDigit with
  | nil => simp [atofLoop, fraction, tail]
  | cons d rest =>
    have single := decimal.single
    have digits := decimal.digits
    rw [tail] at single
    obtain rfl : d = dot := by simpa using single
    rw [fraction, tail, List.tail_cons] at digits ⊢
    have read := atofLoop_fraction 0 ((s.takeWhile isDigit).foldl DecimalText.shift 0 : Nat) digits
    rw [Nat.zero_add, Nat.zero_add, pow_one] at read
    rw [← read, atofLoop, atofByte, if_pos rfl]
    rfl

theorem atofLoop_nonneg (signed : r.Signed) (nonneg : 0 ≤ ret) (forward : 0 ≤ step)
    (read : atofLoop r s ret step = some x) : 0 ≤ x := by
  have tenth : 0 ≤ r.tenth := (signed _ (by norm_num)).2
  induction s generalizing ret step with
  | nil =>
    obtain rfl := Option.some.inj read
    exact nonneg
  | cons c rest ih =>
    have number : (0 : ℚ) ≤ digit c := Nat.cast_nonneg _
    rw [atofLoop, atofByte] at read
    split at read
    · exact ih nonneg (signed _ tenth).1 read
    · split at read
      · split at read
        · have product := (signed _ (mul_nonneg number forward)).1
          exact ih (signed _ (add_nonneg nonneg product)).2
            (signed _ (signed _ (mul_nonneg forward tenth)).2).1 read
        · have product := (signed _ (mul_nonneg nonneg (show (0 : ℚ) ≤ 10 by norm_num))).2
          exact ih (signed _ (add_nonneg product number)).2 forward read
      · cases read

theorem atofRight_some (text : decimalText s = some x) : AtofRight s ↔ atof exactly s = some x ∧
    ∀ r : Rounding, r.Signed → ∃ y, atof r s = some y ∧ (0 ≤ x → 0 ≤ y) ∧ (x < 0 → y ≤ 0) := by
  rw [AtofRight, text]

theorem atofRight_none (text : decimalText s = none) : AtofRight s ↔ ∀ r, atof r s = none := by
  rw [AtofRight, text]

theorem atof_right_taken (taken : ∀ c ∈ s, c = dot ∨ isDigit c = true) : AtofRight s ↔ IsDecimal s := by
  have plain := head_plain taken
  constructor
  · intro right
    by_contra other
    have text : decimalText s = none := by
      rw [decimalText, afterSign_plain plain]
      exact if_neg other
    have read : (atof exactly s).isSome := atof_isSome.mpr taken
    rw [(atofRight_none text).mp right exactly] at read
    cases read
  · intro decimal
    have text : decimalText s =
        some (DecimalText.value s + (DecimalText.value (fraction s) : ℚ) / 10 ^ (fraction s).length) := by
      rw [decimalText, afterSign_plain plain, sign_plain plain]
      refine (if_pos decimal).trans ?_
      rw [Int.cast_one, one_mul]
    refine (atofRight_some text).mpr ⟨?_, fun r signed => ?_⟩
    · rw [atof, if_neg (flag_plain plain), atofLoop_exact decimal, Option.map_some, mul_one]
    · obtain ⟨y, read⟩ := Option.isSome_iff_exists.mp ((atofLoop_isSome r s 0 1).mpr taken)
      refine ⟨y, ?_, fun _ => atofLoop_nonneg signed (le_refl 0) zero_le_one read, fun negative => ?_⟩
      · rw [atof, if_neg (flag_plain plain), read, Option.map_some, mul_one]
      · have : (0 : ℚ) ≤ DecimalText.value s + (DecimalText.value (fraction s) : ℚ) / 10 ^
          (fraction s).length := by
          positivity
        exact absurd negative (not_lt.mpr this)

theorem atof_right_refused (refused : ¬ ∀ c ∈ s, c = dot ∨ isDigit c = true) :
    AtofRight s ↔ ¬ (HasSign s ∧ IsDecimal s.tail) := by
  have none : ∀ r, atof r s = none := by
    intro r
    rw [← Option.not_isSome_iff_eq_none, atof_isSome]
    exact refused
  have text : decimalText s = Option.none ↔ ¬ (HasSign s ∧ IsDecimal s.tail) := by
    rw [decimalText]
    by_cases signed : HasSign s
    · rw [afterSign_signed signed]
      simp [signed]
    · rw [afterSign_plain signed]
      have other : ¬ IsDecimal s := fun decimal => refused (isDecimal_iff.mp decimal).1
      simp [signed, other]
  rw [← text]
  constructor
  · intro right
    by_contra some
    obtain ⟨x, text⟩ := Option.ne_none_iff_exists'.mp some
    have read := ((atofRight_some text).mp right).1
    rw [none] at read
    cases read
  · exact fun text => (atofRight_none text).mpr none

theorem atof_right_iff (s : List UInt8) : AtofRight s ↔
    ((∀ c ∈ s, c = dot ∨ isDigit c = true) → s.takeWhile isDigit ≠ [] ∧ s.count dot ≤ 1) ∧
    ¬ (HasSign s ∧ IsDecimal s.tail) := by
  by_cases taken : ∀ c ∈ s, c = dot ∨ isDigit c = true
  · rw [atof_right_taken taken, isDecimal_iff]
    simp only [head_plain taken, false_and, not_false_eq_true, and_true]
    exact ⟨fun decimal _ => decimal.2, fun shape => ⟨taken, shape taken⟩⟩
  · rw [atof_right_refused taken]
    exact (and_iff_right fun all => absurd all taken).symm

/-- etdb_atoi reads a text right when it is digits below 2 ^ 31 or denotes no int at all, and
    etdb_atof when it is a number without a sign or no number at all. -/
theorem numbers_read_iff (s : List UInt8) :
    (AtoiRight s ↔ s ≠ [] ∧ (IsNumeral s → DecimalText.value s < 2147483648) ∧
      ¬ (HasSign s ∧ IsNumeral s.tail ∧ FitsInt (sign s * DecimalText.value s.tail))) ∧
    (AtofRight s ↔ ((∀ c ∈ s, c = dot ∨ isDigit c = true) → s.takeWhile isDigit ≠ [] ∧ s.count dot ≤ 1) ∧
      ¬ (HasSign s ∧ IsDecimal s.tail)) :=
  ⟨atoi_right_iff s, atof_right_iff s⟩

theorem sign_is_refused : ¬ AtoiRight [45, 49] ∧ ¬ AtofRight [45, 49] ∧ ¬ AtoiRight [] ∧
    ¬ AtofRight [] := by
  simp only [atoi_right_iff, atof_right_iff]
  decide +kernel

end
end EtdbString
