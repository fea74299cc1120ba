import Mathlib.Data.List.TakeWhile
import Mathlib.Data.Nat.Digits.Lemmas

/- Decimal numbers as byte strings: spelling a number, and reading the digits that begin
   a string. -/
namespace DecimalText

def isDigit (c : UInt8) : Bool := 48 ≤ c && c ≤ 57

def digitByte (d : Nat) : UInt8 := UInt8.ofNat (48 + d)

def spell (n : Nat) : List UInt8 := if n = 0 then [48] else (Nat.digits 10 n).reverse.map digitByte

def shift (v : Nat) (c : UInt8) : Nat := 10 * v + (c.toNat - 48)

/-- The number that the leading digits of a string spell. -/
def value (s : List UInt8) : Nat := (s.takeWhile isDigit).foldl shift 0

section
variable {n d v k : Nat} {s : List UInt8} {c : UInt8}

theorem digitByte_toNat (small : d < 10) : (digitByte d).toNat = 48 + d := by
  simp only [digitByte, UInt8.toNat_ofNat']
  omega

theorem digitByte_digit (small : d < 10) : isDigit (digitByte d) = true := by
  have number := digitByte_toNat small
  simp only [isDigit, Bool.and_eq_true, decide_eq_true_eq, UInt8.le_iff_toNat_le, number]
  exact ⟨Nat.le_add_right 48 d, by change 48 + d ≤ 57; omega⟩

theorem shift_digit (small : d < 10) : shift v (digitByte d) = 10 * v + d := by
  rw [shift, digitByte_toNat small]
  omega

theorem spell_digits (n : Nat) : ∀ c ∈ spell n, isDigit c = true := by
  intro c member
  unfold spell at member
  split at member
  · rw [List.mem_singleton.mp member]
    rfl
  · obtain ⟨d, inside, rfl⟩ := List.mem_map.mp member
    exact digitByte_digit (Nat.digits_lt_base (by decide) (List.mem_reverse.mp inside))

theorem spell_some (n : Nat) : spell n ≠ [] := by
  unfold spell
  split
  · exact List.cons_ne_nil _ _
  · rename_i positive
    simpa [Nat.digits_eq_nil_iff_eq_zero] using positive

theorem foldl_shift (digits : List Nat) (small : ∀ d ∈ digits, d < 10) :
    (digits.reverse.map digitByte).foldl shift 0 = Nat.ofDigits 10 digits := by
  induction digits with
  | nil => rfl
  | cons d digits ih =>
    have head := small d List.mem_cons_self
    rw [List.reverse_cons, List.map_append, List.foldl_append, ih fun e inside =>
      small e (List.mem_cons_of_mem d inside)]
    simp only [List.map_cons, List.map_nil, List.foldl_cons, List.foldl_nil,
      shift_digit head, Nat.ofDigits_cons]
    exact Nat.add_comm _ _

theorem value_all (all : ∀ c ∈ s, isDigit c = true) : value s = s.foldl shift 0 := by
  rw [value, List.takeWhile_eq_self_iff.mpr all]

theorem value_spell (n : Nat) : value (spell n) = n := by
  rw [value_all (spell_digits n)]
  unfold spell
  split
  · rename_i zero
    rw [zero]
    rfl
  · rw [foldl_shift _ fun d inside => Nat.digits_lt_base (by decide) inside]
    exact Nat.ofDigits_digits 10 n

theorem digitByte_value (digit : isDigit c = true) : c.toNat - 48 < 10 ∧
    digitByte (c.toNat - 48) = c := by
  simp only [isDigit, Bool.and_eq_true, decide_eq_true_eq, UInt8.le_iff_toNat_le] at digit
  obtain ⟨low, high⟩ := digit
  change 48 ≤ c.toNat at low
  change c.toNat ≤ 57 at high
  refine ⟨by omega, UInt8.toNat_inj.mp ?_⟩
  rw [digitByte_toNat (by omega)]
  omega

theorem spell_value (some : s ≠ []) (all : ∀ c ∈ s, isDigit c = true) (lead : s.head? ≠ Option.some 48) :
    spell (value s) = s := by
  have digits : ∀ d ∈ (s.map fun c => c.toNat - 48).reverse, d < 10 := by
    intro d inside
    obtain ⟨c, member, rfl⟩ := List.mem_map.mp (List.mem_reverse.mp inside)
    exact (digitByte_value (all c member)).1
  have text : ((s.map fun c => c.toNat - 48).reverse.reverse).map digitByte = s := by
    rw [List.reverse_reverse, List.map_map]
    exact (List.map_congr_left fun c member => (digitByte_value (all c member)).2).trans (List.map_id s)
  have number : value s = Nat.ofDigits 10 (s.map fun c => c.toNat - 48).reverse := by
    rw [value_all all, ← foldl_shift _ digits, text]
  have back : Nat.digits 10 (value s) = (s.map fun c => c.toNat - 48).reverse := by
    rw [number]
    refine Nat.digits_ofDigits 10 (by decide) _ digits fun filled => ?_
    obtain ⟨c, rest, rfl⟩ := List.exists_cons_of_ne_nil some
    have digit := digitByte_value (all c List.mem_cons_self)
    rw [List.getLast_reverse, List.head_map, List.head_cons]
    intro zero
    rw [zero] at digit
    exact lead (congrArg Option.some digit.2.symm)
  have positive : value s ≠ 0 := by
    intro zero
    rw [zero, Nat.digits_zero] at back
    simp [some] at back
  rw [spell, if_neg positive, back, text]

theorem exists_zeros (some : s ≠ []) (all : ∀ c ∈ s, isDigit c = true) :
    ∃ zeros, s = List.replicate zeros 48 ++ spell (value s) := by
  induction s with
  | nil => exact absurd rfl some
  | cons c rest ih =>
    by_cases zero : c = 48
    · subst zero
      have same : value (48 :: rest) = value rest := by
        rw [value_all all, value_all fun c inside => all c (List.mem_cons_of_mem 48 inside)]
        rfl
      by_cases last : rest = []
      · subst last
        exact ⟨0, rfl⟩
      · obtain ⟨zeros, spelled⟩ := ih last fun c inside => all c (List.mem_cons_of_mem 48 inside)
        refine ⟨zeros + 1, ?_⟩
        rw [same, List.replicate_succ, List.cons_append, ← spelled]
    · exact ⟨0, (spell_value some all (by simpa using zero)).symm⟩

theorem spell_length (small : n < 10 ^ k) (some : 0 < k) : (spell n).length ≤ k := by
  unfold spell
  split
  · exact some
  · rw [List.length_map, List.length_reverse]
    exact (Nat.digits_length_le_iff (by decide) n).mpr small

end
end DecimalText
