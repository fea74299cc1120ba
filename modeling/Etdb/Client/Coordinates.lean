import Etdb.Client.Library
import Etdb.Text.Reading

/- Coordinates as text. What "%f" and "%.2f" print is read back by etdb_atof as the
   number rounded to that many places, as long as it has no minus, which etdb_atof
   refuses. -/
namespace EtdbClient
open EtdbServer DecimalText
open EtdbString (atof exactly IsDecimal fraction dot Rounding)

/-- The number that is left of a coordinate behind so many places. -/
def rounded (places : Nat) (q : ℚ) : ℚ := roundEven (q * 10 ^ places) / 10 ^ places

section
variable {places n k : Nat} {q : ℚ} {front : List UInt8}

theorem zeros_value (k n : Nat) : (List.replicate k 48 ++ spell n).foldl shift 0 = n := by
  have zeros : (List.replicate k (48 : UInt8)).foldl shift 0 = 0 := by
    induction k with
    | zero => rfl
    | succ k ih =>
      rw [List.replicate_succ, List.foldl_cons]
      exact ih
  rw [List.foldl_append, zeros, ← value_all (spell_digits n), value_spell]

theorem zeros_digits (k n : Nat) : ∀ c ∈ List.replicate k 48 ++ spell n, isDigit c = true := by
  intro c member
  rcases List.mem_append.mp member with zero | digit
  · rw [List.eq_of_mem_replicate zero]
    decide
  · exact spell_digits n c digit

theorem point_parts (rest : List UInt8) (digits : ∀ c ∈ front, EtdbString.isDigit c = true) :
    (front ++ dot :: rest).takeWhile EtdbString.isDigit = front ∧
      (front ++ dot :: rest).dropWhile EtdbString.isDigit = dot :: rest := by
  have stop : EtdbString.isDigit dot = false := by decide
  constructor
  · rw [List.takeWhile_append_of_pos digits, List.takeWhile_cons_of_neg (by simp [stop]), List.append_nil]
  · rw [List.dropWhile_append_of_pos digits, List.dropWhile_cons_of_neg (by simp [stop])]

theorem printFixed_plain (nonneg : 0 ≤ q) (places : Nat) : ∃ behind, printFixed places q =
    spell (roundEven (q * 10 ^ places) / 10 ^ places) ++ dot :: behind ∧
    (∀ c ∈ behind, isDigit c = true) ∧
      value behind = roundEven (q * 10 ^ places) % 10 ^ places ∧
      (0 < places → behind.length = places) := by
  refine ⟨List.replicate (places - (spell (roundEven (q * 10 ^ places) % 10 ^ places)).length) 48 ++
    spell (roundEven (q * 10 ^ places) % 10 ^ places), ?_, zeros_digits _ _,
    (value_all (zeros_digits _ _)).trans (zeros_value _ _), fun some => ?_⟩
  · rw [printFixed, abs_of_nonneg nonneg, if_neg (not_lt.mpr nonneg), List.nil_append]
    rfl
  · have short := spell_length (Nat.mod_lt (roundEven (q * 10 ^ places))
      (Nat.pos_of_ne_zero (by positivity) : 0 < 10 ^ places)) some
    rw [List.length_append, List.length_replicate]
    omega

theorem printFixed_reads (nonneg : 0 ≤ q) (some : 0 < places) :
    atof exactly (printFixed places q) = Option.some (rounded places q) := by
  obtain ⟨behind, text, digits, number, length⟩ := printFixed_plain nonneg places
  obtain ⟨front, back⟩ := point_parts behind (spell_digits (roundEven (q * 10 ^ places) / 10 ^ places))
  rw [← text] at front back
  have decimal : IsDecimal (printFixed places q) := by
    refine ⟨?_, Or.inr ?_, ?_⟩
    · rw [front]
      exact spell_some _
    · rw [back]
      rfl
    · rw [fraction, back]
      exact digits
  have whole : value (printFixed places q) = roundEven (q * 10 ^ places) / 10 ^ places := by
    rw [value]
    exact (congrArg (List.foldl shift 0) front).trans
      ((value_all (spell_digits _)).symm.trans (value_spell _))
  have part : value (fraction (printFixed places q)) = roundEven (q * 10 ^ places) % 10 ^ places := by
    rw [fraction, back, List.tail_cons, number]
  have size : (fraction (printFixed places q)).length = places := by
    rw [fraction, back, List.tail_cons, length some]
  have plain : ¬ EtdbString.HasSign (printFixed places q) :=
    EtdbString.head_plain (EtdbString.isDecimal_iff.mp decimal).1
  have cut : ((roundEven (q * 10 ^ places) / 10 ^ places : Nat) : ℚ) * 10 ^ places +
      (roundEven (q * 10 ^ places) % 10 ^ places : Nat) = roundEven (q * 10 ^ places) := by
    exact_mod_cast Nat.div_add_mod' _ _
  rw [atof, if_neg (EtdbString.flag_plain plain), EtdbString.atofLoop_exact decimal, whole, part, size,
    Option.map_some, mul_one, rounded, ← cut]
  congr 1
  field_simp

theorem roundEven_error (nonneg : 0 ≤ q) : |(roundEven q : ℚ) - q| ≤ 1 / 2 := by
  have natural : ((q.floor.toNat : Nat) : ℤ) = q.floor :=
    Int.toNat_of_nonneg (Rat.le_floor_iff.mpr (by exact_mod_cast nonneg))
  have below : ((q.floor.toNat : Nat) : ℚ) ≤ q := by
    have := Rat.floor_le q
    rw [← natural] at this
    exact_mod_cast this
  have above : q < (q.floor.toNat : Nat) + 1 := by
    have := Rat.lt_floor_add_one q
    rw [← natural] at this
    exact_mod_cast this
  rw [abs_le]
  unfold roundEven
  dsimp only
  split
  · constructor <;> linarith
  · split
    · push_cast
      constructor <;> linarith
    · split
      · constructor <;> linarith
      · push_cast
        constructor <;> linarith

/-- Half a unit of the last place is lost at most. -/
theorem rounded_error (nonneg : 0 ≤ q) (places : Nat) : |rounded places q - q| ≤ 1 / 2 / 10 ^ places := by
  have error := roundEven_error (mul_nonneg nonneg (by positivity : (0 : ℚ) ≤ 10 ^ places))
  have scaled : rounded places q - q = (roundEven (q * 10 ^ places) - q * 10 ^ places) / 10 ^ places := by
    rw [rounded]
    field_simp
  rw [scaled, abs_div, abs_of_pos (by positivity : (0 : ℚ) < 10 ^ places)]
  exact div_le_div_of_nonneg_right error (by positivity)

theorem roundEven_le (nonneg : 0 ≤ q) (high : q ≤ n) : roundEven q ≤ n := by
  have error := (abs_le.mp (roundEven_error nonneg)).2
  have below : (roundEven q : ℚ) < (n + 1 : Nat) := by
    push_cast
    linarith
  exact Nat.lt_succ_iff.mp (by exact_mod_cast below)

theorem rounded_le (nonneg : 0 ≤ q) (high : q ≤ n) (places : Nat) : rounded places q ≤ n := by
  have scaled : q * 10 ^ places ≤ (n * 10 ^ places : Nat) := by
    push_cast
    exact mul_le_mul_of_nonneg_right high (by positivity)
  have whole : (roundEven (q * 10 ^ places) : ℚ) ≤ (n * 10 ^ places : Nat) := by
    exact_mod_cast roundEven_le (mul_nonneg nonneg (by positivity)) scaled
  rw [rounded, div_le_iff₀ (by positivity)]
  rwa [Nat.cast_mul, Nat.cast_pow, Nat.cast_ofNat] at whole

theorem rounded_nonneg (places : Nat) (q : ℚ) : 0 ≤ rounded places q :=
  div_nonneg (Nat.cast_nonneg _) (by positivity)

theorem printFixed_refused (negative : q < 0) (places : Nat) (r : Rounding) :
    atof r (printFixed places q) = none := by
  rw [printFixed, if_pos negative]
  rfl

theorem printFixed_uncut (places : Nat) (q : ℚ) : (32 : UInt8) ∉ printFixed places q := by
  intro member
  have digit : ∀ n, (32 : UInt8) ∉ spell n := fun n inside => by
    have := spell_digits n 32 inside
    revert this
    decide
  simp only [printFixed, List.mem_append, List.mem_cons] at member
  rcases member with (sign | whole) | other | zero | part
  · split at sign
    · exact absurd (List.mem_singleton.mp sign) (by decide)
    · exact List.not_mem_nil sign
  · exact digit _ whole
  · exact absurd other (by decide)
  · exact absurd (List.eq_of_mem_replicate zero) (by decide)
  · exact digit _ part

theorem coordinate_text {text : List UInt8} (printed : coordinate q = some text) :
    text = printFixed 6 q := by
  rw [coordinate, Option.ite_none_right_eq_some] at printed
  exact (Option.some.inj printed.2).symm

/-- A number with no more than 118 digits in front of the dot is printed. -/
theorem coordinate_printed (small : |q| < 10 ^ 118) : coordinate q = some (printFixed 6 q) := by
  have scaled : |q| * 10 ^ 6 ≤ (10 ^ 124 : Nat) := by
    push_cast
    linarith
  have whole : roundEven (|q| * 10 ^ 6) / 10 ^ 6 < 10 ^ 119 := by
    have most := roundEven_le (mul_nonneg (abs_nonneg q) (by positivity)) scaled
    omega
  have front := spell_length whole (by decide)
  have part := spell_length (Nat.mod_lt (roundEven (|q| * 10 ^ 6)) (by decide : 0 < 10 ^ 6)) (by decide)
  have sign : (if q < 0 then [(45 : UInt8)] else []).length ≤ 1 := by
    split
    · exact le_rfl
    · exact Nat.zero_le 1
  have length : (printFixed 6 q).length < 128 := by
    simp only [printFixed, List.length_append, List.length_cons, List.length_replicate]
    omega
  exact if_pos length

theorem spatialPointSet_runs {id : List UInt8} {lat lon : ℚ} {f : Procedure (List UInt8)}
    (called : spatialPointSet id lat lon = some f) :
    f = command ['s', 'p', 's', 'e', 't'] [id, printFixed 6 lat, printFixed 6 lon] := by
  simp only [spatialPointSet, Option.bind_eq_bind, Option.bind_eq_some_iff, Option.some.injEq] at called
  obtain ⟨latStr, lat', lonStr, lon', rfl⟩ := called
  rw [coordinate_text lat', coordinate_text lon']

theorem spatialPointRectQuery_runs {lat1 lat2 lon1 lon2 : ℚ}
    {f : Procedure (List UInt8 × Option (List (List UInt8)))}
    (called : spatialPointRectQuery lat1 lat2 lon1 lon2 = some f) :
    f = listing ['s', 'p', 'r', 'e', 'c', 't']
      [printFixed 6 lat1, printFixed 6 lat2, printFixed 6 lon1, printFixed 6 lon2] := by
  simp only [spatialPointRectQuery, Option.bind_eq_bind, Option.bind_eq_some_iff,
    Option.some.injEq] at called
  obtain ⟨_, text1, _, text2, _, text3, _, text4, rfl⟩ := called
  rw [coordinate_text text1, coordinate_text text2, coordinate_text text3, coordinate_text text4]

theorem readPoint_text {code : List UInt8} (chars : ∀ c ∈ code, c ∈ EtdbGeoHash.charMap) (r : Rounding)
    {splits : List EtdbString.Piece} (slots : 3 ≤ splits.length) (lat lon : ℚ) :
    readPoint r splits (pointText lat lon code) =
      some (some (atofRet r (printFixed 2 lat), atofRet r (printFixed 2 lon), code)) := by
  have plain : ∀ c ∈ code, c ≠ 0 ∧ c ≠ 32 := by
    have all : ∀ c ∈ EtdbGeoHash.charMap, c ≠ 0 ∧ c ≠ 32 := by decide +kernel
    exact fun c member => all c (chars c member)
  have whole : code.takeWhile (· ≠ 0) = code :=
    List.takeWhile_eq_self_iff.mpr fun c member => decide_eq_true (plain c member).1
  have last : (32 : UInt8) ∉ 40 :: (code ++ [41]) := by
    intro member
    rcases List.mem_cons.mp member with other | member
    · exact absurd other (by decide)
    · rcases List.mem_append.mp member with inside | other
      · exact (plain 32 inside).2 rfl
      · exact absurd (List.mem_singleton.mp other) (by decide)
  have text : pointText lat lon code = printFixed 2 lat ++
    32 :: (printFixed 2 lon ++ 32 :: (40 :: (code ++ [41]))) := by
    rw [pointText, whole]
    simp
  have pieces : (pointText lat lon code).splitOn 32 =
    [printFixed 2 lat, printFixed 2 lon, 40 :: (code ++ [41])] := by
    rw [text, List.splitOn_append_cons_self_of_not_mem (printFixed_uncut 2 lat),
      List.splitOn_append_cons_self_of_not_mem (printFixed_uncut 2 lon), List.splitOn_eq_singleton last]
  have cut : pointText lat lon code = [] ++ [] ++ pointText lat lon code := rfl
  obtain ⟨cut, run, _, number, found, bytes, inside, stored⟩ :=
    EtdbString.splitFrom_spec cut List.not_mem_nil slots (Nat.zero_le 3)
  rw [List.nil_append, pieces] at number bytes
  obtain ⟨a, _, rfl, first, bytes⟩ := List.map_eq_cons_iff.mp bytes
  obtain ⟨b, _, rfl, second, bytes⟩ := List.map_eq_cons_iff.mp bytes
  obtain ⟨c, _, rfl, third, _⟩ := List.map_eq_cons_iff.mp bytes
  have length : 2 ≤ c.len := by
    have size := congrArg List.length third
    rw [EtdbString.Piece.bytes, List.length_take, List.length_cons, List.length_append,
      List.length_singleton] at size
    omega
  have body : (c.bytes (pointText lat lon code)).tail.dropLast = code := by
    rw [third, List.tail_cons, List.dropLast_concat]
  have three : cut.splitNum = 3 := number
  have run' : EtdbString.strSplit (pointText lat lon code) 32 splits 3 = some cut := run
  rw [readPoint, run', Option.bind_eq_bind, Option.bind_some, if_pos three, stored]
  change (if 2 ≤ c.len then some (some (atofRet r (a.bytes _), atofRet r (b.bytes _), _)) else none) = _
  rw [if_pos length, first, second, body]

end
end EtdbClient
