import Mathlib.Data.Rat.Lemmas
import Mathlib.Data.List.Infix
import Mathlib.Tactic.Linarith
import Mathlib.Tactic.NormNum
import Mathlib.Tactic.Ring

/- etdb_geo_hash_encode and etdb_geo_hash_get_max_cover of etdb_geo_hash.c over exact
   rationals: the midpoints are dyadic multiples that a double holds exactly. Both
   functions bisect the world in the same order and differ only in how a bit is chosen. -/
namespace EtdbGeoHash

structure Interval where
  high : ℚ
  low : ℚ
  deriving DecidableEq

def maxLat : ℚ := 90
def minLat : ℚ := -90
def maxLong : ℚ := 180
def minLong : ℚ := -180

/-- "0123456789bcdefghjkmnpqrstuvwxyz" -/
def charMap : List UInt8 :=
  [48, 49, 50, 51, 52, 53, 54, 55, 56, 57, 98, 99, 100, 101, 102, 103, 104, 106, 107, 109, 110, 112, 113,
    114, 115, 116, 117, 118, 119, 120, 121, 122]

/-- The local variables of the bisection loops. -/
structure Scan where
  latInterval : Interval
  lngInterval : Interval
  isEven : Bool
  hashChar : Nat

namespace Scan

def world : Scan := ⟨⟨maxLat, minLat⟩, ⟨maxLong, minLong⟩, true, 0⟩

def interval (s : Scan) : Interval := if s.isEven then s.lngInterval else s.latInterval

def mid (s : Scan) : ℚ := (s.interval.low + s.interval.high) / 2

def half (i : Interval) (mid : ℚ) (bit : Bool) : Interval :=
    if bit then { i with low := mid } else { i with high := mid }

def narrow (s : Scan) (bit : Bool) : Scan where
  latInterval := if s.isEven then s.latInterval else half s.latInterval s.mid bit
  lngInterval := if s.isEven then half s.lngInterval s.mid bit else s.lngInterval
  isEven := !s.isEven
  hashChar := 2 * s.hashChar + bit.toNat

def reset (s : Scan) : Scan := { s with hashChar := 0 }

def coord (s : Scan) (lat lng : ℚ) : ℚ := if s.isEven then lng else lat

def range (s : Scan) (latRange lngRange : Interval) : Interval := if s.isEven then lngRange else latRange

end Scan

def hashByte (s : Scan) : UInt8 := charMap.getD s.hashChar 0

/-- The loop of etdb_geo_hash_encode with `n` turns to go; `i` is its counter. -/
def encodeLoop (lat lng : ℚ) : Nat → Nat → Scan → List UInt8
  | 0, _, _ => []
  | n + 1, i, s =>
    let s := s.narrow (decide (s.mid < s.coord lat lng))
    if i % 5 = 0 then hashByte s :: encodeLoop lat lng n (i + 1) s.reset
    else encodeLoop lat lng n (i + 1) s

/-- etdb_geo_hash_encode: the characters written, or none when the buffer is left alone. -/
def encode (lat lng : ℚ) (precision : Nat) : Option (List UInt8) :=
  let precision := if precision < 1 ∨ 12 < precision then 6 else precision
  if lat ≤ maxLat ∧ minLat ≤ lat ∧ lng ≤ maxLong ∧ minLong ≤ lng then
    some (encodeLoop lat lng (precision * 5) 1 Scan.world)
  else none

def side (range : Interval) (mid : ℚ) : Option Bool :=
  if mid < range.low then some true else if range.high < mid then some false else none

/-- The loop of etdb_geo_hash_get_max_cover; it ends early on a range across a midpoint. -/
def coverLoop (latRange lngRange : Interval) : Nat → Nat → Scan → List UInt8 → Nat → List UInt8 × Nat
  | 0, _, _, hash, precision => (hash, precision)
  | n + 1, i, s, hash, precision =>
    match side (s.range latRange lngRange) s.mid with
    | none => (hash, precision)
    | some bit =>
      let s := s.narrow bit
      if i % 5 = 0 then
        coverLoop latRange lngRange n (i + 1) s.reset (hash ++ [hashByte s]) ((i - 1) / 5 + 1)
      else coverLoop latRange lngRange n (i + 1) s hash precision

/-- etdb_swap, which is exact on rationals, when the first value is the larger one. -/
def ordered (a b : ℚ) : Interval := if b < a then ⟨a, b⟩ else ⟨b, a⟩

/-- etdb_geo_hash_get_max_cover: the characters written and the new value of `*precision`. -/
def getMaxCover (lat1 lat2 lng1 lng2 : ℚ) (precision : Nat) : List UInt8 × Nat :=
  coverLoop (ordered lat1 lat2) (ordered lng1 lng2) (precision * 5) 1 Scan.world [] precision

/-- A point lies in the rectangle that two corners span, taken in either order. -/
def Inside (lat1 lat2 lng1 lng2 lat lng : ℚ) : Prop :=
  (ordered lat1 lat2).low ≤ lat ∧ lat ≤ (ordered lat1 lat2).high ∧
    (ordered lng1 lng2).low ≤ lng ∧ lng ≤ (ordered lng1 lng2).high

/-- Every midpoint of the first `n` bisections is strictly outside the range. -/
def Decided (range : Interval) : Nat → Interval → Prop
  | 0, _ => True
  | n + 1, i => ∃ bit, side range ((i.low + i.high) / 2) = some bit ∧
      Decided range n (Scan.half i ((i.low + i.high) / 2) bit)

section
variable {lat lng : ℚ} {latRange lngRange range : Interval} {n i : Nat} {s : Scan} {hash : List UInt8}
variable {precision : Nat}

theorem encodeLoop_length (lat lng : ℚ) (chars n i : Nat) (s : Scan) (start : i % 5 + n = 5 * chars) :
    (encodeLoop lat lng n (i + 1) s).length = chars := by
  induction n generalizing i s chars with
  | zero =>
    have none : chars = 0 := by omega
    rw [none, encodeLoop, List.length_nil]
  | succ n ih =>
    unfold encodeLoop
    dsimp only
    split
    · rename_i full
      obtain ⟨rest, rfl⟩ : ∃ rest, chars = rest + 1 := ⟨chars - 1, by omega⟩
      rw [List.length_cons, ih rest (i + 1) _ (by omega)]
    · rename_i more
      exact ih chars (i + 1) _ (by omega)

theorem encode_eq (small : 1 ≤ precision ∧ precision ≤ 12) : encode lat lng precision =
    if lat ≤ maxLat ∧ minLat ≤ lat ∧ lng ≤ maxLong ∧ minLong ≤ lng then
      some (encodeLoop lat lng (precision * 5) 1 Scan.world) else none := by
  have keep : ¬ (precision < 1 ∨ 12 < precision) := by omega
  rw [encode, if_neg keep]

theorem encode_length {code : List UInt8} (small : 1 ≤ precision ∧ precision ≤ 12)
    (found : encode lat lng precision = some code) : code.length = precision := by
  rw [encode_eq small] at found
  split at found
  · rw [← Option.some.inj found]
    exact encodeLoop_length lat lng precision (precision * 5) 0 _ (by omega)
  · cases found

theorem encode_inside (precision : Nat) (latHigh : lat ≤ 90) (latLow : -90 ≤ lat) (lngHigh : lng ≤ 180)
    (lngLow : -180 ≤ lng) : ∃ code, encode lat lng precision = some code :=
  ⟨_, if_pos ⟨latHigh, latLow, lngHigh, lngLow⟩⟩

theorem hashByte_mem (small : s.hashChar < 32) : hashByte s ∈ charMap := by
  have inside : s.hashChar < charMap.length := small
  rw [hashByte, List.getD, List.getElem?_eq_getElem inside]
  exact List.getElem_mem inside

theorem narrow_hashChar (bit : Bool) : (s.narrow bit).hashChar ≤ 2 * s.hashChar + 1 := by
  cases bit <;> simp [Scan.narrow]

theorem encodeLoop_chars (lat lng : ℚ) (n i : Nat) (s : Scan) (small : s.hashChar < 2 ^ (i % 5)) :
    ∀ c ∈ encodeLoop lat lng n (i + 1) s, c ∈ charMap := by
  induction n generalizing i s with
  | zero => intro c member; cases member
  | succ n ih =>
    have next := narrow_hashChar (s := s) (decide (s.mid < s.coord lat lng))
    have five : i % 5 < 5 := Nat.mod_lt i (by decide)
    unfold encodeLoop
    dsimp only
    split
    · rename_i full
      have last : i % 5 = 4 := by omega
      rw [last] at small
      intro c member
      rcases List.mem_cons.mp member with rfl | later
      · exact hashByte_mem (by omega)
      · refine ih (i + 1) _ ?_ c later
        rw [full]
        exact Nat.one_pos
    · rename_i more
      have step : (i + 1) % 5 = i % 5 + 1 := by omega
      refine ih (i + 1) _ ?_
      rw [step, Nat.pow_succ]
      omega

theorem encode_chars {code : List UInt8} (small : 1 ≤ precision ∧ precision ≤ 12)
    (found : encode lat lng precision = some code) : ∀ c ∈ code, c ∈ charMap := by
  rw [encode_eq small] at found
  split at found
  · rw [← Option.some.inj found]
    exact encodeLoop_chars lat lng (precision * 5) 0 _ Nat.one_pos
  · cases found

theorem side_bit {x mid : ℚ} {bit : Bool} (low : range.low ≤ x) (high : x ≤ range.high)
    (chosen : side range mid = some bit) : decide (mid < x) = bit := by
  unfold side at chosen
  split at chosen
  · rename_i right
    rw [← Option.some.inj chosen]
    exact decide_eq_true (lt_of_lt_of_le right low)
  · split at chosen
    · rename_i left
      rw [← Option.some.inj chosen]
      exact decide_eq_false (not_lt.mpr (le_of_lt (lt_of_le_of_lt high left)))
    · cases chosen

theorem cover_begins (latLow : latRange.low ≤ lat) (latHigh : lat ≤ latRange.high)
    (lngLow : lngRange.low ≤ lng)
    (lngHigh : lng ≤ lngRange.high) (n i : Nat) (s : Scan) (hash : List UInt8) (precision : Nat) :
    ∃ l, (coverLoop latRange lngRange n i s hash precision).1 = hash ++ l ∧
      l <+: encodeLoop lat lng n i s := by
  induction n generalizing i s hash precision with
  | zero => exact ⟨[], by simp [coverLoop], List.nil_prefix⟩
  | succ n ih =>
    unfold coverLoop
    split
    · exact ⟨[], by simp, List.nil_prefix⟩
    · rename_i bit chosen
      have same : decide (s.mid < s.coord lat lng) = bit := by
        unfold Scan.range at chosen
        unfold Scan.coord
        split at chosen
        · rename_i even
          rw [if_pos even]
          exact side_bit lngLow lngHigh chosen
        · rename_i odd
          rw [if_neg odd]
          exact side_bit latLow latHigh chosen
      unfold encodeLoop
      dsimp only
      rw [same]
      split
      · obtain ⟨l, hash', begins⟩ := ih (i + 1) (s.narrow bit).reset (hash ++ [hashByte (s.narrow bit)])
          ((i - 1) / 5 + 1)
        exact ⟨hashByte (s.narrow bit) :: l, by simp [hash'], List.cons_prefix_cons.mpr ⟨rfl, begins⟩⟩
      · exact ih (i + 1) (s.narrow bit) hash precision

theorem cover_precision (latRange lngRange : Interval) (n i : Nat) (s : Scan) (hash : List UInt8)
    (precision : Nat) (count : i / 5 = hash.length) :
    ∃ l, (coverLoop latRange lngRange n (i + 1) s hash precision).1 = hash ++ l ∧
      (coverLoop latRange lngRange n (i + 1) s hash precision).2 =
        if l = [] then precision else hash.length + l.length := by
  induction n generalizing i s hash precision with
  | zero => exact ⟨[], by simp [coverLoop], by simp [coverLoop]⟩
  | succ n ih =>
    unfold coverLoop
    split
    · exact ⟨[], by simp, by simp⟩
    · rename_i bit chosen
      dsimp only
      split
      · rename_i full
        obtain ⟨l, hash', precision'⟩ := ih (i + 1) (s.narrow bit).reset
          (hash ++ [hashByte (s.narrow bit)]) ((i + 1 - 1) / 5 + 1)
          (by simp only [List.length_append, List.length_singleton]; omega)
        refine ⟨hashByte (s.narrow bit) :: l, by rw [hash', List.append_assoc, List.singleton_append], ?_⟩
        rw [precision', if_neg (List.cons_ne_nil _ _)]
        simp only [List.length_append, List.length_cons, List.length_nil]
        split
        · rename_i done
          rw [done, List.length_nil]
          omega
        · omega
      · exact ih (i + 1) (s.narrow bit) hash precision (by omega)

theorem cover_extends (latRange lngRange : Interval) (n i : Nat) (s : Scan) (hash : List UInt8)
    (precision : Nat) : ∃ l, (coverLoop latRange lngRange n i s hash precision).1 = hash ++ l := by
  induction n generalizing i s hash precision with
  | zero => exact ⟨[], by simp [coverLoop]⟩
  | succ n ih =>
    unfold coverLoop
    split
    · exact ⟨[], by simp⟩
    · rename_i bit chosen
      dsimp only
      split
      · obtain ⟨l, hash'⟩ := ih (i + 1) (s.narrow bit).reset (hash ++ [hashByte (s.narrow bit)])
          ((i - 1) / 5 + 1)
        exact ⟨hashByte (s.narrow bit) :: l, by rw [hash', List.append_assoc, List.singleton_append]⟩
      · exact ih (i + 1) (s.narrow bit) hash precision

def Scan.Decides (latRange lngRange : Interval) : Nat → Scan → Prop
  | 0, _ => True
  | k + 1, s => ∃ bit, side (s.range latRange lngRange) s.mid = some bit ∧
      Scan.Decides latRange lngRange k (s.narrow bit)

theorem cover_first (n k i : Nat) (s : Scan) (hash : List UInt8) (precision : Nat) (turns : i % 5 + k = 5)
    (enough : k ≤ n) : (coverLoop latRange lngRange n (i + 1) s hash precision).1 ≠ hash ↔
      s.Decides latRange lngRange k := by
  induction k generalizing n i s with
  | zero =>
    have := Nat.mod_lt i (show 5 > 0 by decide)
    omega
  | succ k ih =>
    obtain ⟨n, rfl⟩ : ∃ m, n = m + 1 := ⟨n - 1, by omega⟩
    unfold coverLoop Scan.Decides
    cases chosen : side (s.range latRange lngRange) s.mid with
    | none => simp
    | some bit =>
      dsimp only
      by_cases full : (i + 1) % 5 = 0
      · rw [if_pos full]
        obtain ⟨l, hash'⟩ := cover_extends latRange lngRange n (i + 1 + 1)
          (s.narrow bit).reset (hash ++ [hashByte (s.narrow bit)]) ((i + 1 - 1) / 5 + 1)
        have done : k = 0 := by omega
        rw [hash', done]
        simp [Scan.Decides]
      · rw [if_neg full, ih n (i + 1) (s.narrow bit) (by omega) (by omega)]
        simp

/-- The turns on the two axes do not depend on each other. -/
theorem decides_split (latRange lngRange : Interval) (k : Nat) (s : Scan) :
    s.Decides latRange lngRange k ↔
    Decided lngRange (if s.isEven then (k + 1) / 2 else k / 2) s.lngInterval ∧
      Decided latRange (if s.isEven then k / 2 else (k + 1) / 2) s.latInterval := by
  induction k generalizing s with
  | zero => cases even : s.isEven <;> simp [Scan.Decides, Decided]
  | succ k ih =>
    have more : (k + 1 + 1) / 2 = k / 2 + 1 := by omega
    rw [Scan.Decides]
    cases even : s.isEven with
    | true =>
      have next : ∀ bit, (s.narrow bit).isEven = false ∧
          (s.narrow bit).lngInterval = Scan.half s.lngInterval s.mid bit ∧
          (s.narrow bit).latInterval = s.latInterval := fun bit => by simp [Scan.narrow, even]
      have middle : s.mid = (s.lngInterval.low + s.lngInterval.high) / 2 := by
        simp [Scan.mid, Scan.interval, even]
      simp only [ih, next, more, Scan.range, even, ↓reduceIte, Bool.false_eq_true, Decided, middle]
      constructor
      · rintro ⟨bit, chosen, lngs, lats⟩
        exact ⟨⟨bit, chosen, lngs⟩, lats⟩
      · rintro ⟨⟨bit, chosen, lngs⟩, lats⟩
        exact ⟨bit, chosen, lngs, lats⟩
    | false =>
      have next : ∀ bit, (s.narrow bit).isEven = true ∧ (s.narrow bit).lngInterval = s.lngInterval ∧
          (s.narrow bit).latInterval = Scan.half s.latInterval s.mid bit := fun bit => by
        simp [Scan.narrow, even]
      have middle : s.mid = (s.latInterval.low + s.latInterval.high) / 2 := by
        simp [Scan.mid, Scan.interval, even]
      simp only [ih, next, more, Scan.range, even, ↓reduceIte, Bool.false_eq_true, Decided, middle]
      constructor
      · rintro ⟨bit, chosen, lngs, lats⟩
        exact ⟨lngs, bit, chosen, lats⟩
      · rintro ⟨lngs, bit, chosen, lats⟩
        exact ⟨bit, chosen, lngs, lats⟩

theorem side_some {mid : ℚ} : (∃ bit, side range mid = some bit) ↔
    ¬ (range.low ≤ mid ∧ mid ≤ range.high) := by
  unfold side
  split
  · rename_i right
    simp [right]
  · rename_i notRight
    split
    · rename_i left
      simp [left]
    · rename_i notLeft
      simp only [not_lt] at notRight notLeft
      simp [notRight, notLeft]

/-- The `n` bisections of an interval are decided when no inner line of its division
    into `2 ^ n` parts of width `w` meets the range. -/
theorem decided_iff (range : Interval) (n : Nat) (a w : ℚ) (width : 0 ≤ w) :
    Decided range n ⟨a + 2 ^ n * w, a⟩ ↔
      ∀ k : Nat, 0 < k → k < 2 ^ n → ¬ (range.low ≤ a + k * w ∧ a + k * w ≤ range.high) := by
  induction n generalizing a with
  | zero =>
    constructor
    · intro _ k pos small
      have : k < 1 := small
      omega
    · intro _
      trivial
  | succ n ih =>
    have middle : (a + (a + 2 ^ (n + 1) * w)) / 2 = a + 2 ^ n * w := by ring
    have left : Scan.half ⟨a + 2 ^ (n + 1) * w, a⟩ (a + 2 ^ n * w) false = ⟨a + 2 ^ n * w, a⟩ := rfl
    have right : Scan.half ⟨a + 2 ^ (n + 1) * w, a⟩ (a + 2 ^ n * w) true =
        ⟨(a + 2 ^ n * w) + 2 ^ n * w, a + 2 ^ n * w⟩ := by
      rw [Scan.half, if_pos rfl, Interval.mk.injEq]
      exact ⟨by ring, rfl⟩
    have shift : ∀ k : Nat, a + 2 ^ n * w + k * w = a + ((2 ^ n + k : Nat) : ℚ) * w := fun k => by
      push_cast
      ring
    have double : 2 ^ (n + 1) = 2 ^ n + 2 ^ n := by ring
    rw [Decided]
    dsimp only
    rw [middle]
    constructor
    · rintro ⟨bit, chosen, rest⟩ k pos small
      have mono : ∀ j : Nat, j ≤ k → a + j * w ≤ a + k * w := fun j le => by
        have : (j : ℚ) * w ≤ k * w := mul_le_mul_of_nonneg_right (by exact_mod_cast le) width
        linarith
      unfold side at chosen
      split at chosen
      · rename_i beyond
        obtain rfl := Option.some.inj chosen
        rw [right, ih] at rest
        by_cases past : 2 ^ n < k
        · obtain ⟨j, rfl⟩ : ∃ j, k = 2 ^ n + j := ⟨k - 2 ^ n, by omega⟩
          rw [← shift]
          exact rest j (by omega) (by omega)
        · rintro ⟨low, _⟩
          have : (k : ℚ) * w ≤ 2 ^ n * w :=
            mul_le_mul_of_nonneg_right (by exact_mod_cast not_lt.mp past) width
          linarith
      · split at chosen
        · rename_i before
          obtain rfl := Option.some.inj chosen
          rw [left, ih] at rest
          by_cases past : k < 2 ^ n
          · exact rest k pos past
          · rintro ⟨_, high⟩
            have := mono (2 ^ n) (not_lt.mp past)
            push_cast at this
            linarith
        · cases chosen
    · intro clear
      have some := Nat.two_pow_pos n
      have here := clear (2 ^ n) some (by omega)
      push_cast at here
      obtain ⟨bit, chosen⟩ := side_some.mpr here
      refine ⟨bit, chosen, ?_⟩
      cases bit with
      | true =>
        rw [right, ih]
        intro k pos small
        rw [shift]
        exact clear (2 ^ n + k) (by omega) (by omega)
      | false =>
        rw [left, ih]
        intro k pos small
        exact clear k pos (by omega)

theorem ordered_le (a b : ℚ) : (ordered a b).low ≤ (ordered a b).high := by
  unfold ordered
  split
  · rename_i less
    exact le_of_lt less
  · rename_i notLess
    exact not_lt.mp notLess

/-- The rectangle meets a line of the first five bisections: a multiple of 45 degrees
    strictly between the ends of the axis. -/
def Straddles (lat1 lat2 lng1 lng2 : ℚ) : Prop :=
  (∃ k : Nat, 0 < k ∧ k < 8 ∧ (ordered lng1 lng2).low ≤ -180 + k * 45 ∧
  -180 + k * 45 ≤ (ordered lng1 lng2).high) ∨
    ∃ k : Nat, 0 < k ∧ k < 4 ∧ (ordered lat1 lat2).low ≤ -90 + k * 45 ∧
    -90 + k * 45 ≤ (ordered lat1 lat2).high

theorem cover_nonempty (lat1 lat2 lng1 lng2 : ℚ) (small : 1 ≤ precision) :
    (getMaxCover lat1 lat2 lng1 lng2 precision).1 ≠ [] ↔ ¬ Straddles lat1 lat2 lng1 lng2 := by
  have lngs := decided_iff (ordered lng1 lng2) 3 (-180) 45 (by norm_num)
  have lats := decided_iff (ordered lat1 lat2) 2 (-90) 45 (by norm_num)
  have lngWorld : (⟨-180 + 2 ^ 3 * 45, -180⟩ : Interval) = ⟨maxLong, minLong⟩ := by
    norm_num [maxLong, minLong]
  have latWorld : (⟨-90 + 2 ^ 2 * 45, -90⟩ : Interval) = ⟨maxLat, minLat⟩ := by
    norm_num [maxLat, minLat]
  rw [lngWorld] at lngs
  rw [latWorld] at lats
  have split := decides_split (ordered lat1 lat2) (ordered lng1 lng2) 5 Scan.world
  have counts : Scan.world.isEven = true := rfl
  simp only [counts, ↓reduceIte, Nat.reduceAdd, Nat.reduceDiv] at split
  rw [getMaxCover, cover_first (precision * 5) 5 0 Scan.world [] precision rfl (by omega), split]
  rw [show Scan.world.lngInterval = ⟨maxLong, minLong⟩ from rfl, lngs]
  rw [show Scan.world.latInterval = ⟨maxLat, minLat⟩ from rfl, lats]
  simp only [Straddles, not_or, not_exists, not_and, Nat.reducePow]

end
end EtdbGeoHash
