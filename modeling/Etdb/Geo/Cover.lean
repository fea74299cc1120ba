import Etdb.Geo.Hash

/- What the cover of a rectangle is for: characters that begin the code of every point
   inside, and their number. When no character is common the number is never written and
   the precision asked for stays. -/
namespace EtdbGeoHash

/-- The precision handed back counts the characters, and these begin all codes inside. -/
structure CoverExact (lat1 lat2 lng1 lng2 : ℚ) (precision : Nat) : Prop where
  count : (getMaxCover lat1 lat2 lng1 lng2 precision).2 =
    (getMaxCover lat1 lat2 lng1 lng2 precision).1.length
  begins : ∀ lat lng, Inside lat1 lat2 lng1 lng2 lat lng → ∃ code, encode lat lng precision = some code ∧
    (getMaxCover lat1 lat2 lng1 lng2 precision).1 <+: code

section
variable {lat1 lat2 lng1 lng2 lat lng a b low high : ℚ} {precision : Nat}

theorem ordered_bounds (first : low ≤ a ∧ a ≤ high) (second : low ≤ b ∧ b ≤ high) :
    low ≤ (ordered a b).low ∧ (ordered a b).high ≤ high := by
  unfold ordered
  split
  · exact ⟨second.1, first.2⟩
  · exact ⟨first.1, second.2⟩

theorem cover_count (small : 1 ≤ precision) : (getMaxCover lat1 lat2 lng1 lng2 precision).2 =
    (getMaxCover lat1 lat2 lng1 lng2 precision).1.length ↔ ¬ Straddles lat1 lat2 lng1 lng2 := by
  obtain ⟨l, written, counted⟩ := cover_precision (ordered lat1 lat2) (ordered lng1 lng2)
    (precision * 5) 0 Scan.world [] precision rfl
  rw [← cover_nonempty lat1 lat2 lng1 lng2 small]
  unfold getMaxCover
  rw [counted, written, List.nil_append]
  by_cases none : l = []
  · simp only [none, ↓reduceIte, List.length_nil, ne_eq, not_true_eq_false, iff_false]
    omega
  · simp [none]

theorem cover_of_inside (small : 1 ≤ precision ∧ precision ≤ 12) (lats1 : -90 ≤ lat1 ∧ lat1 ≤ 90)
    (lats2 : -90 ≤ lat2 ∧ lat2 ≤ 90) (lngs1 : -180 ≤ lng1 ∧ lng1 ≤ 180) (lngs2 : -180 ≤ lng2 ∧ lng2 ≤ 180)
    (inside : Inside lat1 lat2 lng1 lng2 lat lng) : ∃ code, encode lat lng precision = some code ∧
      (getMaxCover lat1 lat2 lng1 lng2 precision).1 <+: code := by
  obtain ⟨latLow, latHigh, lngLow, lngHigh⟩ := inside
  obtain ⟨south, north⟩ := ordered_bounds lats1 lats2
  obtain ⟨west, east⟩ := ordered_bounds lngs1 lngs2
  obtain ⟨l, written, begins⟩ := cover_begins latLow latHigh lngLow lngHigh (precision * 5) 1
    Scan.world [] precision
  have world : lat ≤ maxLat ∧ minLat ≤ lat ∧ lng ≤ maxLong ∧ minLong ≤ lng :=
    ⟨le_trans latHigh north, le_trans south latLow, le_trans lngHigh east, le_trans west lngLow⟩
  refine ⟨_, (encode_eq small).trans (if_pos world), ?_⟩
  rw [getMaxCover, written]
  exact begins

/-- The cover is exact when and only when the rectangle meets no line of the first five
    bisections. -/
theorem cover_exact_iff (lat1 lat2 lng1 lng2 : ℚ) (lats1 : -90 ≤ lat1 ∧ lat1 ≤ 90)
    (lats2 : -90 ≤ lat2 ∧ lat2 ≤ 90)
    (lngs1 : -180 ≤ lng1 ∧ lng1 ≤ 180) (lngs2 : -180 ≤ lng2 ∧ lng2 ≤ 180) (precision : Nat)
    (small : 1 ≤ precision ∧ precision ≤ 12) :
    CoverExact lat1 lat2 lng1 lng2 precision ↔ ¬ Straddles lat1 lat2 lng1 lng2 := by
  constructor
  · intro exact'
    exact (cover_count small.1).mp exact'.count
  · intro clear
    exact ⟨(cover_count small.1).mpr clear, fun _ _ => cover_of_inside small lats1 lats2 lngs1 lngs2⟩

theorem cover_exact_iff_once : CoverExact 2 1 2 1 9 ↔ ¬ Straddles 2 1 2 1 :=
  cover_exact_iff 2 1 2 1 (by norm_num) (by norm_num) (by norm_num) (by norm_num) 9 (by decide)

theorem cover_left_uncounted : ¬ CoverExact (-1) 1 1 2 9 := by
  intro exact'
  refine (cover_count (by decide)).mp exact'.count (Or.inr ⟨2, ?_⟩)
  norm_num [ordered]

end
end EtdbGeoHash
