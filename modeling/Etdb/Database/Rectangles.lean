import Etdb.Database.Locations
import Etdb.Text.Numbers

/- Rectangle queries against their ideal. The filter takes the corners as they are given,
   the search below an empty cover finds nothing, and an id with a NUL byte is not
   walked to. -/
namespace EtdbDatabase
open EtdbTrie

/-- The ids whose location is in the closed rectangle, the corners taken in any order. -/
def Ideal.Within (s : Ideal) (lat1 lat2 lon1 lon2 : ℚ) (id : List UInt8) : Prop :=
  ∃ lat lon, s.point id = some (lat, lon) ∧ EtdbGeoHash.Inside lat1 lat2 lon1 lon2 lat lon

/-- Nothing is inside, or the corners are in order and no line of the first five
    bisections is met; and the ids inside are free of NUL bytes. -/
structure Ideal.Servable (s : Ideal) (lat1 lat2 lon1 lon2 : ℚ) : Prop where
  corners : ∀ id, s.Within lat1 lat2 lon1 lon2 id → lat1 ≤ lat2 ∧ lon1 ≤ lon2
  lines : ∀ id, s.Within lat1 lat2 lon1 lon2 id → ¬ EtdbGeoHash.Straddles lat1 lat2 lon1 lon2
  plain : ∀ id, s.Within lat1 lat2 lon1 lon2 id → 0 ∉ id

/-- As the parser hands them out, ids have at least one byte. -/
def IdsGiven (ops : List Op) : Prop := ∀ id lat lon, Op.spSet id lat lon ∈ ops → id ≠ []

def RectExact (atof : List UInt8 → Option ℚ) (ops : List Op) (lat1 lat2 lon1 lon2 : List UInt8) : Prop :=
  ∃ replies db, (Db.init >>= fun db => db.run atof ops) = some (replies, db) ∧
    ∃ p q, Db.coordinates atof lat1 lon1 = some p ∧ Db.coordinates atof lat2 lon2 = some q ∧
      ∃ ids, db.spRect atof lat1 lat2 lon1 lon2 = some (some ids) ∧
        (Ideal.empty.after atof ops).Holds p.1 q.1 p.2 q.2 ids

section
variable {atof : List UInt8 → Option ℚ} {db : Db} {L : Layout} {S : Store} {s : Ideal}
    {ops : List Op} {op : Op}
variable {lat1 lat2 lon1 lon2 : ℚ} {id : List UInt8} {p : ℚ × ℚ}

theorem ids_step (given : ∀ id lat lon, op = .spSet id lat lon → id ≠ [])
    (held : ∀ id, s.point id ≠ none → id ≠ []) :
    ∀ id, (s.apply atof op).point id ≠ none → id ≠ [] := by
  intro id here
  by_cases other : op.kind = .point
  · cases op with
    | spSet id' lat lon =>
      by_cases same : id = id'
      · exact same ▸ given id' lat lon rfl
      · refine held id ?_
        cases read : Db.coordinates atof lat lon with
        | none => simpa [Ideal.apply, read] using here
        | some p => simpa [Ideal.apply, read, same] using here
    | spDel id' =>
      by_cases same : id = id'
      · simp [Ideal.apply, same] at here
      · refine held id ?_
        simpa [Ideal.apply, same] using here
    | spGet _ => exact held id here
    | spRect _ _ _ _ => exact held id here
    | _ => cases other
  · rw [Ideal.apply_point other] at here
    exact held id here

theorem ids_run (atof : List UInt8 → Option ℚ) (given : IdsGiven ops)
    (held : ∀ id, s.point id ≠ none → id ≠ []) :
    ∀ id, (s.after atof ops).point id ≠ none → id ≠ [] := by
  induction ops generalizing s with
  | nil => exact held
  | cons op rest ih =>
    refine ih (fun id lat lon member => given id lat lon (List.mem_cons_of_mem op member))
      (ids_step ?_ held)
    exact fun id lat lon same => given id lat lon (same ▸ List.mem_cons_self)

theorem ordered_of_le {a b : ℚ} (le : a ≤ b) : EtdbGeoHash.ordered a b = ⟨b, a⟩ := if_neg (not_lt.mpr le)

theorem PlaceSim.placed (sim : PlaceSim S s) : S.place (Db.encodeIdHead id) = s.point id := by
  rw [Store.place, sim id]
  cases s.point id <;> rfl

theorem PlaceSim.listed (sim : PlaceSim S s) (listed : S.Listed lat1 lat2 lon1 lon2 id) :
    s.Within lat1 lat2 lon1 lon2 id ∧ (lat1 ≤ lat2 ∧ lon1 ≤ lon2) ∧
      ¬ EtdbGeoHash.Straddles lat1 lat2 lon1 lon2 ∧ 0 ∉ id := by
  obtain ⟨lat, lon, code, placed, encoded, between, clean, suffix, _, key⟩ := listed
  simp only [not_or, not_lt] at between
  obtain ⟨latLow, latHigh, lonLow, lonHigh⟩ := between
  have lats := latLow.trans latHigh
  have lons := lonLow.trans lonHigh
  refine ⟨⟨lat, lon, by rw [← sim.placed, placed], ?_⟩, ⟨lats, lons⟩, ?_, clean⟩
  · unfold EtdbGeoHash.Inside
    rw [ordered_of_le lats, ordered_of_le lons]
    exact ⟨latLow, latHigh, lonLow, lonHigh⟩
  · rw [← EtdbGeoHash.cover_nonempty lat1 lat2 lon1 lon2 (show 1 ≤ Db.geoHashPrecisionLen by decide)]
    intro nil
    -- below nothing but NUL bytes there is no code
    change _ = Db.coverKey (maxCover lat1 lat2 lon1 lon2) ++ suffix at key
    rw [coverKey_nil _ _ _ _ nil, List.cons_append, List.cons.injEq] at key
    have length := code_length encoded
    obtain ⟨c, rest, rfl⟩ := List.exists_cons_of_ne_nil (show code ≠ [] by rintro rfl; cases length)
    have first : c = 0 := (List.cons.inj key.2).1
    exact zero_not_code encoded (by simp [first])

theorem Holds.lists (holds : Holds db L S) (sim : PlaceSim S s)
    (servable : s.Servable lat1 lat2 lon1 lon2)
    (given : id ≠ []) (within : s.Within lat1 lat2 lon1 lon2 id) : S.Listed lat1 lat2 lon1 lon2 id := by
  obtain ⟨lats, lons⟩ := servable.corners id within
  have lines := servable.lines id within
  have clean := servable.plain id within
  obtain ⟨lat, lon, point, inside⟩ := within
  have cell : S (Db.encodeIdHead id) = some (.place lat lon) := by
    rw [sim id, point]
    rfl
  obtain ⟨v, held⟩ : ∃ v, L.entries (Db.encodeIdHead id) = some v := by
    rw [← Option.ne_none_iff_exists', ne_eq, holds.none_iff (id_plain id), cell]
    simp
  obtain ⟨lat', lon', code, placed, encoded, _⟩ := holds.place held
  rw [cell] at placed
  cases placed
  have filled := (EtdbGeoHash.cover_nonempty lat1 lat2 lon1 lon2
    (show 1 ≤ Db.geoHashPrecisionLen by decide)).mpr lines
  obtain ⟨latLow, latHigh, lonLow, lonHigh⟩ := inside
  obtain ⟨l, cover, begins⟩ := EtdbGeoHash.cover_begins latLow latHigh lonLow lonHigh (9 * 5) 1
    EtdbGeoHash.Scan.world [] 9
  change (maxCover lat1 lat2 lon1 lon2).1 = l at cover
  have spelled := encoded
  rw [EtdbGeoHash.encode_eq (by decide)] at spelled
  split at spelled
  · obtain rfl : _ = code := Option.some.inj spelled
    obtain ⟨rest, whole⟩ := begins
    rw [ordered_of_le lats] at latLow latHigh
    rw [ordered_of_le lons] at lonLow lonHigh
    refine ⟨lat, lon, _, by rw [Store.place, cell], encoded, ?_, clean, rest ++ id, ?_, ?_⟩
    · simp only [not_or, not_lt]
      exact ⟨latLow, latHigh, lonLow, lonHigh⟩
    · exact fun empty => given (List.append_eq_nil_iff.mp empty).2
    · change _ = Db.coverKey (maxCover lat1 lat2 lon1 lon2) ++ _
      rw [coverKey_some _ _ _ _ filled, cover, List.cons_append, ← List.append_assoc, whole]
      rfl
  · cases spelled

theorem rect_run (atof : List UInt8 → Option ℚ) (ops : List Op) {lat1 lat2 lon1 lon2 : List UInt8}
    {p q : ℚ × ℚ}
    (first : Db.coordinates atof lat1 lon1 = some p) (second : Db.coordinates atof lat2 lon2 = some q) :
    ∃ replies db L S ids, (Db.init >>= fun db => db.run atof ops) = some (replies, db) ∧ Holds db L S ∧
      PlaceSim S (Ideal.empty.after atof ops) ∧
      db.spRect atof lat1 lat2 lon1 lon2 = some (some ids) ∧ ids.Nodup ∧
      ∀ id, id ∈ ids ↔ S.Listed p.1 q.1 p.2 q.2 id := by
  obtain ⟨replies, db, L, run, holds, _⟩ := reached_holds atof ops
  obtain ⟨ids, query, nodup, member⟩ := spRectAt_spec holds p.1 q.1 p.2 q.2
  refine ⟨replies, db, L, _, ids, run, holds, PlaceSim.run (fun _ => rfl) atof ops, ?_, nodup, member⟩
  rw [Db.spRect, first, second]
  exact congrArg (Option.map some) query

theorem RectExact.servable {lat1 lat2 lon1 lon2 : List UInt8} {p q : ℚ × ℚ}
    (exact : RectExact atof ops lat1 lat2 lon1 lon2) (first : Db.coordinates atof lat1 lon1 = some p)
    (second : Db.coordinates atof lat2 lon2 = some q) :
    (Ideal.empty.after atof ops).Servable p.1 q.1 p.2 q.2 := by
  obtain ⟨replies, db, run, p', q', first', second', ids, query, _, ideal⟩ := exact
  obtain rfl := Option.some.inj (first.symm.trans first')
  obtain rfl := Option.some.inj (second.symm.trans second')
  obtain ⟨replies', db', L, S, ids', run', holds, sim, query', _, real⟩ := rect_run atof ops first second
  obtain ⟨rfl, rfl⟩ := Prod.mk.inj (Option.some.inj (run.symm.trans run'))
  obtain rfl := Option.some.inj (Option.some.inj (query.symm.trans query'))
  have facts : ∀ id, (Ideal.empty.after atof ops).Within p.1 q.1 p.2 q.2 id → _ := fun id within =>
    sim.listed ((real id).mp ((ideal id).mpr within))
  exact ⟨fun id within => (facts id within).2.1, fun id within => (facts id within).2.2.1,
    fun id within => (facts id within).2.2.2⟩

/-- sp_rect is exact on a reachable slot when and only when, as soon as any stored point
    is inside, the corners are given in order and the rectangle meets none of the lines
    of the first character, and the ids inside have no NUL byte. -/
theorem rect_exact_iff (atof : List UInt8 → Option ℚ) (ops : List Op) (given : IdsGiven ops)
    (lat1 lat2 lon1 lon2 : List UInt8) (p q : ℚ × ℚ) (first : Db.coordinates atof lat1 lon1 = some p)
    (second : Db.coordinates atof lat2 lon2 = some q) :
    RectExact atof ops lat1 lat2 lon1 lon2 ↔ (Ideal.empty.after atof ops).Servable p.1 q.1 p.2 q.2 := by
  constructor
  · intro exact
    exact exact.servable first second
  · intro servable
    obtain ⟨replies, db, L, S, ids, run, holds, sim, query, nodup, real⟩ := rect_run atof ops first second
    refine ⟨replies, db, run, p, q, first, second, ids, query, nodup, fun id => ?_⟩
    rw [real]
    constructor
    · intro listed
      exact (sim.listed listed).1
    · intro within
      have filled : id ≠ [] := by
        obtain ⟨lat, lon, point, _⟩ := within
        exact ids_run atof (s := Ideal.empty) given (fun _ held => absurd rfl held) id (by simp [point])
      exact holds.lists sim servable filled within

theorem rect_exact_iff_once : RectExact (EtdbString.atof EtdbString.exactly)
    [.spSet [120] [50] [50]] [49] [51] [49] [51] ↔
    (Ideal.empty.after (EtdbString.atof EtdbString.exactly) [.spSet [120] [50] [50]]).Servable 1 3 1
    3 := by
  refine rect_exact_iff (EtdbString.atof EtdbString.exactly) [.spSet [120] [50] [50]] ?_ [49] [51]
    [49] [51] (1, 1) (3, 3) ?_ ?_
  · rintro id lat lon member
    simp at member
    simp [member]
  · decide +kernel
  · decide +kernel

theorem corners_out_of_order : ¬ RectExact (EtdbString.atof EtdbString.exactly)
    [.spSet [120] [50] [50]] [51] [49] [49] [51] := by
  intro exact
  have servable := exact.servable (p := (3, 1)) (q := (1, 3)) (by decide +kernel) (by decide +kernel)
  have point : (Ideal.empty.after (EtdbString.atof EtdbString.exactly)
    [.spSet [120] [50] [50]]).point [120] = some (2, 2) := by
    have read : Db.coordinates (EtdbString.atof EtdbString.exactly) [50] [50] = some (2, 2) := by
      decide +kernel
    simp [Ideal.after, Ideal.apply, read]
  have corners := servable.corners [120] ⟨2, 2, point, by unfold EtdbGeoHash.Inside; decide +kernel⟩
  revert corners
  decide +kernel

end
end EtdbDatabase
