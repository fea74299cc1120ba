import Etdb.Database.Queues

/- Spatial points against their ideal: the ids and the geohash index name the same
   records, and these hold the locations last accepted. -/
namespace EtdbDatabase
open EtdbTrie

def Db.Entry (db : Db) (key : List UInt8) (v : Int) : Prop :=
    db.trie.exactMatchSearch key = some v ∧ 0 ≤ v

/-- The two indexes of a slot, beside the locations of its ids. -/
structure Db.InStep (db : Db) (point : List UInt8 → Option (ℚ × ℚ)) : Prop where
  placed : ∀ id, (∃ v, db.Entry (Db.encodeIdHead id) v) ↔ point id ≠ none
  indexed : ∀ id, (∃ v, db.Entry (Db.encodeIdHead id) v) ↔
    ∃! code, code.length = 9 ∧ ∃ v, db.Entry (Db.encodeIndexHead code id) v
  unique : ∀ id code code' v v', code.length = 9 → code'.length = 9 →
  db.Entry (Db.encodeIndexHead code id) v →
    db.Entry (Db.encodeIndexHead code' id) v' → code = code' ∧ v = v'
  records : ∀ id v code w, db.Entry (Db.encodeIdHead id) v → code.length = 9 →
    db.Entry (Db.encodeIndexHead code id) w → w = v ∧ ∃ head, db.pointAt v = some head ∧
    head.geoHashCode = code ∧
      EtdbGeoHash.encode head.latD head.lonD Db.geoHashPrecisionLen = some code ∧
      point id = some (head.latD, head.lonD)
  keys : ∀ rest v, db.Entry (Db.spatialPointHead2 :: rest) v → ∃ code id, rest = code ++ id ∧
  code.length = 9

def PlaceSim (S : Store) (s : Ideal) : Prop :=
  ∀ id, S (Db.encodeIdHead id) = (s.point id).map fun p => .place p.1 p.2

section
variable {db : Db} {L : Layout} {S : Store} {s : Ideal} {atof : List UInt8 → Option ℚ} {op : Op}
variable {key id id' : List UInt8} {v : Int}

theorem stores_entry {t : Trie} {T : ByteTree.Tree Int} {m : Entries} (stores : Stores t T m) :
    t.exactMatchSearch key = some v ∧ 0 ≤ v ↔ m key = some v := by
  rw [stores.search key]
  cases held : m key with
  | none =>
    constructor
    · rintro ⟨same, nonneg⟩
      obtain rfl : noValue = v := Option.some.inj same
      cases nonneg
    · intro same
      cases same
  | some w =>
    constructor
    · intro entry
      exact entry.1
    · intro same
      exact ⟨same, Option.some.inj same ▸ stores.nonneg key w held⟩

theorem Holds.entry (holds : Holds db L S) : db.Entry key v ↔ L.entries key = some v :=
    stores_entry holds.stores

theorem point_key : Db.encodeIdHead id = Db.encodeIdHead id' ↔ id = id' := by
  simp [Db.encodeIdHead]

theorem away_point (other : op.kind ≠ .point) :
    S.apply atof op (Db.encodeIdHead id) = S (Db.encodeIdHead id) := by
  refine apply_away S atof fun head type first => ?_
  obtain rfl : Db.spatialPointHead1 = head := Option.some.inj first
  revert other type
  cases op.kind <;> simp [Kind.heads, Db.kvHead, Db.hashHead, Db.setHead,
    Db.listHead, Db.spatialPointHead1, Db.spatialPointHead2]

theorem PlaceSim.step (sim : PlaceSim S s) (atof : List UInt8 → Option ℚ) (op : Op) :
    PlaceSim (S.apply atof op) (s.apply atof op) := by
  intro id
  by_cases own : op.kind = .point
  · cases op with
    | spSet id' lat lon =>
      cases read : Db.coordinates atof lat lon with
      | none => simpa [Store.apply, Ideal.apply, read] using sim id
      | some p =>
        by_cases same : id = id'
        · simp [Store.apply, Ideal.apply, read, same]
        · simp [Store.apply, Ideal.apply, read, point_key, same, sim id]
    | spDel id' =>
      by_cases same : id = id'
      · simp [Store.apply, Ideal.apply, same]
      · simp [Store.apply, Ideal.apply, point_key, same, sim id]
    | spGet _ => exact sim id
    | spRect _ _ _ _ => exact sim id
    | _ => cases own
  · rw [away_point own, Ideal.apply_point own, sim id]

theorem PlaceSim.run (sim : PlaceSim S s) (atof : List UInt8 → Option ℚ) (ops : List Op) :
    PlaceSim (S.after atof ops) (s.after atof ops) := by
  induction ops generalizing S s with
  | nil => exact sim
  | cons op rest ih => exact ih (sim.step atof op)

/-- What the index says of an id: the code of its record and nothing else. -/
theorem Holds.code_entry (holds : Holds db L S) {lat lon : ℚ} {code code' : List UInt8} {w : Int}
    (held : L.entries (Db.encodeIdHead id) = some v)
    (placed : S (Db.encodeIdHead id) = some (.place lat lon))
    (encoded : EtdbGeoHash.encode lat lon Db.geoHashPrecisionLen = some code)
    (length : code'.length = 9) :
    L.entries (Db.encodeIndexHead code' id) = some w ↔ code' = code ∧ w = v := by
  rw [holds.index.at length id w, placed, held]
  constructor
  · rintro ⟨lat', lon', same, encoded', value⟩
    cases same
    exact ⟨Option.some.inj (encoded'.symm.trans encoded), (Option.some.inj value).symm⟩
  · rintro ⟨rfl, rfl⟩
    exact ⟨lat, lon, rfl, encoded, rfl⟩

theorem Holds.inStep (holds : Holds db L S) (sim : PlaceSim S s) : db.InStep s.point := by
  have none : ∀ id, L.entries (Db.encodeIdHead id) = none ↔ s.point id = none := by
    intro id
    rw [holds.none_iff (id_plain id), sim id, Option.map_eq_none_iff]
  have facts : ∀ id v, L.entries (Db.encodeIdHead id) = some v → ∃ lat lon code,
      s.point id = some (lat, lon) ∧ code.length = 9 ∧
      EtdbGeoHash.encode lat lon Db.geoHashPrecisionLen = some code ∧
      db.pointAt v = some ⟨typeSpatialPoint, lat, lon, code, 2⟩ ∧
      ∀ code' w, code'.length = 9 →
      (L.entries (Db.encodeIndexHead code' id) = some w ↔ code' = code ∧ w = v) := by
    intro id v held
    obtain ⟨lat, lon, code, placed, encoded, here, _⟩ := holds.place held
    have point : s.point id = some (lat, lon) := by
      have cell := sim id
      rw [placed] at cell
      cases read : s.point id with
      | none => simp [read] at cell
      | some p =>
        simp only [read, Option.map_some, Option.some.injEq, Cell.place.injEq] at cell
        rw [cell.1, cell.2]
    exact ⟨lat, lon, code, point, code_length encoded, encoded, Db.pointAt_run here, fun code' w length =>
      holds.code_entry held placed encoded length⟩
  have behind : ∀ id code w, code.length = 9 → L.entries (Db.encodeIndexHead code id) = some w →
      L.entries (Db.encodeIdHead id) = some w := by
    intro id code w length held
    obtain ⟨_, _, _, _, heldId⟩ := (holds.index.at length id w).mp held
    exact heldId
  constructor
  · intro id
    simp only [holds.entry, ne_eq, ← none id]
    rw [← Option.isSome_iff_exists, ← Option.ne_none_iff_isSome]
  · intro id
    simp only [holds.entry]
    constructor
    · rintro ⟨v, held⟩
      obtain ⟨_, _, code, _, length, _, _, codes⟩ := facts id v held
      refine ⟨code, ⟨length, v, (codes code v length).mpr ⟨rfl, rfl⟩⟩, ?_⟩
      rintro code' ⟨length', w, held'⟩
      exact ((codes code' w length').mp held').1
    · rintro ⟨code, ⟨length, v, held⟩, _⟩
      exact ⟨v, behind id code v length held⟩
  · intro id code code' v v' length length' held held'
    rw [holds.entry] at held held'
    obtain ⟨_, _, code0, _, _, _, _, codes⟩ := facts id v (behind id code v length held)
    obtain ⟨rfl, _⟩ := (codes code v length).mp held
    obtain ⟨rfl, rfl⟩ := (codes code' v' length').mp held'
    exact ⟨rfl, rfl⟩
  · intro id v code w held length heldCode
    rw [holds.entry] at held heldCode
    obtain ⟨lat, lon, code0, point, _, encoded, here, codes⟩ := facts id v held
    obtain ⟨rfl, rfl⟩ := (codes code w length).mp heldCode
    exact ⟨rfl, _, here, rfl, encoded, point⟩
  · intro rest v held
    rw [holds.entry] at held
    obtain ⟨id, _, _, code, split, _, encoded, _⟩ := (holds.index rest v).mp held
    exact ⟨code, id, split, code_length encoded⟩

/-- Whatever was run on a slot, its two spatial indexes are in step with each other and
    with the locations last accepted. -/
theorem indexes_in_step (atof : List UInt8 → Option ℚ) (ops : List Op) :
    ∃ replies db, (Db.init >>= fun db => db.run atof ops) = some (replies, db) ∧
      db.InStep (Ideal.empty.after atof ops).point := by
  obtain ⟨replies, db, L, run, holds, _⟩ := reached_holds atof ops
  exact ⟨replies, db, run, holds.inStep (PlaceSim.run (fun _ => rfl) atof ops)⟩

end
end EtdbDatabase
