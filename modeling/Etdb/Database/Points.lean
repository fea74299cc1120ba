import Etdb.Database.Lists

/- Spatial commands. The one record of an id is behind two keys; whatever the command,
   only the id's key and the index keys that end in the id change. -/
namespace EtdbDatabase
open EtdbTrie

section
variable {db db' : Db} {L L' : Layout} {S : Store} {m m' : Entries} {id code rest : List UInt8}
    {v p : Int}
variable {lat lon lat' lon' : ℚ} {cell : Option Cell} {atof : List UInt8 → Option ℚ}

def pointRecord (lat lon : ℚ) (code : List UInt8) : Record := .point ⟨typeSpatialPoint, lat, lon, code, 2⟩

theorem code_length (encoded : EtdbGeoHash.encode lat lon Db.geoHashPrecisionLen = some code) :
    code.length = 9 :=
  EtdbGeoHash.encode_length (by decide) encoded

theorem Indexed.at (index : Indexed m S) (length : code.length = 9) (id : List UInt8) (v : Int) :
    m (Db.encodeIndexHead code id) = some v ↔ ∃ lat lon, S (Db.encodeIdHead id) = some (.place lat lon) ∧
      EtdbGeoHash.encode lat lon Db.geoHashPrecisionLen = some code ∧
      m (Db.encodeIdHead id) = some v := by
  unfold Db.encodeIndexHead
  rw [index]
  constructor
  · rintro ⟨id', lat, lon, code', same, placed, encoded, held⟩
    obtain ⟨rfl, rfl⟩ := List.append_inj same (length.trans (code_length encoded).symm)
    exact ⟨lat, lon, placed, encoded, held⟩
  · rintro ⟨lat, lon, placed, encoded, held⟩
    exact ⟨id, lat, lon, code, rfl, placed, encoded, held⟩

theorem Indexed.replace (index : Indexed m S)
    (others : ∀ other, other ≠ id → m' (Db.encodeIdHead other) = m (Db.encodeIdHead other))
    (away : ∀ rest, (∀ code, code.length = 9 → rest ≠ code ++ id) →
      m' (Db.spatialPointHead2 :: rest) = m (Db.spatialPointHead2 :: rest))
    (here : ∀ code v, code.length = 9 → (m' (Db.encodeIndexHead code id) = some v ↔
      ∃ lat lon, cell = some (.place lat lon) ∧ EtdbGeoHash.encode lat lon Db.geoHashPrecisionLen =
      some code ∧
        m' (Db.encodeIdHead id) = some v)) :
    Indexed m' (Function.update S (Db.encodeIdHead id) cell) := by
  have keys : ∀ other, other ≠ id → Db.encodeIdHead other ≠ Db.encodeIdHead id :=
    fun other different same =>
    different (List.cons.inj same).2
  intro rest v
  by_cases own : ∃ code, code.length = 9 ∧ rest = code ++ id
  · obtain ⟨code, length, rfl⟩ := own
    constructor
    · intro held
      obtain ⟨lat, lon, placed, encoded, heldId⟩ := (here code v length).mp held
      exact ⟨id, lat, lon, code, rfl, by rw [Function.update_self, placed], encoded, heldId⟩
    · rintro ⟨id', lat, lon, code', same, placed, encoded, heldId⟩
      obtain ⟨rfl, rfl⟩ := List.append_inj same (length.trans (code_length encoded).symm)
      rw [Function.update_self] at placed
      exact (here code v length).mpr ⟨lat, lon, placed, encoded, heldId⟩
  · have different : ∀ id' lat lon code, rest = code ++ id' →
        EtdbGeoHash.encode lat lon Db.geoHashPrecisionLen = some code → id' ≠ id := by
      rintro id' lat lon code split encoded rfl
      exact own ⟨code, code_length encoded, split⟩
    rw [away rest (fun code length split => own ⟨code, length, split⟩), index]
    constructor
    · rintro ⟨id', lat, lon, code, split, placed, encoded, held⟩
      have apart := different id' lat lon code split encoded
      exact ⟨id', lat, lon, code, split, by rw [Function.update_of_ne (keys id' apart), placed], encoded,
        by rw [others id' apart, held]⟩
    · rintro ⟨id', lat, lon, code, split, placed, encoded, held⟩
      have apart := different id' lat lon code split encoded
      rw [Function.update_of_ne (keys id' apart)] at placed
      rw [others id' apart] at held
      exact ⟨id', lat, lon, code, split, placed, encoded, held⟩

theorem Holds.respot (holds : Holds db L S) (stores : Stores db'.trie L'.tree L'.entries)
    (away : Away (Db.encodeIdHead id) db db' L L') (fresh : db.fresh ≤ db'.fresh)
    (owned : ∀ a k, L'.owner a = some k → L.owner a = some k ∨ 0 < a ∧ a < db'.fresh)
    (entries : ∀ key, key.head? ≠ some Db.spatialPointHead2 → key ≠ Db.encodeIdHead id →
      L'.entries key = L.entries key)
    (here : Option.Rel (Denotes db'.heap L'.owner (Db.encodeIdHead id))
    (L'.entries (Db.encodeIdHead id)) cell)
    (index : Indexed L'.entries (Function.update S (Db.encodeIdHead id) cell)) :
    Holds db' L' (Function.update S (Db.encodeIdHead id) cell) := by
  have positive := holds.fresh
  refine ⟨stores, by omega, ?_, ?_, index⟩
  · intro a k own
    rcases owned a k own with old | new
    · obtain ⟨low, high⟩ := holds.owned a k old
      exact ⟨low, by omega⟩
    · exact new
  · intro other type
    by_cases same : other = Db.encodeIdHead id
    · subst same
      rwa [Function.update_self]
    · rw [Function.update_of_ne same, entries other type same]
      have before := holds.cells other type
      revert before
      cases L.entries other <;> cases S other <;> intro before <;> cases before
      · exact .none
      · rename_i denotes
        exact .some (denotes.congr fun a own => ⟨away.owner a other same own, away.heap a other same own⟩)

theorem id_plain (id : List UInt8) : (Db.encodeIdHead id).head? ≠ some Db.spatialPointHead2 := by
  simp [Db.encodeIdHead, Db.spatialPointHead1, Db.spatialPointHead2]

theorem index_head (code id : List UInt8) :
    (Db.encodeIndexHead code id).head? = some Db.spatialPointHead2 := rfl

theorem Holds.place (holds : Holds db L S) (held : L.entries (Db.encodeIdHead id) = some v) :
    ∃ lat lon code, S (Db.encodeIdHead id) = some (.place lat lon) ∧
      EtdbGeoHash.encode lat lon Db.geoHashPrecisionLen = some code ∧
      db.heap v = some (pointRecord lat lon code) ∧ L.owner v = some (Db.encodeIdHead id) := by
  obtain ⟨cell, stored, denotes⟩ := holds.denotes (id_plain id) held
  cases cell with
  | bytes value =>
    obtain ⟨_, _, _, _, ⟨type, _⟩ | ⟨type, _⟩⟩ := denotes <;> cases type
  | member => cases denotes.1
  | queue values => cases denotes.1
  | place lat lon =>
    obtain ⟨_, own, code, encoded, here⟩ := denotes
    exact ⟨lat, lon, code, stored, encoded, here, own⟩

theorem index_ne_id (code id other : List UInt8) : Db.encodeIndexHead code id ≠ Db.encodeIdHead
    other := by
  intro same
  cases congrArg List.head? same

theorem index_inj {code' : List UInt8} (length : code.length = 9) (length' : code'.length = 9) :
    Db.encodeIndexHead code' id = Db.encodeIndexHead code id ↔ code' = code := by
  constructor
  · intro same
    exact (List.append_inj (List.cons.inj same).2 (length'.trans length.symm)).1
  · rintro rfl
    rfl

theorem plain_ne_index {key : List UInt8} (plain : key.head? ≠ some Db.spatialPointHead2)
    (code id : List UInt8) : key ≠ Db.encodeIndexHead code id := by
  rintro rfl
  exact plain rfl

/-- The entries once both keys of an id hold `entry`. -/
def bothKeys (m : Entries) (id code : List UInt8) (entry : Option Int) : Entries :=
  Function.update (Function.update m (Db.encodeIdHead id) entry) (Db.encodeIndexHead code id) entry

theorem bothKeys_id (m : Entries) (id code : List UInt8) (entry : Option Int) :
    bothKeys m id code entry (Db.encodeIdHead id) = entry := by
  rw [bothKeys, Function.update_of_ne (index_ne_id code id id).symm, Function.update_self]

theorem bothKeys_index (m : Entries) (id code : List UInt8) (entry : Option Int) :
    bothKeys m id code entry (Db.encodeIndexHead code id) = entry :=
  Function.update_self _ _ _

theorem bothKeys_other {key : List UInt8} (notId : key ≠ Db.encodeIdHead id)
    (notIndex : key ≠ Db.encodeIndexHead code id) (entry : Option Int) :
    bothKeys m id code entry key = m key := by
  rw [bothKeys, Function.update_of_ne notIndex, Function.update_of_ne notId]

theorem bothKeys_plain {key : List UInt8} (plain : key.head? ≠ some Db.spatialPointHead2)
    (different : key ≠ Db.encodeIdHead id) (entry : Option Int) :
    bothKeys m id code entry key = m key :=
  bothKeys_other different (plain_ne_index plain code id) entry

theorem Indexed.both {entry : Option Int} (index : Indexed m S) (length : code.length = 9)
    (old : ∀ code' v, code'.length = 9 → code' ≠ code → m (Db.encodeIndexHead code' id) ≠ some v)
    (only : ∀ lat lon code', cell = some (.place lat lon) →
      EtdbGeoHash.encode lat lon Db.geoHashPrecisionLen = some code' → code' = code)
    (spot : ∀ v, entry = some v → ∃ lat lon, cell = some (.place lat lon) ∧
      EtdbGeoHash.encode lat lon Db.geoHashPrecisionLen = some code) :
    Indexed (bothKeys m id code entry) (Function.update S (Db.encodeIdHead id) cell) := by
  refine index.replace ?_ ?_ ?_
  · intro other different
    exact bothKeys_plain (id_plain other) (fun same => different (List.cons.inj same).2) entry
  · intro rest split
    exact bothKeys_other (index_ne_id [] rest id)
      (fun same => split code length (List.cons.inj same).2) entry
  · intro code' v length'
    rw [bothKeys_id]
    by_cases same : code' = code
    · subst same
      rw [bothKeys_index]
      constructor
      · intro value
        obtain ⟨lat, lon, placed, encoded⟩ := spot v value
        exact ⟨lat, lon, placed, encoded, value⟩
      · rintro ⟨_, _, _, _, value⟩
        exact value
    · rw [bothKeys_other (index_ne_id code' id id) (fun h => same ((index_inj length length').mp h))]
      constructor
      · intro held
        exact absurd held (old code' v length' same)
      · rintro ⟨lat, lon, placed, encoded, _⟩
        exact absurd (only lat lon code' placed encoded) same

/-- An id without a point is in no index entry. -/
theorem Holds.unindexed (holds : Holds db L S) (missing : S (Db.encodeIdHead id) = none)
    (length : code.length = 9) (v : Int) : L.entries (Db.encodeIndexHead code id) ≠ some v := by
  intro held
  obtain ⟨_, _, placed, _⟩ := (holds.index.at length id v).mp held
  rw [missing] at placed
  cases placed

theorem Holds.indexed {code' : List UInt8} (holds : Holds db L S)
    (held : L.entries (Db.encodeIdHead id) = some p)
    (placed : S (Db.encodeIdHead id) = some (.place lat lon))
    (encoded : EtdbGeoHash.encode lat lon Db.geoHashPrecisionLen = some code)
    (length : code'.length = 9) (v : Int) :
    L.entries (Db.encodeIndexHead code' id) = some v ↔ code' = code ∧ v = p := by
  rw [holds.index.at length id v, placed, held]
  constructor
  · rintro ⟨lat', lon', same, encoded', value⟩
    cases same
    exact ⟨Option.some.inj (encoded'.symm.trans encoded), (Option.some.inj value).symm⟩
  · rintro ⟨rfl, rfl⟩
    exact ⟨lat, lon, rfl, encoded, rfl⟩

theorem spFirst_spec (holds : Holds db L S) (none : L.entries (Db.encodeIdHead id) = none)
    (encoded : EtdbGeoHash.encode lat lon Db.geoHashPrecisionLen = some code) :
    ∃ db' L', db.spFirst id code lat lon = some (0, db') ∧
      Holds db' L' (Function.update S (Db.encodeIdHead id) (some (.place lat lon))) ∧
      Apart [Db.spatialPointHead1, Db.spatialPointHead2] L.tree L'.tree ∧
      Tends db db' L L' S (Function.update S (Db.encodeIdHead id) (some (.place lat lon))) := by
  have positive := holds.fresh
  have missing := (holds.none_iff (id_plain id)).mp none
  let db1 : Db := (db.alloc (pointRecord lat lon code)).2
  obtain ⟨t1, T1, run1, stores1, apart1⟩ := holds.stores.update (v := db.fresh) id
    (show Db.spatialPointHead1 ∈ typeHeads by decide) (by omega)
  obtain ⟨t2, T2, run2, stores2, apart2⟩ := stores1.update (v := db.fresh) (code ++ id)
    (show Db.spatialPointHead2 ∈ typeHeads by decide) (by omega)
  change db.trie.update (Db.encodeIdHead id) db.fresh = _ at run1
  change t1.update (Db.encodeIndexHead code id) db.fresh = _ at run2
  let L' : Layout := ⟨T2, bothKeys L.entries id code (some db.fresh),
    Function.update L.owner db.fresh (some (Db.encodeIdHead id))⟩
  have entryId : L'.entries (Db.encodeIdHead id) = some db.fresh :=
    bothKeys_id L.entries id code (some db.fresh)
  have later : db.fresh ≤ db.fresh + 1 := Int.le_of_lt (Int.lt_succ db.fresh)
  have away : Away (Db.encodeIdHead id) db { db1 with trie := t2 } L L' := holds.away_alloc rfl rfl
  have plainOther : ∀ key, key.head? ≠ some Db.spatialPointHead2 → key ≠ Db.encodeIdHead id →
      L'.entries key = L.entries key :=
    fun key plain different => bothKeys_plain plain different (some db.fresh)
  refine ⟨{ db1 with trie := t2 }, L', ?_, ?_, ?_, ?_⟩
  · have previous : (L.entries (Db.encodeIdHead id)).getD 0 = 0 := by rw [none, Option.getD_none]
    refine bind_run (Db.trieUpdate_run (d := db1) run1) ?_
    refine (if_neg (show ¬ (L.entries (Db.encodeIdHead id)).getD 0 < 0 by omega)).trans ?_
    refine bind_run (Db.trieUpdate_run (d := { db1 with trie := t1 }) run2) ?_
    exact if_neg (not_lt.mpr (stores1.previous _))
  · refine holds.respot stores2 away later (holds.owned_alloc rfl rfl) plainOther ?_
      (holds.index.both (code_length encoded) ?_ ?_ ?_)
    · rw [entryId]
      exact .some ⟨rfl, Function.update_self _ _ _, code, encoded, Function.update_self _ _ _⟩
    · exact fun code' v length' _ => holds.unindexed missing length' v
    · intro lat' lon' code' placed encoded'
      cases placed
      exact Option.some.inj (encoded'.symm.trans encoded)
    · exact fun _ _ => ⟨lat, lon, rfl, encoded⟩
  · have first : Apart [Db.spatialPointHead1, Db.spatialPointHead2] L.tree T1 := apart1.mono (by simp)
    exact first.trans (apart2.mono (by simp))
  · refine Tends.change holds (id_plain id) later away.heap plainOther fun a live => ?_
    by_cases new : a = db.fresh
    · exact Or.inl ⟨(behind_iff entryId (Function.update_self _ _ _)).mpr new, Or.inl (le_of_eq new.symm)⟩
    · exact Or.inr ⟨fun dead => live ((Function.update_of_ne new _ _).trans dead),
        not_behind_none missing⟩

theorem Holds.move (holds : Holds db L S) (held : L.entries (Db.encodeIdHead id) = some p)
    (encoded : EtdbGeoHash.encode lat lon Db.geoHashPrecisionLen = some code) {t' : Trie}
    {T' : ByteTree.Tree Int} (stores : Stores t' T' m')
    (entries : ∀ key, (∀ code', code'.length = 9 → key ≠ Db.encodeIndexHead code' id) →
    m' key = L.entries key)
    (codes : ∀ code' v, code'.length = 9 →
    (m' (Db.encodeIndexHead code' id) = some v ↔ code' = code ∧ v = p)) :
    Holds { db with trie := t', heap := Function.update db.heap p (some (pointRecord lat lon code)) }
      ⟨T', m', L.owner⟩ (Function.update S (Db.encodeIdHead id) (some (.place lat lon))) := by
  obtain ⟨_, _, _, _, _, _, own⟩ := holds.place held
  have plain : ∀ key, key.head? ≠ some Db.spatialPointHead2 → m' key = L.entries key := by
    intro key type
    refine entries key fun code' _ same => type ?_
    rw [same, index_head]
  have entryId : m' (Db.encodeIdHead id) = some p := (plain _ (id_plain id)).trans held
  refine holds.respot stores ⟨fun _ _ _ own => own, fun a other different own' => ?_⟩ (le_refl _)
    (fun _ _ own => Or.inl own) (fun key type _ => plain key type) ?_ (holds.index.replace ?_ ?_ ?_)
  · refine Function.update_of_ne ?_ _ _
    rintro rfl
    exact different (Option.some.inj (own'.symm.trans own))
  · dsimp only
    rw [entryId]
    exact .some ⟨rfl, own, code, encoded, Function.update_self _ _ _⟩
  · exact fun other _ => plain _ (id_plain other)
  · intro rest split
    exact entries _ fun code' length same => split code' length (List.cons.inj same).2
  · intro code' w length'
    dsimp only
    rw [codes code' w length', entryId]
    constructor
    · rintro ⟨rfl, rfl⟩
      exact ⟨lat, lon, rfl, encoded, rfl⟩
    · rintro ⟨lat', lon', placed, encoded', same⟩
      cases placed
      exact ⟨Option.some.inj (encoded'.symm.trans encoded), (Option.some.inj same).symm⟩

theorem Tends.move (holds : Holds db L S) (held : L.entries (Db.encodeIdHead id) = some p) {t' : Trie}
    {T' : ByteTree.Tree Int} (record : Record)
    (entries : ∀ key, key.head? ≠ some Db.spatialPointHead2 → m' key = L.entries key) :
    Tends db { db with trie := t', heap := Function.update db.heap p (some record) } L ⟨T', m', L.owner⟩ S
      (Function.update S (Db.encodeIdHead id) (some (.place lat lon))) := by
  obtain ⟨_, _, _, placed, _, here, own⟩ := holds.place held
  refine Tends.change holds (id_plain id) (le_refl _) (fun a other different own' => ?_)
    (fun key type _ => entries key type) fun a live => ?_
  · refine Function.update_of_ne ?_ _ _
    rintro rfl
    exact different (Option.some.inj (own'.symm.trans own))
  · by_cases same : a = p
    · refine Or.inl ⟨(behind_iff ((entries _ (id_plain id)).trans held)
        (Function.update_self _ _ _)).mpr same, ?_⟩
      exact Or.inr (by simp [same, here])
    · exact Or.inr ⟨fun dead => live ((Function.update_of_ne same _ _).trans dead),
        fun behind => same ((behind_iff held placed).mp behind)⟩

/-- A point with another code: the new code is indexed and the old one erased. -/
theorem spLater_moved {lat0 lon0 : ℚ} {code0 : List UInt8} (holds : Holds db L S)
    (held : L.entries (Db.encodeIdHead id) = some p)
    (encoded : EtdbGeoHash.encode lat lon Db.geoHashPrecisionLen = some code)
    (placed : S (Db.encodeIdHead id) = some (.place lat0 lon0))
    (encoded0 : EtdbGeoHash.encode lat0 lon0 Db.geoHashPrecisionLen = some code0)
    (here : db.heap p = some (pointRecord lat0 lon0 code0)) (moved : code ≠ code0) :
    ∃ db' L', db.spLater p id code lat lon = some (0, db') ∧
      Holds db' L' (Function.update S (Db.encodeIdHead id) (some (.place lat lon))) ∧
      Apart [Db.spatialPointHead1, Db.spatialPointHead2] L.tree L'.tree ∧
      Tends db db' L L' S (Function.update S (Db.encodeIdHead id) (some (.place lat lon))) := by
  have length := code_length encoded
  have length0 := code_length encoded0
  obtain ⟨t1, T1, run1, stores1, apart1⟩ := holds.stores.update (v := p) (code ++ id)
    (show Db.spatialPointHead2 ∈ typeHeads by decide) (holds.stores.nonneg _ p held)
  obtain ⟨t2, T2, run2, stores2, apart2⟩ := stores1.erase (code0 ++ id)
    (show Db.spatialPointHead2 ∈ typeHeads by decide)
  have spelled : ∀ code, Db.spatialPointHead2 :: (code ++ id) = Db.encodeIndexHead code id := fun _ => rfl
  simp only [spelled] at run1 run2 stores1 stores2
  refine ⟨{ db with trie := t2, heap := Function.update db.heap p (some (pointRecord lat lon code)) },
    ⟨T2, _, L.owner⟩, ?_, holds.move held encoded stores2 ?_ ?_,
    (apart1.mono (by simp)).trans (apart2.mono (by simp)), .move holds held _ fun key plain => ?_⟩
  · refine bind_run (Db.pointAt_run here) ?_
    refine (if_pos moved).trans ?_
    refine bind_run (Db.trieUpdate_run run1) ?_
    refine (if_neg (not_lt.mpr (holds.stores.previous _))).trans ?_
    refine bind_run (Db.trieErase_run (d := { db with trie := t1 }) run2) ?_
    refine bind_run (Db.modifyPoint_run (d := { db with trie := t2 }) here _) ?_
    refine bind_run (Db.modifyPoint_run (Function.update_self _ _ _) _) ?_
    unfold Db.put
    rw [Function.update_idem]
    rfl
  · intro key different
    rw [Function.update_of_ne (different code0 length0), Function.update_of_ne (different code length)]
  · intro code' w length'
    by_cases old : code' = code0
    · subst old
      rw [Function.update_self]
      simp [Ne.symm moved]
    · rw [Function.update_of_ne (fun same => old ((index_inj length0 length').mp same))]
      by_cases new : code' = code
      · subst new
        rw [Function.update_self]
        simp [eq_comm]
      · rw [Function.update_of_ne (fun same => new ((index_inj length length').mp same)),
          holds.indexed held placed encoded0 length' w]
        simp [old, new]
  · rw [Function.update_of_ne (plain_ne_index plain code0 id), Function.update_of_ne
      (plain_ne_index plain code id)]

theorem spLater_spec (holds : Holds db L S) (held : L.entries (Db.encodeIdHead id) = some p)
    (encoded : EtdbGeoHash.encode lat lon Db.geoHashPrecisionLen = some code) :
    ∃ db' L', db.spLater p id code lat lon = some (0, db') ∧
      Holds db' L' (Function.update S (Db.encodeIdHead id) (some (.place lat lon))) ∧
      Apart [Db.spatialPointHead1, Db.spatialPointHead2] L.tree L'.tree ∧
      Tends db db' L L' S (Function.update S (Db.encodeIdHead id) (some (.place lat lon))) := by
  obtain ⟨lat0, lon0, code0, placed, encoded0, here, own⟩ := holds.place held
  by_cases moved : code ≠ code0
  · exact spLater_moved holds held encoded placed encoded0 here moved
  · obtain rfl := not_not.mp moved
    refine ⟨{ db with heap := Function.update db.heap p (some (pointRecord lat lon code)) },
      ⟨L.tree, L.entries, L.owner⟩, ?_, holds.move held encoded holds.stores (fun _ _ => rfl)
      (fun _ w length' => holds.indexed held placed encoded0 length' w), .refl _ _,
      .move holds held _ fun _ _ => rfl⟩
    refine bind_run (Db.pointAt_run here) ?_
    refine (if_neg moved).trans ?_
    exact bind_run (Db.modifyPoint_run here _) rfl

theorem coordinates_range (read : Db.coordinates atof rest code = some (lat, lon)) :
    lat ≤ 90 ∧ -90 ≤ lat ∧ lon ≤ 180 ∧ -180 ≤ lon := by
  unfold Db.coordinates at read
  cases first : atof rest with
  | none => simp [first] at read
  | some x =>
    cases second : atof code with
    | none => simp [first, second] at read
    | some y =>
      simp only [first, second, Option.bind_eq_bind, Option.bind_some] at read
      split at read
      · cases read
      · rename_i inside
        obtain ⟨rfl, rfl⟩ := Prod.mk.inj (Option.some.inj read)
        simp only [not_or, not_lt] at inside
        exact ⟨inside.2.1, inside.1, inside.2.2.2, inside.2.2.1⟩

theorem Store.apply_spSet (S : Store) (atof : List UInt8 → Option ℚ) (id lat lon : List UInt8) :
    S.apply atof (.spSet id lat lon) = match Db.coordinates atof lat lon with
      | none => S
      | some (latD, lonD) => Function.update S (Db.encodeIdHead id) (some (.place latD lonD)) := rfl

theorem spSet_spec (holds : Holds db L S) (atof : List UInt8 → Option ℚ)
    (id latText lonText : List UInt8) : ∃ db' L', db.spSet atof id latText lonText =
        some (if (Db.coordinates atof latText lonText).isSome then 0 else -1, db') ∧
      Holds db' L' (S.apply atof (.spSet id latText lonText)) ∧
      Apart [Db.spatialPointHead1, Db.spatialPointHead2] L.tree L'.tree ∧
      Tends db db' L L' S (S.apply atof (.spSet id latText lonText)) := by
  unfold Db.spSet
  rw [Store.apply_spSet]
  cases read : Db.coordinates atof latText lonText with
  | none => exact ⟨db, L, rfl, holds, .refl _ _, .refl _ _ _⟩
  | some point =>
    obtain ⟨lat, lon⟩ := point
    obtain ⟨latHigh, latLow, lonHigh, lonLow⟩ := coordinates_range read
    obtain ⟨code, encoded⟩ := EtdbGeoHash.encode_inside Db.geoHashPrecisionLen latHigh latLow
      lonHigh lonLow
    have search := holds.stores.search (Db.encodeIdHead id)
    cases held : L.entries (Db.encodeIdHead id) with
    | none =>
      rw [held] at search
      obtain ⟨db', L', run, holds', apart⟩ := spFirst_spec holds held encoded
      refine ⟨db', L', ?_, holds', apart⟩
      refine bind_run search ?_
      exact bind_run encoded run
    | some p =>
      rw [held] at search
      have nonneg := holds.stores.nonneg _ p held
      obtain ⟨db', L', run, holds', apart⟩ := spLater_spec holds held encoded
      refine ⟨db', L', ?_, holds', apart⟩
      refine bind_run search ?_
      refine bind_run encoded ?_
      exact (if_neg (show ¬ (some p).getD noValue < 0 by rw [Option.getD_some]; omega)).trans run

theorem spGet_spec (holds : Holds db L S) (id : List UInt8) : ∃ r, db.spGet id = some r ∧
    match S.place (Db.encodeIdHead id) with
    | none => r = none
    | some (lat, lon) => ∃ code, EtdbGeoHash.encode lat lon Db.geoHashPrecisionLen = some code ∧
        r = some (lat, lon, code) := by
  unfold Db.spGet Store.place
  have search := holds.stores.search (Db.encodeIdHead id)
  cases held : L.entries (Db.encodeIdHead id) with
  | none =>
    rw [held] at search
    rw [(holds.none_iff (id_plain id)).mp held]
    exact ⟨none, bind_run search rfl, rfl⟩
  | some p =>
    rw [held] at search
    have nonneg := holds.stores.nonneg _ p held
    obtain ⟨lat, lon, code, placed, encoded, here, _⟩ := holds.place held
    rw [placed]
    refine ⟨some (lat, lon, code), bind_run search ?_, code, encoded, rfl⟩
    refine (if_neg (show ¬ (some p).getD noValue < 0 by rw [Option.getD_some]; omega)).trans ?_
    exact bind_run (Db.pointAt_run here) rfl

theorem spDel_missing (holds : Holds db L S) (none : L.entries (Db.encodeIdHead id) = none) :
    ∃ db' L', db.spDel id = some (-1, db') ∧ Holds db' L' S ∧
      Apart [Db.spatialPointHead1, Db.spatialPointHead2] L.tree L'.tree ∧ Tends db db' L L' S S := by
  obtain ⟨t1, T1, run1, stores1, apart1⟩ := holds.stores.erase id
    (show Db.spatialPointHead1 ∈ typeHeads by decide)
  change db.trie.erase (Db.encodeIdHead id) =
    some ((L.entries (Db.encodeIdHead id)).getD (-1), t1) at run1
  rw [none] at run1
  have keep : Function.update L.entries (Db.spatialPointHead1 :: id) Option.none = L.entries :=
    Function.update_eq_self_iff.mpr none.symm
  rw [keep] at stores1
  refine ⟨{ db with trie := t1 }, ⟨T1, L.entries, L.owner⟩, bind_run (Db.trieErase_run run1) rfl, ?_,
    apart1.mono (by simp), le_refl _, fun _ live => Or.inr live, fun lossless => lossless⟩
  exact ⟨stores1, holds.fresh, holds.owned, holds.cells, holds.index⟩

theorem spDel_stored (holds : Holds db L S) (held : L.entries (Db.encodeIdHead id) = some p) :
    ∃ db' L', db.spDel id = some (0, db') ∧
      Holds db' L' (Function.update S (Db.encodeIdHead id) none) ∧
      Apart [Db.spatialPointHead1, Db.spatialPointHead2] L.tree L'.tree ∧
      Tends db db' L L' S (Function.update S (Db.encodeIdHead id) none) := by
  have nonneg := holds.stores.nonneg _ p held
  obtain ⟨lat, lon, code, placed, encoded, here, own⟩ := holds.place held
  obtain ⟨t1, T1, run1, stores1, apart1⟩ := holds.stores.erase id
    (show Db.spatialPointHead1 ∈ typeHeads by decide)
  obtain ⟨t2, T2, run2, stores2, apart2⟩ := stores1.erase (code ++ id)
    (show Db.spatialPointHead2 ∈ typeHeads by decide)
  change db.trie.erase (Db.encodeIdHead id) =
    some ((L.entries (Db.encodeIdHead id)).getD (-1), t1) at run1
  change t1.erase (Db.encodeIndexHead code id) = _ at run2
  rw [held, Option.getD_some] at run1
  have first : Apart [Db.spatialPointHead1, Db.spatialPointHead2] L.tree T1 := apart1.mono (by simp)
  have others : ∀ a other, other ≠ Db.encodeIdHead id → L.owner a = some other →
      Function.update db.heap p none a = db.heap a := by
    intro a other different own'
    refine Function.update_of_ne ?_ _ _
    rintro rfl
    exact different (Option.some.inj (own'.symm.trans own))
  have plainOther : ∀ key, key.head? ≠ some Db.spatialPointHead2 → key ≠ Db.encodeIdHead id →
      bothKeys L.entries id code none key = L.entries key :=
    fun key plain different => bothKeys_plain plain different none
  refine ⟨{ db with trie := t2, heap := Function.update db.heap p none },
    ⟨T2, bothKeys L.entries id code none, L.owner⟩, ?_, ?_, first.trans (apart2.mono (by simp)), ?_⟩
  · unfold Db.spDel
    refine bind_run (Db.trieErase_run run1) ?_
    refine (if_neg (show ¬ p < 0 by omega)).trans ?_
    refine bind_run (Db.pointAt_run (d := { db with trie := t1 }) here) ?_
    refine bind_run (Db.trieErase_run (d := { db with trie := t1 }) run2) ?_
    exact bind_run (Db.free_run (d := { db with trie := t2 }) here) rfl
  · refine holds.respot stores2 ⟨fun _ _ _ own => own, others⟩ (le_refl _)
      (fun _ _ own => Or.inl own) plainOther ?_ (holds.index.both (code_length encoded) ?_ ?_ ?_)
    · dsimp only
      rw [bothKeys_id]
      exact .none
    · intro code' v length' different held'
      exact different ((holds.indexed held placed encoded length' v).mp held').1
    · intro lat' lon' code' none
      cases none
    · intro v none
      cases none
  · refine Tends.change holds (id_plain id) (le_refl _) others plainOther fun a live => Or.inr ?_
    have other : a ≠ p := by
      rintro rfl
      exact live (Function.update_self _ _ _)
    exact ⟨fun dead => live ((Function.update_of_ne other _ _).trans dead),
      fun behind => other ((behind_iff held placed).mp behind)⟩

theorem spDel_spec (holds : Holds db L S) (id : List UInt8) :
    ∃ db' L', db.spDel id = some (if (S (Db.encodeIdHead id)).isSome then 0 else -1, db') ∧
      Holds db' L' (Function.update S (Db.encodeIdHead id) none) ∧
      Apart [Db.spatialPointHead1, Db.spatialPointHead2] L.tree L'.tree ∧
      Tends db db' L L' S (Function.update S (Db.encodeIdHead id) none) := by
  cases held : L.entries (Db.encodeIdHead id) with
  | none =>
    have missing := (holds.none_iff (id_plain id)).mp held
    rw [missing, Function.update_eq_self_iff.mpr missing.symm]
    exact spDel_missing holds held
  | some p =>
    obtain ⟨_, _, _, placed, _⟩ := holds.place held
    rw [placed]
    exact spDel_stored holds held

/- Rectangle queries. -/

def maxCover (lat1 lat2 lon1 lon2 : ℚ) : List UInt8 × Nat :=
  EtdbGeoHash.getMaxCover lat1 lat2 lon1 lon2 Db.geoHashPrecisionLen

theorem maxCover_parts (lat1 lat2 lon1 lon2 : ℚ) : (maxCover lat1 lat2 lon1 lon2).1.length ≤ 9 ∧
    (maxCover lat1 lat2 lon1 lon2).2 =
      if (maxCover lat1 lat2 lon1 lon2).1 = [] then 9 else (maxCover lat1 lat2 lon1 lon2).1.length := by
  obtain ⟨l, hash, precision⟩ := EtdbGeoHash.cover_precision (EtdbGeoHash.ordered lat1 lat2)
    (EtdbGeoHash.ordered lon1 lon2) (9 * 5) 0 EtdbGeoHash.Scan.world [] 9 rfl
  obtain ⟨l', hash', begins⟩ := EtdbGeoHash.cover_begins (le_refl (EtdbGeoHash.ordered lat1 lat2).low)
    (EtdbGeoHash.ordered_le lat1 lat2) (le_refl (EtdbGeoHash.ordered lon1 lon2).low)
    (EtdbGeoHash.ordered_le lon1 lon2) (9 * 5) 1 EtdbGeoHash.Scan.world [] 9
  have count := EtdbGeoHash.encodeLoop_length (EtdbGeoHash.ordered lat1 lat2).low
    (EtdbGeoHash.ordered lon1 lon2).low 9 (9 * 5) 0 EtdbGeoHash.Scan.world (by omega)
  rw [List.nil_append] at hash hash'
  change (maxCover lat1 lat2 lon1 lon2).1 = l at hash
  change (maxCover lat1 lat2 lon1 lon2).1 = l' at hash'
  change (maxCover lat1 lat2 lon1 lon2).2 = _ at precision
  have short := begins.length_le
  rw [precision, hash]
  refine ⟨by rw [← hash, hash', ← count]; exact short, ?_⟩
  simp

theorem coverKey_nil (lat1 lat2 lon1 lon2 : ℚ) (nil : (maxCover lat1 lat2 lon1 lon2).1 = []) :
    Db.coverKey (maxCover lat1 lat2 lon1 lon2) = Db.spatialPointHead2 :: List.replicate 9 0 := by
  have precision := (maxCover_parts lat1 lat2 lon1 lon2).2
  rw [if_pos nil] at precision
  rw [Db.coverKey, nil, precision]
  rfl

theorem coverKey_some (lat1 lat2 lon1 lon2 : ℚ) (some : (maxCover lat1 lat2 lon1 lon2).1 ≠ []) :
    Db.coverKey (maxCover lat1 lat2 lon1 lon2) =
    Db.spatialPointHead2 :: (maxCover lat1 lat2 lon1 lon2).1 := by
  have precision := (maxCover_parts lat1 lat2 lon1 lon2).2
  rw [if_neg some] at precision
  rw [Db.coverKey, precision, List.take_succ_cons, List.take_left]

theorem zero_not_code (encoded : EtdbGeoHash.encode lat lon Db.geoHashPrecisionLen = some code) :
    0 ∉ code := by
  intro zero
  have char := EtdbGeoHash.encode_chars (by decide) encoded 0 zero
  revert char
  decide

/-- What is behind an entry of the search: the id's point and the id itself after the cut. -/
theorem Holds.covered (holds : Holds db L S) {lat1 lat2 lon1 lon2 : ℚ} {suffix : List UInt8}
    (held : L.entries (Db.coverKey (maxCover lat1 lat2 lon1 lon2) ++ suffix) = some v) :
    ∃ id lat lon code, S (Db.encodeIdHead id) = some (.place lat lon) ∧
      EtdbGeoHash.encode lat lon Db.geoHashPrecisionLen = some code ∧
      db.heap v = some (pointRecord lat lon code) ∧
      Db.encodeIndexHead code id = Db.coverKey (maxCover lat1 lat2 lon1 lon2) ++ suffix ∧
      9 - (maxCover lat1 lat2 lon1 lon2).2 ≤ suffix.length ∧
      suffix.drop (9 - (maxCover lat1 lat2 lon1 lon2).2) = id ∧ (0 ∈ suffix ↔ 0 ∈ id) := by
  obtain ⟨short, precision⟩ := maxCover_parts lat1 lat2 lon1 lon2
  have fromIndex : ∀ l, Db.coverKey (maxCover lat1 lat2 lon1 lon2) = Db.spatialPointHead2 :: l →
      ∃ id lat lon code, l ++ suffix = code ++ id ∧ S (Db.encodeIdHead id) = some (.place lat lon) ∧
        EtdbGeoHash.encode lat lon Db.geoHashPrecisionLen = some code ∧
        db.heap v = some (pointRecord lat lon code) := by
    intro l key
    rw [key, List.cons_append, holds.index] at held
    obtain ⟨id, lat, lon, code, split, placed, encoded, heldId⟩ := held
    obtain ⟨lat', lon', code', placed', encoded', here, _⟩ := holds.place heldId
    rw [placed] at placed'
    cases placed'
    rw [encoded] at encoded'
    cases encoded'
    exact ⟨id, lat, lon, code, split, placed, encoded, here⟩
  by_cases nil : (maxCover lat1 lat2 lon1 lon2).1 = []
  · -- no code starts with a NUL byte
    obtain ⟨id, lat, lon, code, split, _, encoded, _⟩ := fromIndex _ (coverKey_nil _ _ _ _ nil)
    have length := code_length encoded
    obtain ⟨c, rest, rfl⟩ := List.exists_cons_of_ne_nil (show code ≠ [] by rintro rfl; cases length)
    have first : 0 = c := (List.cons.inj split).1
    exact absurd (by simp [first]) (zero_not_code encoded)
  · have key := coverKey_some _ _ _ _ nil
    rw [if_neg nil] at precision
    obtain ⟨id, lat, lon, code, split, placed, encoded, here⟩ := fromIndex _ key
    have length := code_length encoded
    obtain ⟨tail, codeSplit, rfl⟩ : ∃ tail, code = (maxCover lat1 lat2 lon1 lon2).1 ++ tail ∧
      suffix = tail ++ id := by
      rcases List.append_eq_append_iff.mp split with ⟨tail, code', suffix'⟩ | ⟨tail, cover', id'⟩
      · exact ⟨tail, code', suffix'⟩
      · have empty : tail = [] := by
          have total := congrArg List.length cover'
          rw [List.length_append] at total
          exact List.length_eq_zero_iff.mp (by omega)
        subst empty
        exact ⟨[], by simpa using cover'.symm, by simpa using id'.symm⟩
    have count : tail.length = 9 - (maxCover lat1 lat2 lon1 lon2).2 := by
      have total := congrArg List.length codeSplit
      rw [List.length_append] at total
      omega
    refine ⟨id, lat, lon, code, placed, encoded, here, ?_, ?_, ?_, ?_⟩
    · rw [key, List.cons_append, split]
      rfl
    · rw [List.length_append]
      omega
    · rw [← count, List.drop_left]
    · have clean : 0 ∉ tail := fun zero =>
        zero_not_code encoded (by rw [codeSplit]; exact List.mem_append_right _ zero)
      simp [clean]

/-- The loop keeps the points between the corners, with what is before their ids cut off. -/
theorem spFilter_spec (db : Db) (lat1 lat2 lon1 lon2 : ℚ) (cut : Nat) (entries : List (List UInt8 × Int))
    (points : ∀ e ∈ entries, cut ≤ e.1.length ∧ ∃ lat lon code,
    db.heap e.2 = some (pointRecord lat lon code)) :
    ∃ out, db.spFilter lat1 lat2 lon1 lon2 cut entries = some out ∧
      out.Sublist (entries.map fun e => e.1.drop cut) ∧
      ∀ id, id ∈ out ↔ ∃ e ∈ entries, e.1.drop cut = id ∧ ∃ lat lon code,
        db.heap e.2 = some (pointRecord lat lon code) ∧
        ¬ (lat < lat1 ∨ lat2 < lat ∨ lon < lon1 ∨ lon2 < lon) := by
  induction entries with
  | nil => exact ⟨[], rfl, List.Sublist.refl _, fun id => by simp⟩
  | cons e rest ih =>
    obtain ⟨suffix, p⟩ := e
    obtain ⟨long, lat, lon, code, here⟩ := points _ List.mem_cons_self
    obtain ⟨out, run, sub, member⟩ := ih fun e inside => points e (List.mem_cons_of_mem _ inside)
    dsimp only at long here
    have first : ∀ lat' lon' code', db.heap p = some (pointRecord lat' lon' code') ↔
        lat' = lat ∧ lon' = lon ∧ code' = code := by
      intro lat' lon' code'
      rw [here]
      constructor
      · intro same
        cases same
        exact ⟨rfl, rfl, rfl⟩
      · rintro ⟨rfl, rfl, rfl⟩
        rfl
    refine ⟨_, bind_run (Db.pointAt_run here) ((if_neg (not_lt.mpr long)).trans (bind_run run rfl)),
      ?_, ?_⟩
    · dsimp only
      split
      · exact sub.cons _
      · exact sub.cons_cons _
    · intro id
      simp only [List.exists_mem_cons_iff, first]
      split
      · rename_i outside
        rw [member]
        constructor
        · exact Or.inr
        · rintro (⟨_, lat', lon', code', ⟨rfl, rfl, _⟩, inside⟩ | later)
          · exact absurd outside inside
          · exact later
      · rename_i inside
        rw [List.mem_cons, member]
        constructor
        · rintro (rfl | later)
          · exact Or.inl ⟨rfl, lat, lon, code, ⟨rfl, rfl, rfl⟩, inside⟩
          · exact Or.inr later
        · rintro (⟨same, _⟩ | later)
          · exact Or.inl same.symm
          · exact Or.inr later

theorem spRectAt_spec (holds : Holds db L S) (lat1 lat2 lon1 lon2 : ℚ) :
    ∃ ids, db.spRectAt lat1 lat2 lon1 lon2 = some ids ∧ ids.Nodup ∧
      ∀ id, id ∈ ids ↔ S.Listed lat1 lat2 lon1 lon2 id := by
  obtain ⟨r, entries, run, nodup, found⟩ := holds.stores.list (Db.coverKey (maxCover lat1 lat2 lon1 lon2))
  have covered : ∀ e ∈ entries, e.1 ≠ [] ∧ 0 ∉ e.1 ∧
      L.entries (Db.coverKey (maxCover lat1 lat2 lon1 lon2) ++ e.1) = some e.2 :=
      fun e inside => (found e.1 e.2).mp inside
  obtain ⟨ids, filtered, sub, member⟩ := spFilter_spec db lat1 lat2 lon1 lon2
    (9 - (maxCover lat1 lat2 lon1 lon2).2) entries (by
      intro e inside
      obtain ⟨_, lat, lon, code, _, _, here, _, long, _⟩ := holds.covered (covered e inside).2.2
      exact ⟨long, lat, lon, code, here⟩)
  refine ⟨ids, bind_run run filtered, sub.nodup ?_, fun id => ?_⟩
  · -- the id determines the whole index key
    have distinct : (entries.map Prod.fst).map (List.drop (9 - (maxCover lat1 lat2 lon1 lon2).2)) =
        entries.map fun e => e.1.drop (9 - (maxCover lat1 lat2 lon1 lon2).2) := by simp
    rw [← distinct]
    refine nodup.map_on ?_
    rintro s hs s' hs' same
    obtain ⟨e, inside, rfl⟩ := List.mem_map.mp hs
    obtain ⟨e', inside', rfl⟩ := List.mem_map.mp hs'
    obtain ⟨id, lat, lon, code, placed, encoded, _, key, _, cut, _⟩ :=
      holds.covered (covered e inside).2.2
    obtain ⟨id', lat', lon', code', placed', encoded', _, key', _, cut', _⟩ :=
      holds.covered (covered e' inside').2.2
    obtain rfl : id = id' := cut.symm.trans (same.trans cut')
    rw [placed] at placed'
    cases placed'
    rw [encoded] at encoded'
    cases encoded'
    exact List.append_cancel_left (key.symm.trans key')
  · rw [member]
    constructor
    · rintro ⟨e, inside, rfl, lat, lon, code, here, between⟩
      obtain ⟨some, clean, held⟩ := covered e inside
      obtain ⟨id, lat', lon', code', placed, encoded, here', key, _, cut, zero⟩ := holds.covered held
      rw [here] at here'
      cases here'
      rw [cut]
      refine ⟨lat, lon, code, by rw [Store.place, placed], encoded, between, fun inId => clean (zero.mpr inId), e.1, some, key⟩
    · rintro ⟨lat, lon, code, placed, encoded, between, clean, suffix, some, key⟩
      change Db.encodeIndexHead code id = Db.coverKey (maxCover lat1 lat2 lon1 lon2) ++ suffix at key
      have cell : S (Db.encodeIdHead id) = Option.some (.place lat lon) := by
        unfold Store.place at placed
        split at placed
        · rename_i lat' lon' cell
          cases placed
          exact cell
        · cases placed
      obtain ⟨v, held⟩ : ∃ v, L.entries (Db.encodeIdHead id) = Option.some v := by
        rw [← Option.ne_none_iff_exists', ne_eq, holds.none_iff (id_plain id), cell]
        simp
      have heldIndex := (holds.index.at (code_length encoded) id v).mpr ⟨lat, lon, cell, encoded, held⟩
      rw [key] at heldIndex
      obtain ⟨id', lat', lon', code', placed', encoded', here, key', _, cut, zero⟩ :=
        holds.covered heldIndex
      obtain ⟨rfl, rfl⟩ := List.append_inj (List.cons.inj (key'.trans key.symm)).2
        ((code_length encoded').trans (code_length encoded).symm)
      rw [cell] at placed'
      cases placed'
      exact ⟨(suffix, v), (found suffix v).mpr
        ⟨some, fun inSuffix => clean (zero.mp inSuffix), heldIndex⟩, cut, lat,
        lon, code', here, between⟩

end
end EtdbDatabase
