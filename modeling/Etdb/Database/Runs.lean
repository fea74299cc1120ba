import Etdb.Database.Points

/- Any commands in any order: every step keeps what the slot stands for, answers from it
   and touches only the keys of its own type. -/
namespace EtdbDatabase
open EtdbTrie ByteTree

def Kind.heads : Kind → List UInt8
  | .kv => [Db.kvHead]
  | .hash => [Db.hashHead]
  | .set => [Db.setHead]
  | .list => [Db.listHead]
  | .point => [Db.spatialPointHead1, Db.spatialPointHead2]

def Store.AnswersRun (atof : List UInt8 → Option ℚ) (S : Store) : List Op → List Reply → Prop
  | [], replies => replies = []
  | _ :: _, [] => False
  | op :: rest, r :: replies => S.Answers atof op r ∧ (S.apply atof op).AnswersRun atof rest replies

/-- The value of an entry is what its head calls for: a live record of the type, or 1. -/
def Db.Fits (db : Db) (head : UInt8) (v : Int) : Prop :=
  head = Db.kvHead ∧ (∃ node, db.valueAt v = some node ∧ node.type = typeKv) ∨
  head = Db.hashHead ∧ (∃ node, db.valueAt v = some node ∧ node.type = typeHash) ∨
  head = Db.setHead ∧ v = 1 ∨
  head = Db.listHead ∧ (∃ node, db.listAt v = some node ∧ node.size % 256 = typeList) ∨
  (head = Db.spatialPointHead1 ∨ head = Db.spatialPointHead2) ∧
    ∃ point, db.pointAt v = some point ∧ point.type = typeSpatialPoint

def Db.WellTyped (db : Db) : Prop :=
  ∀ key v, db.trie.exactMatchSearch key = some v → 0 ≤ v → ∃ head rest, key = head :: rest ∧
  db.Fits head v

def Db.TypesApart (atof : List UInt8 → Option ℚ) (db : Db) : Prop :=
  ∀ op q : Op, op.kind ≠ q.kind → q.isQuery = true → ∃ r db', db.step atof op = some (r, db') ∧
    ∃ answer, (db.step atof q).map Prod.fst = some answer ∧ (db'.step atof q).map Prod.fst = some answer

section
variable {db db' : Db} {L L' : Layout} {S S' : Store} {atof : List UInt8 → Option ℚ} {op q : Op}
    {key : List UInt8}

theorem init_holds : ∃ db L, Db.init = some db ∧ Holds db L Store.empty := by
  obtain ⟨t, run, stores⟩ := init_stores
  refine ⟨⟨t, fun _ => none, 4096⟩, ⟨Tree.empty 0, Entries.empty, fun _ => none⟩, ?_, stores,
    show (0 : Int) < 4096 by decide, ?_, ?_, ?_⟩
  · rw [Db.init, run]
    rfl
  · intro a key own
    cases own
  · intro key _
    exact .none
  · intro rest v
    constructor
    · intro held
      cases held
    · rintro ⟨_, _, _, _, _, placed, _⟩
      cases placed

theorem command_run {run : Option (Int × Db)} {code : Int} (ran : run = some (code, db')) :
    Db.command run = some (.status code, db') := by
  rw [ran]
  rfl

theorem query_run {α : Type} {run : Option α} {a : α} {reply : α → Reply} (ran : run = some a) :
    db.query run reply = some (reply a, db) := by
  rw [ran]
  rfl

theorem Store.answers_spGet {id : List UInt8} {r : Reply} : S.Answers atof (.spGet id) r ↔
    match S.place (Db.encodeIdHead id) with
    | none => r = Db.failed
    | some (lat, lon) => ∃ code, EtdbGeoHash.encode lat lon Db.geoHashPrecisionLen = some code ∧
        r = .point lat lon code := Iff.rfl

theorem Store.answers_spRect {lat1 lat2 lon1 lon2 : List UInt8} {r : Reply} :
    S.Answers atof (.spRect lat1 lat2 lon1 lon2) r ↔
      match Db.coordinates atof lat1 lon1, Db.coordinates atof lat2 lon2 with
      | some (lat1, lon1), some (lat2, lon2) =>
        ∃ ids, r = .members ids ∧ ids.Nodup ∧ ∀ id, id ∈ ids ↔ S.Listed lat1 lat2 lon1 lon2 id
      | _, _ => r = Db.failed := Iff.rfl

/-- One command: it runs, keeps the slot in step with its cells, and answers from them; no record
    is lost unless a value is written over another. -/
theorem step_spec (holds : Holds db L S) (atof : List UInt8 → Option ℚ) (op : Op) :
    ∃ r db' L', db.step atof op = some (r, db') ∧ Holds db' L' (S.apply atof op) ∧ S.Answers atof op r ∧
      Apart op.kind.heads L.tree L'.tree ∧ (S.Spares op → Tends db db' L L' S (S.apply atof op)) := by
  have kv : ValueHeaded Db.kvHead typeKv := Or.inl ⟨rfl, rfl⟩
  have hash : ValueHeaded Db.hashHead typeHash := Or.inr ⟨rfl, rfl⟩
  cases op with
  | kvSet key value =>
    obtain ⟨db', L', run, holds', apart, tends⟩ := storeValue_spec holds kv key value
    exact ⟨_, db', L', command_run run, holds', rfl, apart, tends⟩
  | kvGet key => exact ⟨_, db, L, query_run (fetchValue_spec holds kv key), holds, rfl,
      .refl _ _, fun _ => .refl _ _ _⟩
  | kvDel key =>
    obtain ⟨db', L', run, holds', apart, tends⟩ := dropValue_spec holds kv key
    exact ⟨_, db', L', command_run run, holds', rfl, apart, fun _ => tends⟩
  | kvMatchLongest key => exact ⟨_, db, L, query_run (kvMatchLongest_spec holds key), holds, rfl,
      .refl _ _, fun _ => .refl _ _ _⟩
  | hashSet name key value =>
    obtain ⟨db', L', run, holds', apart, tends⟩ :=
      storeValue_spec holds hash (UInt8.ofNat name.length :: key) value
    rw [← encodeHashHead_eq] at run holds' tends
    exact ⟨_, db', L', command_run run, holds', rfl, apart, tends⟩
  | hashGet name key =>
    have run := fetchValue_spec holds hash (UInt8.ofNat name.length :: key)
    rw [← encodeHashHead_eq] at run
    exact ⟨_, db, L, query_run run, holds, rfl, .refl _ _, fun _ => .refl _ _ _⟩
  | hashDel name key =>
    obtain ⟨db', L', run, holds', apart, tends⟩ :=
      dropValue_spec holds hash (UInt8.ofNat name.length :: key)
    rw [← encodeHashHead_eq] at run holds' tends
    exact ⟨_, db', L', command_run run, holds', rfl, apart, fun _ => tends⟩
  | setAdd name key =>
    obtain ⟨db', L', run, holds', apart, tends⟩ := setAdd_spec holds name key
    exact ⟨_, db', L', command_run run, holds', rfl, apart, fun _ => tends⟩
  | setDel name key =>
    obtain ⟨db', L', run, holds', apart, tends⟩ := setDel_spec holds name key
    exact ⟨_, db', L', command_run run, holds', rfl, apart, fun _ => tends⟩
  | setMembers name =>
    obtain ⟨items, run, nodup, member⟩ := setMembers_spec holds name
    exact ⟨_, db, L, query_run run, holds, ⟨items, rfl, nodup, member⟩, .refl _ _, fun _ => .refl _ _ _⟩
  | setIsmember name key => exact ⟨_, db, L, query_run (setIsmember_spec holds name key), holds,
      rfl, .refl _ _, fun _ => .refl _ _ _⟩
  | listLpush name value =>
    obtain ⟨db', L', run, holds', apart, tends⟩ := listLpush_spec holds name value
    exact ⟨_, db', L', command_run run, holds', rfl, apart, fun _ => tends⟩
  | listRpush name value =>
    obtain ⟨db', L', run, holds', apart, tends⟩ := listRpush_spec holds name value
    exact ⟨_, db', L', command_run run, holds', rfl, apart, fun _ => tends⟩
  | listLpop name =>
    obtain ⟨db', L', run, holds', apart, tends⟩ := listLpop_spec holds name
    exact ⟨_, db', L', command_run run, holds', rfl, apart, fun _ => tends⟩
  | listRpop name =>
    obtain ⟨db', L', run, holds', apart, tends⟩ := listRpop_spec holds name
    exact ⟨_, db', L', command_run run, holds', rfl, apart, fun _ => tends⟩
  | listLtop name => exact ⟨_, db, L, query_run (listLtop_spec holds name), holds, rfl,
      .refl _ _, fun _ => .refl _ _ _⟩
  | listRtop name => exact ⟨_, db, L, query_run (listRtop_spec holds name), holds, rfl,
      .refl _ _, fun _ => .refl _ _ _⟩
  | spSet id lat lon =>
    obtain ⟨db', L', run, holds', apart, tends⟩ := spSet_spec holds atof id lat lon
    exact ⟨_, db', L', command_run run, holds', rfl, apart, fun _ => tends⟩
  | spGet id =>
    obtain ⟨r, run, found⟩ := spGet_spec holds id
    refine ⟨_, db, L, query_run run, holds, ?_, .refl _ _, fun _ => .refl _ _ _⟩
    refine Store.answers_spGet.mpr ?_
    revert found
    cases S.place (Db.encodeIdHead id) with
    | none =>
      rintro rfl
      rfl
    | some point =>
      rintro ⟨code, encoded, rfl⟩
      exact ⟨code, encoded, rfl⟩
  | spDel id =>
    obtain ⟨db', L', run, holds', apart, tends⟩ := spDel_spec holds id
    exact ⟨_, db', L', command_run run, holds', rfl, apart, fun _ => tends⟩
  | spRect lat1 lat2 lon1 lon2 =>
    simp only [Db.step, Db.spRect, Store.answers_spRect]
    cases first : Db.coordinates atof lat1 lon1 with
    | none => exact ⟨_, db, L, rfl, holds, rfl, .refl _ _, fun _ => .refl _ _ _⟩
    | some a =>
      cases second : Db.coordinates atof lat2 lon2 with
      | none => exact ⟨_, db, L, rfl, holds, rfl, .refl _ _, fun _ => .refl _ _ _⟩
      | some b =>
        obtain ⟨ids, run, nodup, member⟩ := spRectAt_spec holds a.1 b.1 a.2 b.2
        dsimp only
        rw [run]
        exact ⟨_, db, L, rfl, holds, ⟨ids, rfl, nodup, member⟩, .refl _ _, fun _ => .refl _ _ _⟩

theorem run_spec (holds : Holds db L S) (atof : List UInt8 → Option ℚ) (ops : List Op) :
    ∃ replies db' L', db.run atof ops = some (replies, db') ∧ Holds db' L' (S.after atof ops) ∧
      S.AnswersRun atof ops replies := by
  induction ops generalizing db L S with
  | nil => exact ⟨[], db, L, rfl, holds, rfl⟩
  | cons op rest ih =>
    obtain ⟨r, db1, L1, run1, holds1, answers, _⟩ := step_spec holds atof op
    obtain ⟨replies, db2, L2, run2, holds2, answers2⟩ := ih holds1
    exact ⟨r :: replies, db2, L2, bind_run run1 (bind_run run2 rfl), holds2, answers, answers2⟩

theorem reached_holds (atof : List UInt8 → Option ℚ) (ops : List Op) :
    ∃ replies db L, (Db.init >>= fun db => db.run atof ops) = some (replies, db) ∧
      Holds db L (Store.empty.after atof ops) ∧ Store.empty.AnswersRun atof ops replies := by
  obtain ⟨db0, L0, start, holds⟩ := init_holds
  obtain ⟨replies, db, L, run, holds', answers⟩ := run_spec holds atof ops
  exact ⟨replies, db, L, bind_run start run, holds', answers⟩

theorem Holds.wellTyped (holds : Holds db L S) : db.WellTyped := by
  intro key v search nonneg
  rw [holds.stores.search key] at search
  cases held : L.entries key with
  | none =>
    rw [held] at search
    obtain rfl : noValue = v := Option.some.inj search
    cases nonneg
  | some w =>
    rw [held] at search
    obtain rfl : w = v := Option.some.inj search
    obtain ⟨head, rest, rfl, type⟩ := holds.stores.typed key (by simp [held])
    refine ⟨head, rest, rfl, ?_⟩
    have heads : head = Db.kvHead ∨ head = Db.hashHead ∨ head = Db.setHead ∨ head = Db.listHead ∨
        head = Db.spatialPointHead1 ∨ head = Db.spatialPointHead2 := by
      simpa [typeHeads, Db.kvHead, Db.hashHead, Db.setHead, Db.listHead, Db.spatialPointHead1,
        Db.spatialPointHead2] using type
    unfold Db.Fits
    rcases heads with rfl | rfl | rfl | rfl | rfl | rfl
    · obtain ⟨node, _, here, kind, _⟩ := holds.value (Or.inl ⟨rfl, rfl⟩) held
      exact Or.inl ⟨rfl, node, by rw [Db.valueAt, here], kind⟩
    · obtain ⟨node, _, here, kind, _⟩ := holds.value (Or.inr ⟨rfl, rfl⟩) held
      exact Or.inr (Or.inl ⟨rfl, node, by rw [Db.valueAt, here], kind⟩)
    · exact Or.inr (Or.inr (Or.inl ⟨rfl, (holds.member held).2⟩))
    · obtain ⟨values, items, _, _, queue, _⟩ := holds.queue held
      obtain ⟨node, here, size⟩ := queue.tag
      exact Or.inr (Or.inr (Or.inr (Or.inl ⟨rfl, node, Db.listAt_run here, size⟩)))
    · obtain ⟨lat, lon, code, _, _, here, _⟩ :=
        holds.place (show L.entries (Db.encodeIdHead rest) = some w from held)
      exact Or.inr (Or.inr (Or.inr (Or.inr ⟨Or.inl rfl, _, Db.pointAt_run here, rfl⟩)))
    · obtain ⟨id, lat, lon, code, _, _, _, heldId⟩ := (holds.index rest w).mp held
      obtain ⟨lat', lon', code', _, _, here, _⟩ := holds.place heldId
      exact Or.inr (Or.inr (Or.inr (Or.inr ⟨Or.inr rfl, _, Db.pointAt_run here, rfl⟩)))

theorem apply_away (S : Store) (atof : List UInt8 → Option ℚ)
    (away : ∀ head ∈ op.kind.heads, key.head? ≠ some head) : S.apply atof op key = S key := by
  have apart : ∀ (other : List UInt8) (head : UInt8), other.head? = some head →
    head ∈ op.kind.heads → key ≠ other := by
    rintro other head first type rfl
    exact away head type first
  cases op with
  | kvSet k value => exact Function.update_of_ne (apart _ Db.kvHead rfl List.mem_cons_self) _ _
  | kvDel k => exact Function.update_of_ne (apart _ Db.kvHead rfl List.mem_cons_self) _ _
  | hashSet name k value => exact Function.update_of_ne (apart _ Db.hashHead rfl List.mem_cons_self) _ _
  | hashDel name k => exact Function.update_of_ne (apart _ Db.hashHead rfl List.mem_cons_self) _ _
  | setAdd name k => exact Function.update_of_ne (apart _ Db.setHead rfl List.mem_cons_self) _ _
  | setDel name k => exact Function.update_of_ne (apart _ Db.setHead rfl List.mem_cons_self) _ _
  | listLpush name value => exact Function.update_of_ne (apart _ Db.listHead rfl List.mem_cons_self) _ _
  | listRpush name value => exact Function.update_of_ne (apart _ Db.listHead rfl List.mem_cons_self) _ _
  | listLpop name => exact Function.update_of_ne (apart _ Db.listHead rfl List.mem_cons_self) _ _
  | listRpop name => exact Function.update_of_ne (apart _ Db.listHead rfl List.mem_cons_self) _ _
  | spSet id lat lon =>
    simp only [Store.apply]
    cases Db.coordinates atof lat lon with
    | none => rfl
    | some point => exact Function.update_of_ne (apart _ Db.spatialPointHead1 rfl List.mem_cons_self) _ _
  | spDel id => exact Function.update_of_ne (apart _ Db.spatialPointHead1 rfl List.mem_cons_self) _ _
  | kvGet _ => rfl
  | kvMatchLongest _ => rfl
  | hashGet _ _ => rfl
  | setMembers _ => rfl
  | setIsmember _ _ => rfl
  | listLtop _ => rfl
  | listRtop _ => rfl
  | spGet _ => rfl
  | spRect _ _ _ _ => rfl

theorem answer_run {α : Type} {run : Option α} {a : α} (reply : α → Reply) (ran : run = some a) :
    (db.query run reply).map Prod.fst = some (reply a) := by
  rw [ran]
  rfl

theorem spFilter_congr (lat1 lat2 lon1 lon2 : ℚ) (cut : Nat) (entries : List (List UInt8 × Int))
    (same : ∀ e ∈ entries, db'.pointAt e.2 = db.pointAt e.2) :
    db'.spFilter lat1 lat2 lon1 lon2 cut entries = db.spFilter lat1 lat2 lon1 lon2 cut entries := by
  induction entries with
  | nil => rfl
  | cons e rest ih =>
    unfold Db.spFilter
    rw [same e List.mem_cons_self, ih fun e inside => same e (List.mem_cons_of_mem _ inside)]

theorem spRectAt_same (holds : Holds db L S) (holds' : Holds db' L' S')
    (cells : ∀ id, S' (Db.encodeIdHead id) = S (Db.encodeIdHead id))
    (below : ∀ head, head = Db.spatialPointHead1 ∨ head = Db.spatialPointHead2 →
    Tree.SameBelow head L.tree L'.tree)
    (lat1 lat2 lon1 lon2 : ℚ) : db'.spRectAt lat1 lat2 lon1 lon2 = db.spRectAt lat1 lat2 lon1 lon2 := by
  obtain ⟨rest, key⟩ : ∃ rest, Db.coverKey (maxCover lat1 lat2 lon1 lon2) =
    Db.spatialPointHead2 :: rest := by
    by_cases nil : (maxCover lat1 lat2 lon1 lon2).1 = []
    · exact ⟨_, coverKey_nil _ _ _ _ nil⟩
    · exact ⟨_, coverKey_some _ _ _ _ nil⟩
  have search := search_apart holds.stores.good holds'.stores.good
    (show Db.spatialPointHead2 ∈ typeHeads by decide) (below _ (Or.inr rfl)) rest
  obtain ⟨r, entries, run, _, found⟩ := holds.stores.list (Db.coverKey (maxCover lat1 lat2 lon1 lon2))
  have run' : db'.trie.commonPrefixPathSearch (Db.coverKey (maxCover lat1 lat2 lon1 lon2)) =
    some (r, entries) := by
    rw [key, search, ← key, run]
  have pair : ∀ db : Db, db.trie.commonPrefixPathSearch (Db.coverKey (maxCover lat1 lat2 lon1 lon2)) =
      some (r, entries) → db.spRectAt lat1 lat2 lon1 lon2 =
        db.spFilter lat1 lat2 lon1 lon2 (9 - (maxCover lat1 lat2 lon1 lon2).2) entries :=
        fun _ run => bind_run run rfl
  rw [pair db run, pair db' run']
  apply spFilter_congr
  rintro ⟨suffix, v⟩ inside
  obtain ⟨_, _, held⟩ := (found suffix v).mp inside
  rw [key, List.cons_append] at held
  obtain ⟨id, lat, lon, code, split, placed, encoded, heldId⟩ := (holds.index _ v).mp held
  have heldId' : L'.entries (Db.encodeIdHead id) = some v := by
    have kept := holds.stores.apart holds'.stores (show Db.spatialPointHead1 ∈ typeHeads by decide)
      (below _ (Or.inl rfl)) id
    exact kept.trans heldId
  obtain ⟨lat1, lon1, code1, placed1, encoded1, here1, _⟩ := holds.place heldId
  obtain ⟨lat2, lon2, code2, placed2, encoded2, here2, _⟩ := holds'.place heldId'
  rw [cells id, placed1] at placed2
  cases placed2
  rw [encoded1] at encoded2
  cases encoded2
  rw [Db.pointAt, Db.pointAt, here1, here2]

theorem query_same (holds : Holds db L S) (holds' : Holds db' L' S') (atof : List UInt8 → Option ℚ)
    (query : q.isQuery = true)
    (cells : ∀ key : List UInt8, ∀ head ∈ q.kind.heads, key.head? = some head → S' key = S key)
    (below : ∀ head ∈ q.kind.heads, Tree.SameBelow head L.tree L'.tree) :
    ∃ answer, (db.step atof q).map Prod.fst = some answer ∧
    (db'.step atof q).map Prod.fst = some answer := by
  have kv : ValueHeaded Db.kvHead typeKv := Or.inl ⟨rfl, rfl⟩
  have hash : ValueHeaded Db.hashHead typeHash := Or.inr ⟨rfl, rfl⟩
  cases q with
  | kvGet key =>
    have same := cells (Db.encodeKvHead key) Db.kvHead List.mem_cons_self rfl
    have second := fetchValue_spec holds' kv key
    rw [Store.value, show S' (Db.kvHead :: key) = S (Db.kvHead :: key) from same] at second
    exact ⟨_, answer_run _ (fetchValue_spec holds kv key), answer_run _ second⟩
  | kvMatchLongest key =>
    have same : S'.longest key = S.longest key := by
      unfold Store.longest
      congr 1
      funext P
      rw [Store.value, Store.value, cells (Db.encodeKvHead P) Db.kvHead List.mem_cons_self rfl]
    have second := kvMatchLongest_spec holds' key
    rw [same] at second
    exact ⟨_, answer_run _ (kvMatchLongest_spec holds key), answer_run _ second⟩
  | hashGet name key =>
    have same := cells (Db.encodeHashHead name key) Db.hashHead List.mem_cons_self rfl
    have first := fetchValue_spec holds hash (UInt8.ofNat name.length :: key)
    have second := fetchValue_spec holds' hash (UInt8.ofNat name.length :: key)
    rw [← encodeHashHead_eq] at first second
    rw [Store.value, same] at second
    exact ⟨_, answer_run _ first, answer_run _ second⟩
  | setMembers name =>
    have search := search_apart holds.stores.good holds'.stores.good
      (show Db.setHead ∈ typeHeads by decide) (below _ List.mem_cons_self) [UInt8.ofNat name.length]
    obtain ⟨items, run, _⟩ := setMembers_spec holds name
    have second : db'.setMembers name = some items := by
      rw [← run]
      unfold Db.setMembers
      rw [encodeSetHead_eq, search]
    exact ⟨_, answer_run _ run, answer_run _ second⟩
  | setIsmember name key =>
    have second := setIsmember_spec holds' name key
    rw [cells (Db.encodeSetHead name key) Db.setHead List.mem_cons_self rfl] at second
    exact ⟨_, answer_run _ (setIsmember_spec holds name key), answer_run _ second⟩
  | listLtop name =>
    have second := listLtop_spec holds' name
    rw [Store.queue, cells (Db.encodeListHead name) Db.listHead List.mem_cons_self rfl] at second
    exact ⟨_, answer_run _ (listLtop_spec holds name), answer_run _ second⟩
  | listRtop name =>
    have second := listRtop_spec holds' name
    rw [Store.queue, cells (Db.encodeListHead name) Db.listHead List.mem_cons_self rfl] at second
    exact ⟨_, answer_run _ (listRtop_spec holds name), answer_run _ second⟩
  | spGet id =>
    obtain ⟨r, first, found⟩ := spGet_spec holds id
    obtain ⟨r', second, found'⟩ := spGet_spec holds' id
    rw [Store.place, cells (Db.encodeIdHead id) Db.spatialPointHead1 List.mem_cons_self
      rfl, ← Store.place] at found'
    have same : r' = r := by
      revert found found'
      cases S.place (Db.encodeIdHead id) with
      | none =>
        rintro rfl rfl
        rfl
      | some point =>
        rintro ⟨code, encoded, rfl⟩ ⟨code', encoded', rfl⟩
        rw [encoded] at encoded'
        rw [Option.some.inj encoded']
    rw [same] at second
    exact ⟨_, answer_run _ first, answer_run _ second⟩
  | spRect lat1 lat2 lon1 lon2 =>
    have same := fun a b c d => spRectAt_same holds holds'
      (fun id => cells (Db.encodeIdHead id) Db.spatialPointHead1 List.mem_cons_self rfl)
      (fun head type => below head (by simpa [Op.kind, Kind.heads] using type)) a b c d
    obtain ⟨r, _, _, run, _⟩ := step_spec holds atof (.spRect lat1 lat2 lon1 lon2)
    have first : (db.step atof (.spRect lat1 lat2 lon1 lon2)).map Prod.fst = some r := by
      rw [run]
      rfl
    refine ⟨r, first, first ▸ ?_⟩
    simp only [Db.step, Db.spRect, Db.query, same]
    cases Db.coordinates atof lat1 lon1 <;> cases Db.coordinates atof lat2 lon2 <;>
      simp [Function.comp_def]
  | _ => cases query

/-- Whatever was run on a slot, every entry holds the record that its head calls for, and
    no command changes what a query of another type answers. -/
theorem types_kept_apart (atof : List UInt8 → Option ℚ) (ops : List Op) :
    ∃ replies db, (Db.init >>= fun db => db.run atof ops) = some (replies, db) ∧ db.WellTyped ∧
    db.TypesApart atof := by
  obtain ⟨replies, db, L, run, holds, _⟩ := reached_holds atof ops
  refine ⟨replies, db, run, holds.wellTyped, fun op q other query => ?_⟩
  obtain ⟨r, db', L', ran, holds', _, apart, _⟩ := step_spec holds atof op
  have disjoint : ∀ head ∈ q.kind.heads, head ∉ op.kind.heads := by
    revert other
    cases op.kind <;> cases q.kind <;> (intro other; first | exact absurd rfl other | decide +kernel)
  refine ⟨r, db', ran, query_same holds holds' atof query ?_ fun head type =>
    apart head (disjoint head type)⟩
  intro key head type first
  refine apply_away _ atof fun head' type' first' => ?_
  rw [first] at first'
  rw [← Option.some.inj first'] at type'
  exact disjoint head type type'

end
end EtdbDatabase
