import Etdb.Database.Runs
import Etdb.Server.Lookup

/- A request whose handler fails. Every handler but one looks for what can go wrong before
   it changes anything; sdel erases its keys one by one and stops at the first that is
   missing, with the earlier ones gone. -/
namespace EtdbServer
open EtdbTrie EtdbDatabase

def Standing (db : Db) : Prop := ∃ L S, Holds db L S

/-- It runs and leaves a standing slot, the same one after a failure. -/
def Careful (db : Db) (run : Option (Int × Db)) : Prop :=
  ∃ ret db', run = some (ret, db') ∧ Standing db' ∧ (ret ≠ 0 → db' = db)

def Server.Careful (s : Server) (run : Option (Int × Server)) : Prop :=
  ∃ ret s', run = some (ret, s') ∧ (∀ i, Standing (s'.slots i)) ∧ (ret ≠ 0 → s'.slots = s.slots)

def Handler.need : Handler → Nat
  | .hashSet | .spSet => 3
  | .spRect => 4
  | .kvSet | .hashGet | .hashDel | .listLpush | .listRpush | .setAdd | .setDel | .setIsmember => 2
  | .kvGet | .kvDel | .kvMatchlongest | .listLpop | .listRpop | .listLtop | .listRtop | .setMembers | .spGet | .spDel
  | .sysPerf | .sysUse => 1
  | .spKnn | .geoHashInfo | .sysInfo | .sysWhere | .sysHelp | .sysBgsave | .sysPing | .sysSync => 0

/-- The name of the set is short enough, and the first key is in the set. -/
def Server.FirstStored (s : Server) (r : Request) : Prop :=
  match r.args with
  | name :: key :: _ => name.length ≤ 255 ∧ (s.slot r.conn).setIsmember name key = some 1
  | _ => False

def sdelName : List UInt8 := bytes ['s', 'd', 'e', 'l']

section
variable {db db' : Db} {L L' : Layout} {S S' : Store} {key name : List UInt8} {run : Option (Int × Db)}
variable {args keys : List (List UInt8)} {s : Server} {r : Request} {atof : List UInt8 → Option ℚ}

theorem search_absent (holds : Holds db L S) (plain : key.head? ≠ some Db.spatialPointHead2)
    (absent : S key = none) : db.trie.exactMatchSearch key = some noValue := by
  have search := holds.stores.search key
  rwa [(holds.none_iff plain).mpr absent] at search

theorem erase_absent (holds : Holds db L S) (plain : key.head? ≠ some Db.spatialPointHead2)
    (absent : S key = none) : db.trieErase key = some (-1, db) := by
  have stored := holds.stores.models.stored key
  rw [(holds.none_iff plain).mpr absent] at stored
  exact Db.trieErase_run (Trie.erase_missing holds.stores.good stored)

theorem careful_done (ran : run = some (0, db')) (holds : Holds db' L' S') : Careful db run :=
  ⟨0, db', ran, ⟨L', S', holds⟩, fun bad => absurd rfl bad⟩

theorem careful_query {ret : Int} (holds : Holds db L S) (ran : run = some (ret, db)) : Careful db run :=
  ⟨ret, db, ran, ⟨L, S, holds⟩, fun _ => rfl⟩

theorem careful_lookup {α : Type} {found : Option (Option α)} {a : Option α} (holds : Holds db L S)
    (ran : found = some a) : Careful db (lookup db found) := by
  rw [ran]
  exact careful_query holds rfl

theorem careful_removal (holds : Holds db L S) (ran : run = some (if (S key).isSome then 0 else -1, db'))
    (holds' : Holds db' L' S') (absent : S key = none → run = some (-1, db)) : Careful db run := by
  cases stored : S key with
  | none => exact careful_query holds (absent stored)
  | some cell =>
    rw [stored] at ran
    exact careful_done ran holds'

theorem storeValue_careful {head type : UInt8} (holds : Holds db L S) (headed : ValueHeaded head type)
    (rest value : List UInt8) : Careful db (db.storeValue type (head :: rest) value) := by
  obtain ⟨db', L', ran, holds', _⟩ := storeValue_spec holds headed rest value
  exact careful_done ran holds'

theorem dropValue_careful {head type : UInt8} (holds : Holds db L S) (headed : ValueHeaded head type)
    (rest : List UInt8) : Careful db (db.dropValue (head :: rest)) := by
  obtain ⟨db', L', ran, holds', _⟩ := dropValue_spec holds headed rest
  refine careful_removal holds ran holds' fun absent => ?_
  exact bind_run (erase_absent holds (headed.plain rest).2 absent) rfl

theorem listPop_careful {which : ListNode → Int} (holds : Holds db L S)
    (spec : ∃ db' L', db.listPop which
    name = some (if (S (Db.encodeListHead name)).isSome then 0 else -1, db') ∧
      ∃ S', Holds db' L' S') :
    Careful db ((db.listPop which name).map fun (ret, db) => (if ret < 0 then -1 else 0, db)) := by
  obtain ⟨db', L', ran, S', holds'⟩ := spec
  have plain : (Db.encodeListHead name).head? ≠ some Db.spatialPointHead2 := by
    simp [Db.encodeListHead, Db.listHead, Db.spatialPointHead2]
  refine @careful_removal db db' L L' S _ (Db.encodeListHead name) _ holds ?_ holds' fun absent => ?_
  · rw [ran]
    cases S (Db.encodeListHead name) <;> rfl
  · have missing : db.listPop which name = some (-1, db) :=
      bind_run (search_absent holds plain absent) rfl
    rw [missing]
    rfl

theorem spDel_careful (holds : Holds db L S) (id : List UInt8) : Careful db (db.spDel id) := by
  obtain ⟨db', L', ran, holds', _⟩ := spDel_spec holds id
  refine careful_removal holds ran holds' fun absent => ?_
  have plain : (Db.encodeIdHead id).head? ≠ some Db.spatialPointHead2 := by
    simp [Db.encodeIdHead, Db.spatialPointHead1, Db.spatialPointHead2]
  exact bind_run (erase_absent holds plain absent) rfl

theorem spSet_careful (holds : Holds db L S) (atof : List UInt8 → Option ℚ) (id lat lon : List UInt8) :
    Careful db (db.spSet atof id lat lon) := by
  obtain ⟨db', L', ran, holds', _⟩ := spSet_spec holds atof id lat lon
  cases read : Db.coordinates atof lat lon with
  | none =>
    refine @careful_query db L S _ (-1) holds ?_
    rw [Db.spSet, read]
  | some point =>
    rw [read] at ran
    exact careful_done ran holds'

theorem setAdd_all (name : List UInt8) (holds : Holds db L S) (keys : List (List UInt8)) :
    ∃ db' L' S', eachKey (fun db key => db.setAdd name key) db keys = some (0, db') ∧
    Holds db' L' S' := by
  induction keys generalizing db L S with
  | nil => exact ⟨db, L, S, rfl, holds⟩
  | cons key rest ih =>
    obtain ⟨db1, L1, run1, holds1, _⟩ := setAdd_spec holds name key
    obtain ⟨db2, L2, S2, run2, holds2⟩ := ih holds1
    exact ⟨db2, L2, S2, bind_run run1 run2, holds2⟩

theorem setDel_all (name : List UInt8) (holds : Holds db L S) (keys : List (List UInt8)) :
    ∃ ret db' L' S', eachKey (fun db key => db.setDel name key) db keys = some (ret, db') ∧
    Holds db' L' S' ∧
      ∀ key, S key = none → S' key = none := by
  induction keys generalizing db L S with
  | nil => exact ⟨0, db, L, S, rfl, holds, fun _ absent => absent⟩
  | cons key rest ih =>
    obtain ⟨db1, L1, run1, holds1, _⟩ := setDel_spec holds name key
    have fewer : ∀ k, S k = none → Function.update S (Db.encodeSetHead name key) none k = none := by
      intro k absent
      by_cases same : k = Db.encodeSetHead name key
      · rw [same, Function.update_self]
      · rwa [Function.update_of_ne same]
    cases stored : S (Db.encodeSetHead name key) with
    | none =>
      rw [stored] at run1
      exact ⟨-1, db1, L1, _, bind_run run1 rfl, holds1, fewer⟩
    | some cell =>
      rw [stored] at run1
      obtain ⟨ret, db2, L2, S2, run2, holds2, fewer2⟩ := ih holds1
      exact ⟨ret, db2, L2, S2, bind_run run1 run2, holds2, fun k absent => fewer2 k (fewer k absent)⟩

/-- The loop of sdel is undone by nothing: after a failure the slot is the old one exactly
    when the first key was missing. -/
theorem setDel_keys (name : List UInt8) (holds : Holds db L S) (key : List UInt8)
    (rest : List (List UInt8)) :
    ∃ ret db', eachKey (fun db key => db.setDel name key) db (key :: rest) = some (ret, db') ∧
    Standing db' ∧
      (ret ≠ 0 → (db' = db ↔ db.setIsmember name key ≠ some 1)) := by
  have member := setIsmember_spec holds name key
  cases stored : S (Db.encodeSetHead name key) with
  | none =>
    rw [stored] at member
    have plain : (Db.encodeSetHead name key).head? ≠ some Db.spatialPointHead2 := by
      simp [encodeSetHead_eq, Db.setHead, Db.spatialPointHead2]
    have first : db.setDel name key = some (-1, db) := bind_run (erase_absent holds plain stored) rfl
    refine ⟨-1, db, bind_run first rfl, ⟨L, S, holds⟩, fun _ => iff_of_true rfl ?_⟩
    rw [member]
    decide
  | some cell =>
    obtain ⟨db1, L1, run1, holds1, _⟩ := setDel_spec holds name key
    rw [stored] at run1 member
    obtain ⟨ret, db2, L2, S2, run2, holds2, fewer⟩ := setDel_all name holds1 rest
    refine ⟨ret, db2, bind_run run1 run2, ⟨L2, S2, holds2⟩, fun _ =>
      iff_of_false ?_ (fun other => other member)⟩
    rintro rfl
    have gone := fewer (Db.encodeSetHead name key) (Function.update_self _ _ _)
    have missing := setIsmember_spec holds2 name key
    rw [gone, member] at missing
    cases missing

theorem standing_slot {i : Fin maxSlot} (standing : ∀ i, Standing (s.slots i))
    (changed : Standing db') (j : Fin maxSlot) : Standing (Function.update s.slots i db' j) := by
  by_cases here : j = i
  · subst here
    simpa using changed
  · simpa [here] using standing j

theorem onSlot_careful (conn : Nat) (standing : ∀ i, Standing (s.slots i))
    (careful : Careful (s.slot conn) run) : s.Careful (s.onSlot conn run) := by
  obtain ⟨ret, db', rfl, holds, failed⟩ := careful
  refine ⟨ret, _, rfl, standing_slot standing holds, fun bad => ?_⟩
  rw [failed bad]
  exact Function.update_eq_self _ _

theorem one_arg (enough : 1 ≤ args.length) : ∃ a rest, args = a :: rest := by
  rcases args with _ | ⟨a, rest⟩
  · cases enough
  · exact ⟨a, rest, rfl⟩

theorem two_args (enough : 2 ≤ args.length) : ∃ a b rest, args = a :: b :: rest := by
  obtain ⟨a, rest, rfl⟩ := one_arg (by omega : 1 ≤ args.length)
  obtain ⟨b, rest, rfl⟩ := one_arg (show 1 ≤ rest.length by simpa using enough)
  exact ⟨a, b, rest, rfl⟩

theorem three_args (enough : 3 ≤ args.length) : ∃ a b c rest, args = a :: b :: c :: rest := by
  obtain ⟨a, b, rest, rfl⟩ := two_args (by omega : 2 ≤ args.length)
  obtain ⟨c, rest, rfl⟩ := one_arg (show 1 ≤ rest.length by simpa using enough)
  exact ⟨a, b, c, rest, rfl⟩

theorem four_args (enough : 4 ≤ args.length) : ∃ a b c d rest, args = a :: b :: c :: d :: rest := by
  obtain ⟨a, b, c, rest, rfl⟩ := three_args (by omega : 3 ≤ args.length)
  obtain ⟨d, rest, rfl⟩ := one_arg (show 1 ≤ rest.length by simpa using enough)
  exact ⟨a, b, c, d, rest, rfl⟩

theorem guarded (holds : Holds db L S) (careful : Careful db run) :
    Careful db (if 255 < name.length then some (-1, db) else run) := by
  by_cases long : 255 < name.length
  · rw [if_pos long]
    exact careful_query holds rfl
  · rwa [if_neg long]

theorem values_careful (args : List (List UInt8)) (holds : Holds db L S) :
    (2 ≤ args.length → Careful db (kvSetHandler db args)) ∧
    (1 ≤ args.length → Careful db (kvGetHandler db args)) ∧
    (1 ≤ args.length → Careful db (kvDelHandler db args)) ∧
    (1 ≤ args.length → Careful db (kvMatchlongestHandler db args)) ∧
    (3 ≤ args.length → Careful db (hashSetHandler db args)) ∧
    (2 ≤ args.length → Careful db (hashGetHandler db args)) ∧
    (2 ≤ args.length → Careful db (hashDelHandler db args)) := by
  have kv : ValueHeaded Db.kvHead typeKv := Or.inl ⟨rfl, rfl⟩
  have hash : ValueHeaded Db.hashHead typeHash := Or.inr ⟨rfl, rfl⟩
  refine ⟨fun enough => ?_, fun enough => ?_, fun enough => ?_, fun enough => ?_, fun enough => ?_,
    fun enough => ?_, fun enough => ?_⟩
  · obtain ⟨key, value, _, rfl⟩ := two_args enough
    exact storeValue_careful holds kv key value
  · obtain ⟨key, _, rfl⟩ := one_arg enough
    exact careful_lookup holds (fetchValue_spec holds kv key)
  · obtain ⟨key, _, rfl⟩ := one_arg enough
    exact dropValue_careful holds kv key
  · obtain ⟨key, _, rfl⟩ := one_arg enough
    exact careful_lookup holds (kvMatchLongest_spec holds key)
  · obtain ⟨name, key, value, _, rfl⟩ := three_args enough
    refine guarded holds ?_
    rw [Db.hashSet, encodeHashHead_eq]
    exact storeValue_careful holds hash _ value
  · obtain ⟨name, key, _, rfl⟩ := two_args enough
    refine guarded holds ?_
    rw [Db.hashGet, encodeHashHead_eq]
    exact careful_lookup holds (fetchValue_spec holds hash _)
  · obtain ⟨name, key, _, rfl⟩ := two_args enough
    refine guarded holds ?_
    rw [Db.hashDel, encodeHashHead_eq]
    exact dropValue_careful holds hash _

theorem lists_careful (args : List (List UInt8)) (holds : Holds db L S) :
    (2 ≤ args.length → Careful db (listLpushHandler db args)) ∧
    (2 ≤ args.length → Careful db (listRpushHandler db args)) ∧
    (1 ≤ args.length → Careful db (listLpopHandler db args)) ∧
    (1 ≤ args.length → Careful db (listRpopHandler db args)) ∧
    (1 ≤ args.length → Careful db (listLtopHandler db args)) ∧
    (1 ≤ args.length → Careful db (listRtopHandler db args)) := by
  refine ⟨fun enough => ?_, fun enough => ?_, fun enough => ?_, fun enough =>
    ?_, fun enough => ?_, fun enough => ?_⟩
  · obtain ⟨name, value, _, rfl⟩ := two_args enough
    obtain ⟨db', L', ran, holds', _⟩ := listLpush_spec holds name value
    exact careful_done ran holds'
  · obtain ⟨name, value, _, rfl⟩ := two_args enough
    obtain ⟨db', L', ran, holds', _⟩ := listRpush_spec holds name value
    exact careful_done ran holds'
  · obtain ⟨name, _, rfl⟩ := one_arg enough
    obtain ⟨db', L', ran, holds', _⟩ := listLpop_spec holds name
    exact listPop_careful holds ⟨db', L', ran, _, holds'⟩
  · obtain ⟨name, _, rfl⟩ := one_arg enough
    obtain ⟨db', L', ran, holds', _⟩ := listRpop_spec holds name
    exact listPop_careful holds ⟨db', L', ran, _, holds'⟩
  · obtain ⟨name, _, rfl⟩ := one_arg enough
    exact careful_lookup holds (listLtop_spec holds name)
  · obtain ⟨name, _, rfl⟩ := one_arg enough
    exact careful_lookup holds (listRtop_spec holds name)

theorem sets_careful (args : List (List UInt8)) (holds : Holds db L S) :
    (2 ≤ args.length → Careful db (setAddHandler db args)) ∧
    (1 ≤ args.length → Careful db (setMembersHandler db args)) ∧
    (2 ≤ args.length → Careful db (setIsmemberHandler db args)) := by
  refine ⟨fun enough => ?_, fun enough => ?_, fun enough => ?_⟩
  · obtain ⟨name, key, rest, rfl⟩ := two_args enough
    refine guarded holds ?_
    obtain ⟨db', L', S', ran, holds'⟩ := setAdd_all name holds (key :: rest)
    exact careful_done ran holds'
  · obtain ⟨name, _, rfl⟩ := one_arg enough
    obtain ⟨items, ran, _⟩ := setMembers_spec holds name
    refine @careful_query db L S _ 0 holds ?_
    rw [setMembersHandler, ran]
    rfl
  · obtain ⟨name, key, _, rfl⟩ := two_args enough
    refine @careful_query db L S _ 0 holds ?_
    rw [setIsmemberHandler, setIsmember_spec holds name key]
    rfl

theorem points_careful (args : List (List UInt8)) (holds : Holds db L S) (atof : List UInt8 → Option ℚ) :
    (3 ≤ args.length → Careful db (spSetHandler atof db args)) ∧
    (1 ≤ args.length → Careful db (spGetHandler db args)) ∧
    (1 ≤ args.length → Careful db (spDelHandler db args)) ∧
    (4 ≤ args.length → Careful db (spRectHandler atof db args)) := by
  refine ⟨fun enough => ?_, fun enough => ?_, fun enough => ?_, fun enough => ?_⟩
  · obtain ⟨key, lat, lon, _, rfl⟩ := three_args enough
    exact spSet_careful holds atof key lat lon
  · obtain ⟨key, _, rfl⟩ := one_arg enough
    obtain ⟨r, ran, _⟩ := spGet_spec holds key
    exact careful_lookup holds ran
  · obtain ⟨key, _, rfl⟩ := one_arg enough
    exact spDel_careful holds key
  · obtain ⟨lat1, lat2, lon1, lon2, _, rfl⟩ := four_args enough
    suffices found : ∃ a, db.spRect atof lat1 lat2 lon1 lon2 = some a by
      obtain ⟨a, ran⟩ := found
      exact careful_lookup holds ran
    rw [Db.spRect]
    cases Db.coordinates atof lat1 lon1 with
    | none => exact ⟨none, rfl⟩
    | some a =>
      cases Db.coordinates atof lat2 lon2 with
      | none => exact ⟨none, rfl⟩
      | some b =>
        obtain ⟨ids, ran, _⟩ := spRectAt_spec holds a.1 b.1 a.2 b.2
        exact ⟨some ids, by dsimp only; rw [ran]; rfl⟩

theorem quiet {s' : Server} {ret : Int} (standing : ∀ i, Standing (s.slots i))
    (same : s'.slots = s.slots) : s.Careful (some (ret, s')) :=
  ⟨ret, s', rfl, fun i => by rw [same]; exact standing i, fun _ => same⟩

theorem handle_careful (atof : List UInt8 → Option ℚ) (standing : ∀ i, Standing (s.slots i))
    {h : Handler} (other : h ≠ .setDel)
    (enough : h.need ≤ r.args.length) : s.Careful (s.handle atof r h) := by
  obtain ⟨L, S, holds⟩ := standing (s.slotOf r.conn)
  obtain ⟨kvSet, kvGet, kvDel, kvMatchlongest, hashSet, hashGet, hashDel⟩ := values_careful r.args holds
  obtain ⟨lpush, rpush, lpop, rpop, ltop, rtop⟩ := lists_careful r.args holds
  obtain ⟨add, members, ismember⟩ := sets_careful r.args holds
  obtain ⟨spSet, spGet, spDel, spRect⟩ := points_careful r.args holds atof
  cases h with
  | kvSet => exact onSlot_careful r.conn standing (kvSet enough)
  | kvGet => exact onSlot_careful r.conn standing (kvGet enough)
  | kvDel => exact onSlot_careful r.conn standing (kvDel enough)
  | kvMatchlongest => exact onSlot_careful r.conn standing (kvMatchlongest enough)
  | hashSet => exact onSlot_careful r.conn standing (hashSet enough)
  | hashGet => exact onSlot_careful r.conn standing (hashGet enough)
  | hashDel => exact onSlot_careful r.conn standing (hashDel enough)
  | listLpush => exact onSlot_careful r.conn standing (lpush enough)
  | listRpush => exact onSlot_careful r.conn standing (rpush enough)
  | listLpop => exact onSlot_careful r.conn standing (lpop enough)
  | listRpop => exact onSlot_careful r.conn standing (rpop enough)
  | listLtop => exact onSlot_careful r.conn standing (ltop enough)
  | listRtop => exact onSlot_careful r.conn standing (rtop enough)
  | setAdd => exact onSlot_careful r.conn standing (add enough)
  | setDel => exact absurd rfl other
  | setMembers => exact onSlot_careful r.conn standing (members enough)
  | setIsmember => exact onSlot_careful r.conn standing (ismember enough)
  | spSet => exact onSlot_careful r.conn standing (spSet enough)
  | spGet => exact onSlot_careful r.conn standing (spGet enough)
  | spDel => exact onSlot_careful r.conn standing (spDel enough)
  | spRect => exact onSlot_careful r.conn standing (spRect enough)
  | sysPerf =>
    obtain ⟨str, rest, args⟩ := one_arg (show 1 ≤ r.args.length from enough)
    rw [Server.handle, args, Server.perfHandler, find_command str]
    exact quiet standing rfl
  | sysUse =>
    obtain ⟨str, rest, args⟩ := one_arg (show 1 ≤ r.args.length from enough)
    rw [Server.handle, args, Server.useHandler]
    cases EtdbString.atoi str with
    | none => exact quiet standing rfl
    | some slot =>
      rw [Option.elim_some]
      split
      · exact quiet standing rfl
      · exact quiet standing rfl
  | sysBgsave =>
    refine @quiet s (s.bgsaveHandler r.fork).2 (s.bgsaveHandler r.fork).1 standing ?_
    unfold Server.bgsaveHandler
    split <;> rfl
  | sysWhere | sysSync | spKnn | geoHashInfo | sysInfo | sysHelp | sysPing => exact quiet standing rfl

theorem handle_setDel (atof : List UInt8 → Option ℚ) (standing : ∀ i, Standing (s.slots i))
    (enough : 2 ≤ r.args.length) :
    ∃ ret s', s.handle atof r .setDel = some (ret, s') ∧ (∀ i, Standing (s'.slots i)) ∧
      (ret ≠ 0 → (s'.slots = s.slots ↔ ¬ s.FirstStored r)) := by
  obtain ⟨L, S, holds⟩ := standing (s.slotOf r.conn)
  obtain ⟨name, key, rest, args⟩ := two_args enough
  rw [Server.FirstStored, Server.handle, args, setDelHandler]
  by_cases long : 255 < name.length
  · rw [if_pos long]
    obtain ⟨ret, s', ran, standing', failed⟩ :=
      onSlot_careful r.conn standing (@careful_query _ L S _ (-1) holds rfl)
    refine ⟨ret, s', ran, standing', fun bad => iff_of_true (failed bad) fun stored => ?_⟩
    have := stored.1
    omega
  · rw [if_neg long]
    obtain ⟨ret, db', ran, standing', failed⟩ := setDel_keys name holds key rest
    refine ⟨ret, _, (congrArg (s.onSlot r.conn) ran).trans rfl, standing_slot standing standing',
      fun bad => ?_⟩
    have same : Function.update s.slots (s.slotOf r.conn) db' = s.slots ↔ db' = s.slot r.conn :=
      Function.update_eq_self_iff
    rw [same, Server.slot, failed bad]
    simp only [not_and]
    exact ⟨fun missing _ => missing, fun missing => missing (by omega)⟩

theorem enough_args {cmd : Command} (listed : cmd ∈ modules.flatten) {count : Nat}
    (parsed : parseArgs cmd.flags count = true) : cmd.handler.need ≤ count := by
  have few : ∀ cmd ∈ modules.flatten, ∀ count < 5, parseArgs cmd.flags count = true →
    cmd.handler.need ≤ count := by
    decide +kernel
  have many : ∀ cmd ∈ modules.flatten, hasFlag cmd.flags flagArg5more = false := by decide +kernel
  by_cases small : count < 5
  · exact few cmd listed count small parsed
  · obtain ⟨more, rfl⟩ : ∃ more, count = more + 5 := ⟨count - 5, by omega⟩
    have refused : parseArgs cmd.flags (more + 5) = false := many cmd listed
    rw [refused] at parsed
    cases parsed

theorem only_sdel {cmd : Command} (listed : cmd ∈ modules.flatten) : cmd.handler = .setDel ↔
    cmd.name = sdelName := by
  have all : ∀ cmd ∈ modules.flatten, (cmd.handler = .setDel ↔ cmd.name = sdelName) := by decide +kernel
  exact all cmd listed

/-- One request: it is served, and a handler that fails has changed something exactly when
    it is that of an sdel which got past its first key. -/
theorem execProc_spec (standing : ∀ i, Standing (s.slots i)) (atof : List UInt8 → Option ℚ)
    (r : Request) :
    ∃ answer s', s.execProc atof r = some (answer, s') ∧ (∀ i, Standing (s'.slots i)) ∧
      ∀ ret, answer = some ret → ret ≠ 0 →
        (s'.slots = s.slots ↔ ¬ (r.cmd.map EtdbWire.Buf.lower = sdelName ∧ s.FirstStored r)) := by
  have found := find_command (r.cmd.map EtdbWire.Buf.lower)
  cases place : modules.flatten.find? fun cmd => cmd.name = r.cmd.map EtdbWire.Buf.lower with
  | none =>
    rw [place] at found
    exact ⟨none, s, bind_run found rfl, standing, fun _ none => by cases none⟩
  | some cmd =>
    rw [place] at found
    have listed := List.mem_of_find?_eq_some place
    have name : cmd.name = r.cmd.map EtdbWire.Buf.lower := by simpa using List.find?_some place
    by_cases parsed : parseArgs cmd.flags r.args.length = true
    · have enough := enough_args listed parsed
      by_cases del : cmd.handler = .setDel
      · rw [del] at enough
        obtain ⟨ret, s', ran, standing', failed⟩ := handle_setDel atof standing enough
        refine ⟨some ret, s', bind_run found ((if_pos parsed).trans ?_), standing', ?_⟩
        · rw [del]
          exact bind_run ran rfl
        · rintro _ ⟨⟩ bad
          rw [failed bad, ← name, (only_sdel listed).mp del]
          simp only [true_and]
      · obtain ⟨ret, s', ran, standing', failed⟩ := handle_careful atof standing del enough
        refine ⟨some ret, s', bind_run found ((if_pos parsed).trans (bind_run ran rfl)), standing', ?_⟩
        rintro _ ⟨⟩ bad
        refine iff_of_true (failed bad) ?_
        rintro ⟨sdel, _⟩
        exact del ((only_sdel listed).mpr (name.trans sdel))
    · exact ⟨none, s, bind_run found (if_neg parsed), standing, fun _ none => by cases none⟩

theorem init_standing : ∃ s, Server.init = some s ∧ ∀ i, Standing (s.slots i) := by
  obtain ⟨db, L, start, holds⟩ := init_holds
  refine ⟨⟨fun _ => db, fun _ => ⟨0, by decide⟩, 0⟩, ?_, fun _ => ⟨L, _, holds⟩⟩
  rw [Server.init, start]
  rfl

theorem run_standing (standing : ∀ i, Standing (s.slots i)) (atof : List UInt8 → Option ℚ)
    (events : List Event) : ∃ s', s.run atof events = some s' ∧ ∀ i, Standing (s'.slots i) := by
  induction events generalizing s with
  | nil => exact ⟨s, rfl, standing⟩
  | cons e rest ih =>
    cases e with
    | request r =>
      obtain ⟨answer, s1, ran, standing1, _⟩ := execProc_spec standing atof r
      obtain ⟨s2, run2, standing2⟩ := ih standing1
      refine ⟨s2, bind_run ?_ run2, standing2⟩
      rw [Server.step, ran]
      rfl
    | childEnded =>
      obtain ⟨s2, run2, standing2⟩ := ih (s := { s with bgsavePid := 0 }) standing
      exact ⟨s2, bind_run rfl run2, standing2⟩

end

/-- In every state that requests lead to, a request whose handler fails leaves all slots
    exactly as they were, unless it is an sdel whose first key was there to be erased. -/
theorem failed_request_keeps (atof : List UInt8 → Option ℚ) (events : List Event) (r : Request) :
    ∃ s, (Server.init >>= fun s => s.run atof events) = some s ∧ ∃ answer s',
    s.execProc atof r = some (answer, s') ∧
      ∀ ret, answer = some ret → ret ≠ 0 →
        (s'.slots = s.slots ↔ ¬ (r.cmd.map EtdbWire.Buf.lower = sdelName ∧ s.FirstStored r)) := by
  obtain ⟨s0, start, standing0⟩ := init_standing
  obtain ⟨s, ran, standing⟩ := run_standing standing0 atof events
  obtain ⟨answer, s', served, _, kept⟩ := execProc_spec standing atof r
  exact ⟨s, bind_run start ran, answer, s', served, kept⟩

def addOne : Request := ⟨0, bytes ['s', 'a', 'd', 'd'], [[115], [97]], 0, 0⟩

def eraseTwo : Request := ⟨0, sdelName, [[115], [97], [98]], 0, 0⟩

theorem failed_sdel_erases : ¬ ∀ (atof : List UInt8 → Option ℚ) (events : List Event) (r : Request) (s s' : Server)
    (ret : Int), (Server.init >>= fun s => s.run atof events) = some s →
    s.execProc atof r = some (some ret, s') →
      ret ≠ 0 → s'.slots = s.slots := by
  intro keeps
  obtain ⟨db0, L0, start, holds0⟩ := init_holds
  obtain ⟨db1, L1, added, holds1, _⟩ := setAdd_spec holds0 [115] [97]
  obtain ⟨db2, L2, erased, holds2, _⟩ := setDel_spec holds1 [115] [97]
  obtain ⟨db3, L3, refused, holds3, _⟩ := setDel_spec holds2 [115] [98]
  let s0 : Server := ⟨fun _ => db0, fun _ => ⟨0, by decide⟩, 0⟩
  let s1 : Server := { s0 with slots := Function.update s0.slots ⟨0, by decide⟩ db1 }
  have other : Db.encodeSetHead [115] [98] ≠ Db.encodeSetHead [115] [97] := by decide
  rw [Function.update_self] at erased
  rw [Function.update_of_ne other, Function.update_of_ne other] at refused
  have here : s1.slot 0 = db1 := by simp [s1, s0, Server.slot]
  have init : Server.init = some s0 := by
    rw [Server.init, start]
    rfl
  have atofs : List UInt8 → Option ℚ := fun _ => none
  have first : s0.step atofs (.request addOne) = some s1 := by
    have found : findCommand (addOne.cmd.map EtdbWire.Buf.lower) =
      some (some ⟨bytes ['s', 'a', 'd', 'd'], flagArg2more, .setAdd⟩) := find_command _
    have served : s0.execProc atofs addOne = some (some 0, s1) := by
      refine bind_run found ((if_pos (by decide)).trans ?_)
      refine bind_run (a := (0, s1)) ?_ rfl
      exact congrArg (s0.onSlot 0) (bind_run added rfl)
    rw [Server.step, served]
    rfl
  have found : findCommand (eraseTwo.cmd.map EtdbWire.Buf.lower) =
    some (some ⟨sdelName, flagArg2more, .setDel⟩) := find_command _
  have failed : s1.execProc atofs eraseTwo =
      some (some (-1), { s1 with slots := Function.update s1.slots ⟨0, by decide⟩ db3 }) := by
    refine bind_run found ((if_pos (by decide)).trans ?_)
    refine bind_run (a := (-1, { s1 with slots := Function.update s1.slots ⟨0, by decide⟩ db3 })) ?_ rfl
    have ran : setDelHandler (s1.slot 0) eraseTwo.args = some (-1, db3) := by
      rw [here]
      exact bind_run erased (bind_run refused rfl)
    exact congrArg (s1.onSlot 0) ran
  have same := keeps atofs [.request addOne] eraseTwo s1 _ (-1) (bind_run init (bind_run first rfl))
    failed (by decide)
  have equal : db3 = db1 := (Function.update_eq_self_iff.mp same).trans here
  have before := setIsmember_spec holds1 [115] [97]
  have after := setIsmember_spec holds3 [115] [97]
  rw [Function.update_self] at before
  rw [equal, Function.update_of_ne other.symm, Function.update_self, before] at after
  cases after

end EtdbServer
