import Etdb.Server.Replies

/- What the server is for: sixteen stores, one of them in use by each connection, and an
   answer for every request. The server of the handlers answers as these stores do,
   whatever was asked before. -/
namespace EtdbServer
open EtdbTrie EtdbDatabase DecimalText

inductive Meaning where
  | op (op : Op)
  | addAll (name : List UInt8) (keys : List (List UInt8))
  | delAll (name : List UInt8) (keys : List (List UInt8))
  /-- a name that is too long -/
  | refused
  /-- nothing, or too few arguments -/
  | other

def Handler.meaning : Handler → List (List UInt8) → Meaning
  | .kvSet, key :: value :: _ => .op (.kvSet key value)
  | .kvGet, key :: _ => .op (.kvGet key)
  | .kvDel, key :: _ => .op (.kvDel key)
  | .kvMatchlongest, key :: _ => .op (.kvMatchLongest key)
  | .hashSet, name :: key :: value :: _ => if 255 < name.length then .refused else .op
      (.hashSet name key value)
  | .hashGet, name :: key :: _ => if 255 < name.length then .refused else .op (.hashGet name key)
  | .hashDel, name :: key :: _ => if 255 < name.length then .refused else .op (.hashDel name key)
  | .listLpush, name :: value :: _ => .op (.listLpush name value)
  | .listRpush, name :: value :: _ => .op (.listRpush name value)
  | .listLpop, name :: _ => .op (.listLpop name)
  | .listRpop, name :: _ => .op (.listRpop name)
  | .listLtop, name :: _ => .op (.listLtop name)
  | .listRtop, name :: _ => .op (.listRtop name)
  | .setAdd, name :: key :: rest => if 255 < name.length then .refused else .addAll name (key :: rest)
  | .setDel, name :: key :: rest => if 255 < name.length then .refused else .delAll name (key :: rest)
  | .setMembers, name :: _ => .op (.setMembers name)
  | .setIsmember, name :: key :: _ => .op (.setIsmember name key)
  | .spSet, key :: lat :: lon :: _ => .op (.spSet key lat lon)
  | .spGet, key :: _ => .op (.spGet key)
  | .spDel, key :: _ => .op (.spDel key)
  | .spRect, lat1 :: lat2 :: lon1 :: lon2 :: _ => .op (.spRect lat1 lat2 lon1 lon2)
  | _, _ => .other

def answer : Op → Reply → Int × List (List UInt8)
  | .setIsmember _ _, .status contain => (0, [memberText contain])
  | _, .status code => (code, [])
  | _, .value value => (0, [value])
  | _, .longest matchLen value => (0, longestText (some (matchLen, value)))
  | _, .members items => (0, items)
  | _, .point lat lon code => (0, [pointText lat lon code])

def eraseAll (name : List UInt8) (S : Store) : List (List UInt8) → Int × Store
  | [] => (0, S)
  | key :: rest =>
    if (S (Db.encodeSetHead name key)).isSome then
      eraseAll name (Function.update S (Db.encodeSetHead name key) none) rest
    else (-1, S)

/-- How a store does what it is asked for: the status, the strings, the store afterwards. -/
def Does (atof : List UInt8 → Option ℚ) (S : Store) : Meaning → Int → List (List UInt8) → Store → Prop
  | .op op, ret, strs, S' => ∃ reply, S.Answers atof op reply ∧ (ret, strs) = answer op reply ∧
      S' = S.apply atof op
  | .addAll name keys, ret, strs, S' => ret = 0 ∧ strs = [] ∧ S' = S.after atof (keys.map (.setAdd name))
  | .delAll name keys, ret, strs, S' => strs = [] ∧ (ret, S') = eraseAll name S keys
  | .refused, ret, strs, S' => ret = -1 ∧ strs = [] ∧ S' = S
  | .other, _, _, _ => False

structure Stores where
  stores : Fin maxSlot → Store
  slotOf : Nat → Fin maxSlot

theorem maxSlot_pos : 0 < maxSlot := by decide

namespace Stores

def empty : Stores := ⟨fun _ => Store.empty, fun _ => ⟨0, maxSlot_pos⟩⟩

/-- The number of a slot is read as the source reads it, and counts from 1. -/
def Names (str : List UInt8) (slot : Fin maxSlot) : Prop :=
    EtdbString.atoi str = some (slot.val + 1 : Int)

def Handles (atof : List UInt8 → Option ℚ) (A : Stores) (r : Request) :
    Handler → Int → List (List UInt8) → Stores → Prop
  | .sysUse, ret, strs, A' => strs = [] ∧ ∃ str rest, r.args = str :: rest ∧
      ((∃ slot, Names str slot ∧ ret = 0 ∧
          A' = { A with slotOf := Function.update A.slotOf r.conn slot }) ∨
        (¬ ∃ slot, Names str slot) ∧ ret = -1 ∧ A' = A)
  | .sysWhere, ret, strs, A' => ret = r.left ∧ strs = [printInt ((A.slotOf r.conn).val + 1)] ∧ A' = A
  | .sysHelp, ret, strs, A' => ret = 0 ∧ strs = [helpMsg] ∧ A' = A
  | .sysPing, ret, strs, A' => ret = 0 ∧ strs = [] ∧ A' = A
  | .sysSync, ret, strs, A' => ret = -1 ∧ strs = [] ∧ A' = A
  | .spKnn, ret, strs, A' => ret = 0 ∧ strs = [bytes ['k', 'n', 'n']] ∧ A' = A
  | .geoHashInfo, ret, strs, A' => ret = 0 ∧ strs = [geoHashInfoText] ∧ A' = A
  -- the figures of the last three are not those of the stores
  | .sysBgsave, ret, strs, A' => (ret = 0 ∨ ret = -1) ∧ strs = [] ∧ A' = A
  | .sysInfo, ret, strs, A' => ret = 0 ∧ (∃ mem keys, strs = [bytes "version: ".toList ++ version ++
      bytes "\nmem: ".toList ++ printInt mem ++ bytes "\nkeys: ".toList ++ printInt keys]) ∧ A' = A
  | .sysPerf, ret, strs, A' => (∃ str rest, r.args = str :: rest ∧
      match modules.flatten.find? fun cmd => cmd.name = str with
      | none => ret = -1 ∧ strs = []
      | some cmd => ret = 0 ∧ ∃ counters, strs = [perfText cmd.name counters]) ∧ A' = A
  | h, ret, strs, A' => ∃ S', Does atof (A.stores (A.slotOf r.conn)) (h.meaning r.args) ret strs S' ∧
      A' = { A with stores := Function.update A.stores (A.slotOf r.conn) S' }

/-- A command that is not known or takes another number of arguments is sent back. -/
def Serves (atof : List UInt8 → Option ℚ) (A : Stores) (r : Request) (strs : List (List UInt8))
    (A' : Stores) : Prop :=
  match modules.flatten.find? fun cmd => cmd.name = r.cmd.map EtdbWire.Buf.lower with
  | none => strs = [Server.unknown r] ∧ A' = A
  | some cmd =>
    if parseArgs cmd.flags r.args.length then
      ∃ ret out, strs = Server.statusText ret :: out ∧ A.Handles atof r cmd.handler ret out A'
    else strs = [Server.unknown r] ∧ A' = A

end Stores

/-- An event, and the counters of the commands at its time. -/
structure Call where
  event : Event
  counters : List UInt8 → Counters

def Server.answers (atof : List UInt8 → Option ℚ) (s : Server) :
    List Call → Option (List (List (List UInt8)) × Server)
  | [] => some ([], s)
  | ⟨.request r, counters⟩ :: rest => do
    let (strs, s) ← s.serve atof counters r
    let (replies, s) ← s.answers atof rest
    some (strs :: replies, s)
  | ⟨.childEnded, _⟩ :: rest => { s with bgsavePid := 0 }.answers atof rest

def Stores.Answers (atof : List UInt8 → Option ℚ) (A : Stores) :
    List Call → List (List (List UInt8)) → Stores → Prop
  | [], replies, A' => replies = [] ∧ A' = A
  | ⟨.request r, _⟩ :: rest, replies, A' => ∃ strs more A1, replies = strs :: more ∧
      A.Serves atof r strs A1 ∧ A1.Answers atof rest more A'
  | ⟨.childEnded, _⟩ :: rest, replies, A' => A.Answers atof rest replies A'

structure Server.Stands (s : Server) (A : Stores) : Prop where
  slots : ∀ i, ∃ L, Holds (s.slots i) L (A.stores i)
  slotOf : s.slotOf = A.slotOf

def Server.Follows (atof : List UInt8 → Option ℚ) (counters : List UInt8 → Counters) (s : Server)
    (A : Stores) (r : Request) (h : Handler) : Prop :=
  ∃ ret strs s' A', s.handle atof r h = some (ret, s') ∧ s.resp atof counters r h = some strs ∧
    A.Handles atof r h ret strs A' ∧ s'.Stands A'

def pointStrings : ℚ × ℚ × List UInt8 → List (List UInt8)
  | (lat, lon, code) => [pointText lat lon code]

section
variable {atof : List UInt8 → Option ℚ} {counters : List UInt8 → Counters} {s s' : Server} {A : Stores}
variable {db db' : Db} {L L' : Layout} {S S' : Store} {r : Request} {op : Op} {ret : Int}
variable {strs : List (List UInt8)} {name : List UInt8}

theorem command_does {run : Option (Int × Db)} (atof : List UInt8 → Option ℚ) (op : Op)
    (holds : Holds db L S)
    (step : db.step atof op = Db.command run) (plain : ∀ code, answer op (.status code) = (code, [])) :
    ∃ ret db' L' S', run = some (ret, db') ∧ Holds db' L' S' ∧ Does atof S (.op op) ret [] S' := by
  obtain ⟨reply, db', L', ran, holds', answers, _⟩ := step_spec holds atof op
  rw [step, Db.command, Option.map_eq_some_iff] at ran
  obtain ⟨⟨ret, db''⟩, ran, same⟩ := ran
  cases same
  exact ⟨ret, _, L', _, ran, holds', _, answers, (plain ret).symm, rfl⟩

theorem query_does {α : Type} {run : Option α} {reply : α → Reply} (atof : List UInt8 → Option ℚ)
    (op : Op) (holds : Holds db L S)
    (step : db.step atof op = db.query run reply) (same : S.apply atof op = S) :
    ∃ a, run = some a ∧ ∀ ret strs, (ret, strs) = answer op (reply a) →
    Does atof S (.op op) ret strs S := by
  obtain ⟨_, db', L', ran, _, answers, _⟩ := step_spec holds atof op
  rw [step, Db.query, Option.map_eq_some_iff] at ran
  obtain ⟨a, ran, pair⟩ := ran
  cases pair
  exact ⟨a, ran, fun ret strs equal => ⟨_, answers, equal, same.symm⟩⟩

theorem addAll_does (atof : List UInt8 → Option ℚ) (holds : Holds db L S) (name : List UInt8)
    (keys : List (List UInt8)) :
    ∃ db' L', eachKey (fun db key => db.setAdd name key) db keys = some (0, db') ∧
      Holds db' L' (S.after atof (keys.map (.setAdd name))) := by
  induction keys generalizing db L S with
  | nil => exact ⟨db, L, rfl, holds⟩
  | cons key rest ih =>
    obtain ⟨db1, L1, run1, holds1, _⟩ := setAdd_spec holds name key
    obtain ⟨db2, L2, run2, holds2⟩ := ih holds1
    exact ⟨db2, L2, bind_run run1 run2, holds2⟩

theorem delAll_does (holds : Holds db L S) (name : List UInt8) (keys : List (List UInt8)) :
    ∃ db' L', eachKey (fun db key => db.setDel name key) db keys =
        some ((eraseAll name S keys).1, db') ∧ Holds db' L' (eraseAll name S keys).2 := by
  induction keys generalizing db L S with
  | nil => exact ⟨db, L, rfl, holds⟩
  | cons key rest ih =>
    obtain ⟨db1, L1, run1, holds1, _⟩ := setDel_spec holds name key
    rw [eraseAll]
    by_cases stored : (S (Db.encodeSetHead name key)).isSome = true
    · rw [if_pos stored] at run1 ⊢
      obtain ⟨db2, L2, run2, holds2⟩ := ih holds1
      exact ⟨db2, L2, bind_run run1 run2, holds2⟩
    · have absent : S (Db.encodeSetHead name key) = none := by simpa using stored
      rw [if_neg stored] at run1 ⊢
      rw [← absent, Function.update_eq_self] at holds1
      exact ⟨db1, L1, bind_run run1 rfl, holds1⟩

theorem onSlot_stands {run : Option (Int × Db)} (stands : s.Stands A) (conn : Nat)
    (ran : run = some (ret, db')) (holds : Holds db' L' S') : ∃ s', s.onSlot conn run = some (ret, s') ∧
      s'.Stands { A with stores := Function.update A.stores (A.slotOf conn) S' } := by
  subst ran
  refine ⟨_, rfl, fun i => ?_, stands.slotOf⟩
  dsimp only
  rw [stands.slotOf]
  by_cases here : i = A.slotOf conn
  · subst here
    rw [Function.update_self, Function.update_self]
    exact ⟨L', holds⟩
  · rw [Function.update_of_ne here, Function.update_of_ne here]
    exact stands.slots i

variable {h : Handler}

theorem Server.Stands.here (stands : s.Stands A) (conn : Nat) :
    ∃ L, Holds (s.slot conn) L (A.stores (A.slotOf conn)) := by
  rw [← stands.slotOf]
  exact stands.slots (s.slotOf conn)

theorem slot_follows (run : Option (Int × Db)) (stands : s.Stands A)
    (handled : s.handle atof r h = s.onSlot r.conn run) (ran : run = some (ret, db'))
    (holds : Holds db' L' S') (resp : s.resp atof counters r h = some strs)
    (handles : A.Handles atof r h ret strs
      { A with stores := Function.update A.stores (A.slotOf r.conn) S' }) :
    s.Follows atof counters A r h := by
  obtain ⟨s', ran', stands'⟩ := onSlot_stands stands r.conn ran holds
  exact ⟨ret, strs, s', _, handled.trans ran', resp, handles, stands'⟩

theorem command_follows {run : Option (Int × Db)} (op : Op) (stands : s.Stands A)
    (step : (s.slot r.conn).step atof op = Db.command run)
    (plain : ∀ code, answer op (.status code) = (code, []))
    (handled : s.handle atof r h = s.onSlot r.conn run) (resp : s.resp atof counters r h = some [])
    (handles : ∀ ret S', Does atof (A.stores (A.slotOf r.conn)) (.op op) ret [] S' →
      A.Handles atof r h ret [] { A with stores := Function.update A.stores (A.slotOf r.conn) S' }) :
    s.Follows atof counters A r h := by
  obtain ⟨L, holds⟩ := stands.here r.conn
  obtain ⟨ret, db', L', S', ran, holds', does⟩ := command_does atof op holds step plain
  exact slot_follows _ stands handled ran holds' resp (handles ret S' does)

theorem lookup_follows {α : Type} {run : Option (Option α)} {reply : α → Reply} (op : Op)
    (text : α → List (List UInt8)) (stands : s.Stands A)
    (step : (s.slot r.conn).step atof op = (s.slot r.conn).query run (Db.orFail reply))
    (same : (A.stores (A.slotOf r.conn)).apply atof op = A.stores (A.slotOf r.conn))
    (missing : answer op Db.failed = (-1, [])) (shape : ∀ a, answer op (reply a) = (0, text a))
    (handled : s.handle atof r h = s.onSlot r.conn (lookup (s.slot r.conn) run))
    (resp : ∀ a, run = some a → s.resp atof counters r h = some (a.elim [] text))
    (handles : ∀ ret strs S', Does atof (A.stores (A.slotOf r.conn)) (.op op) ret strs S' →
      A.Handles atof r h ret strs { A with stores := Function.update A.stores (A.slotOf r.conn) S' }) :
    s.Follows atof counters A r h := by
  obtain ⟨L, holds⟩ := stands.here r.conn
  obtain ⟨a, ran, does⟩ := query_does atof op holds step same
  have looked : lookup (s.slot r.conn) run = some (if a.isSome then 0 else -1, s.slot r.conn) := by
    rw [ran]
    rfl
  refine slot_follows _ stands handled looked holds (resp a ran) (handles _ _ _ (does _ _ ?_))
  cases a with
  | none => exact missing.symm
  | some a => exact (shape a).symm

theorem refused_follows {run : Option (Int × Db)} (stands : s.Stands A)
    (handled : s.handle atof r h = s.onSlot r.conn run) (ran : run = some (-1, s.slot r.conn))
    (resp : s.resp atof counters r h = some [])
    (handles : A.Handles atof r h (-1) [] { A with
      stores := Function.update A.stores (A.slotOf r.conn) (A.stores (A.slotOf r.conn)) }) :
    s.Follows atof counters A r h := by
  obtain ⟨L, holds⟩ := stands.here r.conn
  exact slot_follows _ stands handled ran holds resp handles

theorem here_follows (stands : s.Stands A) (handled : s.handle atof r h = some (ret, s'))
    (resp : s.resp atof counters r h = some strs) (slots : s'.slots = s.slots)
    (slotOf : s'.slotOf = s.slotOf) (handles : A.Handles atof r h ret strs A) :
    s.Follows atof counters A r h :=
  ⟨ret, strs, s', A, handled, resp, handles, by rw [slots]; exact stands.slots,
    slotOf.trans stands.slotOf⟩

theorem values_follow (stands : s.Stands A) (r : Request) :
    (2 ≤ r.args.length → s.Follows atof counters A r .kvSet) ∧
    (1 ≤ r.args.length → s.Follows atof counters A r .kvGet) ∧
    (1 ≤ r.args.length → s.Follows atof counters A r .kvDel) ∧
    (1 ≤ r.args.length → s.Follows atof counters A r .kvMatchlongest) := by
  obtain ⟨conn, cmd, args, fork, left⟩ := r
  refine ⟨fun enough => ?_, fun enough => ?_, fun enough => ?_, fun enough => ?_⟩
  · obtain ⟨key, value, _, rfl⟩ := two_args enough
    exact command_follows (.kvSet key value) stands rfl (fun _ => rfl) rfl rfl
      fun _ S' does => ⟨S', does, rfl⟩
  · obtain ⟨key, _, rfl⟩ := one_arg enough
    refine lookup_follows (.kvGet key) (fun value => [value]) stands rfl rfl rfl
      (fun _ => rfl) rfl (fun a ran => ?_) fun _ _ S' does => ⟨S', does, rfl⟩
    refine (congrArg found ran).trans ?_
    cases a <;> rfl
  · obtain ⟨key, _, rfl⟩ := one_arg enough
    exact command_follows (.kvDel key) stands rfl (fun _ => rfl) rfl rfl
      fun _ S' does => ⟨S', does, rfl⟩
  · obtain ⟨key, _, rfl⟩ := one_arg enough
    refine lookup_follows (.kvMatchLongest key) (fun found => longestText (some found))
      stands rfl rfl rfl (fun _ => rfl) rfl (fun a ran => ?_) fun _ _ S' does => ⟨S', does, rfl⟩
    refine (congrArg (Option.map longestText) ran).trans ?_
    cases a <;> rfl

theorem hashes_follow (stands : s.Stands A) (r : Request) :
    (3 ≤ r.args.length → s.Follows atof counters A r .hashSet) ∧
    (2 ≤ r.args.length → s.Follows atof counters A r .hashGet) ∧
    (2 ≤ r.args.length → s.Follows atof counters A r .hashDel) := by
  obtain ⟨conn, cmd, args, fork, left⟩ := r
  refine ⟨fun enough => ?_, fun enough => ?_, fun enough => ?_⟩
  · obtain ⟨name, key, value, _, rfl⟩ := three_args enough
    by_cases long : 255 < name.length
    · exact refused_follows stands rfl (if_pos long) rfl
        ⟨_, by rw [Handler.meaning, if_pos long]; exact ⟨rfl, rfl, rfl⟩, rfl⟩
    · refine command_follows (.hashSet name key value) stands rfl (fun _ => rfl)
        (congrArg (s.onSlot conn) (if_neg long)) rfl fun _ S' does => ⟨S', ?_, rfl⟩
      rwa [Handler.meaning, if_neg long]
  · obtain ⟨name, key, _, rfl⟩ := two_args enough
    by_cases long : 255 < name.length
    · exact refused_follows stands rfl (if_pos long) (if_pos long)
        ⟨_, by rw [Handler.meaning, if_pos long]; exact ⟨rfl, rfl, rfl⟩, rfl⟩
    · refine lookup_follows (.hashGet name key) (fun value => [value]) stands rfl rfl rfl
        (fun _ => rfl) (congrArg (s.onSlot conn) (if_neg long)) (fun a ran => (if_neg long).trans ?_)
        fun _ _ S' does => ⟨S', by rwa [Handler.meaning, if_neg long], rfl⟩
      refine (congrArg found ran).trans ?_
      cases a <;> rfl
  · obtain ⟨name, key, _, rfl⟩ := two_args enough
    by_cases long : 255 < name.length
    · exact refused_follows stands rfl (if_pos long) rfl
        ⟨_, by rw [Handler.meaning, if_pos long]; exact ⟨rfl, rfl, rfl⟩, rfl⟩
    · refine command_follows (.hashDel name key) stands rfl (fun _ => rfl)
        (congrArg (s.onSlot conn) (if_neg long)) rfl fun _ S' does => ⟨S', ?_, rfl⟩
      rwa [Handler.meaning, if_neg long]

/-- The handlers of lpop and rpop turn a status below 0 into -1, which it is. -/
theorem pop_status (holds : Holds db L S) (name : List UInt8) :
    (db.listLpop name).map (fun (ret, db) => ((if ret < 0 then -1 else 0 : Int), db)) = db.listLpop name ∧
    (db.listRpop name).map (fun (ret, db) => ((if ret < 0 then -1 else 0 : Int), db)) =
      db.listRpop name := by
  obtain ⟨db1, _, left, _⟩ := listLpop_spec holds name
  obtain ⟨db2, _, right, _⟩ := listRpop_spec holds name
  rw [left, right]
  cases S (Db.encodeListHead name) <;> exact ⟨rfl, rfl⟩

theorem lists_follow (stands : s.Stands A) (r : Request) :
    (2 ≤ r.args.length → s.Follows atof counters A r .listLpush) ∧
    (2 ≤ r.args.length → s.Follows atof counters A r .listRpush) ∧
    (1 ≤ r.args.length → s.Follows atof counters A r .listLpop) ∧
    (1 ≤ r.args.length → s.Follows atof counters A r .listRpop) ∧
    (1 ≤ r.args.length → s.Follows atof counters A r .listLtop) ∧
    (1 ≤ r.args.length → s.Follows atof counters A r .listRtop) := by
  obtain ⟨L, holds⟩ := stands.here r.conn
  obtain ⟨conn, cmd, args, fork, left⟩ := r
  refine ⟨fun enough => ?_, fun enough => ?_, fun enough => ?_, fun enough => ?_, fun enough => ?_,
    fun enough => ?_⟩
  · obtain ⟨name, value, _, rfl⟩ := two_args enough
    exact command_follows (.listLpush name value) stands rfl (fun _ => rfl) rfl rfl
      fun _ S' does => ⟨S', does, rfl⟩
  · obtain ⟨name, value, _, rfl⟩ := two_args enough
    exact command_follows (.listRpush name value) stands rfl (fun _ => rfl) rfl rfl
      fun _ S' does => ⟨S', does, rfl⟩
  · obtain ⟨name, _, rfl⟩ := one_arg enough
    exact command_follows (.listLpop name) stands rfl (fun _ => rfl)
      (congrArg (s.onSlot conn) (pop_status holds name).1) rfl fun _ S' does => ⟨S', does, rfl⟩
  · obtain ⟨name, _, rfl⟩ := one_arg enough
    exact command_follows (.listRpop name) stands rfl (fun _ => rfl)
      (congrArg (s.onSlot conn) (pop_status holds name).2) rfl fun _ S' does => ⟨S', does, rfl⟩
  · obtain ⟨name, _, rfl⟩ := one_arg enough
    refine lookup_follows (.listLtop name) (fun value => [value]) stands rfl rfl rfl
      (fun _ => rfl) rfl (fun a ran => ?_) fun _ _ S' does => ⟨S', does, rfl⟩
    refine (congrArg found ran).trans ?_
    cases a <;> rfl
  · obtain ⟨name, _, rfl⟩ := one_arg enough
    refine lookup_follows (.listRtop name) (fun value => [value]) stands rfl rfl rfl
      (fun _ => rfl) rfl (fun a ran => ?_) fun _ _ S' does => ⟨S', does, rfl⟩
    refine (congrArg found ran).trans ?_
    cases a <;> rfl

theorem sets_follow (stands : s.Stands A) (r : Request) :
    (2 ≤ r.args.length → s.Follows atof counters A r .setAdd) ∧
    (2 ≤ r.args.length → s.Follows atof counters A r .setDel) ∧
    (1 ≤ r.args.length → s.Follows atof counters A r .setMembers) ∧
    (2 ≤ r.args.length → s.Follows atof counters A r .setIsmember) := by
  obtain ⟨L, holds⟩ := stands.here r.conn
  obtain ⟨conn, cmd, args, fork, left⟩ := r
  refine ⟨fun enough => ?_, fun enough => ?_, fun enough => ?_, fun enough => ?_⟩
  · obtain ⟨name, key, rest, rfl⟩ := two_args enough
    by_cases long : 255 < name.length
    · exact refused_follows stands rfl (if_pos long) rfl
        ⟨_, by rw [Handler.meaning, if_pos long]; exact ⟨rfl, rfl, rfl⟩, rfl⟩
    · obtain ⟨db', L', ran, holds'⟩ := addAll_does atof holds name (key :: rest)
      refine slot_follows _ stands (congrArg (s.onSlot conn) (if_neg long)) ran holds' rfl ⟨_, ?_, rfl⟩
      rw [Handler.meaning, if_neg long]
      exact ⟨rfl, rfl, rfl⟩
  · obtain ⟨name, key, rest, rfl⟩ := two_args enough
    by_cases long : 255 < name.length
    · exact refused_follows stands rfl (if_pos long) rfl
        ⟨_, by rw [Handler.meaning, if_pos long]; exact ⟨rfl, rfl, rfl⟩, rfl⟩
    · obtain ⟨db', L', ran, holds'⟩ := delAll_does holds name (key :: rest)
      refine slot_follows _ stands (congrArg (s.onSlot conn) (if_neg long)) ran holds' rfl ⟨_, ?_, rfl⟩
      rw [Handler.meaning, if_neg long]
      exact ⟨rfl, rfl⟩
  · obtain ⟨name, _, rfl⟩ := one_arg enough
    obtain ⟨items, ran, does⟩ := query_does atof (.setMembers name) holds rfl rfl
    exact slot_follows ((Db.setMembers _ name).map fun _ => ((0 : Int), s.slot conn)) stands rfl
      (by rw [ran]; rfl) holds ran ⟨_, does 0 items rfl, rfl⟩
  · obtain ⟨name, key, _, rfl⟩ := two_args enough
    obtain ⟨contain, ran, does⟩ :=
      query_does atof (.setIsmember name key) holds rfl rfl
    exact slot_follows ((Db.setIsmember _ name key).map fun _ => ((0 : Int), s.slot conn)) stands rfl
      (by rw [ran]; rfl) holds (congrArg (Option.map fun contain => [memberText contain]) ran)
      ⟨_, does 0 [memberText contain] rfl, rfl⟩

theorem points_follow (stands : s.Stands A) (r : Request) :
    (3 ≤ r.args.length → s.Follows atof counters A r .spSet) ∧
    (1 ≤ r.args.length → s.Follows atof counters A r .spGet) ∧
    (1 ≤ r.args.length → s.Follows atof counters A r .spDel) ∧
    (4 ≤ r.args.length → s.Follows atof counters A r .spRect) := by
  obtain ⟨conn, cmd, args, fork, left⟩ := r
  refine ⟨fun enough => ?_, fun enough => ?_, fun enough => ?_, fun enough => ?_⟩
  · obtain ⟨key, lat, lon, _, rfl⟩ := three_args enough
    exact command_follows (.spSet key lat lon) stands rfl (fun _ => rfl) rfl rfl
      fun _ S' does => ⟨S', does, rfl⟩
  · obtain ⟨key, _, rfl⟩ := one_arg enough
    refine lookup_follows (.spGet key) pointStrings
      stands rfl rfl rfl (fun _ => rfl) rfl (fun a ran => ?_) fun _ _ S' does => ⟨S', does, rfl⟩
    refine (congrArg (Option.map _) ran).trans ?_
    cases a <;> rfl
  · obtain ⟨key, _, rfl⟩ := one_arg enough
    exact command_follows (.spDel key) stands rfl (fun _ => rfl) rfl rfl
      fun _ S' does => ⟨S', does, rfl⟩
  · obtain ⟨lat1, lat2, lon1, lon2, _, rfl⟩ := four_args enough
    refine lookup_follows (.spRect lat1 lat2 lon1 lon2) id stands rfl rfl rfl
      (fun _ => rfl) rfl (fun a ran => ?_) fun _ _ S' does => ⟨S', does, rfl⟩
    refine (congrArg (Option.map _) ran).trans ?_
    cases a <;> rfl

theorem perf_follows (stands : s.Stands A) (r : Request) (enough : 1 ≤ r.args.length) :
    s.Follows atof counters A r .sysPerf := by
  obtain ⟨conn, cmd, args, fork, left⟩ := r
  obtain ⟨str, rest, rfl⟩ := one_arg enough
  have found := find_command str
  cases place : modules.flatten.find? fun cmd => cmd.name = str with
  | none =>
    rw [place] at found
    exact here_follows stands (bind_run found rfl) (bind_run found rfl) rfl rfl
      ⟨⟨str, rest, rfl, by rw [place]; exact ⟨rfl, rfl⟩⟩, rfl⟩
  | some cmd =>
    rw [place] at found
    exact here_follows stands (bind_run found rfl) (bind_run found rfl) rfl rfl
      ⟨⟨str, rest, rfl, by rw [place]; exact ⟨rfl, _, rfl⟩⟩, rfl⟩

theorem use_follows (stands : s.Stands A) (r : Request) (enough : 1 ≤ r.args.length) :
    s.Follows atof counters A r .sysUse := by
  obtain ⟨conn, cmd, args, fork, left⟩ := r
  obtain ⟨str, rest, rfl⟩ := one_arg enough
  by_cases named : ∃ slot, Stores.Names str slot
  · obtain ⟨slot, name⟩ := named
    have inside : (0 : Int) < slot.val + 1 ∧ (slot.val + 1 : Int) ≤ maxSlot := by omega
    have place : (⟨((slot.val + 1 : Int) - 1).toNat, by omega⟩ : Fin maxSlot) = slot :=
      Fin.ext (by dsimp only; omega)
    refine ⟨0, [], { s with slotOf := Function.update s.slotOf conn slot },
      { A with slotOf := Function.update A.slotOf conn slot }, ?_, rfl,
      ⟨rfl, str, rest, rfl, Or.inl ⟨slot, name, rfl, rfl⟩⟩, stands.slots, by rw [stands.slotOf]⟩
    rw [Server.handle, Server.useHandler, name, Option.elim_some, dif_pos inside, place]
  · refine here_follows stands ?_ rfl rfl rfl ⟨rfl, str, rest, rfl, Or.inr ⟨named, rfl, rfl⟩⟩
    rw [Server.handle, Server.useHandler]
    cases read : EtdbString.atoi str with
    | none => rfl
    | some i =>
      have outside : ¬ (0 < i ∧ i ≤ maxSlot) := by
        rintro ⟨low, high⟩
        refine named ⟨⟨(i - 1).toNat, by omega⟩, ?_⟩
        rw [Stores.Names, read]
        congr 1
        dsimp only
        omega
      rw [Option.elim_some, dif_neg outside]

theorem bgsave_follows (stands : s.Stands A) (r : Request) :
    s.Follows atof counters A r .sysBgsave := by
  have handled : s.handle atof r .sysBgsave = some (s.bgsaveHandler r.fork) := rfl
  by_cases busy : 0 < s.bgsavePid
  · rw [Server.bgsaveHandler, if_pos busy] at handled
    exact here_follows stands handled rfl rfl rfl ⟨Or.inr rfl, rfl, rfl⟩
  · rw [Server.bgsaveHandler, if_neg busy] at handled
    refine here_follows stands handled rfl rfl rfl ⟨?_, rfl, rfl⟩
    by_cases failed : r.fork = -1
    · exact Or.inr (if_pos failed)
    · exact Or.inl (if_neg failed)

theorem handle_follows (atof : List UInt8 → Option ℚ) (counters : List UInt8 → Counters)
    (stands : s.Stands A) (r : Request) (h : Handler) (enough : h.need ≤ r.args.length) :
    s.Follows atof counters A r h := by
  obtain ⟨kvSet, kvGet, kvDel, kvMatchlongest⟩ := @values_follow atof counters s A stands r
  obtain ⟨hashSet, hashGet, hashDel⟩ := @hashes_follow atof counters s A stands r
  obtain ⟨lpush, rpush, lpop, rpop, ltop, rtop⟩ := @lists_follow atof counters s A stands r
  obtain ⟨add, del, members, ismember⟩ := @sets_follow atof counters s A stands r
  obtain ⟨spSet, spGet, spDel, spRect⟩ := @points_follow atof counters s A stands r
  cases h with
  | kvSet => exact kvSet enough
  | kvGet => exact kvGet enough
  | kvDel => exact kvDel enough
  | kvMatchlongest => exact kvMatchlongest enough
  | hashSet => exact hashSet enough
  | hashGet => exact hashGet enough
  | hashDel => exact hashDel enough
  | listLpush => exact lpush enough
  | listRpush => exact rpush enough
  | listLpop => exact lpop enough
  | listRpop => exact rpop enough
  | listLtop => exact ltop enough
  | listRtop => exact rtop enough
  | setAdd => exact add enough
  | setDel => exact del enough
  | setMembers => exact members enough
  | setIsmember => exact ismember enough
  | spSet => exact spSet enough
  | spGet => exact spGet enough
  | spDel => exact spDel enough
  | spRect => exact spRect enough
  | spKnn => exact here_follows stands rfl rfl rfl rfl ⟨rfl, rfl, rfl⟩
  | geoHashInfo => exact here_follows stands rfl rfl rfl rfl ⟨rfl, rfl, rfl⟩
  | sysInfo => exact here_follows stands rfl rfl rfl rfl ⟨rfl, ⟨_, _, rfl⟩, rfl⟩
  | sysPerf => exact perf_follows stands r enough
  | sysUse => exact use_follows stands r enough
  | sysWhere => exact here_follows stands rfl rfl rfl rfl ⟨rfl, by rw [stands.slotOf], rfl⟩
  | sysHelp => exact here_follows stands rfl rfl rfl rfl ⟨rfl, rfl, rfl⟩
  | sysBgsave => exact bgsave_follows stands r
  | sysPing => exact here_follows stands rfl rfl rfl rfl ⟨rfl, rfl, rfl⟩
  | sysSync => exact here_follows stands rfl rfl rfl rfl ⟨rfl, rfl, rfl⟩

theorem serve_spec (atof : List UInt8 → Option ℚ) (counters : List UInt8 → Counters) (stands : s.Stands A)
    (r : Request) : ∃ strs s' A', s.serve atof counters r = some (strs, s') ∧ A.Serves atof r strs A' ∧
      s'.Stands A' := by
  have found := find_command (r.cmd.map EtdbWire.Buf.lower)
  unfold Stores.Serves
  cases place : modules.flatten.find? fun cmd => cmd.name = r.cmd.map EtdbWire.Buf.lower with
  | none =>
    rw [place] at found
    exact ⟨_, s, A, bind_run found rfl, ⟨rfl, rfl⟩, stands⟩
  | some cmd =>
    rw [place] at found
    dsimp only
    by_cases parsed : parseArgs cmd.flags r.args.length = true
    · have enough := enough_args (List.mem_of_find?_eq_some place) parsed
      obtain ⟨ret, strs, s', A', handled, resp, handles, stands'⟩ :=
        handle_follows atof counters stands r cmd.handler enough
      refine ⟨Server.statusText ret :: strs, s', A', ?_, ?_, stands'⟩
      · exact bind_run found ((if_pos parsed).trans (bind_run resp (bind_run handled rfl)))
      · rw [if_pos parsed]
        exact ⟨ret, strs, rfl, handles⟩
    · refine ⟨_, s, A, bind_run found (if_neg parsed), ?_, stands⟩
      rw [if_neg parsed]
      exact ⟨rfl, rfl⟩

theorem answers_spec (atof : List UInt8 → Option ℚ) (stands : s.Stands A) (calls : List Call) :
    ∃ replies s' A', s.answers atof calls = some (replies, s') ∧ A.Answers atof calls replies A' ∧
      s'.Stands A' := by
  induction calls generalizing s A with
  | nil => exact ⟨[], s, A, rfl, ⟨rfl, rfl⟩, stands⟩
  | cons call rest ih =>
    obtain ⟨event, counters⟩ := call
    cases event with
    | request r =>
      obtain ⟨strs, s1, A1, served, serves, stands1⟩ := serve_spec atof counters stands r
      obtain ⟨replies, s2, A2, run, answers, stands2⟩ := ih stands1
      exact ⟨strs :: replies, s2, A2, bind_run served (bind_run run rfl),
        ⟨strs, replies, A1, rfl, serves, answers⟩, stands2⟩
    | childEnded => exact ih (s := { s with bgsavePid := 0 }) ⟨stands.slots, stands.slotOf⟩

theorem init_stands : ∃ s, Server.init = some s ∧ s.Stands Stores.empty := by
  obtain ⟨db, L, start, holds⟩ := init_holds
  refine ⟨⟨fun _ => db, fun _ => ⟨0, maxSlot_pos⟩, 0⟩, ?_, fun _ => ⟨L, holds⟩, rfl⟩
  rw [Server.init, start]
  rfl

end

/-- From the start on, every request of every connection is answered as sixteen empty
    stores would answer it after the same requests. -/
theorem server_answers_as_stores (atof : List UInt8 → Option ℚ) (calls : List Call) :
    ∃ replies s A, (Server.init >>= fun s => s.answers atof calls) = some (replies, s) ∧
      Stores.empty.Answers atof calls replies A ∧ s.Stands A := by
  obtain ⟨s0, start, stands0⟩ := init_stands
  obtain ⟨replies, s, A, run, answers, stands⟩ := answers_spec atof stands0 calls
  exact ⟨replies, s, A, bind_run start run, answers, stands⟩

end EtdbServer
