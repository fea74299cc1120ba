import Etdb.Server.Failures

/- Requests with several items behind the name. The check of the arity has no case for five
   arguments and more but that of a flag which no command has; sadd and sdel go through
   their items, lpush and rpush take the first one only. -/
namespace EtdbServer
open EtdbTrie EtdbDatabase

def saddName : List UInt8 := bytes ['s', 'a', 'd', 'd']
def lpushName : List UInt8 := bytes ['l', 'p', 'u', 's', 'h']
def rpushName : List UInt8 := bytes ['r', 'p', 'u', 's', 'h']

def itemCommands : List (List UInt8) := [saddName, sdelName, lpushName, rpushName]

def pushCommands : List (List UInt8) := [lpushName, rpushName]

/-- A request for each item by itself, in the order given, as long as the answer is +OK. -/
def Server.oneByOne (atof : List UInt8 → Option ℚ) (r : Request) (name : List UInt8) (s : Server) :
    List (List UInt8) → Option Server
  | [] => some s
  | item :: rest => do
    let (ret, s) ← s.execProc atof { r with args := [name, item] }
    if ret = some 0 then oneByOne atof r name s rest else none

/-- The request passes the check of its arity, and +OK means that all of the items were taken. -/
def Server.TakesAll (atof : List UInt8 → Option ℚ) (r : Request) (name : List UInt8)
    (items : List (List UInt8)) (s : Server) : Prop :=
  ∃ ret s', s.execProc atof { r with args := name :: items } = some (some ret, s') ∧
    (ret = 0 → s.oneByOne atof r name items = some s')

def singles (handler : Db → List (List UInt8) → Option (Int × Db)) (name : List UInt8) (db : Db) :
    List (List UInt8) → Option Db
  | [] => some db
  | item :: rest => do
    let (ret, db) ← handler db [name, item]
    if ret = 0 then singles handler name db rest else none

def ServedBy (atof : List UInt8 → Option ℚ) (r : Request)
    (handler : Db → List (List UInt8) → Option (Int × Db)) : Prop :=
  ∀ (s : Server) (name : List UInt8) (items : List (List UInt8)),
    s.execProc atof { r with args := name :: items } =
      if items ≠ [] ∧ items.length ≤ 3 then
        (s.onSlot r.conn (handler (s.slot r.conn) (name :: items))).map fun p => (some p.1, p.2)
      else some (none, s)

section
variable {atof : List UInt8 → Option ℚ} {r : Request} {s : Server} {name key : List UInt8}
    {items : List (List UInt8)}
variable {handler : Db → List (List UInt8) → Option (Int × Db)} {db db' : Db} {L L' : Layout}
    {S S' : Store} {ret : Int}
variable {act : Db → List UInt8 → Option (Int × Db)} {heap : Int → Option Record} {v : Int}
variable {values values' : List (List UInt8)} {cells cells' : List Int}

theorem parse_items (items : List (List UInt8)) :
    parseArgs flagArg2more (items.length + 1) = true ↔ items ≠ [] ∧ items.length ≤ 3 := by
  rcases items with _ | ⟨a, _ | ⟨b, _ | ⟨c, _ | ⟨d, rest⟩⟩⟩⟩
  · decide
  · simp [parseArgs, hasFlag, flagArg1more, flagArg2more]
  · simp [parseArgs, hasFlag, flagArg1more, flagArg2more]
  · simp [parseArgs, hasFlag, flagArg1more, flagArg2more]
  · simp only [List.length_cons, ne_eq, reduceCtorEq, not_false_eq_true, true_and]
    refine iff_of_false ?_ (by omega)
    simp [parseArgs, hasFlag, flagArg2more, flagArg5more]

theorem served_by {h : Handler} {text : List UInt8} (named : r.cmd.map EtdbWire.Buf.lower = text)
    (listed : modules.flatten.find? (fun cmd => cmd.name = text) = some ⟨text, flagArg2more, h⟩)
    (handled : ∀ (s : Server) args, s.handle atof { r with args := args } h = s.onSlot r.conn
    (handler (s.slot r.conn) args)) : ServedBy atof r handler := by
  intro s name items
  have found := find_command text
  rw [listed, ← named] at found
  refine bind_run found ?_
  have parse := parse_items items
  by_cases few : items ≠ [] ∧ items.length ≤ 3
  · refine (if_pos (parse.mpr few)).trans ?_
    rw [if_pos few, handled]
    cases s.onSlot r.conn (handler (s.slot r.conn) (name :: items)) <;> rfl
  · exact (if_neg fun passes => few (parse.mp passes)).trans (if_neg few).symm

theorem oneByOne_singles (served : ServedBy atof r handler) (name : List UInt8) (s : Server)
    (items : List (List UInt8)) :
    s.oneByOne atof r name items = (singles handler name (s.slot r.conn) items).map fun db =>
      { s with slots := Function.update s.slots (s.slotOf r.conn) db } := by
  induction items generalizing s with
  | nil =>
    rw [Server.oneByOne, singles, Option.map_some, Server.slot, Function.update_eq_self]
  | cons item rest ih =>
    rw [Server.oneByOne, singles, served s name [item], if_pos ⟨List.cons_ne_nil _ _, by simp⟩,
      Server.onSlot]
    cases handler (s.slot r.conn) [name, item] with
    | none => rfl
    | some p =>
      obtain ⟨ret, db⟩ := p
      simp only [Option.map_some, Option.bind_eq_bind, Option.bind_some, Option.some.injEq]
      by_cases ok : ret = 0
      · rw [if_pos ok, if_pos ok, ih]
        simp [Server.slot]
      · rw [if_neg ok, if_neg ok]
        rfl

theorem takesAll_iff (served : ServedBy atof r handler) : s.TakesAll atof r name items ↔
    (items ≠ [] ∧ items.length ≤ 3) ∧ ∃ ret db', handler (s.slot r.conn) (name :: items) =
    some (ret, db') ∧
      (ret = 0 → singles handler name (s.slot r.conn) items = some db') := by
  have same : ∀ db db' : Db, ({ s with slots := Function.update s.slots (s.slotOf r.conn) db } : Server) =
      { s with slots := Function.update s.slots (s.slotOf r.conn) db' } ↔ db = db' := by
    intro db db'
    refine ⟨fun equal => ?_, fun equal => by rw [equal]⟩
    have slots := congrFun (congrArg Server.slots equal) (s.slotOf r.conn)
    simpa using slots
  rw [Server.TakesAll, served, oneByOne_singles served]
  by_cases few : items ≠ [] ∧ items.length ≤ 3
  · rw [if_pos few, and_iff_right few, Server.onSlot]
    constructor
    · rintro ⟨ret, s', run, all⟩
      rw [Option.map_map, Option.map_eq_some_iff] at run
      obtain ⟨⟨ret', db'⟩, ran, pair⟩ := run
      simp only [Function.comp_apply, Prod.mk.injEq, Option.some.injEq] at pair
      obtain ⟨rfl, rfl⟩ := pair
      refine ⟨ret', db', ran, fun ok => ?_⟩
      obtain ⟨db1, run1, equal⟩ := Option.map_eq_some_iff.mp (all ok)
      rw [run1, (same db1 db').mp equal]
    · rintro ⟨ret, db', ran, all⟩
      refine ⟨ret, _, by rw [ran]; rfl, fun ok => ?_⟩
      rw [all ok]
      rfl
  · rw [if_neg few]
    refine iff_of_false ?_ fun all => few all.1
    rintro ⟨_, _, run, _⟩
    cases run

theorem eachKey_singles (act : Db → List UInt8 → Option (Int × Db))
    (single : ∀ db key, handler db [name, key] = eachKey act db [key])
    (run : eachKey act db items = some (0, db')) : singles handler name db items = some db' := by
  induction items generalizing db with
  | nil =>
    obtain ⟨_, rfl⟩ := Prod.mk.inj (Option.some.inj run)
    rfl
  | cons key rest ih =>
    rw [eachKey] at run
    obtain ⟨⟨ret, db1⟩, first, later⟩ := Option.bind_eq_some_iff.mp run
    dsimp only at later
    split at later
    · cases later
    · rename_i done
      have one : handler db [name, key] = some (0, db1) := by
        rw [single]
        exact bind_run first (if_neg done)
      exact bind_run one (ih later)

theorem set_takes (act : Db → List UInt8 → Option (Int × Db))
    (shape : ∀ db key rest, handler db (name :: key :: rest) =
      if 255 < name.length then some (-1, db) else eachKey act db (key :: rest))
    (runs : ∀ keys, ∃ ret db', eachKey act (s.slot r.conn) keys = some (ret, db'))
    (served : ServedBy atof r handler) :
    s.TakesAll atof r name items ↔ items ≠ [] ∧ items.length ≤ 3 := by
  rw [takesAll_iff served, and_iff_left_iff_imp]
  rintro ⟨filled, _⟩
  obtain ⟨key, rest, rfl⟩ := List.exists_cons_of_ne_nil filled
  rw [shape]
  by_cases long : 255 < name.length
  · rw [if_pos long]
    exact ⟨-1, _, rfl, fun bad => by cases bad⟩
  · rw [if_neg long]
    obtain ⟨ret, db', run⟩ := runs (key :: rest)
    refine ⟨ret, db', run, fun ok => eachKey_singles act (fun db key => ?_) (ok ▸ run)⟩
    rw [shape, if_neg long]

theorem queue_length (holds : Holds db L S) (holds' : Holds db L' S') (name : List UInt8) :
    (S.queue (Db.encodeListHead name)).length = (S'.queue (Db.encodeListHead name)).length := by
  have plain : (Db.encodeListHead name).head? ≠ some Db.spatialPointHead2 := by
    simp [Db.encodeListHead, Db.listHead, Db.spatialPointHead2]
  have search := (holds.stores.search (Db.encodeListHead name)).symm.trans
    (holds'.stores.search (Db.encodeListHead name))
  have stored : ∀ {L : Layout} {S : Store}, Holds db L S →
    ∀ v, L.entries (Db.encodeListHead name) = some v →
      ∃ items, (S.queue (Db.encodeListHead name)).length = items.length ∧
        CircularRing.IsRing (nextOf db.heap) (prevOf db.heap) (v :: items) := by
    intro L S holds v held
    obtain ⟨values, items, here, _, queue, _⟩ := holds.queue held
    refine ⟨items, ?_, queue.ring⟩
    rw [Store.queue, show S (Db.encodeListHead name) = _ from here]
    exact queue.items.length_eq.symm
  have empty : ∀ {L : Layout} {S : Store}, Holds db L S → L.entries (Db.encodeListHead name) = none →
      (S.queue (Db.encodeListHead name)).length = 0 := by
    intro L S holds none
    rw [Store.queue, (holds.none_iff plain).mp none]
    rfl
  cases first : L.entries (Db.encodeListHead name) with
  | none =>
    cases second : L'.entries (Db.encodeListHead name) with
    | none => rw [empty holds first, empty holds' second]
    | some v =>
      rw [first, second] at search
      have := holds'.stores.nonneg _ v second
      obtain rfl : noValue = v := Option.some.inj search
      cases this
  | some v =>
    cases second : L'.entries (Db.encodeListHead name) with
    | none =>
      rw [first, second] at search
      have := holds.stores.nonneg _ v first
      obtain rfl : v = noValue := Option.some.inj search
      cases this
    | some v' =>
      rw [first, second] at search
      obtain rfl : v = v' := Option.some.inj search
      obtain ⟨cells, length, ring⟩ := stored holds v first
      obtain ⟨cells', length', ring'⟩ := stored holds' v second
      rw [length, length', CircularRing.ring_unique ring ring']

def Pushes (push : Db → List UInt8 → List UInt8 → Option (Int × Db)) : Prop :=
  ∀ db L S name value, Holds db L S → ∃ db' L' S', push db name value = some (0, db') ∧ Holds db' L' S' ∧
    (S'.queue (Db.encodeListHead name)).length = (S.queue (Db.encodeListHead name)).length + 1

theorem lpush_pushes : Pushes Db.listLpush := by
  intro db L S name value holds
  obtain ⟨db', L', run, holds', _⟩ := listLpush_spec holds name value
  exact ⟨db', L', _, run, holds', by simp [Store.putQueue, Store.queue]⟩

theorem rpush_pushes : Pushes Db.listRpush := by
  intro db L S name value holds
  obtain ⟨db', L', run, holds', _⟩ := listRpush_spec holds name value
  exact ⟨db', L', _, run, holds', by simp [Store.putQueue, Store.queue]⟩

theorem pushes_length {push : Db → List UInt8 → List UInt8 → Option (Int × Db)} (pushes : Pushes push)
    (single : ∀ db item, handler db [name, item] = push db name item) (holds : Holds db L S)
    (items : List (List UInt8)) :
    ∃ db' L' S', singles handler name db items = some db' ∧ Holds db' L' S' ∧
      (S'.queue (Db.encodeListHead name)).length =
      (S.queue (Db.encodeListHead name)).length + items.length := by
  induction items generalizing db L S with
  | nil => exact ⟨db, L, S, rfl, holds, rfl⟩
  | cons item rest ih =>
    obtain ⟨db1, L1, S1, run1, holds1, length1⟩ := pushes db L S name item holds
    obtain ⟨db2, L2, S2, run2, holds2, length2⟩ := ih holds1
    refine ⟨db2, L2, S2, bind_run ((single db item).trans run1) run2, holds2, ?_⟩
    rw [length2, length1, List.length_cons]
    omega

theorem push_takes {push : Db → List UInt8 → List UInt8 → Option (Int × Db)} (pushes : Pushes push)
    (shape : ∀ db value rest, handler db (name :: value :: rest) = push db name value)
    (holds : Holds (s.slot r.conn) L S)
    (served : ServedBy atof r handler) : s.TakesAll atof r name items ↔ items.length = 1 := by
  rw [takesAll_iff served]
  constructor
  · rintro ⟨⟨filled, _⟩, ret, db', run, all⟩
    obtain ⟨value, rest, rfl⟩ := List.exists_cons_of_ne_nil filled
    obtain ⟨db1, L1, S1, run1, holds1, length1⟩ := pushes _ L S name value holds
    rw [shape, run1] at run
    obtain ⟨rfl, rfl⟩ := Prod.mk.inj (Option.some.inj run)
    obtain ⟨db2, L2, S2, run2, holds2, length2⟩ :=
      pushes_length pushes (fun db item => shape db item []) holds (value :: rest)
    rw [all rfl] at run2
    obtain rfl := Option.some.inj run2
    have := queue_length holds1 holds2 name
    omega
  · intro one
    obtain ⟨value, rfl⟩ := List.length_eq_one_iff.mp one
    obtain ⟨db1, L1, S1, run1, _⟩ := pushes _ L S name value holds
    have run : handler (s.slot r.conn) [name, value] = some (0, db1) := (shape _ value []).trans run1
    exact ⟨⟨List.cons_ne_nil _ _, by simp⟩, 0, db1, run, fun _ => bind_run run rfl⟩

theorem standing_takes (standing : ∀ i, Standing (s.slots i)) (items : List (List UInt8))
    (variadic : r.cmd.map EtdbWire.Buf.lower ∈ itemCommands) : s.TakesAll atof r name items ↔
      (items ≠ [] ∧ items.length ≤ 3) ∧
      (r.cmd.map EtdbWire.Buf.lower ∈ pushCommands → items.length = 1) := by
  obtain ⟨L, S, holds⟩ := standing (s.slotOf r.conn)
  have pushed : ∀ text ∈ pushCommands, r.cmd.map EtdbWire.Buf.lower = text → (items.length = 1 ↔
      (items ≠ [] ∧ items.length ≤ 3) ∧
      (r.cmd.map EtdbWire.Buf.lower ∈ pushCommands → items.length = 1)) := by
    intro text push named
    rw [named]
    refine ⟨fun one => ⟨⟨fun none => by simp [none] at one, by omega⟩, fun _ => one⟩,
      fun both => both.2 push⟩
  have kept : ∀ text ∉ pushCommands, r.cmd.map EtdbWire.Buf.lower = text →
    (items ≠ [] ∧ items.length ≤ 3 ↔
      (items ≠ [] ∧ items.length ≤ 3) ∧
      (r.cmd.map EtdbWire.Buf.lower ∈ pushCommands → items.length = 1)) := by
    intro text other named
    rw [named]
    exact ⟨fun few => ⟨few, fun push => absurd push other⟩, And.left⟩
  simp only [itemCommands, List.mem_cons, List.not_mem_nil, or_false] at variadic
  rcases variadic with named | named | named | named
  · have served : ServedBy atof r setAddHandler :=
      served_by (h := .setAdd) named (by decide +kernel) fun _ _ => rfl
    rw [set_takes (fun db key => db.setAdd name key) (fun _ _ _ => rfl) (fun keys => ?_) served]
    · exact kept saddName (by decide) named
    · obtain ⟨db', _, _, run, _⟩ := setAdd_all name holds keys
      exact ⟨0, db', run⟩
  · have served : ServedBy atof r setDelHandler :=
      served_by (h := .setDel) named (by decide +kernel) fun _ _ => rfl
    rw [set_takes (fun db key => db.setDel name key) (fun _ _ _ => rfl) (fun keys => ?_) served]
    · exact kept sdelName (by decide) named
    · obtain ⟨ret, db', _, _, run, _⟩ := setDel_all name holds keys
      exact ⟨ret, db', run⟩
  · have served : ServedBy atof r listLpushHandler :=
      served_by (h := .listLpush) named (by decide +kernel) fun _ _ => rfl
    rw [push_takes lpush_pushes (fun _ _ _ => rfl) holds served]
    exact pushed lpushName (by decide) named
  · have served : ServedBy atof r listRpushHandler :=
      served_by (h := .listRpush) named (by decide +kernel) fun _ _ => rfl
    rw [push_takes rpush_pushes (fun _ _ _ => rfl) holds served]
    exact pushed rpushName (by decide) named

end

/-- In every state that requests lead to, a request with items behind the name is taken as a
    whole when and only when there are at most three, and a single one for a push. -/
theorem all_items_taken (atof : List UInt8 → Option ℚ) (events : List Event) (r : Request)
    (name : List UInt8)
    (items : List (List UInt8)) (variadic : r.cmd.map EtdbWire.Buf.lower ∈ itemCommands)
    (filled : items ≠ []) :
    ∃ s, (Server.init >>= fun s => s.run atof events) = some s ∧ (s.TakesAll atof r name items ↔
      items.length ≤ 3 ∧ (r.cmd.map EtdbWire.Buf.lower ∈ pushCommands → items.length = 1)) := by
  obtain ⟨s0, start, standing0⟩ := init_standing
  obtain ⟨s, ran, standing⟩ := run_standing standing0 atof events
  refine ⟨s, bind_run start ran, ?_⟩
  rw [standing_takes standing items variadic, and_iff_right filled]

theorem all_items_taken_once : ∃ s, (Server.init >>= fun s => s.run (fun _ => none) []) = some s ∧
    (s.TakesAll (fun _ => none) ⟨0, saddName, [], 0, 0⟩ [115] [[97], [98]] ↔ [[97], [98]].length ≤ 3 ∧
      (saddName.map EtdbWire.Buf.lower ∈ pushCommands → [[97], [98]].length = 1)) :=
  all_items_taken (fun _ => none) [] ⟨0, saddName, [], 0, 0⟩ [115] [[97], [98]] (by decide) (by decide)

theorem items_are_dropped : ∃ s, Server.init = some s ∧
    ¬ s.TakesAll (fun _ => none) ⟨0, lpushName, [], 0, 0⟩ [108] [[97], [98]] ∧
    ¬ s.TakesAll (fun _ => none) ⟨0, saddName, [], 0, 0⟩ [115] [[97], [98], [99], [100]] := by
  obtain ⟨s, start, standing⟩ := init_standing
  refine ⟨s, start, ?_, ?_⟩
  · rw [standing_takes standing _ (by decide)]
    decide
  · rw [standing_takes standing _ (by decide)]
    decide

end EtdbServer
