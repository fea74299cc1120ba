import Etdb.Client.Coordinates

/- What the functions of the library are for: each asks the store in use for one
   operation, and gives back what that answers. -/
namespace EtdbClient
open EtdbDatabase EtdbServer
open EtdbString (Rounding Piece)

inductive Ask where
  | kvSet (key value : List UInt8)
  | kvGet (key : List UInt8)
  | kvDel (key : List UInt8)
  | kvMatchlongest (key : List UInt8)
  | hashSet (tb key value : List UInt8)
  | hashGet (tb key : List UInt8)
  | hashDel (tb key : List UInt8)
  | setAdd (sn item : List UInt8)
  | setDel (sn item : List UInt8)
  | setMembers (sn : List UInt8)
  | setIsmember (sn item : List UInt8)
  | lstLpush (ln item : List UInt8)
  | lstRpush (ln item : List UInt8)
  | lstLtop (ln : List UInt8)
  | lstRtop (ln : List UInt8)
  | lstLpop (ln : List UInt8)
  | lstRpop (ln : List UInt8)
  | spatialPointSet (id : List UInt8) (lat lon : ℚ)
  | spatialPointGet (id : List UInt8)
  | spatialPointRectQuery (lat1 lat2 lon1 lon2 : ℚ)

inductive Given where
  | status (str : List UInt8)
  | value (str : List UInt8) (value : Option (List UInt8))
  | list (str : List UInt8) (list : Option (List (List UInt8)))
  | point (str : List UInt8) (point : Option (ℚ × ℚ × List UInt8))

def Procedure.map {α β : Type} (f : α → β) (x : Procedure α) : Procedure β :=
  ⟨x.strs, fun resp => f (x.result resp)⟩

namespace Ask

/-- The function; its result is none where it does not return. -/
def function (r : Rounding) (splits : List Piece) : Ask → Option (Procedure (Option Given))
  | kvSet key value => some ((EtdbClient.kvSet key value).map fun s => some (.status s))
  | kvGet key => some ((EtdbClient.kvGet key).map fun (s, v) => some (.value s v))
  | kvDel key => some ((EtdbClient.kvDel key).map fun s => some (.status s))
  | kvMatchlongest key => some ((EtdbClient.kvMatchlongest key).map fun (s, l) => some (.list s l))
  | hashSet tb key value => some ((EtdbClient.hashSet tb key value).map fun s => some (.status s))
  | hashGet tb key => some ((EtdbClient.hashGet tb key).map fun (s, v) => some (.value s v))
  | hashDel tb key => some ((EtdbClient.hashDel tb key).map fun s => some (.status s))
  | setAdd sn item => some ((EtdbClient.setAdd sn item).map fun s => some (.status s))
  | setDel sn item => some ((EtdbClient.setDel sn item).map fun s => some (.status s))
  | setMembers sn => some ((EtdbClient.setMembers sn).map fun (s, l) => some (.list s l))
  | setIsmember sn item => some ((EtdbClient.setIsmember sn item).map fun s => some (.status s))
  | lstLpush ln item => some ((EtdbClient.lstLpush ln item).map fun s => some (.status s))
  | lstRpush ln item => some ((EtdbClient.lstRpush ln item).map fun s => some (.status s))
  | lstLtop ln => some ((EtdbClient.lstLtop ln).map fun (s, v) => some (.value s v))
  | lstRtop ln => some ((EtdbClient.lstRtop ln).map fun (s, v) => some (.value s v))
  | lstLpop ln => some ((EtdbClient.lstLpop ln).map fun s => some (.status s))
  | lstRpop ln => some ((EtdbClient.lstRpop ln).map fun s => some (.status s))
  | spatialPointSet id lat lon => do
    let f ← EtdbClient.spatialPointSet id lat lon
    some (f.map fun s => some (.status s))
  | spatialPointGet id =>
    some ((EtdbClient.spatialPointGet r splits id).map fun x => x.map fun (s, p) => .point s p)
  | spatialPointRectQuery lat1 lat2 lon1 lon2 => do
    let f ← EtdbClient.spatialPointRectQuery lat1 lat2 lon1 lon2
    some (f.map fun (s, l) => some (.list s l))

def op : Ask → Op
  | kvSet key value => .kvSet key value
  | kvGet key => .kvGet key
  | kvDel key => .kvDel key
  | kvMatchlongest key => .kvMatchLongest key
  | hashSet tb key value => .hashSet tb key value
  | hashGet tb key => .hashGet tb key
  | hashDel tb key => .hashDel tb key
  | setAdd sn item => .setAdd sn item
  | setDel sn item => .setDel sn item
  | setMembers sn => .setMembers sn
  | setIsmember sn item => .setIsmember sn item
  | lstLpush ln item => .listLpush ln item
  | lstRpush ln item => .listRpush ln item
  | lstLtop ln => .listLtop ln
  | lstRtop ln => .listRtop ln
  | lstLpop ln => .listLpop ln
  | lstRpop ln => .listRpop ln
  | spatialPointSet id lat lon => .spSet id (printFixed 6 lat) (printFixed 6 lon)
  | spatialPointGet id => .spGet id
  | spatialPointRectQuery lat1 lat2 lon1 lon2 =>
    .spRect (printFixed 6 lat1) (printFixed 6 lat2) (printFixed 6 lon1) (printFixed 6 lon2)

/-- The names of hashes and sets that the server takes. -/
def Fits : Ask → Prop
  | hashSet name _ _ | hashGet name _ | hashDel name _ | setAdd name _ | setDel name _ =>
    name.length ≤ 255
  | _ => True

/-- How the answer of the store comes back. The library does not say whether an item is a
    member; a point has two places behind the dot. -/
def back (r : Rounding) : Ask → Reply → Given
  | setIsmember _ _, _ => .status okText
  | kvGet _, .value value
  | hashGet _ _, .value value
  | lstLtop _, .value value
  | lstRtop _, .value value => .value okText (some value)
  | kvGet _, _ | hashGet _ _, _ | lstLtop _, _ | lstRtop _, _ => .value failText none
  | kvMatchlongest _, .longest matchLen value =>
    .list okText (some (okText :: longestText (some (matchLen, value))))
  | setMembers _, .members items | spatialPointRectQuery _ _ _ _, .members items =>
    .list okText (some (okText :: items))
  | kvMatchlongest _, _ | setMembers _, _ | spatialPointRectQuery _ _ _ _, _ =>
    .list failText (some [failText])
  | spatialPointGet _, .point lat lon code =>
    .point okText (some (atofRet r (printFixed 2 lat), atofRet r (printFixed 2 lon), code))
  | spatialPointGet _, _ => .point failText none
  | _, .status code => .status (Server.statusText code)
  | _, _ => .status failText

def command : Ask → Command
  | kvSet _ _ => ⟨bytes ['s', 'e', 't'], flagWrite ||| flagArg2, .kvSet⟩
  | kvGet _ => ⟨bytes ['g', 'e', 't'], flagRead ||| flagArg1, .kvGet⟩
  | kvDel _ => ⟨bytes ['d', 'e', 'l'], flagArg1, .kvDel⟩
  | kvMatchlongest _ => ⟨bytes "matchlongest".toList, flagArg1, .kvMatchlongest⟩
  | hashSet _ _ _ => ⟨bytes ['h', 's', 'e', 't'], flagArg3, .hashSet⟩
  | hashGet _ _ => ⟨bytes ['h', 'g', 'e', 't'], flagArg2, .hashGet⟩
  | hashDel _ _ => ⟨bytes ['h', 'd', 'e', 'l'], flagArg2, .hashDel⟩
  | setAdd _ _ => ⟨bytes ['s', 'a', 'd', 'd'], flagArg2more, .setAdd⟩
  | setDel _ _ => ⟨bytes ['s', 'd', 'e', 'l'], flagArg2more, .setDel⟩
  | setMembers _ => ⟨bytes "smembers".toList, flagArg1, .setMembers⟩
  | setIsmember _ _ => ⟨bytes "sismember".toList, flagArg2, .setIsmember⟩
  | lstLpush _ _ => ⟨bytes ['l', 'p', 'u', 's', 'h'], flagArg2more, .listLpush⟩
  | lstRpush _ _ => ⟨bytes ['r', 'p', 'u', 's', 'h'], flagArg2more, .listRpush⟩
  | lstLtop _ => ⟨bytes ['l', 't', 'o', 'p'], flagArg1, .listLtop⟩
  | lstRtop _ => ⟨bytes ['r', 't', 'o', 'p'], flagArg1, .listRtop⟩
  | lstLpop _ => ⟨bytes ['l', 'p', 'o', 'p'], flagArg1, .listLpop⟩
  | lstRpop _ => ⟨bytes ['r', 'p', 'o', 'p'], flagArg1, .listRpop⟩
  | spatialPointSet _ _ _ => ⟨bytes ['s', 'p', 's', 'e', 't'], flagArg3, .spSet⟩
  | spatialPointGet _ => ⟨bytes ['s', 'p', 'g', 'e', 't'], flagArg1, .spGet⟩
  | spatialPointRectQuery _ _ _ _ => ⟨bytes ['s', 'p', 'r', 'e', 'c', 't'], flagArg4, .spRect⟩

def args (a : Ask) : List (List UInt8) :=
  match a.op with
  | .kvSet key value | .setAdd key value | .setDel key value | .setIsmember key value
  | .listLpush key value | .listRpush key value | .hashGet key value | .hashDel key value => [key, value]
  | .kvGet key | .kvDel key | .kvMatchLongest key | .setMembers key | .listLpop key | .listRpop key
  | .listLtop key | .listRtop key | .spGet key | .spDel key => [key]
  | .hashSet name key value => [name, key, value]
  | .spSet id lat lon => [id, lat, lon]
  | .spRect lat1 lat2 lon1 lon2 => [lat1, lat2, lon1, lon2]

end Ask

section
variable {atof : List UInt8 → Option ℚ} {A A' : Stores} {S S' : Store} {req : Request}
variable {resp out : List (List UInt8)} {ret : Int} {r : Rounding} {splits : List Piece}
variable {f : Procedure (Option Given)}

theorem known_command : ∀ cmd ∈ modules.flatten,
    modules.flatten.find? (fun other => other.name = cmd.name.map EtdbWire.Buf.lower) = some cmd := by
  decide +kernel

theorem Ask.known (a : Ask) : a.command ∈ modules.flatten := by
  cases a <;> dsimp only [Ask.command] <;> decide +kernel

theorem Ask.strs (a : Ask) (called : a.function r splits = some f) : f.strs = a.command.name :: a.args := by
  cases a with
  | spatialPointSet id lat lon =>
    obtain ⟨g, runs, same⟩ := Option.bind_eq_some_iff.mp called
    cases same
    rw [spatialPointSet_runs runs]
    rfl
  | spatialPointRectQuery lat1 lat2 lon1 lon2 =>
    obtain ⟨g, runs, same⟩ := Option.bind_eq_some_iff.mp called
    cases same
    rw [spatialPointRectQuery_runs runs]
    rfl
  | _ =>
    cases called
    rfl

theorem Ask.counted (a : Ask) : parseArgs a.command.flags a.args.length = true := by
  cases a <;> dsimp only [Ask.command, Ask.args, Ask.op, List.length_cons, List.length_nil] <;>
    decide +kernel

theorem Ask.handled (a : Ask) (cmd : req.cmd = a.command.name) (args : req.args = a.args)
    (serves : A.Serves atof req resp A') :
    ∃ ret out, resp = Server.statusText ret :: out ∧ A.Handles atof req a.command.handler ret out A' := by
  rw [Stores.Serves, cmd, known_command _ a.known] at serves
  dsimp only at serves
  rw [args, if_pos a.counted] at serves
  exact serves

theorem Ask.meant (a : Ask) (fits : a.Fits) : a.command.handler.meaning a.args = .op a.op ∨
    ∃ name key, a = .setAdd name key ∧ a.command.handler.meaning a.args = .addAll name [key] ∨
      a = .setDel name key ∧ a.command.handler.meaning a.args = .delAll name [key] := by
  cases a with
  | hashSet name _ _ | hashGet name _ | hashDel name _ => exact Or.inl (if_neg (Nat.not_lt.mpr fits))
  | setAdd name key => exact Or.inr ⟨name, key, Or.inl ⟨rfl, if_neg (Nat.not_lt.mpr fits)⟩⟩
  | setDel name key => exact Or.inr ⟨name, key, Or.inr ⟨rfl, if_neg (Nat.not_lt.mpr fits)⟩⟩
  | _ => exact Or.inl rfl

theorem Ask.unmeant (a : Ask) (long : ¬ a.Fits) : a.command.handler.meaning a.args = .refused := by
  cases a with
  | hashSet name _ _ | hashGet name _ | hashDel name _ | setAdd name _ | setDel name _ =>
    exact if_pos (Nat.not_le.mp long)
  | _ => exact absurd trivial long

theorem Ask.does (a : Ask) (args : req.args = a.args)
    (handles : A.Handles atof req a.command.handler ret out A') :
    ∃ S', Does atof (A.stores (A.slotOf req.conn)) (a.command.handler.meaning a.args) ret out S' ∧
      A' = { A with stores := Function.update A.stores (A.slotOf req.conn) S' } := by
  rw [← args]
  cases a <;> exact handles

theorem Ask.done (a : Ask) (fits : a.Fits)
    (does : Does atof S (a.command.handler.meaning a.args) ret out S') :
    ∃ reply, S.Answers atof a.op reply ∧ (ret, out) = answer a.op reply ∧ S' = S.apply atof a.op := by
  obtain meant | ⟨name, key, ⟨rfl, meant⟩ | ⟨rfl, meant⟩⟩ := a.meant fits
  · rw [meant] at does
    exact does
  · rw [meant] at does
    obtain ⟨rfl, rfl, rfl⟩ := does
    exact ⟨.status 0, rfl, rfl, rfl⟩
  · rw [meant] at does
    obtain ⟨rfl, erased⟩ := does
    by_cases held : (S (Db.encodeSetHead name key)).isSome
    · rw [eraseAll, if_pos held, eraseAll] at erased
      obtain ⟨rfl, rfl⟩ := Prod.mk.inj erased
      refine ⟨.status 0, ?_, rfl, rfl⟩
      change _ = Ideal.done _
      rw [held]
      rfl
    · have absent : S (Db.encodeSetHead name key) = none := Option.not_isSome_iff_eq_none.mp held
      have kept : S = Function.update S (Db.encodeSetHead name key) none := by
        rw [← absent, Function.update_eq_self]
      rw [eraseAll, if_neg held] at erased
      obtain ⟨rfl, rfl⟩ := Prod.mk.inj erased
      refine ⟨.status (-1), ?_, rfl, kept⟩
      change _ = Ideal.done _
      rw [absent]
      rfl

theorem orFail_cases {α : Type} {make : α → Reply} {found : Option α} {reply : Reply}
    (same : reply = Db.orFail make found) : reply = .status (-1) ∨ ∃ a, reply = make a := by
  cases found with
  | none => exact Or.inl same
  | some a => exact Or.inr ⟨a, same⟩

theorem Ask.given (a : Ask) {reply : Reply} (slots : 3 ≤ splits.length)
    (called : a.function r splits = some f) (answers : S.Answers atof a.op reply)
    (pair : (ret, out) = answer a.op reply) :
    f.result (some (Server.statusText ret :: out)) = some (a.back r reply) := by
  cases a with
  | kvGet key | hashGet tb key | lstLtop ln | lstRtop ln =>
    cases called
    obtain ⟨rfl⟩ | ⟨value, rfl⟩ := orFail_cases answers <;> cases pair <;> rfl
  | kvMatchlongest key =>
    cases called
    obtain ⟨rfl⟩ | ⟨⟨matchLen, value⟩, rfl⟩ := orFail_cases answers <;> cases pair <;> rfl
  | setMembers sn =>
    cases called
    obtain ⟨items, rfl, _⟩ := answers
    cases pair
    rfl
  | spatialPointGet id =>
    cases called
    have answers := Store.answers_spGet.mp answers
    split at answers
    · obtain rfl := answers
      cases pair
      rfl
    · obtain ⟨code, encoded, rfl⟩ := answers
      cases pair
      have read := readPoint_text (EtdbGeoHash.encode_chars (by decide) encoded) r slots
      simp only [Procedure.map, EtdbClient.spatialPointGet, statusValue, read]
      rfl
  | spatialPointSet id lat lon =>
    obtain ⟨g, runs, same⟩ := Option.bind_eq_some_iff.mp called
    cases same
    rw [spatialPointSet_runs runs]
    obtain rfl := answers
    cases pair
    rfl
  | spatialPointRectQuery lat1 lat2 lon1 lon2 =>
    obtain ⟨g, runs, same⟩ := Option.bind_eq_some_iff.mp called
    cases same
    rw [spatialPointRectQuery_runs runs]
    have answers := Store.answers_spRect.mp answers
    split at answers
    · obtain ⟨ids, rfl, _⟩ := answers
      cases pair
      rfl
    · obtain rfl := answers
      cases pair
      rfl
  | _ =>
    cases called
    obtain rfl := answers
    cases pair
    rfl

theorem Ask.refused (a : Ask) (long : ¬ a.Fits) (called : a.function r splits = some f) :
    f.result (some [failText]) = some (a.back r (.status (-1))) := by
  cases a with
  | hashSet name _ _ | hashGet name _ | hashDel name _ | setAdd name _ | setDel name _ =>
    cases called
    rfl
  | _ => exact absurd trivial long

/-- A printed number is read and loses half a unit of its last place at most. -/
theorem atofRet_error {places : Nat} {q : ℚ} (nonneg : 0 ≤ q) (some : 0 < places) :
    |atofRet EtdbString.exactly (printFixed places q) - q| ≤ 1 / 2 / 10 ^ places := by
  rw [atofRet, printFixed_reads nonneg some, Option.getD_some]
  exact rounded_error nonneg places

theorem coordinates_taken {lat lon : ℚ} (latLow : 0 ≤ lat) (latHigh : lat ≤ 90) (lonLow : 0 ≤ lon)
    (lonHigh : lon ≤ 180) :
    Db.coordinates (EtdbString.atof EtdbString.exactly) (printFixed 6 lat) (printFixed 6 lon) =
      some (rounded 6 lat, rounded 6 lon) := by
  have lat0 := rounded_nonneg 6 lat
  have lon0 := rounded_nonneg 6 lon
  have lat90 : rounded 6 lat ≤ 90 := by
    exact_mod_cast rounded_le latLow (by exact_mod_cast latHigh : lat ≤ (90 : Nat)) 6
  have lon180 : rounded 6 lon ≤ 180 := by
    exact_mod_cast rounded_le lonLow (by exact_mod_cast lonHigh : lon ≤ (180 : Nat)) 6
  rw [Db.coordinates, printFixed_reads latLow (by decide), Option.bind_eq_bind, Option.bind_some,
    printFixed_reads lonLow (by decide), Option.bind_some, if_neg]
  rintro (low | high | low | high) <;> linarith

theorem point_stored (S : Store) (id : List UInt8) {lat lon : ℚ} (latLow : 0 ≤ lat) (latHigh : lat ≤ 90)
    (lonLow : 0 ≤ lon) (lonHigh : lon ≤ 180) :
    (S.apply (EtdbString.atof EtdbString.exactly) (Ask.spatialPointSet id lat lon).op).place
      (Db.encodeIdHead id) = some (rounded 6 lat, rounded 6 lon) := by
  change (S.apply _ (.spSet id _ _)).place _ = _
  rw [Store.apply_spSet, coordinates_taken latLow latHigh lonLow lonHigh]
  dsimp only
  rw [Store.place, Function.update_self]

end

/-- A function of the library that is called on a connection asks the store of this
    connection for its operation, and gives back its answer; with a name that is too long the
    server refuses it, and asks for nothing. -/
theorem library_asks_store (atof : List UInt8 → Option ℚ) (r : Rounding) (splits : List Piece)
    (slots : 3 ≤ splits.length) (a : Ask) (f : Procedure (Option Given))
    (called : a.function r splits = some f) (A A' : Stores) (req : Request)
    (same : req.cmd :: req.args = f.strs) (resp : List (List UInt8)) (serves : A.Serves atof req resp A') :
    (a.Fits → ∃ reply, (A.stores (A.slotOf req.conn)).Answers atof a.op reply ∧
      f.result (some resp) = some (a.back r reply) ∧
      A' = { A with stores :=
        Function.update A.stores (A.slotOf req.conn) ((A.stores (A.slotOf req.conn)).apply atof a.op) }) ∧
    (¬ a.Fits → f.result (some resp) = some (a.back r (.status (-1))) ∧ A' = A) := by
  rw [a.strs called] at same
  obtain ⟨cmd, args⟩ := List.cons.inj same
  obtain ⟨ret, out, rfl, handles⟩ := a.handled cmd args serves
  obtain ⟨S', does, rfl⟩ := a.does args handles
  constructor
  · intro fits
    obtain ⟨reply, answers, pair, rfl⟩ := a.done fits does
    exact ⟨reply, answers, a.given slots called answers pair, rfl⟩
  · intro long
    rw [a.unmeant long] at does
    obtain ⟨rfl, rfl, rfl⟩ := does
    exact ⟨a.refused long called, by rw [Function.update_eq_self]⟩

theorem library_asks_store_once : ∃ f1 f2 f3 resp1 resp2 resp3 A1 A2 A3,
    (Ask.hashSet [104] [107] [118]).function EtdbString.exactly (List.replicate 3 ⟨0, 0⟩) = some f1 ∧
    (Ask.hashGet [104] [107]).function EtdbString.exactly (List.replicate 3 ⟨0, 0⟩) = some f2 ∧
    (Ask.hashGet (List.replicate 256 104) [107]).function EtdbString.exactly
      (List.replicate 3 ⟨0, 0⟩) = some f3 ∧
    Stores.empty.Serves (fun _ => none)
      ⟨0, bytes ['h', 's', 'e', 't'], [[104], [107], [118]], 0, 0⟩ resp1 A1 ∧
    f1.result (some resp1) = some (.status okText) ∧
    A1.Serves (fun _ => none) ⟨0, bytes ['h', 'g', 'e', 't'], [[104], [107]], 0, 0⟩ resp2 A2 ∧
    f2.result (some resp2) = some (.value okText (some [118])) ∧
    A2.Serves (fun _ => none)
      ⟨0, bytes ['h', 'g', 'e', 't'], [List.replicate 256 104, [107]], 0, 0⟩ resp3 A3 ∧
    f3.result (some resp3) = some (.value failText none) ∧ A3 = A2 := by
  obtain ⟨s, _, stands⟩ := init_stands
  obtain ⟨resp1, s1, A1, _, serves1, stands1⟩ := serve_spec (fun _ => none) (fun _ => ⟨0, 0, 0⟩) stands
    ⟨0, bytes ['h', 's', 'e', 't'], [[104], [107], [118]], 0, 0⟩
  obtain ⟨resp2, s2, A2, _, serves2, stands2⟩ := serve_spec (fun _ => none) (fun _ => ⟨0, 0, 0⟩) stands1
    ⟨0, bytes ['h', 'g', 'e', 't'], [[104], [107]], 0, 0⟩
  obtain ⟨resp3, s3, A3, _, serves3, _⟩ := serve_spec (fun _ => none) (fun _ => ⟨0, 0, 0⟩) stands2
    ⟨0, bytes ['h', 'g', 'e', 't'], [List.replicate 256 104, [107]], 0, 0⟩
  have asks := library_asks_store (fun _ => none) EtdbString.exactly (List.replicate 3 ⟨0, 0⟩) (by decide)
  obtain ⟨asked1, _⟩ := asks (.hashSet [104] [107] [118]) _ rfl _ _ _ rfl _ serves1
  obtain ⟨asked2, _⟩ := asks (.hashGet [104] [107]) _ rfl _ _ _ rfl _ serves2
  obtain ⟨_, refused⟩ := asks (.hashGet (List.replicate 256 104) [107]) _ rfl _ _ _ rfl _ serves3
  obtain ⟨_, rfl, given1, same1⟩ := asked1 (by decide : 1 ≤ 255)
  obtain ⟨reply2, answers2, given2, _⟩ := asked2 (by decide : 1 ≤ 255)
  have long : ¬ (Ask.hashGet (List.replicate 256 104) [107]).Fits := by
    change ¬ (List.replicate 256 (104 : UInt8)).length ≤ 255
    rw [List.length_replicate]
    decide
  obtain ⟨given3, same3⟩ := refused long
  have found : reply2 = .value [118] := by
    rw [same1] at answers2
    exact answers2.trans (by decide +kernel)
  rw [found] at given2
  exact ⟨_, _, _, resp1, resp2, resp3, A1, A2, A3, rfl, rfl, rfl, serves1, given1, serves2, given2,
    serves3, given3, same3⟩

/-- A point that is set is found again, with an error of little more than half a unit of the
    second place behind the dot, when nothing but the texts is rounded. -/
theorem point_comes_back (S : Store) (id : List UInt8) (lat lon : ℚ) (latLow : 0 ≤ lat)
    (latHigh : lat ≤ 90) (lonLow : 0 ≤ lon) (lonHigh : lon ≤ 180) (reply : Reply)
    (answers : (S.apply (EtdbString.atof EtdbString.exactly) (Ask.spatialPointSet id lat lon).op).Answers
      (EtdbString.atof EtdbString.exactly) (Ask.spatialPointGet id).op reply) :
    ∃ lat' lon' code,
      (Ask.spatialPointGet id).back EtdbString.exactly reply = .point okText (some (lat', lon', code)) ∧
      |lat' - lat| ≤ 1 / 2 / 10 ^ 2 + 1 / 2 / 10 ^ 6 ∧
      |lon' - lon| ≤ 1 / 2 / 10 ^ 2 + 1 / 2 / 10 ^ 6 := by
  have answers := Store.answers_spGet.mp answers
  rw [point_stored S id latLow latHigh lonLow lonHigh] at answers
  obtain ⟨code, _, rfl⟩ := answers
  refine ⟨_, _, code, rfl, ?_, ?_⟩
  · calc |_ - lat| ≤ |atofRet EtdbString.exactly (printFixed 2 (rounded 6 lat)) - rounded 6 lat| +
          |rounded 6 lat - lat| := abs_sub_le _ _ _
      _ ≤ _ := add_le_add (atofRet_error (rounded_nonneg 6 lat) (by decide)) (rounded_error latLow 6)
  · calc |_ - lon| ≤ |atofRet EtdbString.exactly (printFixed 2 (rounded 6 lon)) - rounded 6 lon| +
          |rounded 6 lon - lon| := abs_sub_le _ _ _
      _ ≤ _ := add_le_add (atofRet_error (rounded_nonneg 6 lon) (by decide)) (rounded_error lonLow 6)

theorem point_comes_back_once : ∃ reply lat' lon' code,
    (Store.empty.apply (EtdbString.atof EtdbString.exactly)
      (Ask.spatialPointSet [97] (1 / 3) 0).op).Answers
      (EtdbString.atof EtdbString.exactly) (Ask.spatialPointGet [97]).op reply ∧
    (Ask.spatialPointGet [97]).back EtdbString.exactly reply = .point okText (some (lat', lon', code)) ∧
    |lat' - 1 / 3| ≤ 1 / 2 / 10 ^ 2 + 1 / 2 / 10 ^ 6 ∧ |lon' - 0| ≤ 1 / 2 / 10 ^ 2 + 1 / 2 / 10 ^ 6 := by
  have latHigh : (1 / 3 : ℚ) ≤ 90 := by norm_num
  have latLow : (0 : ℚ) ≤ 1 / 3 := by norm_num
  have stored := point_stored Store.empty [97] latLow latHigh le_rfl (by norm_num : (0 : ℚ) ≤ 180)
  obtain ⟨latHigh', latLow', lonHigh', lonLow'⟩ :=
    coordinates_range (coordinates_taken latLow latHigh le_rfl (by norm_num : (0 : ℚ) ≤ 180))
  obtain ⟨code, encoded⟩ := EtdbGeoHash.encode_inside Db.geoHashPrecisionLen latHigh' latLow'
    lonHigh' lonLow'
  have answers : (Store.empty.apply (EtdbString.atof EtdbString.exactly)
      (Ask.spatialPointSet [97] (1 / 3) 0).op).Answers
      (EtdbString.atof EtdbString.exactly) (Ask.spatialPointGet [97]).op
      (.point (rounded 6 (1 / 3)) (rounded 6 0) code) := by
    refine Store.answers_spGet.mpr ?_
    rw [stored]
    exact ⟨code, encoded, rfl⟩
  obtain ⟨lat', lon', code', back, near⟩ :=
    point_comes_back Store.empty [97] (1 / 3) 0 latLow latHigh le_rfl (by norm_num) _ answers
  exact ⟨_, lat', lon', code', answers, back, near⟩

/-- A coordinate below 0 is refused, however the server rounds. -/
theorem point_refused (A A' : Stores) (r : Rounding) (id : List UInt8) (lat lon : ℚ)
    (negative : lat < 0 ∨ lon < 0) :
    (|lat| < 10 ^ 118 → |lon| < 10 ^ 118 → (spatialPointSet id lat lon).isSome = true) ∧
    ∀ f req resp, spatialPointSet id lat lon = some f → req.cmd :: req.args = f.strs →
      A.Serves (EtdbString.atof r) req resp A' → f.result (some resp) = failText ∧ A' = A := by
  constructor
  · intro latSmall lonSmall
    rw [spatialPointSet, coordinate_printed latSmall, coordinate_printed lonSmall]
    rfl
  · intro f req resp called same serves
    rw [spatialPointSet_runs called] at same ⊢
    obtain ⟨cmd, args⟩ := List.cons.inj same
    obtain ⟨ret, out, rfl, handles⟩ := (Ask.spatialPointSet id lat lon).handled cmd args serves
    obtain ⟨S', does, rfl⟩ := (Ask.spatialPointSet id lat lon).does args handles
    obtain ⟨reply, answers, pair, rfl⟩ := (Ask.spatialPointSet id lat lon).done trivial does
    have none : Db.coordinates (EtdbString.atof r) (printFixed 6 lat) (printFixed 6 lon) = none := by
      rw [Db.coordinates]
      rcases negative with south | west
      · rw [printFixed_refused south]
        rfl
      · rw [printFixed_refused west]
        cases EtdbString.atof r (printFixed 6 lat) <;> rfl
    have kept : (A.stores (A.slotOf req.conn)).apply (EtdbString.atof r)
        (Ask.spatialPointSet id lat lon).op = A.stores (A.slotOf req.conn) := by
      change Store.apply _ _ (.spSet id _ _) = _
      rw [Store.apply_spSet, none]
    obtain rfl : reply = Ideal.done
        (Db.coordinates (EtdbString.atof r) (printFixed 6 lat) (printFixed 6 lon)).isSome := answers
    rw [none] at pair
    cases pair
    exact ⟨rfl, by rw [kept, Function.update_eq_self]⟩

theorem point_refused_once : ∃ f resp A', spatialPointSet [97] (-1) 0 = some f ∧
    Stores.empty.Serves (EtdbString.atof EtdbString.exactly) ⟨0, bytes ['s', 'p', 's', 'e', 't'],
      [[97], printFixed 6 (-1), printFixed 6 0], 0, 0⟩ resp A' ∧
    f.result (some resp) = failText ∧ A' = Stores.empty := by
  obtain ⟨s, _, stands⟩ := init_stands
  obtain ⟨resp, _, A', _, serves, _⟩ := serve_spec (EtdbString.atof EtdbString.exactly)
    (fun _ => ⟨0, 0, 0⟩) stands ⟨0, bytes ['s', 'p', 's', 'e', 't'],
      [[97], printFixed 6 (-1), printFixed 6 0], 0, 0⟩
  obtain ⟨prints, refuses⟩ := point_refused Stores.empty A' EtdbString.exactly [97] (-1) 0
    (Or.inl (by norm_num))
  obtain ⟨f, called⟩ := Option.isSome_iff_exists.mp (prints (by norm_num) (by norm_num))
  obtain ⟨fails, same⟩ := refuses f _ resp called (by rw [spatialPointSet_runs called]; rfl) serves
  exact ⟨f, resp, A', called, serves, fails, same⟩

end EtdbClient
