import Etdb.Database.Operations

/- What the commands are for: independent maps, sets, queues and locations under their
   own names, and an answer for every command. Nothing here speaks of keys in a trie. -/
namespace EtdbDatabase

inductive Kind where
  | kv
  | hash
  | set
  | list
  | point
  deriving DecidableEq

namespace Op

def kind : Op → Kind
  | .kvSet _ _ | .kvGet _ | .kvDel _ | .kvMatchLongest _ => .kv
  | .hashSet _ _ _ | .hashGet _ _ | .hashDel _ _ => .hash
  | .setAdd _ _ | .setDel _ _ | .setMembers _ | .setIsmember _ _ => .set
  | .listLpush _ _ | .listRpush _ _ | .listLpop _ | .listRpop _ | .listLtop _ | .listRtop _ => .list
  | .spSet _ _ _ | .spGet _ | .spDel _ | .spRect _ _ _ _ => .point

def isQuery : Op → Bool
  | .kvGet _ | .kvMatchLongest _ | .hashGet _ _ | .setMembers _ | .setIsmember _ _ | .listLtop
      _ | .listRtop _
  | .spGet _ | .spRect _ _ _ _ => true
  | _ => false

end Op

structure Ideal where
  kv : List UInt8 → Option (List UInt8)
  hash : List UInt8 → List UInt8 → Option (List UInt8)
  set : List UInt8 → List UInt8 → Bool
  list : List UInt8 → List (List UInt8)
  point : List UInt8 → Option (ℚ × ℚ)

namespace Ideal

def empty : Ideal where
  kv := fun _ => none
  hash := fun _ _ => none
  set := fun _ _ => false
  list := fun _ => []
  point := fun _ => none

def putHash (s : Ideal) (name key : List UInt8) (value : Option (List UInt8)) : Ideal :=
  { s with hash := Function.update s.hash name (Function.update (s.hash name) key value) }

def putSet (s : Ideal) (name key : List UInt8) (member : Bool) : Ideal :=
  { s with set := Function.update s.set name (Function.update (s.set name) key member) }

def putList (s : Ideal) (name : List UInt8) (values : List (List UInt8)) : Ideal :=
  { s with list := Function.update s.list name values }

/-- A location that is refused changes nothing. -/
def apply (atof : List UInt8 → Option ℚ) (s : Ideal) : Op → Ideal
  | .kvSet key value => { s with kv := Function.update s.kv key (some value) }
  | .kvDel key => { s with kv := Function.update s.kv key none }
  | .hashSet name key value => s.putHash name key (some value)
  | .hashDel name key => s.putHash name key none
  | .setAdd name key => s.putSet name key true
  | .setDel name key => s.putSet name key false
  | .listLpush name value => s.putList name (value :: s.list name)
  | .listRpush name value => s.putList name (s.list name ++ [value])
  | .listLpop name => s.putList name (s.list name).tail
  | .listRpop name => s.putList name (s.list name).dropLast
  | .spSet id lat lon =>
    match Db.coordinates atof lat lon with
    | none => s
    | some p => { s with point := Function.update s.point id (some p) }
  | .spDel id => { s with point := Function.update s.point id none }
  | _ => s

def after (atof : List UInt8 → Option ℚ) (s : Ideal) : List Op → Ideal
  | [] => s
  | op :: rest => (s.apply atof op).after atof rest

def done (found : Bool) : Reply := .status (if found then 0 else -1)

def longest (s : Ideal) (key : List UInt8) : Option (Nat × List UInt8) :=
  key.inits.reverse.findSome? fun P => (s.kv P).map fun value => (P.length, value)

/-- The ids that a rectangle holds, each once. -/
def Holds (s : Ideal) (lat1 lat2 lon1 lon2 : ℚ) (ids : List (List UInt8)) : Prop :=
  ids.Nodup ∧ ∀ id, id ∈ ids ↔ ∃ lat lon, s.point id = some (lat, lon) ∧
    EtdbGeoHash.Inside lat1 lat2 lon1 lon2 lat lon

def Answers (atof : List UInt8 → Option ℚ) (s : Ideal) : Op → Reply → Prop
  | .kvSet _ _, r => r = done true
  | .kvGet key, r => r = Db.orFail .value (s.kv key)
  | .kvDel key, r => r = done (s.kv key).isSome
  | .kvMatchLongest key, r => r = Db.orFail (fun (matchLen, bytes) => .longest matchLen bytes)
      (s.longest key)
  | .hashSet _ _ _, r => r = done true
  | .hashGet name key, r => r = Db.orFail .value (s.hash name key)
  | .hashDel name key, r => r = done (s.hash name key).isSome
  | .setAdd _ _, r => r = done true
  | .setDel name key, r => r = done (s.set name key)
  | .setMembers name, r => ∃ items, r = .members items ∧ items.Nodup ∧ ∀ key, key ∈ items ↔
      s.set name key = true
  | .setIsmember name key, r => r = .status (if s.set name key then 1 else 0)
  | .listLpush _ _, r => r = done true
  | .listRpush _ _, r => r = done true
  | .listLpop name, r => r = done (!(s.list name).isEmpty)
  | .listRpop name, r => r = done (!(s.list name).isEmpty)
  | .listLtop name, r => r = Db.orFail .value (s.list name).head?
  | .listRtop name, r => r = Db.orFail .value (s.list name).getLast?
  | .spSet _ lat lon, r => r = done (Db.coordinates atof lat lon).isSome
  | .spGet id, r =>
    match s.point id with
    | none => r = Db.failed
    | some (lat, lon) => ∃ code, EtdbGeoHash.encode lat lon Db.geoHashPrecisionLen = some code ∧
        r = .point lat lon code
  | .spDel id, r => r = done (s.point id).isSome
  | .spRect lat1 lat2 lon1 lon2, r =>
    match Db.coordinates atof lat1 lon1, Db.coordinates atof lat2 lon2 with
    | some (lat1, lon1), some (lat2, lon2) => ∃ ids, r = .members ids ∧ s.Holds lat1 lat2 lon1 lon2 ids
    | _, _ => r = Db.failed

/-- The replies to the commands of one kind are the ideal ones, in a run of any commands. -/
def AnswersRun (atof : List UInt8 → Option ℚ) (kind : Kind) (s : Ideal) : List Op → List Reply → Prop
  | [], replies => replies = []
  | _ :: _, [] => False
  | op :: rest, r :: replies => (op.kind = kind → s.Answers atof op r) ∧
      (s.apply atof op).AnswersRun atof kind rest replies

end Ideal
end EtdbDatabase
