import Etdb.Database.State

/- The commands of etdb_database.c on one slot. Each takes the bytes of its request and
   gives the answer and the slot after it; none is a use of a bad pointer. A status
   below 0 is a failure. -/
namespace EtdbDatabase
open EtdbTrie

namespace Db

/- Key heads. -/
def kvHead : UInt8 := 48
def hashHead : UInt8 := 49
def setHead : UInt8 := 50
def listHead : UInt8 := 51
def spatialPointHead1 : UInt8 := 97
def spatialPointHead2 : UInt8 := 98

def geoHashPrecisionLen : Nat := 9

/-- The trie key that the head macros of kv and list build in front of a key. -/
def encodeKvHead (key : List UInt8) : List UInt8 := kvHead :: key
def encodeListHead (key : List UInt8) : List UInt8 := listHead :: key

/-- The head macros of hash and set copy the last `pos` bytes of the name; in front of
    them go one byte of its length and the head. -/
def encodeName (head : UInt8) (pos : Nat) (name key : List UInt8) : List UInt8 :=
  head :: UInt8.ofNat name.length :: (name.drop (name.length - pos) ++ key)

/-- In both macros `pos` starts at 0. -/
def encodeHashHead (name key : List UInt8) : List UInt8 := encodeName hashHead 0 name key
def encodeSetHead (name key : List UInt8) : List UInt8 := encodeName setHead 0 name key

/-- kv_set and hash_set once the key is built. -/
def storeValue (db : Db) (type : UInt8) (key value : List UInt8) : Option (Int × Db) := do
  let (head, db) := db.alloc (.value ⟨type, value.length % 2 ^ 24, value⟩)
  let (p, db) ← db.trieUpdate key head
  if p < 0 then do
    let db ← db.free head
    some (-1, db)
  else some (0, db)

def fetchValue (db : Db) (key : List UInt8) : Option (Option (List UInt8)) := do
  let p ← db.trie.exactMatchSearch key
  if p < 0 then some none
  else do
    let head ← db.valueAt p
    some (some (head.data.take head.size))

def dropValue (db : Db) (key : List UInt8) : Option (Int × Db) := do
  let (p, db) ← db.trieErase key
  if p < 0 then some (-1, db)
  else do
    let db ← db.free p
    some (0, db)

def kvSet (db : Db) (key value : List UInt8) : Option (Int × Db) :=
    db.storeValue typeKv (encodeKvHead key) value
def kvGet (db : Db) (key : List UInt8) : Option (Option (List UInt8)) := db.fetchValue (encodeKvHead key)
def kvDel (db : Db) (key : List UInt8) : Option (Int × Db) := db.dropValue (encodeKvHead key)

/-- The value under the longest prefix and that prefix's length without the head. -/
def kvMatchLongest (db : Db) (key : List UInt8) : Option (Option (Nat × List UInt8)) := do
  let best ← db.trie.matchLongestSearch (encodeKvHead key)
  match best with
  | none => some none
  | some (p, matchLen) =>
    if p < 0 then some none
    else do
      let head ← db.valueAt p
      some (some (matchLen - 1, head.data.take head.size))

def hashSet (db : Db) (name key value : List UInt8) : Option (Int × Db) :=
  db.storeValue typeHash (encodeHashHead name key) value
def hashGet (db : Db) (name key : List UInt8) : Option (Option (List UInt8)) :=
  db.fetchValue (encodeHashHead name key)
def hashDel (db : Db) (name key : List UInt8) : Option (Int × Db) :=
    db.dropValue (encodeHashHead name key)

def setAdd (db : Db) (name key : List UInt8) : Option (Int × Db) := do
  let (p, db) ← db.trieUpdate (encodeSetHead name key) 1
  if p < 0 then some (-1, db) else some (0, db)

def setDel (db : Db) (name key : List UInt8) : Option (Int × Db) := do
  let (p, db) ← db.trieErase (encodeSetHead name key)
  if p < 0 then some (-1, db) else some (0, db)

def setMembers (db : Db) (name : List UInt8) : Option (List (List UInt8)) := do
  let (_, entries) ← db.trie.commonPrefixPathSearch (encodeSetHead name [])
  some (entries.map Prod.fst)

def setIsmember (db : Db) (name key : List UInt8) : Option Int := do
  let p ← db.trie.exactMatchSearch (encodeSetHead name key)
  some (if p < 0 then 0 else 1)

/- etdb_list.h and the queue macros it uses. -/

def listNew (db : Db) : Int × Db := db.alloc (.list ⟨0, db.fresh, db.fresh, []⟩)

def queueInsertHead (db : Db) (h x : Int) : Option Db := do
  let head ← db.listAt h
  let db ← db.modifyList x fun l => { l with next := head.next }
  let l ← db.listAt x
  let db ← db.modifyList l.next fun l => { l with prev := x }
  let db ← db.modifyList x fun l => { l with prev := h }
  db.modifyList h fun l => { l with next := x }

def queueInsertTail (db : Db) (h x : Int) : Option Db := do
  let head ← db.listAt h
  let db ← db.modifyList x fun l => { l with prev := head.prev }
  let l ← db.listAt x
  let db ← db.modifyList l.prev fun l => { l with next := x }
  let db ← db.modifyList x fun l => { l with next := h }
  db.modifyList h fun l => { l with prev := x }

def queueRemove (db : Db) (x : Int) : Option Db := do
  let l ← db.listAt x
  let db ← db.modifyList l.next fun n => { n with prev := l.prev }
  let l ← db.listAt x
  db.modifyList l.prev fun n => { n with next := l.next }

/-- A new record for a value; its links are set by the insertion. -/
def listItem (db : Db) (value : List UInt8) : Int × Db :=
    db.alloc (.list ⟨value.length % 2 ^ 32, 0, 0, value⟩)

def listLpushAt (db : Db) (head : Int) (value : List UInt8) : Option Db :=
  (db.listItem value).2.queueInsertHead head (db.listItem value).1

def listRpushAt (db : Db) (head : Int) (value : List UInt8) : Option Db :=
  (db.listItem value).2.queueInsertTail head (db.listItem value).1

/-- etdb_list_lpop and etdb_list_rpop, for the node they take. -/
def listRemove (db : Db) (l : Int) : Option Db := do
  let db ← db.queueRemove l
  db.free l

/-- Writing TYPE_LIST over the first byte of a list head overwrites the low byte of `size`. -/
def tagList (l : ListNode) : ListNode := { l with size := l.size - l.size % 256 + typeList }

/-- lpush and rpush. After a failed update the source frees the address of the queue in
    the head, which etdb_alloc never returned. -/
def listPush (push : Db → Int → List UInt8 → Option Db) (db : Db) (name value : List UInt8) :
    Option (Int × Db) := do
  let p ← db.trie.exactMatchSearch (encodeListHead name)
  if p < 0 then do
    let (head, db) := db.listNew
    let db ← db.modifyList head tagList
    let db ← push db head value
    let (p, db) ← db.trieUpdate (encodeListHead name) head
    if p < 0 then none else some (0, db)
  else do
    let db ← push db p value
    some (0, db)

def listPop (which : ListNode → Int) (db : Db) (name : List UInt8) : Option (Int × Db) := do
  let p ← db.trie.exactMatchSearch (encodeListHead name)
  if p < 0 then some (-1, db)
  else do
    let head ← db.listAt p
    if head.prev = p then some (-1, db)
    else do
      let db ← db.listRemove (which head)
      let head ← db.listAt p
      if head.prev = p then do
        let (p, db) ← db.trieErase (encodeListHead name)
        if p < 0 then some (-1, db)
        else do
          let db ← db.free p
          some (0, db)
      else some (0, db)

def listTop (which : ListNode → Int) (db : Db) (name : List UInt8) : Option (Option (List UInt8)) := do
  let p ← db.trie.exactMatchSearch (encodeListHead name)
  if p < 0 then some none
  else do
    let head ← db.listAt p
    if head.prev = p then some none
    else do
      let l ← db.listAt (which head)
      some (some (l.data.take l.size))

def listLpush (db : Db) (name value : List UInt8) : Option (Int × Db) :=
    db.listPush listLpushAt name value
def listRpush (db : Db) (name value : List UInt8) : Option (Int × Db) :=
    db.listPush listRpushAt name value
def listLpop (db : Db) (name : List UInt8) : Option (Int × Db) := db.listPop ListNode.next name
def listRpop (db : Db) (name : List UInt8) : Option (Int × Db) := db.listPop ListNode.prev name
def listLtop (db : Db) (name : List UInt8) : Option (Option (List UInt8)) := db.listTop ListNode.next name
def listRtop (db : Db) (name : List UInt8) : Option (Option (List UInt8)) := db.listTop ListNode.prev name

/- Spatial points. -/

def encodeIdHead (id : List UInt8) : List UInt8 := spatialPointHead1 :: id
def encodeIndexHead (code id : List UInt8) : List UInt8 := spatialPointHead2 :: (code ++ id)

/-- The coordinates of a request that passes the checks; `atof` reads a number. -/
def coordinates (atof : List UInt8 → Option ℚ) (lat lon : List UInt8) : Option (ℚ × ℚ) := do
  let latD ← atof lat
  let lonD ← atof lon
  if latD < -90 ∨ 90 < latD ∨ lonD < -180 ∨ 180 < lonD then none else some (latD, lonD)

def spFirst (db : Db) (id code : List UInt8) (latD lonD : ℚ) : Option (Int × Db) := do
  let (head, db) := db.alloc (.point ⟨typeSpatialPoint, latD, lonD, code, 2⟩)
  let (p, db) ← db.trieUpdate (encodeIdHead id) head
  if p < 0 then do
    let db ← db.free head
    some (-1, db)
  else do
    let (p, db) ← db.trieUpdate (encodeIndexHead code id) head
    if p < 0 then do
      let (_, db) ← db.trieErase (encodeIdHead id)
      let db ← db.free head
      some (-1, db)
    else some (0, db)

/-- A later location: the new index key, the old one erased, the record rewritten. -/
def spLater (db : Db) (p : Int) (id code : List UInt8) (latD lonD : ℚ) : Option (Int × Db) := do
  let head ← db.pointAt p
  if code ≠ head.geoHashCode then do
    let (q, db) ← db.trieUpdate (encodeIndexHead code id) p
    if q < 0 then some (-1, db)
    else do
      let (_, db) ← db.trieErase (encodeIndexHead head.geoHashCode id)
      let db ← db.modifyPoint p fun h => { h with geoHashCode := code }
      let db ← db.modifyPoint p fun h => { h with latD := latD, lonD := lonD }
      some (0, db)
  else do
    let db ← db.modifyPoint p fun h => { h with latD := latD, lonD := lonD }
    some (0, db)

def spSet (atof : List UInt8 → Option ℚ) (db : Db) (id lat lon : List UInt8) : Option (Int × Db) :=
  match coordinates atof lat lon with
  | none => some (-1, db)
  | some (latD, lonD) => do
    let p ← db.trie.exactMatchSearch (encodeIdHead id)
    let code ← EtdbGeoHash.encode latD lonD geoHashPrecisionLen
    if p < 0 then db.spFirst id code latD lonD else db.spLater p id code latD lonD

def spGet (db : Db) (id : List UInt8) : Option (Option (ℚ × ℚ × List UInt8)) := do
  let p ← db.trie.exactMatchSearch (encodeIdHead id)
  if p < 0 then some none
  else do
    let head ← db.pointAt p
    some (some (head.latD, head.lonD, head.geoHashCode))

def spDel (db : Db) (id : List UInt8) : Option (Int × Db) := do
  let (p, db) ← db.trieErase (encodeIdHead id)
  if p < 0 then some (-1, db)
  else do
    let head ← db.pointAt p
    let (_, db) ← db.trieErase (encodeIndexHead head.geoHashCode id)
    let db ← db.free p
    some (0, db)

/-- The loop over the found entries: what is before the id is cut off and a point outside
    the corners as given is taken out. A suffix that is too short makes the length wrap. -/
def spFilter (db : Db) (lat1 lat2 lon1 lon2 : ℚ) (cut : Nat) :
    List (List UInt8 × Int) → Option (List (List UInt8))
  | [] => some []
  | (suffix, p) :: rest => do
    let head ← db.pointAt p
    if suffix.length < cut then none
    else do
      let out ← db.spFilter lat1 lat2 lon1 lon2 cut rest
      some (if head.latD < lat1 ∨ lat2 < head.latD ∨ head.lonD < lon1 ∨ lon2 < head.lonD then out
        else suffix.drop cut :: out)

/-- The buffer `hash[13]`, zero but for the head and the characters of the cover. -/
def coverKey (cover : List UInt8 × Nat) : List UInt8 :=
  (spatialPointHead2 :: (cover.1 ++ List.replicate (12 - cover.1.length) 0)).take (cover.2 + 1)

def spRectAt (db : Db) (lat1 lat2 lon1 lon2 : ℚ) : Option (List (List UInt8)) := do
  let cover := EtdbGeoHash.getMaxCover lat1 lat2 lon1 lon2 geoHashPrecisionLen
  let (_, entries) ← db.trie.commonPrefixPathSearch (coverKey cover)
  db.spFilter lat1 lat2 lon1 lon2 (geoHashPrecisionLen - cover.2) entries

def spRect (atof : List UInt8 → Option ℚ) (db : Db) (lat1 lat2 lon1 lon2 : List UInt8) :
    Option (Option (List (List UInt8))) :=
  match coordinates atof lat1 lon1, coordinates atof lat2 lon2 with
  | some (lat1, lon1), some (lat2, lon2) => (db.spRectAt lat1 lat2 lon1 lon2).map some
  | _, _ => some none

end Db

inductive Op where
  | kvSet (key value : List UInt8)
  | kvGet (key : List UInt8)
  | kvDel (key : List UInt8)
  | kvMatchLongest (key : List UInt8)
  | hashSet (name key value : List UInt8)
  | hashGet (name key : List UInt8)
  | hashDel (name key : List UInt8)
  | setAdd (name key : List UInt8)
  | setDel (name key : List UInt8)
  | setMembers (name : List UInt8)
  | setIsmember (name key : List UInt8)
  | listLpush (name value : List UInt8)
  | listRpush (name value : List UInt8)
  | listLpop (name : List UInt8)
  | listRpop (name : List UInt8)
  | listLtop (name : List UInt8)
  | listRtop (name : List UInt8)
  | spSet (id lat lon : List UInt8)
  | spGet (id : List UInt8)
  | spDel (id : List UInt8)
  | spRect (lat1 lat2 lon1 lon2 : List UInt8)
  deriving DecidableEq

inductive Reply where
  | status (code : Int)
  | value (bytes : List UInt8)
  | longest (matchLen : Nat) (bytes : List UInt8)
  | members (items : List (List UInt8))
  | point (latD lonD : ℚ) (code : List UInt8)
  deriving DecidableEq

namespace Db

def failed : Reply := .status (-1)

def query {α : Type} (db : Db) (run : Option α) (reply : α → Reply) : Option (Reply × Db) :=
  run.map fun a => (reply a, db)

def command (run : Option (Int × Db)) : Option (Reply × Db) := run.map fun (code, db) =>
    (.status code, db)

def orFail {α : Type} (reply : α → Reply) : Option α → Reply
  | none => failed
  | some a => reply a

def step (atof : List UInt8 → Option ℚ) (db : Db) : Op → Option (Reply × Db)
  | .kvSet key value => command (db.kvSet key value)
  | .kvGet key => db.query (db.kvGet key) (orFail .value)
  | .kvDel key => command (db.kvDel key)
  | .kvMatchLongest key => db.query (db.kvMatchLongest key)
      (orFail fun (matchLen, bytes) => .longest matchLen bytes)
  | .hashSet name key value => command (db.hashSet name key value)
  | .hashGet name key => db.query (db.hashGet name key) (orFail .value)
  | .hashDel name key => command (db.hashDel name key)
  | .setAdd name key => command (db.setAdd name key)
  | .setDel name key => command (db.setDel name key)
  | .setMembers name => db.query (db.setMembers name) .members
  | .setIsmember name key => db.query (db.setIsmember name key) .status
  | .listLpush name value => command (db.listLpush name value)
  | .listRpush name value => command (db.listRpush name value)
  | .listLpop name => command (db.listLpop name)
  | .listRpop name => command (db.listRpop name)
  | .listLtop name => db.query (db.listLtop name) (orFail .value)
  | .listRtop name => db.query (db.listRtop name) (orFail .value)
  | .spSet id lat lon => command (db.spSet atof id lat lon)
  | .spGet id => db.query (db.spGet id) (orFail fun (lat, lon, code) => .point lat lon code)
  | .spDel id => command (db.spDel id)
  | .spRect lat1 lat2 lon1 lon2 => db.query (db.spRect atof lat1 lat2 lon1 lon2) (orFail .members)

def run (atof : List UInt8 → Option ℚ) (db : Db) : List Op → Option (List Reply × Db)
  | [] => some ([], db)
  | op :: rest => do
    let (r, db) ← db.step atof op
    let (l, db) ← db.run atof rest
    some (r :: l, db)

end Db
end EtdbDatabase
