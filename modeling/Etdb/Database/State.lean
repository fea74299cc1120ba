import Etdb.Geo.Hash
import Etdb.Trie.Typed

/- One slot of etdb_database.c: its trie, and the records that etdb_alloc handed out, by
   address. Addresses are never handed out twice. Following a pointer to anything but a
   live record of the right kind ends the run with none, and so does a second free. -/
namespace EtdbDatabase
open EtdbTrie

def typeKv : UInt8 := 1
def typeHash : UInt8 := 2
def typeList : Nat := 4
def typeSpatialPoint : UInt8 := 5

/-- etdb_value_head_t with the bytes behind it; `size` has 24 bits. -/
structure ValueHead where
  type : UInt8
  size : Nat
  data : List UInt8

/-- etdb_list_t; the queue links are the records they lie in, `size` has 32 bits. -/
structure ListNode where
  size : Nat
  prev : Int
  next : Int
  data : List UInt8

/-- etdb_value_sp_head_t -/
structure SpHead where
  type : UInt8
  latD : ℚ
  lonD : ℚ
  geoHashCode : List UInt8
  ref : Nat

inductive Record where
  | value (head : ValueHead)
  | list (node : ListNode)
  | point (head : SpHead)

structure Db where
  trie : Trie
  heap : Int → Option Record
  /-- the next address of etdb_alloc -/
  fresh : Int

namespace Db

def init : Option Db := (EtdbTrie.init []).map fun t =>
    { trie := t, heap := fun _ => none, fresh := 4096 }

def put (db : Db) (a : Int) (r : Record) : Db := { db with heap := Function.update db.heap a (some r) }

def alloc (db : Db) (r : Record) : Int × Db :=
    (db.fresh, { db.put db.fresh r with fresh := db.fresh + 1 })

def free (db : Db) (a : Int) : Option Db :=
  (db.heap a).map fun _ => { db with heap := Function.update db.heap a none }

def valueAt (db : Db) (a : Int) : Option ValueHead :=
  match db.heap a with
  | some (.value head) => some head
  | _ => none

def listAt (db : Db) (a : Int) : Option ListNode :=
  match db.heap a with
  | some (.list node) => some node
  | _ => none

def pointAt (db : Db) (a : Int) : Option SpHead :=
  match db.heap a with
  | some (.point head) => some head
  | _ => none

def modifyList (db : Db) (a : Int) (f : ListNode → ListNode) : Option Db :=
  (db.listAt a).map fun n => db.put a (.list (f n))

def modifyPoint (db : Db) (a : Int) (f : SpHead → SpHead) : Option Db :=
  (db.pointAt a).map fun h => db.put a (.point (f h))

def trieUpdate (db : Db) (key : List UInt8) (value : Int) : Option (Int × Db) :=
  (db.trie.update key value).map fun (p, t) => (p, { db with trie := t })

def trieErase (db : Db) (key : List UInt8) : Option (Int × Db) :=
  (db.trie.erase key).map fun (p, t) => (p, { db with trie := t })

section
variable {d : Db} {key : List UInt8} {a p v : Int} {t : Trie} {r : Record} {node : ListNode}
    {head : SpHead}

theorem trieUpdate_run (run : d.trie.update key v = some (p, t)) :
    d.trieUpdate key v = some (p, { d with trie := t }) := by
  rw [trieUpdate, run]
  rfl

theorem trieErase_run (run : d.trie.erase key = some (p, t)) :
    d.trieErase key = some (p, { d with trie := t }) := by
  rw [trieErase, run]
  rfl

theorem free_run (here : d.heap a = some r) :
    d.free a = some { d with heap := Function.update d.heap a none } := by
  rw [free, here]
  rfl

theorem pointAt_run (here : d.heap a = some (.point head)) : d.pointAt a = some head := by
  rw [pointAt, here]

theorem modifyPoint_run (here : d.heap a = some (.point head)) (f : SpHead → SpHead) :
    d.modifyPoint a f = some (d.put a (.point (f head))) := by
  rw [modifyPoint, pointAt_run here]
  rfl

end
end Db
end EtdbDatabase
