import Etdb.Database.Operations
import Etdb.Text.Numbers
import Etdb.Wire.Loop

/- The command tables of the six modules, the lookup of a request's command, and the
   handlers on the slots of the database. A handler gives its status; what it puts into
   the answer is left out, and so are the counters of calls and times. -/
namespace EtdbServer
open EtdbTrie EtdbDatabase

inductive Handler where
  | kvSet
  | kvGet
  | kvDel
  | kvMatchlongest
  | hashSet
  | hashGet
  | hashDel
  | listLpush
  | listRpush
  | listLpop
  | listRpop
  | listLtop
  | listRtop
  | setAdd
  | setDel
  | setMembers
  | setIsmember
  | spSet
  | spGet
  | spDel
  | spRect
  | spKnn
  | geoHashInfo
  | sysInfo
  | sysPerf
  | sysUse
  | sysWhere
  | sysHelp
  | sysBgsave
  | sysPing
  | sysSync
  deriving DecidableEq, Repr

structure Command where
  name : List UInt8
  flags : Nat
  handler : Handler
  deriving DecidableEq

def bytes (text : List Char) : List UInt8 := text.map fun c => UInt8.ofNat c.toNat

/- ETDB_CMD_FLAG_* -/
def flagRead : Nat := 1
def flagWrite : Nat := 2
def flagNoarg : Nat := 16
def flagArg1 : Nat := 32
def flagArg2 : Nat := 64
def flagArg3 : Nat := 128
def flagArg4 : Nat := 256
def flagArg1more : Nat := 512
def flagArg2more : Nat := 1024
def flagArg3more : Nat := 2048
def flagArg4more : Nat := 4096
def flagArg5more : Nat := 8192

def kvCommands : List Command := [
  ⟨bytes ['s', 'e', 't'], flagWrite ||| flagArg2, .kvSet⟩,
  ⟨bytes ['g', 'e', 't'], flagRead ||| flagArg1, .kvGet⟩,
  ⟨bytes ['d', 'e', 'l'], flagArg1, .kvDel⟩,
  ⟨bytes ['m', 'a', 't', 'c', 'h', 'l', 'o', 'n', 'g', 'e', 's', 't'], flagArg1, .kvMatchlongest⟩]

def hashCommands : List Command := [
  ⟨bytes ['h', 's', 'e', 't'], flagArg3, .hashSet⟩,
  ⟨bytes ['h', 'g', 'e', 't'], flagArg2, .hashGet⟩,
  ⟨bytes ['h', 'd', 'e', 'l'], flagArg2, .hashDel⟩]

def listCommands : List Command := [
  ⟨bytes ['l', 'p', 'u', 's', 'h'], flagArg2more, .listLpush⟩,
  ⟨bytes ['r', 'p', 'u', 's', 'h'], flagArg2more, .listRpush⟩,
  ⟨bytes ['l', 'p', 'o', 'p'], flagArg1, .listLpop⟩,
  ⟨bytes ['r', 'p', 'o', 'p'], flagArg1, .listRpop⟩,
  ⟨bytes ['l', 't', 'o', 'p'], flagArg1, .listLtop⟩,
  ⟨bytes ['r', 't', 'o', 'p'], flagArg1, .listRtop⟩]

def setCommands : List Command := [
  ⟨bytes ['s', 'a', 'd', 'd'], flagArg2more, .setAdd⟩,
  ⟨bytes ['s', 'd', 'e', 'l'], flagArg2more, .setDel⟩,
  ⟨bytes ['s', 'm', 'e', 'm', 'b', 'e', 'r', 's'], flagArg1, .setMembers⟩,
  ⟨bytes ['s', 'i', 's', 'm', 'e', 'm', 'b', 'e', 'r'], flagArg2, .setIsmember⟩]

def spatialCommands : List Command := [
  ⟨bytes ['s', 'p', 's', 'e', 't'], flagArg3, .spSet⟩,
  ⟨bytes ['s', 'p', 'g', 'e', 't'], flagArg1, .spGet⟩,
  ⟨bytes ['s', 'p', 'd', 'e', 'l'], flagArg1, .spDel⟩,
  ⟨bytes ['s', 'p', 'r', 'e', 'c', 't'], flagArg4, .spRect⟩,
  ⟨bytes ['s', 'p', 'k', 'n', 'n'], flagArg2 ||| flagArg3, .spKnn⟩,
  ⟨bytes ['g', 'e', 'o', '_', 'h', 'a', 's', 'h', '_', 'i', 'n', 'f', 'o'], flagNoarg, .geoHashInfo⟩]

def sysCommands : List Command := [
  ⟨bytes ['i', 'n', 'f', 'o'], flagNoarg, .sysInfo⟩,
  ⟨bytes ['p', 'e', 'r', 'f'], flagArg1, .sysPerf⟩,
  ⟨bytes ['u', 's', 'e'], flagArg1, .sysUse⟩,
  ⟨bytes ['w', 'h', 'e', 'r', 'e'], flagNoarg, .sysWhere⟩,
  ⟨bytes ['h', 'e', 'l', 'p'], flagNoarg ||| flagArg1, .sysHelp⟩,
  ⟨bytes ['b', 'g', 's', 'a', 'v', 'e'], flagNoarg, .sysBgsave⟩,
  ⟨bytes ['p', 'i', 'n', 'g'], flagNoarg, .sysPing⟩,
  ⟨bytes ['s', 'y', 'n', 'c'], flagNoarg, .sysSync⟩]

def modules : List (List Command) :=
  [kvCommands, hashCommands, listCommands, setCommands, spatialCommands, sysCommands]

/-- The names of all commands in order, each with `pos << 16 | idx`. -/
def registrations : List (List UInt8 × Int) :=
  modules.zipIdx.flatMap fun (commands, pos) => commands.zipIdx.map fun (cmd, idx) =>
  (cmd.name, ((pos <<< 16 ||| idx : Nat) : Int))

def registerAll (t : Trie) : List (List UInt8 × Int) → Option Trie
  | [] => some t
  | (name, value) :: rest => do
    let (p, t) ← t.update name value
    if p < 0 then none else registerAll t rest

/-- etdb_module_init; no module has an init_handler. -/
def moduleInit : Option Trie := EtdbTrie.init [] >>= fun t => registerAll t registrations

/-- etdb_module_find_command; the outer none is a use of a bad place. -/
def findCommand (str : List UInt8) : Option (Option Command) := do
  let t ← moduleInit
  let value ← t.exactMatchSearch str
  if value = noValue then some none
  else do
    let commands ← modules[value.toNat >>> 16]?
    let cmd ← commands[value.toNat &&& 65535]?
    some (some cmd)

def hasFlag (flags flag : Nat) : Bool := flags &&& flag ≠ 0

def parseArgs (flags : Nat) : Nat → Bool
  | 0 => hasFlag flags flagNoarg
  | 1 => hasFlag flags flagArg1more || hasFlag flags flagArg1
  | 2 => hasFlag flags flagArg1more || hasFlag flags flagArg2more || hasFlag flags flagArg2
  | 3 => hasFlag flags flagArg1more || hasFlag flags flagArg2more || hasFlag flags flagArg3more ||
      hasFlag flags flagArg3
  | 4 => hasFlag flags flagArg1more || hasFlag flags flagArg2more || hasFlag flags flagArg3more ||
      hasFlag flags flagArg4more || hasFlag flags flagArg4
  | _ => hasFlag flags flagArg5more

/- The handlers on one slot, by their arguments. Behind the last argument the queue comes
   back to its head; none stands for that, and for a bad pointer in the database. -/

def lookup {α : Type} (db : Db) (found : Option (Option α)) : Option (Int × Db) :=
  found.map fun a => (if a.isSome then 0 else -1, db)

def kvSetHandler (db : Db) : List (List UInt8) → Option (Int × Db)
  | key :: value :: _ => db.kvSet key value
  | _ => none

def kvGetHandler (db : Db) : List (List UInt8) → Option (Int × Db)
  | key :: _ => lookup db (db.kvGet key)
  | _ => none

def kvDelHandler (db : Db) : List (List UInt8) → Option (Int × Db)
  | key :: _ => db.kvDel key
  | _ => none

def kvMatchlongestHandler (db : Db) : List (List UInt8) → Option (Int × Db)
  | key :: _ => lookup db (db.kvMatchLongest key)
  | _ => none

def hashSetHandler (db : Db) : List (List UInt8) → Option (Int × Db)
  | name :: key :: value :: _ => if 255 < name.length then some (-1, db) else db.hashSet name key value
  | _ => none

def hashGetHandler (db : Db) : List (List UInt8) → Option (Int × Db)
  | name :: key :: _ => if 255 < name.length then some (-1, db) else lookup db (db.hashGet name key)
  | _ => none

def hashDelHandler (db : Db) : List (List UInt8) → Option (Int × Db)
  | name :: key :: _ => if 255 < name.length then some (-1, db) else db.hashDel name key
  | _ => none

def listLpushHandler (db : Db) : List (List UInt8) → Option (Int × Db)
  | name :: value :: _ => db.listLpush name value
  | _ => none

def listRpushHandler (db : Db) : List (List UInt8) → Option (Int × Db)
  | name :: value :: _ => db.listRpush name value
  | _ => none

def listLpopHandler (db : Db) : List (List UInt8) → Option (Int × Db)
  | name :: _ => (db.listLpop name).map fun (ret, db) => (if ret < 0 then -1 else 0, db)
  | _ => none

def listRpopHandler (db : Db) : List (List UInt8) → Option (Int × Db)
  | name :: _ => (db.listRpop name).map fun (ret, db) => (if ret < 0 then -1 else 0, db)
  | _ => none

def listLtopHandler (db : Db) : List (List UInt8) → Option (Int × Db)
  | name :: _ => lookup db (db.listLtop name)
  | _ => none

def listRtopHandler (db : Db) : List (List UInt8) → Option (Int × Db)
  | name :: _ => lookup db (db.listRtop name)
  | _ => none

/-- The loop over the keys of a set request; the first failure ends it. -/
def eachKey (act : Db → List UInt8 → Option (Int × Db)) (db : Db) : List (List UInt8) → Option (Int × Db)
  | [] => some (0, db)
  | key :: rest => do
    let (ret, db) ← act db key
    if ret < 0 then some (-1, db) else eachKey act db rest

def setAddHandler (db : Db) : List (List UInt8) → Option (Int × Db)
  | name :: key :: rest =>
    if 255 < name.length then some (-1, db) else eachKey (fun db key => db.setAdd name key) db
      (key :: rest)
  | _ => none

def setDelHandler (db : Db) : List (List UInt8) → Option (Int × Db)
  | name :: key :: rest =>
    if 255 < name.length then some (-1, db) else eachKey (fun db key => db.setDel name key) db
      (key :: rest)
  | _ => none

def setMembersHandler (db : Db) : List (List UInt8) → Option (Int × Db)
  | name :: _ => (db.setMembers name).map fun _ => (0, db)
  | _ => none

def setIsmemberHandler (db : Db) : List (List UInt8) → Option (Int × Db)
  | name :: key :: _ => (db.setIsmember name key).map fun _ => (0, db)
  | _ => none

def spSetHandler (atof : List UInt8 → Option ℚ) (db : Db) : List (List UInt8) → Option (Int × Db)
  | key :: lat :: lon :: _ => db.spSet atof key lat lon
  | _ => none

def spGetHandler (db : Db) : List (List UInt8) → Option (Int × Db)
  | key :: _ => lookup db (db.spGet key)
  | _ => none

def spDelHandler (db : Db) : List (List UInt8) → Option (Int × Db)
  | key :: _ => db.spDel key
  | _ => none

def spRectHandler (atof : List UInt8 → Option ℚ) (db : Db) : List (List UInt8) → Option (Int × Db)
  | lat1 :: lat2 :: lon1 :: lon2 :: _ => lookup db (db.spRect atof lat1 lat2 lon1 lon2)
  | _ => none

def maxSlot : Nat := 16

/-- etdb_database, the slot of each connection, and etdb_bgsave_pid. -/
structure Server where
  slots : Fin maxSlot → Db
  slotOf : Nat → Fin maxSlot
  bgsavePid : Int

/-- A request with the connection it comes from. What fork would return, and what
    etdb_sys_where_handler leaves for the return it lacks, are given with it. -/
structure Request where
  conn : Nat
  cmd : List UInt8
  args : List (List UInt8)
  fork : Int
  left : Int

/-- A request, or the signal that the process of a bgsave has ended. -/
inductive Event where
  | request (r : Request)
  | childEnded

namespace Server

def init : Option Server := Db.init.map fun db => ⟨fun _ => db, fun _ => ⟨0, by decide⟩, 0⟩

def slot (s : Server) (conn : Nat) : Db := s.slots (s.slotOf conn)

def onSlot (s : Server) (conn : Nat) (run : Option (Int × Db)) : Option (Int × Server) :=
  run.map fun (ret, db) => (ret, { s with slots := Function.update s.slots (s.slotOf conn) db })

def perfHandler (s : Server) : List (List UInt8) → Option (Int × Server)
  | str :: _ => do
    let cmd ← findCommand str
    some (if cmd.isSome then 0 else -1, s)
  | _ => none

def useHandler (s : Server) (conn : Nat) : List (List UInt8) → Option (Int × Server)
  | str :: _ =>
    (EtdbString.atoi str).elim (some (-1, s)) fun slot =>
      if inside : 0 < slot ∧ slot ≤ maxSlot then
        some (0, { s with slotOf := Function.update s.slotOf conn ⟨(slot - 1).toNat, by omega⟩ })
      else some (-1, s)
  | _ => none

/-- etdb_sys_bgsave_handler in the process that answers. -/
def bgsaveHandler (s : Server) (fork : Int) : Int × Server :=
  if 0 < s.bgsavePid then (-1, s)
  else (if fork = -1 then -1 else 0, { s with bgsavePid := fork })

def handle (atof : List UInt8 → Option ℚ) (s : Server) (r : Request) : Handler → Option (Int × Server)
  | .kvSet => s.onSlot r.conn (kvSetHandler (s.slot r.conn) r.args)
  | .kvGet => s.onSlot r.conn (kvGetHandler (s.slot r.conn) r.args)
  | .kvDel => s.onSlot r.conn (kvDelHandler (s.slot r.conn) r.args)
  | .kvMatchlongest => s.onSlot r.conn (kvMatchlongestHandler (s.slot r.conn) r.args)
  | .hashSet => s.onSlot r.conn (hashSetHandler (s.slot r.conn) r.args)
  | .hashGet => s.onSlot r.conn (hashGetHandler (s.slot r.conn) r.args)
  | .hashDel => s.onSlot r.conn (hashDelHandler (s.slot r.conn) r.args)
  | .listLpush => s.onSlot r.conn (listLpushHandler (s.slot r.conn) r.args)
  | .listRpush => s.onSlot r.conn (listRpushHandler (s.slot r.conn) r.args)
  | .listLpop => s.onSlot r.conn (listLpopHandler (s.slot r.conn) r.args)
  | .listRpop => s.onSlot r.conn (listRpopHandler (s.slot r.conn) r.args)
  | .listLtop => s.onSlot r.conn (listLtopHandler (s.slot r.conn) r.args)
  | .listRtop => s.onSlot r.conn (listRtopHandler (s.slot r.conn) r.args)
  | .setAdd => s.onSlot r.conn (setAddHandler (s.slot r.conn) r.args)
  | .setDel => s.onSlot r.conn (setDelHandler (s.slot r.conn) r.args)
  | .setMembers => s.onSlot r.conn (setMembersHandler (s.slot r.conn) r.args)
  | .setIsmember => s.onSlot r.conn (setIsmemberHandler (s.slot r.conn) r.args)
  | .spSet => s.onSlot r.conn (spSetHandler atof (s.slot r.conn) r.args)
  | .spGet => s.onSlot r.conn (spGetHandler (s.slot r.conn) r.args)
  | .spDel => s.onSlot r.conn (spDelHandler (s.slot r.conn) r.args)
  | .spRect => s.onSlot r.conn (spRectHandler atof (s.slot r.conn) r.args)
  | .sysPerf => s.perfHandler r.args
  | .sysUse => s.useHandler r.conn r.args
  | .sysBgsave => some (s.bgsaveHandler r.fork)
  | .sysWhere => some (r.left, s)
  | .sysSync => some (-1, s)
  | .spKnn | .geoHashInfo | .sysInfo | .sysHelp | .sysPing => some (0, s)

/-- etdb_serv_exec_proc: the status of the handler, if the command is known and takes so
    many arguments. -/
def execProc (atof : List UInt8 → Option ℚ) (s : Server) (r : Request) :
    Option (Option Int × Server) := do
  let cmd ← findCommand (r.cmd.map EtdbWire.Buf.lower)
  match cmd with
  | none => some (none, s)
  | some cmd =>
    if parseArgs cmd.flags r.args.length then do
      let (ret, s) ← s.handle atof r cmd.handler
      some (some ret, s)
    else some (none, s)

def step (atof : List UInt8 → Option ℚ) (s : Server) : Event → Option Server
  | .request r => (s.execProc atof r).map Prod.snd
  | .childEnded => some { s with bgsavePid := 0 }

def run (atof : List UInt8 → Option ℚ) (s : Server) : List Event → Option Server
  | [] => some s
  | e :: rest => do
    let s ← s.step atof e
    s.run atof rest

end Server
end EtdbServer
