import Etdb.Geo.Box
import Etdb.Server.Failures

/- What a request is answered with. A handler puts strings into its resp, and
   etdb_serv_exec_proc puts the status in front of them; what it does not know comes back
   behind a text of its own. The counters of calls and times are readings from outside. -/
namespace EtdbServer
open EtdbTrie EtdbDatabase DecimalText

def printInt (i : Int) : List UInt8 := if i < 0 then 45 :: spell (-i).toNat else spell i.toNat

/-- The nearest integer to a number that is not negative, the even one of two. -/
def roundEven (q : ℚ) : Nat :=
  let below := q.floor.toNat
  if q - below < 1 / 2 then below
  else if 1 / 2 < q - below then below + 1
  else if below % 2 = 0 then below else below + 1

/-- sprintf of a double with this many places behind the point; no zero has a sign here. -/
def printFixed (places : Nat) (q : ℚ) : List UInt8 :=
  let n := roundEven (|q| * 10 ^ places)
  let behind := spell (n % 10 ^ places)
  (if q < 0 then [45] else []) ++ spell (n / 10 ^ places) ++
    46 :: (List.replicate (places - behind.length) 48 ++ behind)

def okText : List UInt8 := bytes ['+', 'O', 'K']
def failText : List UInt8 := bytes ['+', 'F', 'A', 'I', 'L']

def version : List UInt8 := bytes ['1', '.', '0', '.', '0']

def unknownText : List UInt8 := bytes "Unkown Command: ".toList

def helpMsg : List UInt8 := bytes ("command list:\n".toList ++
  "set get del                          key-value operation\n".toList ++
  "hset hget hdel                       hashtable operation\n".toList ++
  "sadd sdel smembers sismember         set operation\n".toList ++
  "lpush rpush ltop rtop lpop rpop      list operation\n".toList ++
  "spset spget spdel sprect siknn geo_hash_info      spatial index operation\n".toList ++
  "bgsave                               system command".toList)

/-- etdb_bytes_total_copy: the strings of a request, each with a blank behind it. -/
def totalCopy (strs : List (List UInt8)) : List UInt8 := strs.flatMap fun str => str ++ [32]

/- What the handlers put into resp. -/

def found (run : Option (Option (List UInt8))) : Option (List (List UInt8)) := run.map Option.toList

def kvGetResp (db : Db) : List (List UInt8) → Option (List (List UInt8))
  | key :: _ => found (db.kvGet key)
  | _ => none

/-- The value, and behind it the length of the prefix, a size_t printed with "%d". -/
def longestText : Option (Nat × List UInt8) → List (List UInt8)
  | none => []
  | some (matchLen, value) => [value, printInt (EtdbWire.toInt matchLen)]

def kvMatchlongestResp (db : Db) : List (List UInt8) → Option (List (List UInt8))
  | key :: _ => (db.kvMatchLongest key).map longestText
  | _ => none

def hashGetResp (db : Db) : List (List UInt8) → Option (List (List UInt8))
  | name :: key :: _ => if 255 < name.length then some [] else found (db.hashGet name key)
  | _ => none

def listLtopResp (db : Db) : List (List UInt8) → Option (List (List UInt8))
  | name :: _ => found (db.listLtop name)
  | _ => none

def listRtopResp (db : Db) : List (List UInt8) → Option (List (List UInt8))
  | name :: _ => found (db.listRtop name)
  | _ => none

def setMembersResp (db : Db) : List (List UInt8) → Option (List (List UInt8))
  | name :: _ => db.setMembers name
  | _ => none

def memberText (contain : Int) : List UInt8 := if contain ≠ 0 then [49] else [48]

def setIsmemberResp (db : Db) : List (List UInt8) → Option (List (List UInt8))
  | name :: key :: _ => (db.setIsmember name key).map fun contain => [memberText contain]
  | _ => none

def pointText (lat lon : ℚ) (geoHashCode : List UInt8) : List UInt8 :=
  printFixed 2 lat ++ 32 :: (printFixed 2 lon ++ [32, 40] ++ geoHashCode.takeWhile (· ≠ 0) ++ [41])

def spGetResp (db : Db) : List (List UInt8) → Option (List (List UInt8))
  | key :: _ => (db.spGet key).map fun
    | none => []
    | some (lat, lon, code) => [pointText lat lon code]
  | _ => none

def spRectResp (atof : List UInt8 → Option ℚ) (db : Db) :
    List (List UInt8) → Option (List (List UInt8))
  | lat1 :: lat2 :: lon1 :: lon2 :: _ => (db.spRect atof lat1 lat2 lon1 lon2).map (Option.getD · [])
  | _ => none

def geoHashInfoText : List UInt8 :=
  let dim := EtdbGeoHash.dimensionsForPrecision Db.geoHashPrecisionLen
  bytes "range: ".toList ++ printFixed 6 dim.width ++ 32 :: printFixed 6 dim.height

structure Counters where
  calls : Int
  timeProc : Int
  timeProcMax : Int

/-- calls, time_proc and time_proc_max of a command. -/
structure Tally where
  calls : Int
  timeProc : Int
  timeProcMax : Int

namespace Tally

def counters (t : Tally) : Counters :=
  ⟨EtdbWire.toInt t.calls, EtdbWire.toInt (if t.calls ≠ 0 then t.timeProc.tdiv t.calls else 0),
    EtdbWire.toInt t.timeProcMax⟩

def called (t : Tally) : Tally := { t with calls := t.calls + 1 }

def timed (t : Tally) (elapsed : Int) : Tally :=
  { t with
    timeProc := t.timeProc + elapsed
    timeProcMax := if t.timeProcMax < elapsed then elapsed else t.timeProcMax }

end Tally

def perfText (name : List UInt8) (counters : Counters) : List UInt8 :=
  name ++ bytes ": calls->".toList ++ printInt counters.calls ++ bytes " time_proc->".toList ++
    printInt counters.timeProc ++ bytes " time_proc_max->".toList ++ printInt counters.timeProcMax

namespace Server

/-- etdb_database_info_mem; a node has 16 bytes. -/
def infoMem (s : Server) : Int := ((List.finRange maxSlot).map fun i => (s.slots i).trie.size * 16).sum

/-- etdb_sys_info_handler. etdb_database_info_keys lacks its return as well, so that the
    number of keys is what is left for it. -/
def infoText (s : Server) (left : Int) : List UInt8 :=
  bytes "version: ".toList ++ version ++ bytes "\nmem: ".toList ++ printInt (EtdbWire.toInt s.infoMem) ++
    bytes "\nkeys: ".toList ++ printInt (EtdbWire.toInt left)

def perfResp (counters : List UInt8 → Counters) : List (List UInt8) → Option (List (List UInt8))
  | str :: _ => do
    let cmd ← findCommand str
    some ((cmd.map fun cmd => perfText cmd.name (counters cmd.name)).toList)
  | _ => none

def resp (atof : List UInt8 → Option ℚ) (counters : List UInt8 → Counters) (s : Server) (r : Request) :
    Handler → Option (List (List UInt8))
  | .kvGet => kvGetResp (s.slot r.conn) r.args
  | .kvMatchlongest => kvMatchlongestResp (s.slot r.conn) r.args
  | .hashGet => hashGetResp (s.slot r.conn) r.args
  | .listLtop => listLtopResp (s.slot r.conn) r.args
  | .listRtop => listRtopResp (s.slot r.conn) r.args
  | .setMembers => setMembersResp (s.slot r.conn) r.args
  | .setIsmember => setIsmemberResp (s.slot r.conn) r.args
  | .spGet => spGetResp (s.slot r.conn) r.args
  | .spRect => spRectResp atof (s.slot r.conn) r.args
  | .spKnn => some [bytes ['k', 'n', 'n']]
  | .geoHashInfo => some [geoHashInfoText]
  | .sysInfo => some [s.infoText r.left]
  | .sysPerf => perfResp counters r.args
  | .sysWhere => some [printInt ((s.slotOf r.conn).val + 1)]
  | .sysHelp => some [helpMsg]
  | .kvSet | .kvDel | .hashSet | .hashDel | .listLpush | .listRpush | .listLpop | .listRpop | .setAdd
  | .setDel | .spSet | .spDel | .sysUse | .sysBgsave | .sysPing | .sysSync => some []

/-- The request as it comes back; its first string is in lower case by then. -/
def unknown (r : Request) : List UInt8 :=
  unknownText ++ totalCopy (r.cmd.map EtdbWire.Buf.lower :: r.args)

def statusText (ret : Int) : List UInt8 := if ret = 0 then okText else failText

/-- etdb_serv_exec_proc with the strings that go to etdb_connect_send_to_buf. -/
def serve (atof : List UInt8 → Option ℚ) (counters : List UInt8 → Counters) (s : Server) (r : Request) :
    Option (List (List UInt8) × Server) := do
  let cmd ← findCommand (r.cmd.map EtdbWire.Buf.lower)
  match cmd with
  | none => some ([unknown r], s)
  | some cmd =>
    if parseArgs cmd.flags r.args.length then do
      let strs ← s.resp atof counters r cmd.handler
      let (ret, s) ← s.handle atof r cmd.handler
      some (statusText ret :: strs, s)
    else some ([unknown r], s)

end Server

structure Counting where
  server : Server
  tally : List UInt8 → Tally

namespace Counting

/-- The tallies after `++cmd->calls`. -/
def called (c : Counting) (cmd : Command) : List UInt8 → Tally :=
  Function.update c.tally cmd.name (c.tally cmd.name).called

/-- etdb_serv_exec_proc, which takes so much time between its two looks at the clock. -/
def serve (atof : List UInt8 → Option ℚ) (c : Counting) (r : Request) (elapsed : Int) :
    Option (List (List UInt8) × Counting) := do
  let cmd ← findCommand (r.cmd.map EtdbWire.Buf.lower)
  match cmd with
  | none => some ([Server.unknown r], c)
  | some cmd =>
    if parseArgs cmd.flags r.args.length then do
      let tally := c.called cmd
      let strs ← c.server.resp atof (fun name => (tally name).counters) r cmd.handler
      let (ret, server) ← c.server.handle atof r cmd.handler
      some (Server.statusText ret :: strs,
        ⟨server, Function.update tally cmd.name ((tally cmd.name).timed elapsed)⟩)
    else some ([Server.unknown r], c)

end Counting
end EtdbServer
