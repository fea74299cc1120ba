import Etdb.Server.Answers
import Etdb.Wire.Transfer

/- etdb_master_cycle over any number of connections. What epoll_wait reports is handled in
   order, connections with something to parse go to the ready list, and behind the last
   event one request of each of them is served. The steps are taken one by one, so that
   a state lies between any two of them; the bytes that went through a connection and the
   requests that were served are kept beside it. -/
namespace EtdbServer
open EtdbTrie EtdbDatabase
open EtdbWire (Buf message)

/-- etdb_connection_t with the flags of its event. -/
structure Link where
  bufIn : Buf
  bufOut : Buf
  flagIn : Bool
  flagOut : Bool
  /-- all that was read, and all that was written -/
  received : List UInt8
  sent : List UInt8

/-- An event of epoll_wait: the listening socket, on which accept gives a connection with
    its two blocks or nothing, or a connection. -/
inductive Incoming where
  | accepted (blockIn blockOut : Nat → UInt8)
  | notAccepted
  | on (id : Nat) (event : EtdbWire.Event)

def Incoming.id : Incoming → Option Nat
  | .on id _ => some id
  | _ => none

/-- What one call of epoll_wait reports; no descriptor comes twice. -/
structure Batch where
  events : List Incoming
  once : (events.filterMap Incoming.id).Nodup

/-- What serving a request takes from outside: the new halves of blocks that grow, what
    etdb_resp_recv_req leaves behind the request, what the handlers write in front of the
    valid bytes, and what Request and Call name. -/
structure Outside where
  junkIn : Nat → UInt8
  recvLeft : Int
  junkOut : Nat → UInt8
  front : Nat → UInt8
  fork : Int
  left : Int
  counters : List UInt8 → Counters

inductive Input where
  /-- epoll_wait, when nothing is left to do -/
  | wait (batch : Batch)
  /-- the next event, or else the next connection of the ready list -/
  | next (outside : Outside)
  /-- SIGCHLD -/
  | ended

/-- A request that was served, or the end of a child, and what was answered. -/
structure Entry where
  call : Call
  strs : List (List UInt8)

/-- Connections go by addresses that are not used again. -/
structure Cycle where
  server : Server
  links : Nat → Option Link
  fresh : Nat
  /-- etdb_conn_cnt -/
  connCnt : Int
  pending : List Incoming
  ready : List Nat
  log : List Entry

def connectionBufSize : Nat := 8192

def bufInit (block : Nat → UInt8) : Buf := ⟨(List.range connectionBufSize).map block, 0, 0⟩

namespace Link

def request (link : Link) (id : Nat) (o : Outside) : Option Request :=
  match link.bufIn.connectRecv o.junkIn o.recvLeft with
  | some (.request (cmd :: args), _) => some ⟨id, cmd, args, o.fork, o.left⟩
  | _ => none

end Link

namespace Cycle

def put (c : Cycle) (id : Nat) (link : Link) : Cycle :=
  { c with links := Function.update c.links id (some link) }

def close (c : Cycle) (id : Nat) : Cycle :=
  { c with links := Function.update c.links id none, connCnt := c.connCnt - 1 }

/-- etdb_connect_accept; the new connection uses the first slot. -/
def accept (c : Cycle) (blockIn blockOut : Nat → UInt8) : Cycle :=
  { c with
    server := { c.server with slotOf := Function.update c.server.slotOf c.fresh ⟨0, maxSlot_pos⟩ }
    links := Function.update c.links c.fresh (some ⟨bufInit blockIn, bufInit blockOut, true, false, [], []⟩)
    fresh := c.fresh + 1
    connCnt := c.connCnt + 1 }

def handleIn (c : Cycle) (id : Nat) (link : Link) (answers : List EtdbWire.Got) : Option Cycle := do
  let (len, buf) ← link.bufIn.readToBuf answers
  if len ≤ 0 then some (c.close id)
  else
    let got := buf.valid.drop link.bufIn.valid.length
    let c := c.put id { link with bufIn := buf, received := link.received ++ got }
    some { c with ready := c.ready ++ [id] }

def handleOut (c : Cycle) (id : Nat) (link : Link) (answers : List EtdbWire.Sent) : Option Cycle := do
  let (len, buf, out) ← link.bufOut.writeTo true answers 0
  let link := { link with bufOut := buf, sent := link.sent ++ out }
  if len ≤ 0 then some (c.close id)
  else if buf.size = 0 then
    if link.bufIn.size ≠ 0 then
      let c := c.put id { link with flagOut := false }
      some { c with ready := c.ready ++ [id] }
    else some (c.put id { link with flagOut := false, flagIn := true })
  else some (c.put id link)

/-- The loop over the events. Events that are not waited for do not come. -/
def handle (c : Cycle) : Incoming → Option Cycle
  | .accepted blockIn blockOut => some (c.accept blockIn blockOut)
  | .notAccepted => some c
  | .on id event =>
    match c.links id, event with
    | none, _ => some c
    | some _, .error => some (c.close id)
    | some link, .readable answers => if link.flagIn then c.handleIn id link answers else some c
    | some link, .writable answers => if link.flagOut then c.handleOut id link answers else some c

/-- One turn of the post process with etdb_serv_exec_proc. A connection for which
    etdb_connect_recv returns NULL is closed, and the loop goes on from its freed queue
    links: none. -/
def process (atof : List UInt8 → Option ℚ) (c : Cycle) (id : Nat) (o : Outside) : Option Cycle := do
  let link ← c.links id
  let (received, bufIn) ← link.bufIn.connectRecv o.junkIn o.recvLeft
  match received with
  | .failed => none
  | .incomplete => some (c.put id { link with bufIn := bufIn, flagIn := true })
  | .request [] => none
  | .request (cmd :: args) => do
    let r : Request := ⟨id, cmd, args, o.fork, o.left⟩
    let (strs, server) ← c.server.serve atof o.counters r
    let bufOut ← link.bufOut.sendToBuf o.junkOut strs
    let c := c.put id { link with
      bufIn := bufIn.overwrite o.front
      bufOut := bufOut
      flagOut := link.flagOut || decide (0 < bufOut.size) }
    some { c with server := server, log := c.log ++ [⟨⟨.request r, o.counters⟩, strs⟩] }

def step (atof : List UInt8 → Option ℚ) (c : Cycle) : Input → Option Cycle
  | .wait batch => if c.pending = [] ∧
      c.ready = [] then some { c with pending := batch.events } else some c
  | .ended => some { c with
      server := { c.server with bgsavePid := 0 }
      log := c.log ++ [⟨⟨.childEnded, fun _ => ⟨0, 0, 0⟩⟩, []⟩] }
  | .next o =>
    match c.pending, c.ready with
    | e :: rest, _ => { c with pending := rest }.handle e
    | [], id :: rest => { c with ready := rest }.process atof id o
    | [], [] => some c

def run (atof : List UInt8 → Option ℚ) (c : Cycle) : List Input → Option Cycle
  | [] => some c
  | input :: rest => do
    let c ← c.step atof input
    c.run atof rest

/-- etdb_init up to the loop. -/
def init : Option Cycle := Server.init.map fun server => ⟨server, fun _ => none, 0, 0, [], [], []⟩

theorem handleIn_eq (c : Cycle) (id : Nat) (link : Link) (answers : List EtdbWire.Got) :
    c.handleIn id link answers = (link.bufIn.readToBuf answers).map fun got =>
      if got.1 ≤ 0 then c.close id
      else { c.put id { link with
          bufIn := got.2
          received := link.received ++ got.2.valid.drop link.bufIn.valid.length } with
        ready := c.ready ++ [id] } := by
  rw [Cycle.handleIn]
  cases link.bufIn.readToBuf answers with
  | none => rfl
  | some got =>
    dsimp only [Option.bind_eq_bind, Option.bind_some, Option.map_some]
    split <;> rfl

theorem handleOut_eq (c : Cycle) (id : Nat) (link : Link) (answers : List EtdbWire.Sent) :
    c.handleOut id link answers = (link.bufOut.writeTo true answers 0).map fun done =>
      if done.1 ≤ 0 then c.close id
      else if done.2.1.size = 0 then
        if link.bufIn.size ≠ 0 then { c.put id { link with
            bufOut := done.2.1
            sent := link.sent ++ done.2.2
            flagOut := false } with
          ready := c.ready ++ [id] }
        else c.put id { link with
          bufOut := done.2.1
          sent := link.sent ++ done.2.2
          flagOut := false
          flagIn := true }
      else c.put id { link with bufOut := done.2.1, sent := link.sent ++ done.2.2 } := by
  rw [Cycle.handleOut]
  cases link.bufOut.writeTo true answers 0 with
  | none => rfl
  | some done =>
    dsimp only [Option.bind_eq_bind, Option.bind_some, Option.map_some]
    split
    · rfl
    · split
      · split <;> rfl
      · rfl

theorem handle_cases {c c' : Cycle} {e : Incoming} (run : c.handle e = some c') :
    c' = c ∨ (∃ blockIn blockOut, c' = c.accept blockIn blockOut) ∨
    ∃ other, e.id = some other ∧ c.links other ≠ none ∧ (c' = c.close other ∨
      ∃ new, c' = c.put other new ∨ c' = { c.put other new with ready := c.ready ++ [other] }) := by
  cases e with
  | accepted blockIn blockOut => exact Or.inr (Or.inl ⟨blockIn, blockOut, (Option.some.inj run).symm⟩)
  | notAccepted => exact Or.inl (Option.some.inj run).symm
  | on other event =>
    cases here : c.links other with
    | none =>
      simp only [Cycle.handle, here] at run
      exact Or.inl (Option.some.inj run).symm
    | some link =>
      have opened : c.links other ≠ none := by
        rw [here]
        exact Option.some_ne_none link
      simp only [Cycle.handle, here] at run
      cases event with
      | error => exact Or.inr (Or.inr ⟨other, rfl, opened, Or.inl (Option.some.inj run).symm⟩)
      | readable answers =>
        dsimp only at run
        split at run
        · rw [handleIn_eq, Option.map_eq_some_iff] at run
          obtain ⟨got, _, rfl⟩ := run
          refine Or.inr (Or.inr ⟨other, rfl, opened, ?_⟩)
          split
          · exact Or.inl rfl
          · exact Or.inr ⟨_, Or.inr rfl⟩
        · exact Or.inl (Option.some.inj run).symm
      | writable answers =>
        dsimp only at run
        split at run
        · rw [handleOut_eq, Option.map_eq_some_iff] at run
          obtain ⟨done, _, rfl⟩ := run
          refine Or.inr (Or.inr ⟨other, rfl, opened, ?_⟩)
          split
          · exact Or.inl rfl
          · split
            · split
              · exact Or.inr ⟨_, Or.inr rfl⟩
              · exact Or.inr ⟨_, Or.inl rfl⟩
            · exact Or.inr ⟨_, Or.inl rfl⟩
        · exact Or.inl (Option.some.inj run).symm

def served (c : Cycle) (id : Nat) (o : Outside) (link : Link) (bufIn : EtdbWire.Buf) (r : Request)
    (strs : List (List UInt8)) (server : Server) (bufOut : EtdbWire.Buf) : Cycle :=
  { c.put id { link with
      bufIn := bufIn.overwrite o.front
      bufOut := bufOut
      flagOut := link.flagOut || decide (0 < bufOut.size) } with
    server := server
    log := c.log ++ [⟨⟨.request r, o.counters⟩, strs⟩] }

theorem process_cases (atof : List UInt8 → Option ℚ) (c : Cycle) (id : Nat) (o : Outside) :
    (c.process atof id o = none) ∨
    ∃ link bufIn, c.links id = some link ∧
      (link.bufIn.connectRecv o.junkIn o.recvLeft = some (.incomplete, bufIn) ∧
        c.process atof id o = some (c.put id { link with bufIn := bufIn, flagIn := true }) ∨
      ∃ cmd args strs server bufOut, link.bufIn.connectRecv o.junkIn o.recvLeft =
      some (.request (cmd :: args), bufIn) ∧
        c.process atof id o = some
          (served c id o link bufIn ⟨id, cmd, args, o.fork, o.left⟩ strs server bufOut)) := by
  cases here : c.links id with
  | none => exact Or.inl (by rw [Cycle.process, here]; rfl)
  | some link =>
    cases got : link.bufIn.connectRecv o.junkIn o.recvLeft with
    | none => exact Or.inl (bind_run here (by rw [got]; rfl))
    | some pair =>
      obtain ⟨received, bufIn⟩ := pair
      cases received with
      | failed => exact Or.inl (bind_run here (bind_run got rfl))
      | incomplete =>
        exact Or.inr ⟨link, bufIn, rfl, Or.inl ⟨got, bind_run here (bind_run got rfl)⟩⟩
      | request strs =>
        cases strs with
        | nil => exact Or.inl (bind_run here (bind_run got rfl))
        | cons cmd args =>
          cases answered : c.server.serve atof o.counters ⟨id, cmd, args, o.fork, o.left⟩ with
          | none => exact Or.inl (bind_run here (bind_run got (by dsimp only; rw [answered]; rfl)))
          | some pair =>
            obtain ⟨strs, server⟩ := pair
            cases sent : link.bufOut.sendToBuf o.junkOut strs with
            | none =>
              exact Or.inl (bind_run here
                (bind_run got (bind_run answered (by dsimp only; rw [sent]; rfl))))
            | some bufOut =>
              exact Or.inr ⟨link, bufIn, rfl, Or.inr ⟨cmd, args, strs, server, bufOut, got,
                bind_run here (bind_run got (bind_run answered (bind_run sent rfl)))⟩⟩

end Cycle

def getKey : List (List UInt8) := [bytes ['g', 'e', 't'], [107]]

end EtdbServer
