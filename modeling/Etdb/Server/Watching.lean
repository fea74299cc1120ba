import Etdb.Server.Cycle
import Etdb.Server.Events

/- etdb_master_cycle with its descriptors. Connections are found through the events that
   epoll points to, descriptors are used again when they were closed, and the flags of a
   connection are those of its event. -/
namespace EtdbServer
open EtdbTrie EtdbEvent

/-- What data.ptr of an event points to. -/
inductive Owner where
  | server
  | conn (id : Nat)
  deriving DecidableEq

/-- A descriptor that accept returns, with the blocks of the new connection. -/
structure Accepted where
  fd : Nat
  blockIn : Nat → UInt8
  blockOut : Nat → UInt8

/-- What is ready on a descriptor, and what the system calls for it will answer. -/
structure Report where
  fd : Nat
  readable : Bool
  urgent : Bool
  writable : Bool
  hup : Bool
  err : Bool
  got : List EtdbWire.Got
  sent : List EtdbWire.Sent
  accepted : Option Accepted

def Report.flags (r : Report) : Flags :=
  fdeventNone ||| (if r.readable then fdeventIn else 0) ||| (if r.urgent then fdeventIn else 0) |||
    (if r.writable then fdeventOut else 0) ||| (if r.hup then fdeventErr else 0) |||
    (if r.err then fdeventErr else 0)

/-- What the manual says of epoll_wait: descriptors of the list come once each, with what is
    asked for them, errors apart, and with the event that data.ptr points to. -/
structure Heard {K : Type} [Epoll K] (k : K) (found : List (Nat × Report)) : Prop where
  once : (found.map fun e => e.2.fd).Nodup
  asked : ∀ e ∈ found, ∃ i ∈ Epoll.interest k e.2.fd, e.1 = i.event ∧ e.2.flags ≠ 0 ∧
    e.2.urgent = false ∧ (e.2.readable = true → i.readable = true) ∧
    (e.2.writable = true → i.writable = true)

/-- The loop, with the answers of its calls of the event table. The events of the cycle
    itself are not used. -/
structure Loop (K : Type) where
  base : Cycle
  mgr : Mgr K Owner
  /-- the sock of each connection -/
  sock : Nat → Nat
  /-- ready_events -/
  waiting : List (Nat × Report)
  answers : List Int

inductive LoopInput where
  /-- epoll_wait, with each descriptor that it finds and the event it belongs to -/
  | wait (found : List (Nat × Report))
  | next (outside : Outside)
  | ended

namespace Loop
variable {K : Type} [Epoll K]

def call (l : Loop K) (us : List (Use Owner)) : Loop K :=
  { l with mgr := (l.mgr.uses us).2, answers := l.answers ++ (l.mgr.uses us).1 }

/-- etdb_event_mgr_del and the close of etdb_connect_close. -/
def drop (l : Loop K) (id : Nat) : Loop K := l.call [.del (l.sock id), .closed (l.sock id)]

/-- The body of the loop over the events. An event that is not there, a null pointer and a
    connection that was freed are none. -/
def handle (l : Loop K) (event : Nat) (r : Report) : Option (Loop K) := do
  let ev ← l.mgr.event event
  match ← ev.ptr with
  | .server =>
    match r.accepted with
    | none => some l
    | some a =>
      let l' := { l with
        base := l.base.accept a.blockIn a.blockOut
        sock := Function.update l.sock l.base.fresh a.fd }
      some (l'.call [.opened a.fd, .set a.fd fdeventIn 0 (some (.conn l.base.fresh))])
  | .conn id => do
    let link ← l.base.links id
    if r.flags &&& fdeventErr ≠ 0 then some ({ l with base := l.base.close id }.drop id)
    else if r.flags &&& fdeventIn ≠ 0 then do
      let (len, _) ← link.bufIn.readToBuf r.got
      let base ← l.base.handleIn id link r.got
      some (if len ≤ 0 then { l with base := base }.drop id else { l with base := base })
    else if r.flags &&& fdeventOut ≠ 0 then do
      let (len, buf, _) ← link.bufOut.writeTo true r.sent 0
      let base ← l.base.handleOut id link r.sent
      let l := { l with base := base }
      some (
        if len ≤ 0 then l.drop id
        else if buf.size = 0 then
          if link.bufIn.size ≠ 0 then l.call [.ctr (l.sock id) fdeventOut]
          else l.call [.ctr (l.sock id) fdeventOut, .set (l.sock id) fdeventIn 1 (some (.conn id))]
        else l)
    else some l

def process (atof : List UInt8 → Option ℚ) (l : Loop K) (id : Nat) (o : Outside) : Option (Loop K) := do
  let link ← l.base.links id
  let base ← l.base.process atof id o
  let (received, _) ← link.bufIn.connectRecv o.junkIn o.recvLeft
  let after ← base.links id
  match received with
  | .incomplete =>
    let (flags, mgr) := l.mgr.isset (l.sock id) fdeventIn
    let l := { l with base := base, mgr := mgr }
    some (if flags = 0 then l.call [.set (l.sock id) fdeventIn 1 (some (.conn id))] else l)
  | _ =>
    let l := { l with base := base }
    some (if 0 < after.bufOut.size then l.call [.set (l.sock id) fdeventOut 1 (some (.conn id))] else l)

def step (atof : List UInt8 → Option ℚ) (l : Loop K) : LoopInput → Option (Loop K)
  | .wait found =>
    if l.waiting = [] ∧ l.base.ready = [] then
      some { l with waiting := found }
    else some l
  | .ended => some { l with base := { l.base with
      server := { l.base.server with bgsavePid := 0 }
      log := l.base.log ++ [⟨⟨.childEnded, fun _ => ⟨0, 0, 0⟩⟩, []⟩] } }
  | .next o =>
    match l.waiting, l.base.ready with
    | (event, r) :: rest, _ => { l with waiting := rest }.handle event r
    | [], id :: rest => { l with base := { l.base with ready := rest } }.process atof id o
    | [], [] => some l

def run (atof : List UInt8 → Option ℚ) (l : Loop K) : List LoopInput → Option (Loop K)
  | [] => some l
  | input :: rest => do
    let l ← l.step atof input
    l.run atof rest

def init (kernel : K) (listener : Nat) : Option (Loop K) :=
  Cycle.init.map fun base =>
    Loop.call ⟨base, Mgr.init kernel, fun _ => 0, [], []⟩ [.set listener fdeventIn 0 (some .server)]

/-- The same step of the cycle; only what epoll finds has another form there. -/
def Same : LoopInput → Input → Prop
  | .wait _, .wait _ => True
  | .next o, .next o' => o = o'
  | .ended, .ended => True
  | _, _ => False

def resolve (l : Loop K) (event : Nat) (r : Report) : Incoming :=
  match (l.mgr.event event).bind Event.ptr with
  | some (.conn id) =>
    if r.flags &&& fdeventErr ≠ 0 then .on id .error
    else if r.flags &&& fdeventIn ≠ 0 then .on id (.readable r.got)
    else .on id (.writable r.sent)
  | _ =>
    match r.accepted with
    | some a => .accepted a.blockIn a.blockOut
    | none => .notAccepted

def seen (l : Loop K) : Cycle := { l.base with pending := l.waiting.map fun e => l.resolve e.1 e.2 }

/-- accept returns a descriptor that is not open, and epoll_wait keeps to its manual. -/
def Possible (l : Loop K) : LoopInput → Prop
  | .wait found => Heard l.mgr.kernel found
  | .next _ => ∀ e ∈ l.waiting.head?, ∀ a ∈ e.2.accepted, Epoll.isOpen l.mgr.kernel a.fd = false
  | .ended => True

def PossibleRun (atof : List UInt8 → Option ℚ) (l : Loop K) : List LoopInput → Prop
  | [] => True
  | input :: rest => l.Possible input ∧ ∀ l', l.step atof input = some l' → l'.PossibleRun atof rest

end Loop
end EtdbServer
