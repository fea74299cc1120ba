import Mathlib.Data.BitVec
import Mathlib.Logic.Function.Basic

/- etdb_event.c and etdb_epoll.c: a table of events by descriptor, and the list of
   descriptors that epoll is interested in. The table remembers in s_flags what was
   asked for, and chooses the operation of epoll_ctl by it. Both stay in step as long as
   only open descriptors are set and none is closed that is still asked for. epoll itself
   is a parameter with the laws of its manual. -/
namespace EtdbEvent

abbrev Flags := BitVec 32

/- FDEVENT_* -/
def fdeventNone : Flags := 0
def fdeventIn : Flags := 1
def fdeventOut : Flags := 4
def fdeventErr : Flags := 16

/-- etdb_event_t with the connection that data.ptr points to; its events and queue are
    what epoll_wait fills in. -/
structure Event (P : Type) where
  fd : Nat
  sFlags : Flags
  num : Int
  ptr : Option P
  deriving DecidableEq

/-- What epoll holds of a descriptor: EPOLLIN and EPOLLOUT, and the place of the event that
    epe.data.ptr points to. -/
structure Interest where
  readable : Bool
  writable : Bool
  event : Nat
  deriving DecidableEq

/- EPOLL_CTL_* -/
inductive CtlOp where
  | add
  | mod
  | del
  deriving DecidableEq

/-- The descriptors of a process and the list of its epoll descriptor. -/
class Epoll (K : Type) where
  isOpen : K → Nat → Bool
  interest : K → Nat → Option Interest
  /-- epoll_ctl -/
  ctl : K → CtlOp → Nat → Interest → Int × K
  opened : K → Nat → K
  closed : K → Nat → K

/-- What the manual says of epoll_ctl, and of descriptors that are opened and closed. -/
class EpollLaws (K : Type) [Epoll K] : Prop where
  ctl_isOpen (k : K) (op : CtlOp) (fd : Nat) (asked : Interest) :
    Epoll.isOpen (Epoll.ctl k op fd asked).2 = Epoll.isOpen k
  changed (k : K) (op : CtlOp) (fd : Nat) (asked : Interest) : (Epoll.ctl k op fd asked).1 = 0 →
    Epoll.interest (Epoll.ctl k op fd asked).2 =
      Function.update (Epoll.interest k) fd (if op = .del then none else some asked)
  refused (k : K) (op : CtlOp) (fd : Nat) (asked : Interest) : (Epoll.ctl k op fd asked).1 = -1 →
    Epoll.interest (Epoll.ctl k op fd asked).2 = Epoll.interest k
  /-- ENOENT -/
  missing (k : K) (fd : Nat) (asked : Interest) : Epoll.interest k fd = none →
    (Epoll.ctl k .del fd asked).1 = -1
  opened_isOpen (k : K) (fd : Nat) : Epoll.isOpen (Epoll.opened k fd) =
    Function.update (Epoll.isOpen k) fd true
  opened_interest (k : K) (fd : Nat) : Epoll.interest (Epoll.opened k fd) = Epoll.interest k
  closed_isOpen (k : K) (fd : Nat) : Epoll.isOpen (Epoll.closed k fd) =
    Function.update (Epoll.isOpen k) fd false
  closed_interest (k : K) (fd : Nat) : Epoll.interest (Epoll.closed k fd) =
    Function.update (Epoll.interest k) fd none

/-- No ENOMEM, ENOSPC or EPERM: epoll_ctl does what fits the list and an open descriptor. -/
class EpollAmple (K : Type) [Epoll K] : Prop where
  granted (k : K) (op : CtlOp) (fd : Nat) (asked : Interest) : Epoll.isOpen k fd = true →
    (op = .add ↔ Epoll.interest k fd = none) → (Epoll.ctl k op fd asked).1 = 0

/-- etdb_event_mgr_t and the process around it. -/
structure Mgr (K P : Type) where
  events : List (Option (Event P))
  kernel : K

def asks (sFlags : Flags) (fd : Nat) : Interest :=
  ⟨decide (sFlags &&& fdeventIn ≠ 0), decide (sFlags &&& fdeventOut ≠ 0), fd⟩

namespace Mgr
variable {K P : Type} [Epoll K]

/-- etdb_event_mgr_init behind epoll_create. -/
def init (kernel : K) : Mgr K P := ⟨List.replicate 8 none, kernel⟩

/-- etdb_event_mgr_get_event: the table grows, and an event is made when it is asked for. -/
def getEvent (m : Mgr K P) (fd : Nat) : Event P × Mgr K P :=
  let events := m.events ++ List.replicate (fd + 1 - m.events.length) none
  match events[fd]? with
  | some (some ev) => (ev, { m with events := events })
  | _ => (⟨fd, fdeventNone, 0, none⟩,
      { m with events := events.set fd (some ⟨fd, fdeventNone, 0, none⟩) })

def putEvent (m : Mgr K P) (fd : Nat) (ev : Event P) : Mgr K P :=
    { m with events := m.events.set fd (some ev) }

def isset (m : Mgr K P) (fd : Nat) (flag : Flags) : Flags × Mgr K P :=
  let (ev, m) := m.getEvent fd
  (ev.sFlags &&& flag, m)

def set (m : Mgr K P) (fd : Nat) (flags : Flags) (num : Int) (ptr : Option P) : Int × Mgr K P :=
  let (ev, m) := m.getEvent fd
  let op := if ev.sFlags ≠ 0 then CtlOp.mod else .add
  let ev := { ev with sFlags := ev.sFlags ||| flags, num := num, ptr := ptr }
  let m := m.putEvent fd ev
  let (ret, kernel) := Epoll.ctl m.kernel op fd (asks ev.sFlags fd)
  (ret, { m with kernel := kernel })

/-- etdb_event_mgr_del: the event is cleared behind the call. -/
def del (m : Mgr K P) (fd : Nat) : Int × Mgr K P :=
  let (ret, kernel) := Epoll.ctl m.kernel .del fd (asks 0 fd)
  if ret = -1 then (-1, { m with kernel := kernel })
  else
    let (ev, m) := { m with kernel := kernel }.getEvent fd
    (0, m.putEvent fd { ev with sFlags := fdeventNone })

/-- etdb_event_mgr_ctr: with no flag left the descriptor is taken out. -/
def ctr (m : Mgr K P) (fd : Nat) (flags : Flags) : Int × Mgr K P :=
  let (ev, m) := m.getEvent fd
  let ev := { ev with sFlags := ev.sFlags &&& ~~~flags }
  let m := m.putEvent fd ev
  let op := if ev.sFlags ≠ 0 then CtlOp.mod else .del
  let (ret, kernel) := Epoll.ctl m.kernel op fd (asks ev.sFlags fd)
  (ret, { m with kernel := kernel })

def event (m : Mgr K P) (fd : Nat) : Option (Event P) := (m.events[fd]?).join

end Mgr

structure Watch (P : Type) where
  flags : Flags
  num : Int
  ptr : Option P

/-- What a table is for: the descriptors that are watched. -/
abbrev Watches (P : Type) := Nat → Option (Watch P)

namespace Watches
variable {P : Type}

def set (w : Watches P) (fd : Nat) (flags : Flags) (num : Int) (ptr : Option P) : Watches P :=
  Function.update w fd (some ⟨(w fd).elim flags (·.flags ||| flags), num, ptr⟩)

def ctr (w : Watches P) (fd : Nat) (flags : Flags) : Watches P :=
  Function.update w fd ((w fd).bind fun a =>
    if a.flags &&& ~~~flags = 0 then none else some { a with flags := a.flags &&& ~~~flags })

def del (w : Watches P) (fd : Nat) : Watches P := Function.update w fd none

end Watches

/-- A call on the table, or a descriptor that the process opens or closes. -/
inductive Use (P : Type) where
  | isset (fd : Nat) (flag : Flags)
  | set (fd : Nat) (flags : Flags) (num : Int) (ptr : Option P)
  | ctr (fd : Nat) (flags : Flags)
  | del (fd : Nat)
  | opened (fd : Nat)
  | closed (fd : Nat)

def Mgr.use {K P : Type} [Epoll K] (m : Mgr K P) : Use P → Int × Mgr K P
  | .isset fd flag => ((m.isset fd flag).1.toInt, (m.isset fd flag).2)
  | .set fd flags num ptr => m.set fd flags num ptr
  | .ctr fd flags => m.ctr fd flags
  | .del fd => m.del fd
  | .opened fd => (0, { m with kernel := Epoll.opened m.kernel fd })
  | .closed fd => (0, { m with kernel := Epoll.closed m.kernel fd })

def Mgr.uses {K P : Type} [Epoll K] (m : Mgr K P) : List (Use P) → List Int × Mgr K P
  | [] => ([], m)
  | u :: rest =>
    let (a, m) := m.use u
    let (answers, m) := m.uses rest
    (a :: answers, m)

def Watches.use {P : Type} (w : Watches P) : Use P → Int × Watches P
  | .isset fd flag => (((w fd).elim 0 Watch.flags &&& flag).toInt, w)
  | .set fd flags num ptr => (0, w.set fd flags num ptr)
  | .ctr fd flags => (if (w fd).isSome then 0 else -1, w.ctr fd flags)
  | .del fd => (if (w fd).isSome then 0 else -1, w.del fd)
  | .opened _ | .closed _ => (0, w)

def Watches.uses {P : Type} (w : Watches P) : List (Use P) → List Int × Watches P
  | [] => ([], w)
  | u :: rest =>
    let (a, w) := w.use u
    let (answers, w) := w.uses rest
    (a :: answers, w)

structure Agree {P : Type} (fd : Nat) (isOpen : Bool) (interest : Option Interest)
    (event : Option (Event P)) (watch : Option (Watch P)) : Prop where
  opened : watch ≠ none → isOpen = true
  interest : interest = watch.map fun a => asks a.flags fd
  own : ∀ ev, event = some ev → ev.fd = fd
  watched : ∀ a, watch = some a → a.flags ≠ 0 ∧ event = some ⟨fd, a.flags, a.num, a.ptr⟩
  spare : ∀ ev, watch = none → event = some ev → ev.sFlags = 0

def InStep {K P : Type} [Epoll K] (m : Mgr K P) (w : Watches P) : Prop :=
  ∀ fd, Agree fd (Epoll.isOpen m.kernel fd) (Epoll.interest m.kernel fd) (m.event fd) (w fd)

/-- The descriptors that are set are open, and something is asked of them; those that are
    closed are not watched any more. -/
def Use.Fair {P : Type} (isOpen : Nat → Bool) (w : Watches P) : Use P → Prop
  | .set fd flags _ _ => isOpen fd = true ∧ flags ≠ 0
  | .isset _ _ | .ctr _ _ | .del _ | .opened _ => True
  | .closed fd => w fd = none

def Mgr.FairRun {K P : Type} [Epoll K] (m : Mgr K P) (w : Watches P) : List (Use P) → Prop
  | [] => True
  | u :: rest => u.Fair (Epoll.isOpen m.kernel) w ∧ (m.use u).2.FairRun (w.use u).2 rest

section
variable {K P : Type} {m : Mgr K P} {w : Watches P} {fd other : Nat} {ev : Event P}

theorem grown_event (events : List (Option (Event P))) (n i : Nat) :
    ((events ++ List.replicate n none)[i]?).join = (events[i]?).join := by
  by_cases inside : i < events.length
  · rw [List.getElem?_append_left inside]
  · have beyond : events[i]? = none := List.getElem?_eq_none (by omega)
    rw [List.getElem?_append_right (by omega), beyond, List.getElem?_replicate]
    split <;> rfl

theorem Mgr.getEvent_spec (m : Mgr K P) (fd : Nat) :
    (m.getEvent fd).1 = (m.event fd).getD ⟨fd, 0, 0, none⟩ ∧
    (m.getEvent fd).2.kernel = m.kernel ∧ fd < (m.getEvent fd).2.events.length ∧
    ∀ other, (m.getEvent fd).2.event other =
      if other = fd then some (m.getEvent fd).1 else m.event other := by
  have grown := grown_event m.events (fd + 1 - m.events.length)
  have room : fd < (m.events ++ List.replicate (fd + 1 - m.events.length) none).length := by
    rw [List.length_append, List.length_replicate]
    omega
  rw [Mgr.getEvent]
  cases found : (m.events ++ List.replicate (fd + 1 - m.events.length) none)[fd]? with
  | none => exact absurd (List.getElem?_eq_none_iff.mp found) (by omega)
  | some entry =>
    have here : m.event fd = entry := by
      rw [Mgr.event, ← grown, found]
      rfl
    cases entry with
    | some ev =>
      refine ⟨by rw [here]; rfl, rfl, room, fun other => ?_⟩
      by_cases same : other = fd
      · rw [if_pos same, same]
        exact congrArg Option.join found
      · rw [if_neg same]
        exact grown other
    | none =>
      refine ⟨by rw [here]; rfl, rfl, by rw [List.length_set]; exact room, fun other => ?_⟩
      by_cases same : other = fd
      · rw [if_pos same, same, Mgr.event, List.getElem?_set_self room]
        rfl
      · rw [if_neg same, Mgr.event, List.getElem?_set_ne (Ne.symm same)]
        exact grown other

theorem Mgr.putEvent_event (room : fd < m.events.length) (other : Nat) :
    (m.putEvent fd ev).event other = if other = fd then some ev else m.event other := by
  by_cases same : other = fd
  · rw [if_pos same, same, Mgr.event, Mgr.putEvent, List.getElem?_set_self room]
    rfl
  · rw [if_neg same, Mgr.event, Mgr.putEvent, List.getElem?_set_ne (Ne.symm same)]
    rfl

theorem Mgr.changed_event (m : Mgr K P) (fd : Nat) (ev : Event P) (other : Nat) :
    ((m.getEvent fd).2.putEvent fd ev).event other = if other = fd then some ev else m.event other := by
  obtain ⟨_, _, room, events⟩ := m.getEvent_spec fd
  rw [Mgr.putEvent_event room, events]
  split <;> rfl

theorem Mgr.changed_kernel (m : Mgr K P) (fd : Nat) (ev : Event P) :
    ((m.getEvent fd).2.putEvent fd ev).kernel = m.kernel := (m.getEvent_spec fd).2.1

theorem Mgr.getEvent_kernel (m : Mgr K P) (kernel : K) (fd : Nat) :
    ({ m with kernel := kernel } : Mgr K P).getEvent fd =
      ((m.getEvent fd).1, { (m.getEvent fd).2 with kernel := kernel }) := by
  unfold Mgr.getEvent
  dsimp only
  split <;> rfl

section
variable [Epoll K]

theorem InStep.found (step : InStep m w) (fd : Nat) : (m.getEvent fd).1.fd = fd ∧
    (m.getEvent fd).1.sFlags = (w fd).elim 0 Watch.flags ∧
    ((m.getEvent fd).1.sFlags ≠ 0 ↔ (w fd).isSome = true) := by
  have at_fd := step fd
  rw [(m.getEvent_spec fd).1]
  cases watch : w fd with
  | none =>
    cases found : m.event fd with
    | none => simp
    | some ev => simp [at_fd.own ev found, at_fd.spare ev watch found]
  | some a =>
    obtain ⟨proper, here⟩ := at_fd.watched a watch
    simpa [here] using proper

theorem InStep.change {m' : Mgr K P} (watch : Option (Watch P)) (step : InStep m w)
    (isOpen : ∀ other, other ≠ fd → Epoll.isOpen m'.kernel other = Epoll.isOpen m.kernel other)
    (interest : ∀ other, other ≠ fd → Epoll.interest m'.kernel other = Epoll.interest m.kernel other)
    (event : ∀ other, other ≠ fd → m'.event other = m.event other)
    (agree : Agree fd (Epoll.isOpen m'.kernel fd) (Epoll.interest m'.kernel fd) (m'.event fd) watch) :
    InStep m' (Function.update w fd watch) := by
  intro other
  by_cases same : other = fd
  · rw [same, Function.update_self]
    exact agree
  · rw [isOpen other same, interest other same, event other same, Function.update_of_ne same]
    exact step other

theorem init_inStep {kernel : K} (fresh : ∀ fd, Epoll.interest kernel fd = none) :
    InStep (Mgr.init kernel : Mgr K P) fun _ => none := by
  intro fd
  have event : (Mgr.init kernel : Mgr K P).event fd = none := by
    rw [Mgr.event, Mgr.init, List.getElem?_replicate]
    split <;> rfl
  refine ⟨fun some => absurd rfl some, fresh fd, fun ev here => ?_, fun a here =>
    (by cases here), fun ev _ here => ?_⟩
  all_goals
    rw [event] at here
    cases here

theorem InStep.written (step : InStep m w) (ev : Event P) (watch : Option (Watch P)) (kernel : K)
    (isOpen : Epoll.isOpen kernel = Epoll.isOpen m.kernel)
    (interest : Epoll.interest kernel = Function.update (Epoll.interest m.kernel) fd
      (watch.map fun a => asks a.flags fd))
    (own : ev.fd = fd) (opened : watch ≠ none → Epoll.isOpen m.kernel fd = true)
    (watched : ∀ a, watch = some a → a.flags ≠ 0 ∧ ev = ⟨fd, a.flags, a.num, a.ptr⟩)
    (spare : watch = none → ev.sFlags = 0) :
    InStep { (m.getEvent fd).2.putEvent fd ev with kernel := kernel } (Function.update w fd watch) := by
  have event := m.changed_event fd ev
  have here := (event fd).trans (if_pos rfl)
  refine step.change _ (fun _ _ => congrFun isOpen _)
    (fun other apart => (congrFun interest other).trans (Function.update_of_ne apart _ _))
    (fun other apart => (event other).trans (if_neg apart)) ?_
  refine ⟨fun some => (congrFun isOpen fd).trans (opened some),
    (congrFun interest fd).trans (Function.update_self ..), fun ev' found => ?_, fun a asked => ?_,
    fun ev' none found => ?_⟩
  · cases here.symm.trans found
    exact own
  · obtain ⟨proper, rfl⟩ := watched a asked
    exact ⟨proper, here⟩
  · cases here.symm.trans found
    exact spare none

theorem InStep.isset (step : InStep m w) (fd : Nat) (flag : Flags) :
    (m.isset fd flag).1 = (w fd).elim 0 Watch.flags &&& flag ∧ InStep (m.isset fd flag).2 w := by
  obtain ⟨own, asked, _⟩ := step.found fd
  obtain ⟨found, kernel, _, event⟩ := m.getEvent_spec fd
  have agree := step fd
  have here := (event fd).trans (if_pos rfl)
  rw [Mgr.isset]
  dsimp only
  refine ⟨by rw [asked], ?_⟩
  have same : InStep (m.getEvent fd).2 (Function.update w fd (w fd)) := by
    refine step.change _ (fun _ _ => by rw [kernel]) (fun _ _ => by rw [kernel])
      (fun other apart => (event other).trans (if_neg apart)) ?_
    rw [kernel]
    refine ⟨agree.opened, agree.interest, fun ev held => ?_, fun a watch => ?_, fun ev watch held => ?_⟩
    · cases here.symm.trans held
      exact own
    · obtain ⟨proper, old⟩ := agree.watched a watch
      rw [old] at found
      exact ⟨proper, by rw [here, found]; rfl⟩
    · cases here.symm.trans held
      rw [asked, watch]
      rfl
  rwa [Function.update_eq_self] at same

section
variable [EpollLaws K] [EpollAmple K]

theorem InStep.epollCtl (step : InStep m w) (fd : Nat) (asked : Interest)
    (opened : Epoll.isOpen m.kernel fd = true) :
    (Epoll.ctl m.kernel (if (w fd).isSome then .mod else .add) fd asked).1 = 0 ∧
    Epoll.interest (Epoll.ctl m.kernel (if (w fd).isSome then .mod else .add) fd asked).2 =
      Function.update (Epoll.interest m.kernel) fd (some asked) := by
  have listed := (step fd).interest
  have done : (Epoll.ctl m.kernel (if (w fd).isSome then .mod else .add) fd asked).1 = 0 := by
    refine EpollAmple.granted _ _ _ _ opened ?_
    rw [listed]
    cases w fd <;> simp
  refine ⟨done, (EpollLaws.changed _ _ _ _ done).trans ?_⟩
  cases w fd <;> rfl

theorem InStep.epollDel (step : InStep m w) (fd : Nat) (asked : Interest) :
    (Epoll.ctl m.kernel .del fd asked).1 = (if (w fd).isSome then 0 else -1) ∧
    Epoll.interest (Epoll.ctl m.kernel .del fd asked).2 =
      Function.update (Epoll.interest m.kernel) fd none := by
  have agree := step fd
  have listed := agree.interest
  cases watch : w fd with
  | none =>
    rw [watch, Option.map_none] at listed
    have missing := EpollLaws.missing m.kernel fd asked listed
    refine ⟨missing, (EpollLaws.refused _ _ _ _ missing).trans ?_⟩
    exact (Function.update_eq_self_iff.mpr listed.symm).symm
  | some a =>
    have opened := agree.opened (by simp [watch])
    have done : (Epoll.ctl m.kernel .del fd asked).1 = 0 := by
      refine EpollAmple.granted _ _ _ _ opened ?_
      rw [listed, watch]
      simp
    exact ⟨done, EpollLaws.changed _ _ _ _ done⟩

theorem InStep.set {flags : Flags} (step : InStep m w) (opened : Epoll.isOpen m.kernel fd = true)
    (proper : flags ≠ 0) (num : Int) (ptr : Option P) : (m.set fd flags num ptr).1 = 0 ∧
      InStep (m.set fd flags num ptr).2 (w.set fd flags num ptr) := by
  obtain ⟨own, asked, watched⟩ := step.found fd
  have op : (if (m.getEvent fd).1.sFlags ≠ 0 then CtlOp.mod else .add) =
      if (w fd).isSome then .mod else .add := if_congr watched rfl rfl
  have new : (m.getEvent fd).1.sFlags ||| flags = (w fd).elim flags fun a => a.flags ||| flags := by
    rw [asked]
    cases w fd with
    | none => exact BitVec.zero_or
    | some a => rfl
  rw [Mgr.set]
  dsimp only
  rw [op, Mgr.changed_kernel, new, own]
  obtain ⟨done, listed⟩ :=
    step.epollCtl fd (asks ((w fd).elim flags fun a => a.flags ||| flags) fd) opened
  refine ⟨done, step.written ⟨fd, _, num, ptr⟩ (some ⟨_, num, ptr⟩) _ (EpollLaws.ctl_isOpen ..) listed
    rfl (fun _ => opened) (fun a here => ?_) fun here => by cases here⟩
  cases here
  refine ⟨?_, rfl⟩
  cases w fd with
  | none => exact proper
  | some a => exact fun none => proper (BitVec.or_eq_zero_iff.mp none).2

theorem InStep.ctr (step : InStep m w) (fd : Nat) (flags : Flags) :
    (m.ctr fd flags).1 = (if (w fd).isSome then 0 else -1) ∧
      InStep (m.ctr fd flags).2 (w.ctr fd flags) := by
  obtain ⟨own, asked, watched⟩ := step.found fd
  rw [Mgr.ctr]
  dsimp only
  rw [Mgr.changed_kernel, asked, own, Watches.ctr]
  cases watch : w fd with
  | none =>
    have left : (0 : Flags) &&& ~~~flags = 0 := BitVec.zero_and
    obtain ⟨answer, listed⟩ := step.epollDel fd (asks 0 fd)
    rw [watch] at answer
    rw [Option.elim_none, left, if_neg (not_not.mpr rfl), Option.bind_none]
    exact ⟨answer, step.written ⟨fd, 0, (m.getEvent fd).1.num, (m.getEvent fd).1.ptr⟩ none _
      (EpollLaws.ctl_isOpen ..) listed rfl (fun some => absurd rfl some) (fun a here => by cases here)
      fun _ => rfl⟩
  | some a =>
    have opened := (step fd).opened (by simp [watch])
    have found := (m.getEvent_spec fd).1
    rw [((step fd).watched a watch).2, Option.getD_some] at found
    rw [Option.elim_some, Option.bind_some, found]
    by_cases last : a.flags &&& ~~~flags = 0
    · obtain ⟨answer, listed⟩ := step.epollDel fd (asks 0 fd)
      rw [watch] at answer
      rw [if_neg (not_not.mpr last), if_pos last, last]
      exact ⟨answer, step.written ⟨fd, 0, a.num, a.ptr⟩ none _ (EpollLaws.ctl_isOpen ..) listed rfl
        (fun some => absurd rfl some) (fun a here => by cases here) fun _ => rfl⟩
    · obtain ⟨answer, listed⟩ := step.epollCtl fd (asks (a.flags &&& ~~~flags) fd) opened
      rw [watch] at answer listed
      rw [if_pos last, if_neg last]
      exact ⟨answer, step.written ⟨fd, a.flags &&& ~~~flags, a.num, a.ptr⟩
        (some ⟨a.flags &&& ~~~flags, a.num, a.ptr⟩) _ (EpollLaws.ctl_isOpen ..) listed rfl
        (fun _ => opened) (fun b here => by cases here; exact ⟨last, rfl⟩) fun here => by cases here⟩

theorem InStep.del (step : InStep m w) (fd : Nat) :
    (m.del fd).1 = (if (w fd).isSome then 0 else -1) ∧ InStep (m.del fd).2 (w.del fd) := by
  obtain ⟨answer, listed⟩ := step.epollDel fd (asks 0 fd)
  have isOpen := EpollLaws.ctl_isOpen m.kernel .del fd (asks 0 fd)
  obtain ⟨kernel, called⟩ : ∃ kernel, kernel = (Epoll.ctl m.kernel .del fd (asks 0 fd)).2 := ⟨_, rfl⟩
  rw [← called] at listed isOpen
  rw [Mgr.del, Watches.del]
  dsimp only
  rw [answer, ← called]
  cases watch : w fd with
  | none =>
    have same : InStep { m with kernel := kernel } (Function.update w fd none) := by
      have agree := step fd
      rw [watch] at agree
      refine step.change _ (fun _ _ => congrFun isOpen _)
        (fun other apart => (congrFun listed other).trans (Function.update_of_ne apart _ _))
        (fun _ _ => rfl) ?_
      exact ⟨fun some => absurd rfl some, (congrFun listed fd).trans (Function.update_self ..),
        agree.own, fun a here => (by cases here), agree.spare⟩
    exact ⟨rfl, same⟩
  | some a =>
    refine ⟨rfl, ?_⟩
    have found : (m.getEvent fd).1 = ⟨fd, a.flags, a.num, a.ptr⟩ := by
      rw [(m.getEvent_spec fd).1, ((step fd).watched a watch).2]
      rfl
    have done : ¬ ((if (some a).isSome = true then 0 else -1 : Int) = -1) := by
      rw [Option.isSome_some, if_pos rfl]
      decide
    rw [if_neg done, Mgr.getEvent_kernel, found]
    exact step.written ⟨fd, 0, a.num, a.ptr⟩ none kernel isOpen listed rfl
      (fun some => absurd rfl some) (fun a here => by cases here) fun _ => rfl

theorem InStep.use (step : InStep m w) (u : Use P) (fair : u.Fair (Epoll.isOpen m.kernel) w) :
    (m.use u).1 = (w.use u).1 ∧ InStep (m.use u).2 (w.use u).2 := by
  cases u with
  | isset fd flag =>
    obtain ⟨answer, same⟩ := step.isset fd flag
    exact ⟨congrArg BitVec.toInt answer, same⟩
  | set fd flags num ptr => exact step.set fair.1 fair.2 num ptr
  | ctr fd flags => exact step.ctr fd flags
  | del fd => exact step.del fd
  | opened fd =>
    refine ⟨rfl, fun other => ?_⟩
    have agree := step other
    have isOpen := congrFun (EpollLaws.opened_isOpen m.kernel fd) other
    refine ⟨fun some => ?_, (congrFun (EpollLaws.opened_interest m.kernel fd) other).trans agree.interest,
      agree.own, agree.watched, agree.spare⟩
    refine isOpen.trans ?_
    by_cases same : other = fd
    · rw [same]
      exact Function.update_self ..
    · exact (Function.update_of_ne same _ _).trans (agree.opened some)
  | closed fd =>
    have silent : w fd = none := fair
    have isOpen := congrFun (EpollLaws.closed_isOpen m.kernel fd)
    have interest := congrFun (EpollLaws.closed_interest m.kernel fd)
    refine ⟨rfl, ?_⟩
    rw [show (w.use (.closed fd)).2 = Function.update w fd none from
      (Function.update_eq_self_iff.mpr silent.symm).symm]
    have agree := step fd
    rw [silent] at agree
    exact step.change _ (fun other apart => (isOpen other).trans (Function.update_of_ne apart _ _))
      (fun other apart => (interest other).trans (Function.update_of_ne apart _ _)) (fun _ _ => rfl)
      ⟨fun some => absurd rfl some, (interest fd).trans (Function.update_self ..), agree.own,
        agree.watched, agree.spare⟩

theorem InStep.uses {us : List (Use P)} (step : InStep m w) (fair : m.FairRun w us) :
    (m.uses us).1 = (w.uses us).1 ∧ InStep (m.uses us).2 (w.uses us).2 := by
  induction us generalizing m w with
  | nil => exact ⟨rfl, step⟩
  | cons u rest ih =>
    obtain ⟨answer, step'⟩ := step.use u fair.1
    obtain ⟨answers, last⟩ := ih step' fair.2
    exact ⟨congrArg₂ List.cons answer answers, last⟩

/-- However descriptors are looked at, set, cleared, taken out, closed and opened again,
    epoll's list and the table hold what is watched, and every call answers as the watched
    descriptors do. -/
theorem events_follow (kernel : K) (fresh : ∀ fd, Epoll.interest kernel fd = none) (us : List (Use P))
    (fair : (Mgr.init kernel : Mgr K P).FairRun (fun _ => none) us) :
    ((Mgr.init kernel : Mgr K P).uses us).1 = (Watches.uses (fun _ => none) us).1 ∧
      InStep ((Mgr.init kernel : Mgr K P).uses us).2 (Watches.uses (fun _ => none) us).2 :=
  (init_inStep fresh).uses fair

end
end

/-- A kernel with memory for all that is asked of it. -/
structure Kernel where
  isOpen : Nat → Bool
  interest : Nat → Option Interest

instance : Epoll Kernel where
  isOpen := Kernel.isOpen
  interest := Kernel.interest
  ctl k op fd asked :=
    if k.isOpen fd = false then (-1, k)
    else match op, k.interest fd with
      | .add, none => (0, { k with interest := Function.update k.interest fd (some asked) })
      | .mod, some _ => (0, { k with interest := Function.update k.interest fd (some asked) })
      | .del, some _ => (0, { k with interest := Function.update k.interest fd none })
      | _, _ => (-1, k)
  opened k fd := { k with isOpen := Function.update k.isOpen fd true }
  closed k fd := ⟨Function.update k.isOpen fd false, Function.update k.interest fd none⟩

theorem Kernel.ctl_cases (k : Kernel) (op : CtlOp) (fd : Nat) (asked : Interest) :
    Epoll.ctl k op fd asked = (-1, k) ∧ (k.isOpen fd = false ∨ ¬ (op = .add ↔ k.interest fd = none)) ∨
    Epoll.ctl k op fd asked = (0, { k with
      interest := Function.update k.interest fd (if op = .del then none else some asked) }) ∧
      (op = .add ↔ k.interest fd = none) := by
  unfold Epoll.ctl instEpollKernel
  dsimp only
  cases k.isOpen fd with
  | false => simp
  | true => cases op <;> cases k.interest fd <;> simp

instance : EpollLaws Kernel where
  ctl_isOpen k op fd asked := by
    obtain ⟨same, _⟩ | ⟨same, _⟩ := k.ctl_cases op fd asked
    · rw [same]
    · rw [same]
      rfl
  changed k op fd asked done := by
    obtain ⟨same, _⟩ | ⟨same, _⟩ := k.ctl_cases op fd asked
    · rw [same] at done
      cases done
    · rw [same]
      rfl
  refused k op fd asked failed := by
    obtain ⟨same, _⟩ | ⟨same, _⟩ := k.ctl_cases op fd asked
    · rw [same]
    · rw [same] at failed
      cases failed
  missing k fd asked none := by
    obtain ⟨same, _⟩ | ⟨_, fits⟩ := k.ctl_cases .del fd asked
    · rw [same]
    · cases fits.mpr none
  opened_isOpen _ _ := rfl
  opened_interest _ _ := rfl
  closed_isOpen _ _ := rfl
  closed_interest _ _ := rfl

instance : EpollAmple Kernel where
  granted k op fd asked opened fits := by
    obtain ⟨_, closed | other⟩ | ⟨same, _⟩ := k.ctl_cases op fd asked
    · cases closed.symm.trans opened
    · exact absurd fits other
    · rw [same]

/-- A descriptor that is opened, waited for in both ways and closed, and one that is taken out
    without being in the list. -/
def openedAndClosed : List (Use Unit) :=
  [.opened 5, .set 5 fdeventIn 0 (some ()), .isset 5 fdeventIn, .ctr 5 fdeventIn,
    .set 5 fdeventOut 1 (some ()), .del 9, .del 5, .closed 5]

theorem openedAndClosed_fair : (Mgr.init ⟨fun _ => false, fun _ => none⟩ : Mgr Kernel Unit).FairRun
    (fun _ => none) openedAndClosed :=
  ⟨trivial, ⟨rfl, by decide⟩, trivial, trivial, ⟨rfl, by decide⟩, trivial, trivial, rfl, trivial⟩

theorem events_follow_once :
    ((Mgr.init ⟨fun _ => false, fun _ => none⟩ : Mgr Kernel Unit).uses openedAndClosed).1 =
      [0, 0, 1, 0, 0, -1, 0, 0] ∧
    InStep ((Mgr.init ⟨fun _ => false, fun _ => none⟩ : Mgr Kernel Unit).uses openedAndClosed).2
      (Watches.uses (fun _ => none) openedAndClosed).2 := by
  obtain ⟨answers, step⟩ := events_follow (P := Unit) (⟨fun _ => false, fun _ => none⟩ : Kernel)
    (fun _ => rfl) openedAndClosed openedAndClosed_fair
  exact ⟨answers.trans (by decide), step⟩

end
end EtdbEvent
