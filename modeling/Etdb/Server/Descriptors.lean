import Etdb.Server.Watching

/- Over every run of the loop the event table, epoll and the connections agree: every event
   that is handled belongs to a connection that is open, also when descriptors are used
   again, and the loop does what the cycle without descriptors does. -/
namespace EtdbServer
open EtdbTrie EtdbEvent
open EtdbWire (message)

def Link.flags (link : Link) : Flags :=
  (if link.flagIn then fdeventIn else 0) ||| (if link.flagOut then fdeventOut else 0)

/-- What is reported was asked for, errors apart, and something is. -/
structure Report.Fits (r : Report) (asked : Flags) : Prop where
  some : r.flags ≠ 0
  readable : r.flags &&& fdeventIn ≠ 0 → asked &&& fdeventIn ≠ 0
  writable : r.flags &&& fdeventOut ≠ 0 → asked &&& fdeventOut ≠ 0

/-- The listening socket and the open connections are watched, nothing else is; what waits
    to be handled is watched, and no call of the event table was refused. -/
structure Loop.Keeps {K : Type} [Epoll K] (listener : Nat) (l : Loop K) (w : Watches Owner) : Prop where
  inStep : InStep l.mgr w
  listening : ∃ a, w listener = some a ∧ a.flags = fdeventIn ∧ a.ptr = some .server
  links : ∀ id link, l.base.links id = some link →
    ∃ a, w (l.sock id) = some a ∧ a.flags = link.flags ∧ a.ptr = some (.conn id)
  only : ∀ fd, w fd ≠ none → fd = listener ∨ ∃ id, l.base.links id ≠ none ∧ l.sock id = fd
  flagIn : ∀ id link, l.base.links id = some link → link.flagIn = true
  waiting : ∀ e ∈ l.waiting, e.1 = e.2.fd ∧ ∃ a, w e.2.fd = some a ∧ e.2.Fits a.flags
  once : (l.waiting.map fun e => e.2.fd).Nodup
  unused : ∀ id, l.base.fresh ≤ id → l.base.links id = none
  answers : ∀ a ∈ l.answers, a = 0

section
variable {K : Type} [Epoll K] {atof : List UInt8 → Option ℚ} {listener event id : Nat} {l l' : Loop K}
variable {w : Watches Owner}
variable {r : Report} {rest : List (Nat × Report)} {link new : Link} {a : Watch Owner}

theorem flag_bits : ∀ readable urgent writable hup err : Bool,
    let flags := fdeventNone ||| (if readable then fdeventIn else 0) |||
    (if urgent then fdeventIn else 0) |||
      (if writable then fdeventOut else 0) ||| (if hup then fdeventErr else 0) |||
      (if err then fdeventErr else 0)
    (flags &&& fdeventIn ≠ 0 ↔ (readable || urgent) = true) ∧
    (flags &&& fdeventOut ≠ 0 ↔ writable = true) ∧
      (flags &&& fdeventErr = 0 → flags &&& fdeventIn = 0 → flags ≠ 0 → flags &&& fdeventOut ≠ 0) := by
  decide

theorem report_flags (r : Report) :
    (r.flags &&& fdeventIn ≠ 0 ↔ (r.readable || r.urgent) = true) ∧
    (r.flags &&& fdeventOut ≠ 0 ↔ r.writable = true) ∧
    (r.flags &&& fdeventErr = 0 → r.flags &&& fdeventIn = 0 → r.flags ≠ 0 → r.flags &&& fdeventOut ≠ 0) :=
  flag_bits r.readable r.urgent r.writable r.hup r.err

theorem link_bits : ∀ flagIn flagOut : Bool,
    let flags : Flags := (if flagIn then fdeventIn else 0) ||| (if flagOut then fdeventOut else 0)
    (flags &&& fdeventOut ≠ 0 → flagOut = true) ∧ (flagIn = true → flags &&& fdeventIn ≠ 0 ∧
      flags &&& ~~~fdeventOut = fdeventIn ∧ flags ||| fdeventOut = fdeventIn ||| fdeventOut ∧
      flags = if flagOut then fdeventIn ||| fdeventOut else fdeventIn) := by
  decide

theorem link_flags (link : Link) :
    (link.flags &&& fdeventOut ≠ 0 → link.flagOut = true) ∧ (link.flagIn = true →
      link.flags &&& fdeventIn ≠ 0 ∧ link.flags &&& ~~~fdeventOut = fdeventIn ∧
        link.flags ||| fdeventOut = fdeventIn ||| fdeventOut ∧
        link.flags = if link.flagOut then fdeventIn ||| fdeventOut else fdeventIn) :=
  link_bits link.flagIn link.flagOut

theorem silent_flags (link : Link) (flagIn : link.flagIn = true) (flagOut : link.flagOut = false) :
    link.flags = fdeventIn := by
  rw [((link_flags link).2 flagIn).2.2.2, flagOut]
  rfl

theorem heard_fits {found : List (Nat × Report)} (step : InStep l.mgr w) (heard : Heard l.mgr.kernel found) :
    ∀ e ∈ found, e.1 = e.2.fd ∧ ∃ a, w e.2.fd = some a ∧ e.2.Fits a.flags := by
  intro e inside
  obtain ⟨i, listed, event, something, urgent, readable, writable⟩ := heard.asked e inside
  rw [Option.mem_def, (step e.2.fd).interest, Option.map_eq_some_iff] at listed
  obtain ⟨a, watch, rfl⟩ := listed
  refine ⟨event, a, watch, something, fun bits => ?_, fun bits => ?_⟩
  · have both := (report_flags e.2).1.mp bits
    rw [urgent, Bool.or_false] at both
    exact of_decide_eq_true (readable both)
  · exact of_decide_eq_true (writable ((report_flags e.2).2.1.mp bits))

namespace Loop

theorem Keeps.owner (keeps : l.Keeps listener w) {fd : Nat} (watch : w fd = some a) :
    fd = listener ∧ a.ptr = some .server ∨
    ∃ id link, l.base.links id = some link ∧ l.sock id = fd ∧ a.flags = link.flags ∧
      a.ptr = some (.conn id) := by
  rcases keeps.only fd (by simp [watch]) with rfl | ⟨id, opened, sock⟩
  · obtain ⟨b, here, _, ptr⟩ := keeps.listening
    cases watch.symm.trans here
    exact Or.inl ⟨rfl, ptr⟩
  · obtain ⟨link, found⟩ := Option.ne_none_iff_exists'.mp opened
    obtain ⟨b, here, flags, ptr⟩ := keeps.links id link found
    rw [sock] at here
    cases watch.symm.trans here
    exact Or.inr ⟨id, link, found, sock, flags, ptr⟩

theorem Keeps.apart (keeps : l.Keeps listener w) {other : Nat} (here : l.base.links id = some link)
    (there : l.base.links other = some new) : (l.sock other = l.sock id → other = id) ∧
      listener ≠ l.sock id := by
  obtain ⟨a, watch, _, ptr⟩ := keeps.links id link here
  constructor
  · intro same
    obtain ⟨b, watch', _, ptr'⟩ := keeps.links other new there
    rw [same] at watch'
    cases watch.symm.trans watch'
    cases ptr.symm.trans ptr'
    rfl
  · intro same
    obtain ⟨b, watch', _, ptr'⟩ := keeps.listening
    rw [same] at watch'
    cases watch.symm.trans watch'
    cases ptr.symm.trans ptr'

theorem resolve_same {waiting : List (Nat × Report)} {w' : Watches Owner} (keeps : l.Keeps listener w)
    (step : InStep l'.mgr w') (sub : ∀ e ∈ waiting, e ∈ l.waiting)
    (same : ∀ e ∈ waiting, w' e.2.fd = w e.2.fd) :
    (waiting.map fun e => l'.resolve e.1 e.2) = waiting.map fun e => l.resolve e.1 e.2 := by
  refine List.map_congr_left fun e inside => ?_
  obtain ⟨event, a, watch, _⟩ := keeps.waiting e (sub e inside)
  rw [Loop.resolve, Loop.resolve, event, ((keeps.inStep _).watched a watch).2,
    ((step _).watched a ((same e inside).trans watch)).2]

theorem Keeps.still {waiting : List (Nat × Report)} {w' : Watches Owner} (keeps : l.Keeps listener w)
    (sub : ∀ e ∈ waiting, e ∈ l.waiting) (same : ∀ e ∈ waiting, w' e.2.fd = w e.2.fd) :
    ∀ e ∈ waiting, e.1 = e.2.fd ∧ ∃ a, w' e.2.fd = some a ∧ e.2.Fits a.flags := by
  intro e inside
  rw [same e inside]
  exact keeps.waiting e (sub e inside)

theorem Keeps.put (keeps : l.Keeps listener w) (here : l.base.links id = some link)
    (step : InStep l'.mgr (Function.update w (l.sock id) (some a))) (flags : a.flags = new.flags)
    (ptr : a.ptr = some (.conn id)) (flagIn : new.flagIn = true)
    (links : l'.base.links = Function.update l.base.links id (some new))
    (fresh : l'.base.fresh = l.base.fresh) (sock : l'.sock = l.sock)
    (sub : l'.waiting.Sublist l.waiting) (apart : ∀ e ∈ l'.waiting, e.2.fd ≠ l.sock id)
    (answers : ∀ a ∈ l'.answers, a = 0) :
    l'.Keeps listener (Function.update w (l.sock id) (some a)) := by
  have other : ∀ other old, l.base.links other = some old → other ≠ id → l.sock other ≠ l.sock id :=
    fun other old there differs same => differs ((keeps.apart here there).1 same)
  refine ⟨step, ?_, fun conn found there => ?_, fun fd some => ?_, fun conn found there => ?_,
    keeps.still sub.subset fun e inside => Function.update_of_ne (apart e inside) _ _,
    keeps.once.sublist (sub.map _), fun conn high => ?_, answers⟩
  · rw [Function.update_of_ne (keeps.apart here here).2]
    exact keeps.listening
  · rw [links] at there
    rw [sock]
    by_cases same : conn = id
    · rw [same, Function.update_self] at there
      cases there
      rw [same, Function.update_self]
      exact ⟨a, rfl, flags, ptr⟩
    · rw [Function.update_of_ne same] at there
      rw [Function.update_of_ne (other conn found there same)]
      exact keeps.links conn found there
  · rw [links, sock]
    by_cases same : fd = l.sock id
    · exact Or.inr ⟨id, by simp, same.symm⟩
    · rw [Function.update_of_ne same] at some
      rcases keeps.only fd some with top | ⟨conn, opened, place⟩
      · exact Or.inl top
      · refine Or.inr ⟨conn, ?_, place⟩
        by_cases this : conn = id
        · simp [this]
        · rwa [Function.update_of_ne this]
  · rw [links] at there
    by_cases same : conn = id
    · rw [same, Function.update_self] at there
      cases there
      exact flagIn
    · rw [Function.update_of_ne same] at there
      exact keeps.flagIn conn found there
  · rw [fresh] at high
    have unused := keeps.unused conn high
    have differs : conn ≠ id := by
      rintro rfl
      rw [unused] at here
      cases here
    rw [links, Function.update_of_ne differs, unused]

theorem Keeps.close (keeps : l.Keeps listener w) (here : l.base.links id = some link)
    (step : InStep l'.mgr (Function.update w (l.sock id) none))
    (links : l'.base.links = Function.update l.base.links id none)
    (fresh : l'.base.fresh = l.base.fresh) (sock : l'.sock = l.sock)
    (sub : l'.waiting.Sublist l.waiting) (apart : ∀ e ∈ l'.waiting, e.2.fd ≠ l.sock id)
    (answers : ∀ a ∈ l'.answers, a = 0) : l'.Keeps listener (Function.update w (l.sock id) none) := by
  refine ⟨step, ?_, fun conn found there => ?_, fun fd some => ?_, fun conn found there => ?_,
    keeps.still sub.subset fun e inside => Function.update_of_ne (apart e inside) _ _,
    keeps.once.sublist (sub.map _), fun conn high => ?_, answers⟩
  · rw [Function.update_of_ne (keeps.apart here here).2]
    exact keeps.listening
  · rw [links] at there
    by_cases same : conn = id
    · rw [same, Function.update_self] at there
      cases there
    · rw [Function.update_of_ne same] at there
      rw [sock, Function.update_of_ne fun place => same ((keeps.apart here there).1 place)]
      exact keeps.links conn found there
  · by_cases same : fd = l.sock id
    · rw [same, Function.update_self] at some
      exact absurd rfl some
    · rw [Function.update_of_ne same] at some
      rcases keeps.only fd some with top | ⟨conn, opened, place⟩
      · exact Or.inl top
      · refine Or.inr ⟨conn, ?_, by rw [sock]; exact place⟩
        have differs : conn ≠ id := by
          rintro rfl
          exact same place.symm
        rwa [links, Function.update_of_ne differs]
  · rw [links] at there
    by_cases same : conn = id
    · rw [same, Function.update_self] at there
      cases there
    · rw [Function.update_of_ne same] at there
      exact keeps.flagIn conn found there
  · rw [links]
    by_cases same : conn = id
    · rw [same, Function.update_self]
    · rw [Function.update_of_ne same]
      exact keeps.unused conn (by rwa [fresh] at high)

theorem Keeps.accept {fd : Nat} (keeps : l.Keeps listener w) (closed : Epoll.isOpen l.mgr.kernel fd = false)
    (blockIn blockOut : Nat → UInt8)
    (step : InStep l'.mgr (Function.update w fd (some ⟨fdeventIn, 0, some (.conn l.base.fresh)⟩)))
    (base : l'.base = l.base.accept blockIn blockOut)
    (sock : l'.sock = Function.update l.sock l.base.fresh fd) (sub : l'.waiting.Sublist l.waiting)
    (answers : ∀ a ∈ l'.answers, a = 0) :
    l'.Keeps listener (Function.update w fd (some ⟨fdeventIn, 0, some (.conn l.base.fresh)⟩)) := by
  have silent : w fd = none := by
    by_contra some
    rw [(keeps.inStep fd).opened some] at closed
    cases closed
  have differs : ∀ other, w other ≠ none → other ≠ fd := by
    rintro other some rfl
    exact some silent
  have links : l'.base.links = Function.update l.base.links l.base.fresh
      (some ⟨bufInit blockIn, bufInit blockOut, true, false, [], []⟩) := by rw [base]; rfl
  have waits : ∀ e ∈ l'.waiting, e.2.fd ≠ fd := fun e inside => by
    obtain ⟨_, a, watch, _⟩ := keeps.waiting e (sub.subset inside)
    exact differs _ (by simp [watch])
  refine ⟨step, ?_, fun conn found there => ?_, fun other some => ?_, fun conn found there => ?_,
    keeps.still sub.subset fun e inside => Function.update_of_ne (waits e inside) _ _,
    keeps.once.sublist (sub.map _), fun conn high => ?_, answers⟩
  · obtain ⟨a, watch, rest⟩ := keeps.listening
    rw [Function.update_of_ne (differs listener (by simp [watch]))]
    exact ⟨a, watch, rest⟩
  · rw [links] at there
    rw [sock]
    by_cases same : conn = l.base.fresh
    · rw [same, Function.update_self] at there
      obtain rfl := Option.some.inj there
      rw [same, Function.update_self, Function.update_self]
      exact ⟨_, rfl, (silent_flags _ rfl rfl).symm, rfl⟩
    · rw [Function.update_of_ne same] at there
      obtain ⟨a, watch, rest⟩ := keeps.links conn found there
      rw [Function.update_of_ne same, Function.update_of_ne (differs _ (by simp [watch]))]
      exact ⟨a, watch, rest⟩
  · rw [links, sock]
    by_cases same : other = fd
    · exact Or.inr ⟨l.base.fresh, by simp, by rw [same, Function.update_self]⟩
    · rw [Function.update_of_ne same] at some
      rcases keeps.only other some with top | ⟨conn, opened, place⟩
      · exact Or.inl top
      · have old : conn ≠ l.base.fresh := by
          rintro rfl
          exact opened (keeps.unused _ le_rfl)
        exact Or.inr ⟨conn, by rwa [Function.update_of_ne old], by rw [Function.update_of_ne old, place]⟩
  · rw [links] at there
    by_cases same : conn = l.base.fresh
    · rw [same, Function.update_self] at there
      obtain rfl := Option.some.inj there
      rfl
    · rw [Function.update_of_ne same] at there
      exact keeps.flagIn conn found there
  · have high : l.base.fresh + 1 ≤ conn := by
      rw [base] at high
      exact high
    rw [links, Function.update_of_ne (by omega)]
    exact keeps.unused conn (by omega)

/-- A step of the loop is one of the cycle, and what is kept is kept. -/
def Follows (listener : Nat) (x : Option (Loop K)) (c : Option Cycle) : Prop :=
  x.map seen = c ∧ ∀ l, x = some l → ∃ w, l.Keeps listener w

theorem follows_some {w' : Watches Owner} {c : Cycle} (keeps : l'.Keeps listener w')
    (same : l'.seen = c) : Follows listener (some l') (some c) :=
  ⟨congrArg some same, fun _ here => ⟨w', Option.some.inj here ▸ keeps⟩⟩

theorem seen_eq {w' : Watches Owner} (keeps : l.Keeps listener w) (step : InStep l'.mgr w')
    (waiting : l'.waiting = l.waiting) (same : ∀ e ∈ l.waiting, w' e.2.fd = w e.2.fd) :
    l'.seen = { l'.base with pending := l.seen.pending } := by
  rw [Loop.seen, waiting, resolve_same keeps step (fun _ inside => inside) same]
  rfl

theorem kept_follows (keeps : l.Keeps listener w) (here : l.base.links id = some link)
    (apart : ∀ e ∈ l.waiting, e.2.fd ≠ l.sock id) (c : Cycle)
    (links : c.links = Function.update l.base.links id (some new)) (fresh : c.fresh = l.base.fresh)
    (flagIn : new.flagIn = link.flagIn) (flagOut : new.flagOut = link.flagOut) {mgr : Mgr K Owner}
    (same : InStep mgr w) :
    Follows listener (some { l with base := c, mgr := mgr })
    (some { c with pending := l.seen.pending }) := by
  obtain ⟨a, watch, flags, ptr⟩ := keeps.links id link here
  have step : InStep mgr (Function.update w (l.sock id) (some a)) := by
    rwa [Function.update_eq_self_iff.mpr watch.symm]
  have equal : new.flags = link.flags := by rw [Link.flags, flagIn, flagOut]; rfl
  exact follows_some (keeps.put here step (flags.trans equal.symm) ptr
    (flagIn.trans (keeps.flagIn id link here)) links fresh rfl (List.Sublist.refl _) apart keeps.answers)
    (seen_eq keeps step rfl fun e inside => Function.update_of_ne (apart e inside) _ _)

theorem Keeps.behind (keeps : l.Keeps listener w) (first : l.waiting = (event, r) :: rest) :
    Keeps listener { l with waiting := rest } w := by
  have sub : rest.Sublist l.waiting := first ▸ List.sublist_cons_self (event, r) rest
  exact ⟨keeps.inStep, keeps.listening, keeps.links, keeps.only, keeps.flagIn,
    keeps.still sub.subset fun _ _ => rfl, keeps.once.sublist (sub.map _), keeps.unused, keeps.answers⟩

theorem process_pending (atof : List UInt8 → Option ℚ) (c : Cycle) (pending : List Incoming) (id : Nat)
    (o : Outside) : ({ c with pending := pending } : Cycle).process atof id o =
      (c.process atof id o).map fun c => { c with pending := pending } := by
  rw [Cycle.process, Cycle.process]
  cases c.links id with
  | none => rfl
  | some link =>
    dsimp only [Option.bind_eq_bind, Option.bind_some]
    cases link.bufIn.connectRecv o.junkIn o.recvLeft with
    | none => rfl
    | some pair =>
      obtain ⟨received, bufIn⟩ := pair
      dsimp only [Option.bind_some]
      cases received with
      | failed => rfl
      | incomplete => rfl
      | request strs =>
        cases strs with
        | nil => rfl
        | cons cmd args =>
          dsimp only
          cases c.server.serve atof o.counters ⟨id, cmd, args, o.fork, o.left⟩ with
          | none => rfl
          | some pair =>
            obtain ⟨strs, server⟩ := pair
            dsimp only [Option.bind_some]
            cases link.bufOut.sendToBuf o.junkOut strs <;> rfl

theorem resolve_sock (keeps : l.Keeps listener w) (place : event = r.fd) (watch : w r.fd = some a)
    (about : (l.resolve event r).id = some id) : l.sock id = r.fd := by
  rw [Loop.resolve, place, ((keeps.inStep r.fd).watched a watch).2] at about
  rcases keeps.owner watch with ⟨_, ptr⟩ | ⟨conn, link, _, sock, _, ptr⟩
  · rw [Option.bind_some, ptr] at about
    cases accepted : r.accepted <;> rw [accepted] at about <;> cases about
  · rw [Option.bind_some, ptr] at about
    dsimp only at about
    have same : some conn = some id := by
      split at about
      · exact about
      · split at about <;> exact about
    rw [← Option.some.inj same, sock]

theorem resolve_once (keeps : l.Keeps listener w) (waiting : List (Nat × Report))
    (fits : ∀ e ∈ waiting, e.1 = e.2.fd ∧ ∃ a, w e.2.fd = some a ∧ e.2.Fits a.flags)
    (once : (waiting.map fun e => e.2.fd).Nodup) :
    ((waiting.map fun e => l.resolve e.1 e.2).filterMap Incoming.id).Nodup := by
  induction waiting with
  | nil => exact List.nodup_nil
  | cons e rest ih =>
    obtain ⟨fresh, once⟩ := List.nodup_cons.mp once
    have later := ih (fun e inside => fits e (List.mem_cons_of_mem _ inside)) once
    cases about : (l.resolve e.1 e.2).id with
    | none =>
      rw [List.map_cons, List.filterMap_cons_none about]
      exact later
    | some id =>
      rw [List.map_cons, List.filterMap_cons_some about]
      refine List.nodup_cons.mpr ⟨fun again => fresh ?_, later⟩
      obtain ⟨incoming, inside, same⟩ := List.mem_filterMap.mp again
      obtain ⟨other, member, rfl⟩ := List.mem_map.mp inside
      obtain ⟨place, a, watch, _⟩ := fits e List.mem_cons_self
      obtain ⟨place', a', watch', _⟩ := fits other (List.mem_cons_of_mem _ member)
      refine List.mem_map.mpr ⟨other, member, ?_⟩
      exact (resolve_sock keeps place' watch' same).symm.trans (resolve_sock keeps place watch about)

theorem same_inputs (inputs : List LoopInput) : ∃ inputs', List.Forall₂ Loop.Same inputs inputs' := by
  induction inputs with
  | nil => exact ⟨[], .nil⟩
  | cons input rest ih =>
    obtain ⟨rest', others⟩ := ih
    cases input with
    | wait _ => exact ⟨.wait ⟨[], List.nodup_nil⟩ :: rest', .cons trivial others⟩
    | next o => exact ⟨.next o :: rest', .cons rfl others⟩
    | ended => exact ⟨.ended :: rest', .cons trivial others⟩

section
variable [EpollLaws K] [EpollAmple K]

theorem calls_follow (us : List (Use Owner)) (step : InStep l.mgr w) (answers : ∀ a ∈ l.answers, a = 0)
    (fair : l.mgr.FairRun w us) (done : ∀ a ∈ (w.uses us).1, a = 0) :
    InStep (l.call us).mgr (w.uses us).2 ∧ ∀ a ∈ (l.call us).answers, a = 0 := by
  obtain ⟨same, step'⟩ := step.uses fair
  refine ⟨step', fun a inside => ?_⟩
  rcases List.mem_append.mp inside with old | new
  · exact answers a old
  · rw [same] at new
    exact done a new

theorem drop_follow (step : InStep l.mgr w) (answers : ∀ a ∈ l.answers, a = 0)
    (watch : w (l.sock id) = some a) :
    InStep (l.drop id).mgr (Function.update w (l.sock id) none) ∧ ∀ a ∈ (l.drop id).answers, a = 0 := by
  refine calls_follow [.del (l.sock id), .closed (l.sock id)] step answers ⟨trivial, ?_, trivial⟩
    fun b inside => ?_
  · exact Function.update_self ..
  · simpa [Watches.uses, Watches.use, watch] using inside

theorem set_follow {flags : Flags} (step : InStep l.mgr w) (answers : ∀ a ∈ l.answers, a = 0)
    (watch : w (l.sock id) = some a) (proper : flags ≠ 0) (num : Int) :
    InStep (l.call [.set (l.sock id) flags num (some (.conn id))]).mgr
      (Function.update w (l.sock id) (some ⟨a.flags ||| flags, num, some (.conn id)⟩)) ∧
    ∀ a ∈ (l.call [.set (l.sock id) flags num (some (.conn id))]).answers, a = 0 := by
  have opened := (step (l.sock id)).opened (by simp [watch])
  have follow := calls_follow [.set (l.sock id) flags num (some (.conn id))] step answers
    ⟨⟨opened, proper⟩, trivial⟩ fun b inside => by simpa [Watches.uses, Watches.use] using inside
  simpa [Watches.uses, Watches.use, Watches.set, watch] using follow

theorem closed_follows (keeps : l.Keeps listener w) (here : l.base.links id = some link)
    (apart : ∀ e ∈ l.waiting, e.2.fd ≠ l.sock id) :
    Follows listener (some ({ l with base := l.base.close id }.drop id)) (some (l.seen.close id)) := by
  obtain ⟨a, watch, _⟩ := keeps.links id link here
  obtain ⟨step, answers⟩ := drop_follow (l := { l with base := l.base.close id }) keeps.inStep
    keeps.answers watch
  exact follows_some (keeps.close here step rfl rfl rfl (List.Sublist.refl _) apart answers)
    (seen_eq keeps step rfl fun e inside => Function.update_of_ne (apart e inside) _ _)

theorem accepted_follows (keeps : l.Keeps listener w) (acc : Accepted)
    (closed : Epoll.isOpen l.mgr.kernel acc.fd = false) :
    Follows listener (some (Loop.call { l with
      base := l.base.accept acc.blockIn acc.blockOut
      sock := Function.update l.sock l.base.fresh acc.fd }
        [.opened acc.fd, .set acc.fd fdeventIn 0 (some (.conn l.base.fresh))]))
      (some (l.seen.accept acc.blockIn acc.blockOut)) := by
  have silent : w acc.fd = none := by
    by_contra some
    rw [(keeps.inStep acc.fd).opened some] at closed
    cases closed
  obtain ⟨step, answers⟩ := calls_follow
    [.opened acc.fd, .set acc.fd fdeventIn 0 (some (.conn l.base.fresh))] keeps.inStep keeps.answers
    ⟨trivial, ⟨(congrFun (EpollLaws.opened_isOpen ..) _).trans (Function.update_self ..), by decide⟩,
      trivial⟩
    fun a inside => by simpa [Watches.uses, Watches.use] using inside
  have set : (w.uses [.opened acc.fd, .set acc.fd fdeventIn 0 (some (.conn l.base.fresh))]).2 =
      Function.update w acc.fd (some ⟨fdeventIn, 0, some (.conn l.base.fresh)⟩) := by
    simp [Watches.uses, Watches.use, Watches.set, silent]
  rw [set] at step
  refine follows_some (keeps.accept closed acc.blockIn acc.blockOut step rfl rfl
    (List.Sublist.refl _) answers)
    (seen_eq keeps step rfl fun e inside => Function.update_of_ne ?_ _ _)
  rintro same
  obtain ⟨_, a, watch, _⟩ := keeps.waiting e inside
  rw [same, silent] at watch
  cases watch

theorem drained_follows (keeps : l.Keeps listener w) (here : l.base.links id = some link)
    (apart : ∀ e ∈ l.waiting, e.2.fd ≠ l.sock id) (new : Link) (flagIn : new.flagIn = true)
    (flagOut : new.flagOut = false) (ready : List Nat) (later : List (Use Owner))
    (asks : later = [] ∨ later = [.set (l.sock id) fdeventIn 1 (some (.conn id))]) :
    Follows listener
      (some (Loop.call { l with base := { l.base.put id new with ready := ready } }
        (.ctr (l.sock id) fdeventOut :: later)))
      (some { l.seen.put id new with ready := ready }) := by
  obtain ⟨a, watch, flags, ptr⟩ := keeps.links id link here
  have cleared : a.flags &&& ~~~fdeventOut = fdeventIn := by
    rw [flags]
    exact ((link_flags link).2 (keeps.flagIn id link here)).2.1
  have ctr : w.ctr (l.sock id) fdeventOut =
      Function.update w (l.sock id) (some { a with flags := fdeventIn }) := by
    rw [Watches.ctr, watch, Option.bind_some, cleared, if_neg (by decide)]
  have opened := (keeps.inStep (l.sock id)).opened (by simp [watch])
  have again : fdeventIn ||| fdeventIn = fdeventIn := by decide
  obtain ⟨num, finish, fair, done⟩ : ∃ num,
      (w.uses (.ctr (l.sock id) fdeventOut :: later)).2 =
        Function.update w (l.sock id) (some ⟨fdeventIn, num, some (.conn id)⟩) ∧
      l.mgr.FairRun w (.ctr (l.sock id) fdeventOut :: later) ∧
      ∀ b ∈ (w.uses (.ctr (l.sock id) fdeventOut :: later)).1, b = 0 := by
    rcases asks with rfl | rfl
    · refine ⟨a.num, ?_, ⟨trivial, trivial⟩, fun b inside => ?_⟩
      · rw [← ptr]
        exact ctr
      · simpa [Watches.uses, Watches.use, watch] using inside
    · refine ⟨1, ?_, ⟨trivial, ⟨?_, by decide⟩, trivial⟩, fun b inside => ?_⟩
      · simp [Watches.uses, Watches.use, ctr, Watches.set, again]
      · have kept := (keeps.inStep.ctr (l.sock id) fdeventOut).2 (l.sock id)
        rw [ctr, Function.update_self] at kept
        exact kept.opened (by simp)
      · simpa [Watches.uses, Watches.use, watch] using inside
  obtain ⟨step, answers⟩ := calls_follow
    (l := { l with base := { l.base.put id new with ready := ready } })
    (.ctr (l.sock id) fdeventOut :: later) keeps.inStep keeps.answers fair done
  rw [finish] at step
  exact follows_some (keeps.put here step (silent_flags new flagIn flagOut).symm rfl flagIn rfl rfl rfl
    (List.Sublist.refl _) apart answers)
    (seen_eq keeps step rfl fun e inside => Function.update_of_ne (apart e inside) _ _)

theorem filled_follows (keeps : l.Keeps listener w) (here : l.base.links id = some link)
    (apart : ∀ e ∈ l.waiting, e.2.fd ≠ l.sock id) (c : Cycle)
    (links : c.links = Function.update l.base.links id (some new)) (fresh : c.fresh = l.base.fresh)
    (flagIn : new.flagIn = link.flagIn) (flagOut : new.flagOut = true) :
    Follows listener
      (some (Loop.call { l with base := c } [.set (l.sock id) fdeventOut 1 (some (.conn id))]))
      (some { c with pending := l.seen.pending }) := by
  obtain ⟨a, watch, flags, ptr⟩ := keeps.links id link here
  have open_in := keeps.flagIn id link here
  obtain ⟨step, answers⟩ := set_follow (l := { l with base := c }) keeps.inStep keeps.answers watch
    (show fdeventOut ≠ 0 by decide) 1
  have both : a.flags ||| fdeventOut = new.flags := by
    rw [flags, ((link_flags link).2 open_in).2.2.1,
      ((link_flags new).2 (flagIn.trans open_in)).2.2.2, flagOut]
    rfl
  exact follows_some (keeps.put here step both rfl (flagIn.trans open_in) links fresh rfl
    (List.Sublist.refl _) apart answers)
    (seen_eq keeps step rfl fun e inside => Function.update_of_ne (apart e inside) _ _)

theorem handleIn_follows (keeps : l.Keeps listener w) (here : l.base.links id = some link)
    (apart : ∀ e ∈ l.waiting, e.2.fd ≠ l.sock id) (answers : List EtdbWire.Got) :
    Follows listener
      (do
        let (len, _) ← link.bufIn.readToBuf answers
        let base ← l.base.handleIn id link answers
        some (if len ≤ 0 then { l with base := base }.drop id else { l with base := base }))
      (l.seen.handleIn id link answers) := by
  rw [Cycle.handleIn_eq l.seen, Cycle.handleIn_eq l.base]
  cases link.bufIn.readToBuf answers with
  | none => exact ⟨rfl, fun _ none => by cases none⟩
  | some got =>
    simp only [Option.bind_eq_bind, Option.bind_some, Option.map_some]
    by_cases ended : got.1 ≤ 0
    · rw [if_pos ended, if_pos ended, if_pos ended]
      exact closed_follows keeps here apart
    · rw [if_neg ended, if_neg ended, if_neg ended]
      exact kept_follows keeps here apart { l.base.put id { link with
          bufIn := got.2
          received := link.received ++ got.2.valid.drop link.bufIn.valid.length } with
        ready := l.base.ready ++ [id] } rfl rfl rfl rfl keeps.inStep

theorem handleOut_follows (keeps : l.Keeps listener w) (here : l.base.links id = some link)
    (apart : ∀ e ∈ l.waiting, e.2.fd ≠ l.sock id) (answers : List EtdbWire.Sent) :
    Follows listener
      (do
        let (len, buf, _) ← link.bufOut.writeTo true answers 0
        let base ← l.base.handleOut id link answers
        let l := { l with base := base }
        some (
          if len ≤ 0 then l.drop id
          else if buf.size = 0 then
            if link.bufIn.size ≠ 0 then l.call [.ctr (l.sock id) fdeventOut]
            else l.call [.ctr (l.sock id) fdeventOut, .set (l.sock id) fdeventIn 1 (some (.conn id))]
          else l))
      (l.seen.handleOut id link answers) := by
  have flagIn := keeps.flagIn id link here
  rw [Cycle.handleOut_eq l.seen, Cycle.handleOut_eq l.base]
  cases link.bufOut.writeTo true answers 0 with
  | none => exact ⟨rfl, fun _ none => by cases none⟩
  | some done =>
    simp only [Option.bind_eq_bind, Option.bind_some, Option.map_some]
    by_cases ended : done.1 ≤ 0
    · rw [if_pos ended, if_pos ended, if_pos ended]
      exact closed_follows keeps here apart
    rw [if_neg ended, if_neg ended, if_neg ended]
    by_cases drained : done.2.1.size = 0
    · rw [if_pos drained, if_pos drained, if_pos drained]
      by_cases pending : link.bufIn.size ≠ 0
      · rw [if_pos pending, if_pos pending, if_pos pending]
        exact drained_follows keeps here apart { link with
          bufOut := done.2.1
          sent := link.sent ++ done.2.2
          flagOut := false } flagIn rfl _ [] (Or.inl rfl)
      · rw [if_neg pending, if_neg pending, if_neg pending]
        exact drained_follows keeps here apart { link with
          bufOut := done.2.1
          sent := link.sent ++ done.2.2
          flagOut := false
          flagIn := true } rfl rfl l.base.ready _ (Or.inr rfl)
    · rw [if_neg drained, if_neg drained, if_neg drained]
      exact kept_follows keeps here apart (l.base.put id { link with
        bufOut := done.2.1
        sent := link.sent ++ done.2.2 }) rfl rfl rfl rfl keeps.inStep

theorem Keeps.handle (keeps : l.Keeps listener w) (first : l.waiting = (event, r) :: rest)
    (free : ∀ acc, r.accepted = some acc → Epoll.isOpen l.mgr.kernel acc.fd = false) :
    Follows listener ({ l with waiting := rest }.handle event r)
      ({ l with waiting := rest }.seen.handle (l.resolve event r)) := by
  obtain ⟨place, a, watch, fits⟩ := keeps.waiting (event, r) (by rw [first]; exact List.mem_cons_self)
  dsimp only at place watch fits
  have found := ((keeps.inStep r.fd).watched a watch).2
  have later := keeps.behind first
  have distinct := keeps.once
  rw [first, List.map_cons, List.nodup_cons] at distinct
  rw [Loop.handle, Loop.resolve, place, found]
  dsimp only [Option.bind_eq_bind, Option.bind_some]
  rcases keeps.owner watch with ⟨_, ptr⟩ | ⟨id, link, here, sock, flags, ptr⟩
  · rw [ptr, Option.bind_some]
    dsimp only
    cases accepted : r.accepted with
    | none => exact follows_some later rfl
    | some acc => exact accepted_follows later acc (free acc accepted)
  · have apart : ∀ e ∈ rest, e.2.fd ≠ l.sock id := by
      intro e inside same
      exact distinct.1 (List.mem_map.mpr ⟨e, inside, same.trans sock⟩)
    rw [ptr, Option.bind_some]
    dsimp only
    rw [here, Option.bind_some]
    have seen : ({ l with waiting := rest } : Loop K).seen.links id = some link := here
    by_cases error : r.flags &&& fdeventErr ≠ 0
    · rw [if_pos error, if_pos error]
      simp only [Cycle.handle, seen]
      exact closed_follows later here apart
    rw [if_neg error, if_neg error]
    by_cases readable : r.flags &&& fdeventIn ≠ 0
    · rw [if_pos readable, if_pos readable]
      simp only [Cycle.handle, seen, keeps.flagIn id link here, if_true]
      exact handleIn_follows later here apart r.got
    rw [if_neg readable, if_neg readable]
    have writable := (report_flags r).2.2 (not_not.mp error) (not_not.mp readable) fits.some
    have waits := (link_flags link).1 (flags ▸ fits.writable writable)
    rw [if_pos writable]
    simp only [Cycle.handle, seen, waits, if_true]
    exact handleOut_follows later here apart r.sent

theorem Keeps.process (atof : List UInt8 → Option ℚ) (keeps : l.Keeps listener w)
    (ended : l.waiting = []) (id : Nat) (o : Outside) :
    Follows listener (l.process atof id o) (l.seen.process atof id o) := by
  have apart : ∀ e ∈ l.waiting, e.2.fd ≠ l.sock id := fun e inside => by
    rw [ended] at inside
    cases inside
  rw [show l.seen.process atof id o = _ from process_pending atof l.base l.seen.pending id o]
  rcases Cycle.process_cases atof l.base id o with stops | ⟨link, bufIn, here, ⟨got, run⟩ | more⟩
  · have none : l.process atof id o = none := by
      rw [Loop.process, stops]
      cases l.base.links id <;> rfl
    rw [none, stops]
    exact ⟨rfl, fun _ some => by cases some⟩
  · obtain ⟨a, watch, flags, ptr⟩ := keeps.links id link here
    have flagIn := keeps.flagIn id link here
    obtain ⟨asked, step⟩ := keeps.inStep.isset (l.sock id) fdeventIn
    have waits : (l.mgr.isset (l.sock id) fdeventIn).1 ≠ 0 := by
      rw [asked, watch, Option.elim_some, flags]
      exact ((link_flags link).2 flagIn).1
    have after : (l.base.put id { link with bufIn := bufIn, flagIn := true }).links id =
        some { link with bufIn := bufIn, flagIn := true } := Function.update_self ..
    have handled : l.process atof id o = some { l with
        base := l.base.put id { link with bufIn := bufIn, flagIn := true }
        mgr := (l.mgr.isset (l.sock id) fdeventIn).2 } :=
      bind_run here (bind_run run (bind_run got (bind_run after (congrArg some (if_neg waits)))))
    rw [handled, run]
    exact kept_follows keeps here apart (l.base.put id { link with bufIn := bufIn, flagIn := true })
      rfl rfl flagIn.symm rfl step
  · obtain ⟨cmd, args, strs, server, bufOut, got, run⟩ := more
    have after : (l.base.served id o link bufIn ⟨id, cmd, args, o.fork, o.left⟩ strs
      server bufOut).links id =
        some { link with
          bufIn := bufIn.overwrite o.front
          bufOut := bufOut
          flagOut := link.flagOut || decide (0 < bufOut.size) } := Function.update_self ..
    by_cases filled : 0 < bufOut.size
    · have handled : l.process atof id o = some (Loop.call
          { l with
            base := l.base.served id o link bufIn ⟨id, cmd, args, o.fork, o.left⟩ strs server bufOut }
          [.set (l.sock id) fdeventOut 1 (some (.conn id))]) :=
        bind_run here (bind_run run (bind_run got (bind_run after (congrArg some (if_pos filled)))))
      rw [handled, run]
      refine filled_follows keeps here apart
        (l.base.served id o link bufIn ⟨id, cmd, args, o.fork, o.left⟩ strs server bufOut) rfl rfl rfl ?_
      dsimp only
      rw [decide_eq_true filled, Bool.or_true]
    · have handled : l.process atof id o = some
          { l with
            base := l.base.served id o link bufIn ⟨id, cmd, args, o.fork, o.left⟩ strs server bufOut } :=
        bind_run here (bind_run run (bind_run got (bind_run after (congrArg some (if_neg filled)))))
      rw [handled, run]
      refine kept_follows keeps here apart
        (l.base.served id o link bufIn ⟨id, cmd, args, o.fork, o.left⟩ strs server bufOut)
        rfl rfl rfl ?_ keeps.inStep
      dsimp only
      rw [decide_eq_false filled, Bool.or_false]

theorem Keeps.step (atof : List UInt8 → Option ℚ) (keeps : l.Keeps listener w) (input : LoopInput)
    (possible : l.Possible input) :
    ∃ input', Loop.Same input input' ∧ Follows listener (l.step atof input) (l.seen.step atof input') := by
  have idle : l.seen.pending = [] ↔ l.waiting = [] := List.map_eq_nil_iff
  cases input with
  | wait found =>
    by_cases done : l.waiting = [] ∧ l.base.ready = []
    · have fits := heard_fits keeps.inStep possible
      refine ⟨.wait ⟨_, resolve_once keeps found fits possible.once⟩, trivial, ?_⟩
      rw [Loop.step, if_pos done, Cycle.step, if_pos ⟨idle.mpr done.1, done.2⟩]
      have heard : Loop.Keeps listener { l with waiting := found } w :=
        ⟨keeps.inStep, keeps.listening, keeps.links, keeps.only, keeps.flagIn, fits, possible.once,
          keeps.unused, keeps.answers⟩
      exact follows_some heard rfl
    · refine ⟨.wait ⟨[], List.nodup_nil⟩, trivial, ?_⟩
      rw [Loop.step, if_neg done, Cycle.step, if_neg fun both => done ⟨idle.mp both.1, both.2⟩]
      exact follows_some keeps rfl
  | ended =>
    exact ⟨.ended, trivial, follows_some ⟨keeps.inStep, keeps.listening, keeps.links, keeps.only,
      keeps.flagIn, keeps.waiting, keeps.once, keeps.unused, keeps.answers⟩ rfl⟩
  | next o =>
    refine ⟨.next o, rfl, ?_⟩
    cases first : l.waiting with
    | cons e rest =>
      obtain ⟨event, r⟩ := e
      have follows := keeps.handle first fun acc accepted =>
        possible (event, r) (by rw [first]; rfl) acc accepted
      have pending : l.seen.pending = l.resolve event r :: rest.map fun e => l.resolve e.1 e.2 := by
        rw [Loop.seen, first]
        rfl
      simp only [Loop.step, Cycle.step, first, pending]
      exact follows
    | nil =>
      have pending := idle.mpr first
      cases ready : l.base.ready with
      | nil =>
        have same : l.seen.ready = [] := ready
        simp only [Loop.step, Cycle.step, first, pending, ready, same]
        exact follows_some keeps rfl
      | cons id rest =>
        have same : l.seen.ready = id :: rest := ready
        simp only [Loop.step, Cycle.step, first, pending, ready, same]
        have keeps' : Loop.Keeps listener { l with base := { l.base with ready := rest } } w :=
          ⟨keeps.inStep, keeps.listening, keeps.links, keeps.only, keeps.flagIn,
          keeps.waiting, keeps.once,
            keeps.unused, keeps.answers⟩
        have follows := keeps'.process atof first id o
        have seen : Loop.seen { l with base := { l.base with ready := rest } } =
            { l.seen with ready := rest } := rfl
        rw [seen] at follows
        simp only [first, pending] at follows
        exact follows

theorem Keeps.run (keeps : l.Keeps listener w) {inputs : List LoopInput}
    (possible : l.PossibleRun atof inputs) :
    ∃ inputs', List.Forall₂ Loop.Same inputs inputs' ∧
      Follows listener (l.run atof inputs) (l.seen.run atof inputs') := by
  induction inputs generalizing l w with
  | nil => exact ⟨[], .nil, follows_some keeps rfl⟩
  | cons input rest ih =>
    obtain ⟨input', alike, same, kept⟩ := keeps.step atof input possible.1
    cases stepped : l.step atof input with
    | none =>
      rw [stepped] at same
      obtain ⟨rest', others⟩ := same_inputs rest
      refine ⟨input' :: rest', .cons alike others, ?_⟩
      rw [Loop.run, stepped, Cycle.run, ← same]
      exact ⟨rfl, fun _ some => by cases some⟩
    | some next =>
      rw [stepped] at same
      obtain ⟨w', keeps'⟩ := kept next stepped
      obtain ⟨inputs', others, follows⟩ := ih keeps' (possible.2 next stepped)
      refine ⟨input' :: inputs', .cons alike others, ?_⟩
      rw [Loop.run, stepped, Cycle.run, ← same]
      exact follows

end
end Loop

section
variable [EpollLaws K] [EpollAmple K]

end

instance (k : K) (found : List (Nat × Report)) : Decidable (Heard k found) :=
  decidable_of_iff ((found.map fun e => e.2.fd).Nodup ∧
    ∀ e ∈ found, ∃ i ∈ Epoll.interest k e.2.fd, e.1 = i.event ∧ e.2.flags ≠ 0 ∧
      e.2.urgent = false ∧ (e.2.readable = true → i.readable = true) ∧
      (e.2.writable = true → i.writable = true))
    ⟨fun both => ⟨both.1, both.2⟩, fun heard => ⟨heard.once, heard.asked⟩⟩

instance (l : Loop K) (input : LoopInput) : Decidable (l.Possible input) :=
  match input with
  | .wait found => inferInstanceAs (Decidable (Heard l.mgr.kernel found))
  | .next _ => inferInstanceAs (Decidable (∀ e ∈ l.waiting.head?, ∀ a ∈ e.2.accepted,
      Epoll.isOpen l.mgr.kernel a.fd = false))
  | .ended => .isTrue trivial

namespace Loop

end Loop
end

def readable (fd : Nat) (bytes : List UInt8) : Nat × Report :=
  (fd, ⟨fd, true, false, false, false, false, [.bytes bytes], [], none⟩)

def writable (fd : Nat) : Nat × Report :=
  (fd, ⟨fd, false, false, true, false, false, [], [.bytes 100], none⟩)

end EtdbServer
