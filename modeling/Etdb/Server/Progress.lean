import Etdb.Server.Interleaving

/- No request waits for ever. Behind one that is served the others of its connection wait
   until the reply is written; when epoll_wait reports that it can be, and all of it is
   taken, the next one is served in the same round of the loop. -/
namespace EtdbServer
open EtdbTrie
open EtdbWire (Buf Reader message)

/-- An event that brings bytes, or one after which nothing is left to be written. -/
def Link.Favours (link : Link) : EtdbWire.Event → Prop
  | .error => False
  | .readable answers => ∃ len buf, link.bufIn.readToBuf answers = some (len, buf) ∧ 0 < len
  | .writable answers =>
    ∃ len buf out, link.bufOut.writeTo true answers 0 = some (len, buf, out) ∧ 0 < len ∧ buf.size = 0

def Input.Within : Input → Prop
  | .wait _ => False
  | _ => True

def Cycle.Arrived (sends : Nat → List (List (List UInt8))) (id k : Nat) (c : Cycle) : Prop :=
  ∃ link, c.links id = some link ∧ ((sends id).take k).flatMap message <+: link.received

/-- Rounds of the loop, each from one call of epoll_wait to the next. While a request waits
    behind a reply, and the loop asks to be told when there is room for it, epoll_wait
    reports the connection. -/
def Cycle.Attended (atof : List UInt8 → Option ℚ) (sends : Nat → List (List (List UInt8))) (id : Nat) :
    Cycle → List (Batch × List Input) → Prop
  | _, [] => True
  | c, (batch, steps) :: rest => (∀ input ∈ steps, input.Within) ∧
      (∀ link, c.links id = some link →
        (Reader.mk link.bufIn [] ((c.exchanges id).map Prod.fst)).Whole (sends id) →
        0 < link.bufOut.size → link.flagOut = true → ∃ event, .on id event ∈ batch.events ∧
        link.Favours event) ∧
      ∀ c', c.run atof (.wait batch :: steps) = some c' →
        c'.pending = [] ∧ c'.ready = [] ∧ c'.Attended atof sends id rest

def inputsOf (rounds : List (Batch × List Input)) : List Input :=
  rounds.flatMap fun round => .wait round.1 :: round.2

/-- Where a connection with waiting requests stands within a round: its event is to come,
    its turn is to come, or it had its turn. -/
inductive Cycle.Stage (sends : Nat → List (List (List UInt8))) (id k n : Nat) (link0 : Link)
    (event : EtdbWire.Event) (c : Cycle) : Prop where
  | noticed (waits : Incoming.on id event ∈ c.pending) (here : c.links id = some link0)
      (count : (c.exchanges id).length = n)
  | queued (waits : id ∈ c.ready) (arrived : c.Arrived sends id k) (count : (c.exchanges id).length = n)
  | served (quiet : ∀ e ∈ c.pending, e.id ≠ some id) (passed : id ∉ c.ready)
      (arrived : c.Arrived sends id k) (count : (c.exchanges id).length = n + 1)

structure Cycle.Spares (id : Nat) (c c' : Cycle) : Prop where
  links : c'.links id = c.links id
  exchanges : c'.exchanges id = c.exchanges id
  pending : ∀ e : Incoming, e.id = some id → (e ∈ c'.pending ↔ e ∈ c.pending)
  ready : id ∈ c'.ready ↔ id ∈ c.ready

section
variable {atof : List UInt8 → Option ℚ} {s0 : Server} {sends : Nat → List (List (List UInt8))}
variable {c c1 c' : Cycle} {link link0 new : Link} {id other k n : Nat} {input : Input}
    {inputs : List Input}
variable {event : EtdbWire.Event}

namespace Cycle

theorem run_append {before : List Input} (first : c.run atof before = some c') (later : List Input) :
    c.run atof (before ++ later) = c'.run atof later := by
  induction before generalizing c with
  | nil =>
    cases first
    rfl
  | cons input rest ih =>
    obtain ⟨c1, step, run⟩ := Option.bind_eq_some_iff.mp first
    exact (bind_run step (ih run)).trans rfl

theorem calmRun_append {before later : List Input} : c.CalmRun atof sends (before ++ later) ↔
    c.CalmRun atof sends before ∧ ∀ c', c.run atof before = some c' → c'.CalmRun atof sends later := by
  induction before generalizing c with
  | nil =>
    constructor
    · intro calm
      refine ⟨trivial, fun c' same => ?_⟩
      cases same
      exact calm
    · exact fun calm => calm.2 c rfl
  | cons input rest ih =>
    constructor
    · rintro ⟨now, following⟩
      refine ⟨⟨now, fun c1 step => ⟨(following c1 step).1, (ih.mp (following c1 step).2).1⟩⟩,
        fun c' run => ?_⟩
      obtain ⟨c1, step, run⟩ := Option.bind_eq_some_iff.mp run
      exact (ih.mp (following c1 step).2).2 c' run
    · rintro ⟨⟨now, following⟩, after⟩
      exact ⟨now, fun c1 step => ⟨(following c1 step).1,
        ih.mpr ⟨(following c1 step).2, fun c' run => after c' (bind_run step run)⟩⟩⟩

theorem Spares.trans (first : Spares id c c1) (second : Spares id c1 c') : Spares id c c' :=
  ⟨second.links.trans first.links, second.exchanges.trans first.exchanges,
    fun e here => (second.pending e here).trans (first.pending e here), second.ready.trans first.ready⟩

theorem handle_spares {e : Incoming} (run : c.handle e = some c') (apart : e.id ≠ some id)
    (used : id ≠ c.fresh) : Spares id c c' := by
  have differ : ∀ {other}, e.id = some other → id ≠ other := by
    rintro other own rfl
    exact apart own
  rcases handle_cases run with
    rfl | ⟨blockIn, blockOut, rfl⟩ | ⟨other, own, _, rfl | ⟨new, rfl | rfl⟩⟩
  · exact ⟨rfl, rfl, fun _ _ => Iff.rfl, Iff.rfl⟩
  · exact ⟨Function.update_of_ne used _ _, rfl, fun _ _ => Iff.rfl, Iff.rfl⟩
  · exact ⟨Function.update_of_ne (differ own) _ _, rfl, fun _ _ => Iff.rfl, Iff.rfl⟩
  · exact ⟨Function.update_of_ne (differ own) _ _, rfl, fun _ _ => Iff.rfl, Iff.rfl⟩
  · exact ⟨Function.update_of_ne (differ own) _ _, rfl, fun _ _ => Iff.rfl, by simp [differ own]⟩

theorem process_spares {o : Outside} (run : c.process atof other o = some c') (apart : id ≠ other) :
    Spares id c c' := by
  rcases process_cases atof c other o with
    stops | ⟨link, bufIn, _, ⟨_, goes⟩ | ⟨cmd, args, strs, server, bufOut, _, goes⟩⟩
  · rw [stops] at run
    cases run
  · rw [goes] at run
    cases run
    exact ⟨Function.update_of_ne apart _ _, rfl, fun _ _ => Iff.rfl, Iff.rfl⟩
  · rw [goes] at run
    cases run
    refine ⟨Function.update_of_ne apart _ _, ?_, fun _ _ => Iff.rfl, Iff.rfl⟩
    refine (exchanges_served ⟨other, cmd, args, o.fork, o.left⟩ o.counters strs id).trans ?_
    rw [if_neg (Ne.symm apart), List.append_nil]
    rfl

theorem Stage.spared (stage : c.Stage sends id k n link0 event) (spares : Spares id c c') :
    c'.Stage sends id k n link0 event := by
  have arrived : c.Arrived sends id k → c'.Arrived sends id k := fun ⟨link, here, all⟩ =>
    ⟨link, spares.links.trans here, all⟩
  cases stage with
  | noticed waits here count =>
    exact .noticed ((spares.pending _ rfl).mpr waits) (spares.links.trans here)
      (by rw [spares.exchanges, count])
  | queued waits here count =>
    exact .queued (spares.ready.mpr waits) (arrived here) (by rw [spares.exchanges, count])
  | served quiet passed here count =>
    exact .served (fun e inside own => quiet e ((spares.pending e own).mp inside) own)
      (fun waits => passed (spares.ready.mp waits)) (arrived here) (by rw [spares.exchanges, count])

theorem Keeps.waits (keeps : c.Keeps atof s0 sends) (few : k ≤ (sends id).length)
    (here : c.links id = some link) (all : ((sends id).take k).flatMap message <+: link.received)
    (count : (c.exchanges id).length < k) :
    (Reader.mk link.bufIn [] ((c.exchanges id).map Prod.fst)).Whole (sends id) := by
  obtain ⟨unread, stream, reading⟩ := (keeps.links id link here).reading
  refine reading.whole stream ?_ few all
  rwa [List.length_map]

theorem Keeps.noticed (keeps : c.Keeps atof s0 sends) (few : k ≤ (sends id).length)
    (run : c.handle (.on id event) = some c') (here : c.links id = some link)
    (favours : link.Favours event)
    (asked : link.flagOut = true) (all : ((sends id).take k).flatMap message <+: link.received)
    (count : (c.exchanges id).length < k) :
    c'.Stage sends id k (c.exchanges id).length link0 event := by
  have own : ∀ new : Link, ({ c.put id new with ready := c.ready ++ [id] } : Cycle).links id = some new :=
    fun new => Function.update_self ..
  have turn : id ∈ c.ready ++ [id] := by simp
  simp only [Cycle.handle, here] at run
  cases event with
  | error => exact favours.elim
  | readable answers =>
    obtain ⟨len, buf, read, brings⟩ := favours
    dsimp only at run
    rw [if_pos (keeps.links id link here).flagIn, handleIn_eq, read, Option.map_some,
      if_neg (by dsimp only; omega)] at run
    cases run
    exact .queued turn ⟨_, own _, all.trans (List.prefix_append _ _)⟩ rfl
  | writable answers =>
    obtain ⟨len, buf, out, written, takes, drained⟩ := favours
    dsimp only at run
    rw [if_pos asked, handleOut_eq, written, Option.map_some, if_neg (by dsimp only; omega),
      if_pos drained, if_pos (keeps.waits few here all count).filled] at run
    cases run
    exact .queued turn ⟨_, own _, all⟩ rfl

theorem Keeps.turn (keeps : c.Keeps atof s0 sends) (proper : ∀ m ∈ sends id, EtdbWire.Proper m)
    (few : k ≤ (sends id).length) {rest : List Nat} {o : Outside} (idle : c.pending = [])
    (ready : c.ready = id :: rest) (calm : c.Calm atof o) (arrived : c.Arrived sends id k)
    (count : (c.exchanges id).length < k)
    (run : ({ c with ready := rest } : Cycle).process atof id o = some c') :
    c'.pending = [] ∧ c'.ready = rest ∧ c'.Arrived sends id k ∧
      (c'.exchanges id).length = (c.exchanges id).length + 1 := by
  obtain ⟨link, here, all⟩ := arrived
  obtain ⟨harmless, kept, _⟩ := calm (id, link) (turn_of idle ready here)
  have waits := keeps.waits few here all count
  obtain ⟨unread, stream, reading⟩ := (keeps.links id link here).reading
  obtain ⟨received, buf, recv, kinds⟩ := reading.received proper harmless kept o.junkIn
  rcases process_cases atof { c with ready := rest } id o with
    stops | ⟨link', bufIn, here', ⟨got, goes⟩ | ⟨cmd, args, strs, server, bufOut, got, goes⟩⟩
  · rw [stops] at run
    cases run
  · cases here.symm.trans here'
    cases recv.symm.trans got
    obtain ⟨m, other, _⟩ | ⟨_, whole, _⟩ := kinds
    · cases other
    · exact absurd waits whole
  · cases here.symm.trans here'
    rw [goes] at run
    cases run
    refine ⟨idle, rfl, ⟨_, Function.update_self .., all⟩, ?_⟩
    refine (congrArg List.length
      (exchanges_served ⟨id, cmd, args, o.fork, o.left⟩ o.counters strs id)).trans ?_
    rw [if_pos rfl, List.length_append]
    rfl

theorem Stage.opened (stage : c.Stage sends id k n link0 event) (keeps : c.Keeps atof s0 sends) :
    c.links id ≠ none := by
  cases stage with
  | noticed waits here count =>
    rw [here]
    exact Option.some_ne_none _
  | queued waits arrived count => exact keeps.opened id waits
  | served quiet passed arrived count =>
    obtain ⟨link, here, _⟩ := arrived
    rw [here]
    exact Option.some_ne_none _

theorem Stage.own {e : Incoming} {rest : List Incoming} (stage : c.Stage sends id k n link0 event)
    (keeps : c.Keeps atof s0 sends) (few : k ≤ (sends id).length) (more : n < k)
    (favours : link0.Favours event) (asked : link0.flagOut = true)
    (all : ((sends id).take k).flatMap message <+: link0.received) (events : c.pending = e :: rest)
    (own : e.id = some id) (run : ({ c with pending := rest } : Cycle).handle e = some c') :
    c'.Stage sends id k n link0 event := by
  have once := keeps.once
  rw [events, List.filterMap_cons, own] at once
  obtain ⟨single, once'⟩ := List.nodup_cons.mp once
  cases stage with
  | noticed waits here count =>
    have same : e = .on id event := by
      rw [events, List.mem_cons] at waits
      refine (waits.resolve_right fun later => single ?_).symm
      exact List.mem_append_left _ (List.mem_filterMap.mpr ⟨_, later, rfl⟩)
    subst same
    have keeps' : ({ c with pending := rest } : Cycle).Keeps atof s0 sends := { keeps with once := once' }
    have staged : c'.Stage sends id k (c.exchanges id).length link0 event :=
      keeps'.noticed few run here favours asked all (lt_of_eq_of_lt count more)
    rwa [count] at staged
  | queued waits arrived count => exact absurd (List.mem_append_right _ waits) single
  | served quiet passed arrived count =>
    exact absurd own (quiet e (by rw [events]; exact List.mem_cons_self))

theorem Stage.turn {o : Outside} {rest : List Nat} (stage : c.Stage sends id k n link0 event)
    (keeps : c.Keeps atof s0 sends) (proper : ∀ m ∈ sends id, EtdbWire.Proper m)
    (few : k ≤ (sends id).length) (more : n < k) (events : c.pending = []) (turn : c.ready = id :: rest)
    (calm : c.Calm atof o) (run : ({ c with ready := rest } : Cycle).process atof id o = some c') :
    c'.Stage sends id k n link0 event := by
  have once := keeps.once
  rw [events, turn] at once
  have single := (List.nodup_cons.mp once).1
  cases stage with
  | noticed waits here count =>
    rw [events] at waits
    cases waits
  | queued waits arrived count =>
    obtain ⟨idle, ready, arrived', count'⟩ :=
      keeps.turn proper few events turn calm arrived (lt_of_eq_of_lt count more) run
    exact .served (by rw [idle]; exact fun e inside => absurd inside List.not_mem_nil)
      (by rw [ready]; exact single) arrived' (by rw [count', count])
  | served quiet passed arrived count =>
    rw [turn] at passed
    exact absurd List.mem_cons_self passed

theorem Stage.step (stage : c.Stage sends id k n link0 event) (keeps : c.Keeps atof s0 sends)
    (proper : ∀ m ∈ sends id, EtdbWire.Proper m) (few : k ≤ (sends id).length) (more : n < k)
    (favours : link0.Favours event) (asked : link0.flagOut = true)
    (all : ((sends id).take k).flatMap message <+: link0.received) (within : input.Within)
    (calm : ∀ o, input = .next o → c.Calm atof o) (step : c.step atof input = some c') :
    c'.Stage sends id k n link0 event := by
  have used : id ≠ c.fresh := by
    rintro rfl
    exact stage.opened keeps (keeps.unused _ le_rfl).1
  cases input with
  | wait batch => exact within.elim
  | ended =>
    cases step
    refine stage.spared ⟨rfl, ?_, fun _ _ => Iff.rfl, Iff.rfl⟩
    rw [Cycle.exchanges, List.filterMap_append]
    exact List.append_nil _
  | next o =>
    cases events : c.pending with
    | cons e rest =>
      have run : c.step atof (.next o) = ({ c with pending := rest } : Cycle).handle e := by
        simp only [Cycle.step, events]
      rw [run] at step
      by_cases own : e.id = some id
      · exact stage.own keeps few more favours asked all events own step
      · have behind : Spares id c { c with pending := rest } := by
          refine ⟨rfl, rfl, fun other here => ?_, Iff.rfl⟩
          rw [events, List.mem_cons, or_iff_right]
          rintro rfl
          exact own here
        exact stage.spared (behind.trans (handle_spares step own used))
    | nil =>
      cases ready : c.ready with
      | nil =>
        simp only [Cycle.step, events, ready] at step
        cases step
        exact stage
      | cons other rest =>
        have run : c.step atof (.next o) = ({ c with ready := rest } : Cycle).process atof other o := by
          simp only [Cycle.step, events, ready]
        rw [run] at step
        by_cases own : other = id
        · subst own
          exact stage.turn keeps proper few more events ready (calm o rfl) step
        · have behind : Spares id c { c with ready := rest } :=
            ⟨rfl, rfl, fun _ _ => Iff.rfl, by rw [ready, List.mem_cons, or_iff_right (Ne.symm own)]⟩
          exact stage.spared (behind.trans (process_spares step (Ne.symm own)))

theorem Stage.run (stage : c.Stage sends id k n link0 event) (keeps : c.Keeps atof s0 sends)
    (proper : ∀ id, ∀ m ∈ sends id, EtdbWire.Proper m) (few : k ≤ (sends id).length) (more : n < k)
    (favours : link0.Favours event) (asked : link0.flagOut = true)
    (all : ((sends id).take k).flatMap message <+: link0.received)
    (within : ∀ input ∈ inputs, input.Within) (calm : c.CalmRun atof sends inputs)
    (run : c.run atof inputs = some c') : c'.Stage sends id k n link0 event := by
  induction inputs generalizing c with
  | nil =>
    cases run
    exact stage
  | cons input rest ih =>
    obtain ⟨now, later⟩ := calm
    obtain ⟨c1, step, keeps1⟩ := keeps.step proper input now fun c' step => (later c' step).1
    obtain ⟨c2, step', run⟩ := Option.bind_eq_some_iff.mp run
    cases step.symm.trans step'
    exact ih (stage.step keeps (proper id) few more favours asked all
      (within input List.mem_cons_self) now step) keeps1
      (fun input inside => within input (List.mem_cons_of_mem _ inside)) (later c1 step).2 run

theorem step_log (step : c.step atof input = some c') : c.log <+: c'.log := by
  cases input with
  | wait batch =>
    rw [Cycle.step] at step
    split at step <;> cases step <;> exact List.prefix_rfl
  | ended =>
    cases step
    exact List.prefix_append _ _
  | next o =>
    rw [Cycle.step] at step
    split at step
    · rcases handle_cases step with rfl | ⟨blockIn, blockOut, rfl⟩ | ⟨other, _, _,
        rfl | ⟨new, rfl | rfl⟩⟩ <;> exact List.prefix_rfl
    · rename_i other rest _ _
      rcases process_cases atof { c with ready := rest } other o with
        stops | ⟨link, bufIn, _, ⟨_, goes⟩ | ⟨cmd, args, strs, server, bufOut, _, goes⟩⟩
      · rw [stops] at step
        cases step
      · rw [goes] at step
        cases step
        exact List.prefix_rfl
      · rw [goes] at step
        cases step
        exact List.prefix_append _ _
    · cases step
      exact List.prefix_rfl

theorem run_log (run : c.run atof inputs = some c') : c.log <+: c'.log := by
  induction inputs generalizing c with
  | nil =>
    cases run
    exact List.prefix_rfl
  | cons input rest ih =>
    obtain ⟨c1, step, run⟩ := Option.bind_eq_some_iff.mp run
    exact (step_log step).trans (ih run)

theorem Keeps.round (keeps : c.Keeps atof s0 sends) (proper : ∀ id, ∀ m ∈ sends id, EtdbWire.Proper m)
    (few : k ≤ (sends id).length) (idle : c.pending = []) (rested : c.ready = []) {batch : Batch}
    (within : ∀ input ∈ inputs, input.Within) (arrived : c.Arrived sends id k)
    (more : (c.exchanges id).length < k)
    (attended : ∀ link, c.links id = some link →
      (Reader.mk link.bufIn [] ((c.exchanges id).map Prod.fst)).Whole (sends id) →
      0 < link.bufOut.size → link.flagOut = true →
      ∃ event, .on id event ∈ batch.events ∧ link.Favours event)
    (calm : c.CalmRun atof sends (.wait batch :: inputs))
    (run : c.run atof (.wait batch :: inputs) = some c')
    (idle' : c'.pending = []) (rested' : c'.ready = []) :
    c'.Arrived sends id k ∧ (c'.exchanges id).length = (c.exchanges id).length + 1 := by
  obtain ⟨link, here, all⟩ := arrived
  have waits := keeps.waits few here all more
  have kept := keeps.links id link here
  have filled : 0 < link.bufOut.size := by
    refine (kept.noticed waits).resolve_left ?_
    rw [rested]
    exact List.not_mem_nil
  obtain ⟨event, reported, favours⟩ := attended link here waits filled (kept.flagOut filled)
  obtain ⟨now, later⟩ := calm
  obtain ⟨c1, step, keeps1⟩ := keeps.step proper (.wait batch) now fun c' step => (later c' step).1
  obtain ⟨c2, step', run⟩ := Option.bind_eq_some_iff.mp run
  cases step.symm.trans step'
  have after := (later c1 step).2
  rw [Cycle.step, if_pos ⟨idle, rested⟩] at step
  cases step
  have stage : ({ c with pending := batch.events } : Cycle).Stage sends id k (c.exchanges id).length
    link event := .noticed reported here rfl
  cases stage.run keeps1 proper few more favours (kept.flagOut filled) all within after run with
  | noticed waits here count =>
    rw [idle'] at waits
    cases waits
  | queued waits arrived count =>
    rw [rested'] at waits
    cases waits
  | served quiet passed arrived count => exact ⟨arrived, count⟩

theorem Keeps.rounds (keeps : c.Keeps atof s0 sends) (proper : ∀ id, ∀ m ∈ sends id, EtdbWire.Proper m)
    (few : k ≤ (sends id).length) (idle : c.pending = []) (rested : c.ready = [])
    (rounds : List (Batch × List Input)) (arrived : c.Arrived sends id k)
    (attended : c.Attended atof sends id rounds) (calm : c.CalmRun atof sends (inputsOf rounds))
    (run : c.run atof (inputsOf rounds) = some c') :
    min k ((c.exchanges id).length + rounds.length) ≤ (c'.exchanges id).length := by
  induction rounds generalizing c with
  | nil =>
    cases run
    exact min_le_right _ _
  | cons round rest ih =>
    obtain ⟨batch, steps⟩ := round
    obtain ⟨within, reported, following⟩ := attended
    by_cases more : (c.exchanges id).length < k
    · have calm : c.CalmRun atof sends ((.wait batch :: steps) ++ inputsOf rest) := calm
      obtain ⟨before, after⟩ := calmRun_append.mp calm
      obtain ⟨c1, run1, keeps1⟩ := keeps.run proper _ before
      obtain ⟨idle1, rested1, attended1⟩ := following c1 run1
      obtain ⟨arrived1, count1⟩ :=
        keeps.round proper few idle rested within arrived more reported before run1 idle1 rested1
      have run' : c1.run atof (inputsOf rest) = some c' := (run_append run1 _).symm.trans run
      have rest' := ih keeps1 idle1 rested1 arrived1 attended1 (after c1 run1) run'
      rw [List.length_cons]
      omega
    · have kept := ((run_log run).filterMap (Entry.exchange id)).length_le
      change (c.exchanges id).length ≤ (c'.exchanges id).length at kept
      omega

end Cycle

end

def Link.favours (link : Link) : EtdbWire.Event → Bool
  | .error => false
  | .readable answers => (link.bufIn.readToBuf answers).any fun read => 0 < read.1
  | .writable answers =>
    (link.bufOut.writeTo true answers 0).any fun done => 0 < done.1 ∧ done.2.1.size = 0

/-- A check of Attended that takes every request which was not served for one that waits. -/
def Cycle.attended (atof : List UInt8 → Option ℚ) (sends : Nat → List (List (List UInt8))) (id : Nat) :
    Cycle → List (Batch × List Input) → Bool
  | _, [] => true
  | c, (batch, steps) :: rest =>
    (steps.all fun input => match input with
      | .wait _ => false
      | _ => true) &&
    ((c.links id).all fun link => (c.exchanges id).length = (sends id).length ||
      batch.events.any fun e => match e with
        | .on other event => other = id && link.favours event
        | _ => false) &&
    (c.run atof (.wait batch :: steps)).all fun c' =>
      c'.pending.isEmpty && c'.ready.isEmpty && c'.attended atof sends id rest

end EtdbServer
