import Etdb.Server.Cycle

/- Whatever comes in which order: on every open connection the replies written and waiting
   to be written are those to the requests it sent, in their order, and the replies of all
   connections together are those of one server that serves one request after the other.
   No request that has arrived is forgotten. -/
namespace EtdbServer
open EtdbTrie EtdbDatabase
open EtdbWire (Buf Reader message newline)

def Entry.exchange (id : Nat) (e : Entry) : Option (List (List UInt8) × List (List UInt8)) :=
  match e.call.event with
  | .request r => if r.conn = id then some (r.cmd :: r.args, e.strs) else none
  | .childEnded => none

def Entry.reply (e : Entry) : Option (List (List UInt8)) :=
  match e.call.event with
  | .request _ => some e.strs
  | .childEnded => none

namespace Cycle

def exchanges (c : Cycle) (id : Nat) : List (List (List UInt8) × List (List UInt8)) :=
  c.log.filterMap (Entry.exchange id)

/-- What was read of a connection is the beginning of what its client sends. -/
def Conforms (sends : Nat → List (List (List UInt8))) (c : Cycle) : Prop :=
  ∀ id link, c.links id = some link → link.received <+: (sends id).flatMap message

def turn (c : Cycle) : Option (Nat × Link) :=
  match c.pending, c.ready with
  | [], id :: _ => (c.links id).map fun link => (id, link)
  | _, _ => none

/-- The connection whose turn it is has harmless bytes behind the valid ones, no negative value
    is left behind its request, and its block for replies stays below 2^30 bytes. -/
def Calm (atof : List UInt8 → Option ℚ) (c : Cycle) (o : Outside) : Prop :=
  ∀ t ∈ c.turn, t.2.bufIn.Harmless ∧ 0 ≤ o.recvLeft ∧
    ∀ r ∈ t.2.request t.1 o, ∀ done ∈ c.server.serve atof o.counters r,
      t.2.bufOut.data + t.2.bufOut.size + (message done.1).length < 2 ^ 30

def CalmRun (atof : List UInt8 → Option ℚ) (sends : Nat → List (List (List UInt8))) :
    Cycle → List Input → Prop
  | _, [] => True
  | c, input :: rest => (∀ o, input = .next o → c.Calm atof o) ∧
      ∀ c', c.step atof input = some c' → c'.Conforms sends ∧ c'.CalmRun atof sends rest

/-- etdb_conn_cnt is the number of open connections. -/
def Counts (c : Cycle) : Prop :=
  ∃ opens : Finset Nat, (∀ id, id ∈ opens ↔ c.links id ≠ none) ∧ c.connCnt = opens.card

end Cycle

/-- What holds of an open connection whose client sends these messages: the stream is in
    order, the replies are too, and a whole request waits for its turn or for the replies
    before it to be written. -/
structure Link.Keeps (sends : List (List (List UInt8)))
    (exchanges : List (List (List UInt8) × List (List UInt8))) (queued : Prop) (link : Link) : Prop where
  reading : ∃ unread, link.received ++ unread = sends.flatMap message ∧
    (Reader.mk link.bufIn unread (exchanges.map Prod.fst)).Keeps sends
  roomy : link.bufOut.Roomy
  written : link.sent ++ link.bufOut.valid = exchanges.flatMap fun e => message e.2
  flagIn : link.flagIn = true
  flagOut : 0 < link.bufOut.size → link.flagOut = true
  noticed : (Reader.mk link.bufIn [] (exchanges.map Prod.fst)).Whole sends → queued ∨ 0 < link.bufOut.size

structure Cycle.Keeps (atof : List UInt8 → Option ℚ) (s0 : Server)
    (sends : Nat → List (List (List UInt8))) (c : Cycle) : Prop where
  links : ∀ id link, c.links id = some link → link.Keeps (sends id) (c.exchanges id) (id ∈ c.ready)
  unused : ∀ id, c.fresh ≤ id →
    c.links id = none ∧ c.exchanges id = [] ∧ c.server.slotOf id = ⟨0, maxSlot_pos⟩
  ordered : ∀ id, (c.exchanges id).map Prod.fst <+: sends id
  opened : ∀ id ∈ c.ready, c.links id ≠ none
  once : (c.pending.filterMap Incoming.id ++ c.ready).Nodup
  replayed : s0.answers atof (c.log.map Entry.call) = some (c.log.filterMap Entry.reply, c.server)
  stands : ∃ A, c.server.Stands A
  counts : c.Counts

section
variable {atof : List UInt8 → Option ℚ} {s0 s s' : Server} {sends : Nat → List (List (List UInt8))}
variable {c c' : Cycle} {link : Link} {id : Nat} {A A' : Stores} {r : Request} {strs : List (List UInt8)}
variable {calls : List Call} {replies : List (List (List UInt8))}

theorem answers_cons (s : Server) (r : Request) (counters : List UInt8 → Counters) (rest : List Call) :
    s.answers atof (⟨.request r, counters⟩ :: rest) = (s.serve atof counters r).bind fun served =>
      (served.2.answers atof rest).bind fun later => some (served.1 :: later.1, later.2) := rfl

theorem answers_append {last : List Call} {more : List (List (List UInt8))}
    (ran : s0.answers atof calls = some (replies, s)) (next : s.answers atof last = some (more, s')) :
    s0.answers atof (calls ++ last) = some (replies ++ more, s') := by
  induction calls generalizing s0 replies with
  | nil =>
    rw [Server.answers] at ran
    cases ran
    exact next
  | cons call rest ih =>
    obtain ⟨event, k⟩ := call
    cases event with
    | request q =>
      rw [answers_cons, Option.bind_eq_some_iff] at ran
      obtain ⟨⟨strs1, s1⟩, first, ran⟩ := ran
      rw [Option.bind_eq_some_iff] at ran
      obtain ⟨⟨replies1, s2⟩, second, pair⟩ := ran
      cases pair
      rw [List.cons_append, answers_cons, first, Option.bind_some, ih second]
      rfl
    | childEnded =>
      rw [Server.answers] at ran
      rw [List.cons_append, Server.answers, ih ran]

theorem answers_one {counters : List UInt8 → Counters}
    (served : s.serve atof counters r = some (strs, s')) :
    s.answers atof [⟨.request r, counters⟩] = some ([strs], s') := by
  rw [answers_cons, served]
  rfl

theorem serves_slotOf (serves : A.Serves atof r strs A') {other : Nat} (apart : other ≠ r.conn) :
    A'.slotOf other = A.slotOf other := by
  unfold Stores.Serves at serves
  split at serves
  · rw [serves.2]
  · split at serves
    · rename_i cmd _ _
      obtain ⟨ret, out, _, handles⟩ := serves
      cases h : cmd.handler <;> rw [h] at handles
      case sysUse =>
        obtain ⟨_, _, _, _, ⟨slot, _, _, rfl⟩ | ⟨_, _, rfl⟩⟩ := handles
        · exact Function.update_of_ne apart _ _
        · rfl
      case sysWhere | sysHelp | sysPing | sysSync | spKnn | geoHashInfo | sysBgsave | sysInfo =>
        rw [handles.2.2]
      case sysPerf => rw [handles.2]
      all_goals
        obtain ⟨S', _, rfl⟩ := handles
        rfl
    · rw [serves.2]

theorem Link.Keeps.mono {messages : List (List (List UInt8))}
    {exchanges : List (List (List UInt8) × List (List UInt8))} {queued queued' : Prop}
    (keeps : link.Keeps messages exchanges queued) (more : queued → queued') :
    link.Keeps messages exchanges queued' :=
  { keeps with noticed := fun whole => (keeps.noticed whole).imp_left more }

theorem bufInit_fresh (block : Nat → UInt8) : (bufInit block).Fresh :=
  ⟨by simp [bufInit, Buf.capacity, connectionBufSize], rfl, rfl⟩

namespace Cycle
variable {new : Link} {ready : List Nat}

theorem turn_of (idle : c.pending = []) {rest : List Nat} (first : c.ready = id :: rest)
    (here : c.links id = some link) : (id, link) ∈ c.turn := by
  rw [Cycle.turn, idle, first]
  exact congrArg (Option.map _) here

theorem Counts.put (counts : c.Counts) (new : Link) (here : c.links id = some link) :
    (c.put id new).Counts := by
  obtain ⟨opens, all, count⟩ := counts
  refine ⟨opens, fun other => ?_, count⟩
  by_cases same : other = id
  · subst same
    simp [Cycle.put, all, here]
  · simp [Cycle.put, all, same]

theorem Counts.close (counts : c.Counts) (here : c.links id = some link) : (c.close id).Counts := by
  obtain ⟨opens, all, count⟩ := counts
  have member : id ∈ opens := (all id).mpr (by rw [here]; exact Option.some_ne_none _)
  refine ⟨opens.erase id, fun other => ?_, ?_⟩
  · by_cases same : other = id
    · simp [Cycle.close, same]
    · simp [Cycle.close, all, same]
  · have size := Finset.card_erase_add_one member
    change c.connCnt - 1 = _
    omega

theorem Counts.accept (counts : c.Counts) (unused : c.links c.fresh = none)
    (blockIn blockOut : Nat → UInt8) : (c.accept blockIn blockOut).Counts := by
  obtain ⟨opens, all, count⟩ := counts
  have outside : c.fresh ∉ opens := fun member => (all c.fresh).mp member unused
  refine ⟨insert c.fresh opens, fun other => ?_, ?_⟩
  · by_cases same : other = c.fresh
    · simp [Cycle.accept, same]
    · simp [Cycle.accept, all, same]
  · rw [Finset.card_insert_of_notMem outside]
    change c.connCnt + 1 = _
    omega

theorem Keeps.put (keeps : c.Keeps atof s0 sends) (here : c.links id = some link)
    (changed : new.Keeps (sends id) (c.exchanges id) (id ∈ ready))
    (more : ∀ other ∈ c.ready, other ≠ id → other ∈ ready)
    (opened : ∀ other ∈ ready, other ∈ c.ready ∨ other = id)
    (once : (c.pending.filterMap Incoming.id ++ ready).Nodup) :
    ({ c.put id new with ready := ready } : Cycle).Keeps atof s0 sends := by
  refine ⟨fun other l found => ?_, fun other high => ?_, keeps.ordered, fun other member => ?_, once,
    keeps.replayed, keeps.stands, keeps.counts.put new here⟩
  · by_cases same : other = id
    · subst same
      rw [show l = new by simpa [Cycle.put] using found.symm]
      exact changed
    · have old : c.links other = some l := by simpa [Cycle.put, same] using found
      exact (keeps.links other l old).mono fun queued => more other queued same
  · obtain ⟨none, rest⟩ := keeps.unused other high
    refine ⟨?_, rest⟩
    have apart : other ≠ id := by
      rintro rfl
      rw [none] at here
      cases here
    simpa [Cycle.put, apart] using none
  · by_cases same : other = id
    · simp [Cycle.put, same]
    · have old := keeps.opened other ((opened other member).resolve_right same)
      simpa [Cycle.put, same] using old

theorem Keeps.put_same (keeps : c.Keeps atof s0 sends) (here : c.links id = some link)
    (changed : new.Keeps (sends id) (c.exchanges id) (id ∈ c.ready)) :
    (c.put id new).Keeps atof s0 sends :=
  keeps.put here changed (fun _ member _ => member) (fun _ member => Or.inl member) keeps.once

theorem Keeps.put_ready (keeps : c.Keeps atof s0 sends) (here : c.links id = some link)
    (fresh : id ∉ c.pending.filterMap Incoming.id ++ c.ready)
    (changed : new.Keeps (sends id) (c.exchanges id) True) :
    ({ c.put id new with ready := c.ready ++ [id] } : Cycle).Keeps atof s0 sends := by
  have member : id ∈ c.ready ++ [id] := by simp
  refine keeps.put here (changed.mono fun _ => member) (fun _ old _ => List.mem_append_left _ old)
    (fun other found => by simpa using found) ?_
  rw [← List.append_assoc]
  exact List.nodup_append.mpr ⟨keeps.once, List.nodup_singleton id, fun a inside b last => by
    rw [List.mem_singleton.mp last]
    rintro rfl
    exact fresh inside⟩

theorem Keeps.close (keeps : c.Keeps atof s0 sends) (here : c.links id = some link)
    (apart : id ∉ c.ready) : (c.close id).Keeps atof s0 sends := by
  refine ⟨fun other l found => ?_, fun other high => ?_, keeps.ordered,
    fun other member => ?_, keeps.once, keeps.replayed, keeps.stands, keeps.counts.close here⟩
  · by_cases same : other = id
    · subst same
      simp [Cycle.close] at found
    · have old : c.links other = some l := by simpa [Cycle.close, same] using found
      exact keeps.links other l old
  · obtain ⟨none, rest⟩ := keeps.unused other high
    refine ⟨?_, rest⟩
    by_cases same : other = id
    · simp [Cycle.close, same]
    · simpa [Cycle.close, same] using none
  · have same : other ≠ id := by
      rintro rfl
      exact apart member
    simpa [Cycle.close, same] using keeps.opened other member

theorem Keeps.accept (keeps : c.Keeps atof s0 sends) (blockIn blockOut : Nat → UInt8) :
    (c.accept blockIn blockOut).Keeps atof s0 sends := by
  have first := keeps.unused c.fresh le_rfl
  have server : (c.accept blockIn blockOut).server = c.server := by
    have same : Function.update c.server.slotOf c.fresh ⟨0, maxSlot_pos⟩ = c.server.slotOf := by
      rw [← first.2.2, Function.update_eq_self]
    rw [Cycle.accept, same]
  refine ⟨fun other l found => ?_, fun other high => ?_, keeps.ordered, fun other member =>
    ?_, keeps.once, ?_, ?_, keeps.counts.accept first.1 blockIn blockOut⟩
  · by_cases same : other = c.fresh
    · subst same
      have nothing : (c.accept blockIn blockOut).exchanges c.fresh = [] := first.2.1
      rw [nothing, show l = ⟨bufInit blockIn, bufInit blockOut, true, false, [], []⟩ by
        simpa [Cycle.accept] using found.symm]
      have freshIn := bufInit_fresh blockIn
      have freshOut := bufInit_fresh blockOut
      have capacity := freshOut.capacity
      refine ⟨⟨_, rfl, freshIn.keeps (sends c.fresh)⟩, ⟨freshOut.sound, ?_, ?_⟩, ?_, rfl, ?_, ?_⟩
      · dsimp only
        omega
      · dsimp only
        omega
      · dsimp only
        rw [freshOut.valid]
        rfl
      · intro some
        exact absurd freshOut.size (Nat.pos_iff_ne_zero.mp some)
      · intro whole
        exact absurd freshIn.size whole.filled
    · have old : c.links other = some l := by simpa [Cycle.accept, same] using found
      exact keeps.links other l old
  · have high : c.fresh + 1 ≤ other := high
    have apart : other ≠ c.fresh := by omega
    obtain ⟨none, nothing, slot⟩ := keeps.unused other (by omega)
    exact ⟨by simpa [Cycle.accept, apart] using none, nothing, by rw [server]; exact slot⟩
  · have apart : other ≠ c.fresh := by
      rintro rfl
      exact keeps.opened _ member first.1
    simpa [Cycle.accept, apart] using keeps.opened other member
  · rw [server]
    exact keeps.replayed
  · rw [server]
    exact keeps.stands

theorem Keeps.handleIn (keeps : c.Keeps atof s0 sends) (here : c.links id = some link)
    (fresh : id ∉ c.pending.filterMap Incoming.id ++ c.ready) (answers : List EtdbWire.Got)
    (conforms : ∀ c', c.handleIn id link answers = some c' → c'.Conforms sends) :
    ∃ c', c.handleIn id link answers = some c' ∧ c'.Keeps atof s0 sends := by
  obtain ⟨⟨unread, stream, reading⟩, roomy, written, flagIn, flagOut, _⟩ := keeps.links id link here
  obtain ⟨len, buf, taken, run, valid, reading'⟩ := reading.afterReads answers
  dsimp only at run valid reading'
  by_cases ended : len ≤ 0
  · exact ⟨c.close id, bind_run run (if_pos ended), keeps.close here fun queued =>
      fresh (List.mem_append_right _ queued)⟩
  · have handled : c.handleIn id link answers = some
        { c.put id { link with bufIn := buf, received := link.received ++ taken } with
          ready := c.ready ++ [id] } := by
      refine bind_run run ((if_neg ended).trans ?_)
      rw [valid, List.drop_left]
      rfl
    obtain ⟨later, split⟩ := conforms _ handled id
      { link with bufIn := buf, received := link.received ++ taken } (Function.update_self ..)
    rw [← stream, List.append_assoc, List.append_cancel_left_eq] at split
    refine ⟨_, handled, keeps.put_ready here fresh
      ⟨⟨later, ?_, reading' later split.symm⟩, roomy, written, flagIn, flagOut, fun _ => Or.inl trivial⟩⟩
    dsimp only
    rw [List.append_assoc, split, stream]

theorem Keeps.handleOut (keeps : c.Keeps atof s0 sends) (here : c.links id = some link)
    (fresh : id ∉ c.pending.filterMap Incoming.id ++ c.ready) (awake : link.flagOut = true)
    (answers : List EtdbWire.Sent) :
    ∃ c', c.handleOut id link answers = some c' ∧ c'.Keeps atof s0 sends := by
  obtain ⟨reading, roomy, written, flagIn, flagOut, noticed⟩ := keeps.links id link here
  obtain ⟨len, buf, out, run, sound', taken, capacity, _⟩ :=
    Buf.writeTo_spec true answers roomy.sound 0
  have positive := roomy.positive
  have limit := roomy.limit
  have roomy' : buf.Roomy := ⟨sound', by omega, by omega⟩
  have written' : (link.sent ++ out) ++ buf.valid = (c.exchanges id).flatMap fun e => message e.2 := by
    rw [List.append_assoc, taken, written]
  by_cases ended : len ≤ 0
  · exact ⟨c.close id, bind_run run (if_pos ended), keeps.close here fun queued =>
      fresh (List.mem_append_right _ queued)⟩
  · by_cases drained : buf.size = 0
    · have silent : ∀ flag : Bool, 0 < buf.size → flag = true := fun flag some => by omega
      by_cases waiting : link.bufIn.size ≠ 0
      · exact ⟨_, bind_run run ((if_neg ended).trans ((if_pos drained).trans (if_pos waiting))),
          keeps.put_ready here fresh
            ⟨reading, roomy', written', flagIn, silent _, fun _ => Or.inl trivial⟩⟩
      · exact ⟨_, bind_run run ((if_neg ended).trans ((if_pos drained).trans (if_neg waiting))),
          keeps.put_same here ⟨reading, roomy', written', rfl, silent _, fun whole =>
            absurd whole.filled waiting⟩⟩
    · exact ⟨_, bind_run run ((if_neg ended).trans (if_neg drained)),
        keeps.put_same here ⟨reading, roomy', written', flagIn, fun _ => awake, fun _ =>
          Or.inr (Nat.pos_of_ne_zero drained)⟩⟩

theorem Keeps.handle (keeps : c.Keeps atof s0 sends) (e : Incoming)
    (fresh : ∀ id, e.id = some id → id ∉ c.pending.filterMap Incoming.id ++ c.ready)
    (conforms : ∀ c', c.handle e = some c' → c'.Conforms sends) :
    ∃ c', c.handle e = some c' ∧ c'.Keeps atof s0 sends := by
  cases e with
  | accepted blockIn blockOut => exact ⟨_, rfl, keeps.accept blockIn blockOut⟩
  | notAccepted => exact ⟨c, rfl, keeps⟩
  | on id event =>
    have apart := fresh id rfl
    cases here : c.links id with
    | none => exact ⟨c, by simp only [Cycle.handle, here], keeps⟩
    | some link =>
      simp only [Cycle.handle, here] at conforms ⊢
      cases event with
      | error => exact ⟨_, rfl, keeps.close here fun queued => apart (List.mem_append_right _ queued)⟩
      | readable answers =>
        have awake : link.flagIn = true := (keeps.links id link here).flagIn
        dsimp only at conforms ⊢
        rw [if_pos awake] at conforms ⊢
        exact keeps.handleIn here apart answers conforms
      | writable answers =>
        dsimp only
        by_cases awake : link.flagOut = true
        · rw [if_pos awake]
          exact keeps.handleOut here apart awake answers
        · rw [if_neg awake]
          exact ⟨c, rfl, keeps⟩

theorem exchanges_served {c : Cycle} {s' : Server} {links : Nat → Option Link} {ready : List Nat}
    (r : Request) (counters : List UInt8 → Counters) (strs : List (List UInt8)) (other : Nat) :
    ({ c with links := links, ready := ready, server := s', log :=
    c.log ++ [⟨⟨.request r, counters⟩, strs⟩] } :
        Cycle).exchanges other =
      c.exchanges other ++ if r.conn = other then [(r.cmd :: r.args, strs)] else [] := by
  rw [Cycle.exchanges, List.filterMap_append]
  by_cases same : r.conn = other <;> simp [Cycle.exchanges, Entry.exchange, same]

theorem Keeps.serve (keeps : c.Keeps atof s0 sends) (here : c.links id = some link) {rest : List Nat}
    {counters : List UInt8 → Counters} (own : r.conn = id) (stands : c.server.Stands A)
    (serves : A.Serves atof r strs A') (served : c.server.serve atof counters r = some (strs, s'))
    (stands' : s'.Stands A')
    (changed : new.Keeps (sends id) (c.exchanges id ++ [(r.cmd :: r.args, strs)]) (id ∈ rest))
    (queued : ∀ other ∈ c.ready, other ≠ id → other ∈ rest)
    (opened : ∀ other ∈ rest, other ∈ c.ready ∨ other = id)
    (once : (c.pending.filterMap Incoming.id ++ rest).Nodup) :
    ({ c with
      links := Function.update c.links id (some new)
      ready := rest
      server := s'
      log := c.log ++ [⟨⟨.request r, counters⟩, strs⟩] } : Cycle).Keeps atof s0 sends := by
  refine ⟨fun other l found => ?_, fun other high => ?_, fun other =>
    ?_, fun other member => ?_, once, ?_, ⟨A', stands'⟩, keeps.counts.put new here⟩
  · rw [exchanges_served, own]
    by_cases same : other = id
    · subst same
      rw [if_pos rfl, show l = new by simpa using found.symm]
      exact changed
    · have old : c.links other = some l := by simpa [same] using found
      rw [if_neg (Ne.symm same), List.append_nil]
      exact (keeps.links other l old).mono fun wait => queued other wait same
  · obtain ⟨none, nothing, slot⟩ := keeps.unused other high
    have apart : other ≠ id := by
      rintro rfl
      rw [none] at here
      cases here
    refine ⟨by simpa [apart] using none, ?_, ?_⟩
    · rw [exchanges_served, nothing, own, if_neg (Ne.symm apart)]
      rfl
    · change s'.slotOf other = _
      rw [stands'.slotOf, serves_slotOf serves (own.symm ▸ apart), ← stands.slotOf, slot]
  · rw [exchanges_served, own]
    by_cases same : id = other
    · subst same
      obtain ⟨_, _, reading⟩ := changed.reading
      obtain ⟨rest, _, split, _⟩ := reading.ordered
      rw [if_pos rfl]
      exact ⟨rest, split.symm⟩
    · rw [if_neg same, List.append_nil]
      exact keeps.ordered other
  · by_cases same : other = id
    · simp [same]
    · have old := keeps.opened other ((opened other member).resolve_right same)
      simpa [same] using old
  · change s0.answers atof ((c.log ++ [_]).map Entry.call) = _
    rw [List.map_append, List.filterMap_append]
    exact answers_append keeps.replayed (answers_one served)

theorem Keeps.process (keeps : c.Keeps atof s0 sends) (proper : ∀ id, ∀ m ∈ sends id, EtdbWire.Proper m)
    {rest : List Nat} (idle : c.pending = []) (turn : c.ready = id :: rest) {o : Outside}
    (calm : c.Calm atof o) :
    ∃ c', ({ c with ready := rest } : Cycle).process atof id o = some c' ∧ c'.Keeps atof s0 sends := by
  obtain ⟨link, here⟩ : ∃ link, c.links id = some link :=
    Option.ne_none_iff_exists'.mp (keeps.opened id (by rw [turn]; exact List.mem_cons_self))
  obtain ⟨harmless, kept, fits⟩ := calm (id, link) (turn_of idle turn here)
  have once := keeps.once
  rw [turn] at once
  have once' : (c.pending.filterMap Incoming.id ++ rest).Nodup :=
    once.sublist (List.Sublist.append_left (List.sublist_cons_self id rest) _)
  have queued : ∀ other ∈ c.ready, other ≠ id → other ∈ rest := fun other member apart => by
    rw [turn] at member
    exact (List.mem_cons.mp member).resolve_left apart
  have opened : ∀ other ∈ rest, other ∈ c.ready ∨ other = id := fun other member => by
    rw [turn]
    exact Or.inl (List.mem_cons_of_mem _ member)
  obtain ⟨⟨unread, stream, reading⟩, roomy, written, flagIn, flagOut, noticed⟩ := keeps.links id link here
  obtain ⟨received, buf', run, ⟨m, rfl, member, reading'⟩ | ⟨rfl, whole, valid, reading'⟩⟩ :=
    reading.received (proper id) harmless kept o.junkIn
  · obtain ⟨cmd, args, rfl⟩ := List.exists_cons_of_ne_nil (proper id m member).some
    obtain ⟨A, stands⟩ := keeps.stands
    obtain ⟨strs, s', A', served, serves, stands'⟩ :=
      serve_spec atof o.counters stands ⟨id, cmd, args, o.fork, o.left⟩
    obtain ⟨bufOut, sent, roomy', valid', size⟩ := roomy.sendToBuf o.junkOut strs
      (fits ⟨id, cmd, args, o.fork, o.left⟩ (by rw [Link.request, run]; rfl) (strs, s') served)
    have filled : 0 < bufOut.size := by
      rw [size, EtdbWire.message_length]
      omega
    have written' : link.sent ++ bufOut.valid =
        (c.exchanges id ++ [(cmd :: args, strs)]).flatMap fun e => message e.2 := by
      rw [valid', ← List.append_assoc, written, List.flatMap_append, List.flatMap_singleton]
    refine ⟨_, bind_run here (bind_run run (bind_run served (bind_run sent rfl))),
      keeps.serve here rfl stands serves served stands'
        ⟨⟨unread, stream, ?_⟩, roomy', written', flagIn, fun _ => ?_, fun _ => Or.inr filled⟩ queued
        opened once'⟩
    · rw [List.map_append]
      exact reading'.overwrite o.front
    · simp [filled]
  · refine ⟨_, bind_run here (bind_run run rfl),
      keeps.put here ⟨⟨unread, stream, reading'⟩, roomy, written,
      rfl, flagOut, fun found => absurd ?_ whole⟩ queued opened once'⟩
    obtain ⟨m, lead, start, next, behind⟩ := found
    exact ⟨m, lead, start, next, by rw [← valid]; exact behind⟩

theorem Keeps.step (keeps : c.Keeps atof s0 sends)
    (proper : ∀ id, ∀ m ∈ sends id, EtdbWire.Proper m) (input : Input)
    (calm : ∀ o, input = .next o → c.Calm atof o)
    (conforms : ∀ c', c.step atof input = some c' → c'.Conforms sends) :
    ∃ c', c.step atof input = some c' ∧ c'.Keeps atof s0 sends := by
  cases input with
  | wait batch =>
    by_cases idle : c.pending = [] ∧ c.ready = []
    · refine ⟨{ c with pending := batch.events }, if_pos idle,
        { keeps with once := ?_ }⟩
      rw [idle.2, List.append_nil]
      exact batch.once
    · exact ⟨c, if_neg idle, keeps⟩
  | ended =>
    obtain ⟨A, slots, slotOf⟩ := keeps.stands
    have same : ∀ id, ({ c with
        server := { c.server with bgsavePid := 0 }
        log := c.log ++ [⟨⟨.childEnded, fun _ => ⟨0, 0, 0⟩⟩, []⟩] } : Cycle).exchanges id =
        c.exchanges id := by
      intro id
      rw [Cycle.exchanges, List.filterMap_append]
      exact List.append_nil _
    refine ⟨_, rfl, fun id link found => ?_, fun id high => ?_, fun id =>
      ?_, keeps.opened, keeps.once, ?_, ⟨A, slots, slotOf⟩, keeps.counts⟩
    · rw [same]
      exact keeps.links id link found
    · rw [same]
      exact keeps.unused id high
    · rw [same]
      exact keeps.ordered id
    · rw [List.map_append, List.filterMap_append]
      exact answers_append keeps.replayed rfl
  | next o =>
    cases events : c.pending with
    | cons e rest =>
      have once := keeps.once
      rw [events] at once
      have run : c.step atof (.next o) = ({ c with pending := rest } : Cycle).handle e := by
        simp only [Cycle.step, events]
      rw [run] at conforms ⊢
      have fewer : (rest.filterMap Incoming.id ++ c.ready).Sublist
          ((e :: rest).filterMap Incoming.id ++ c.ready) :=
        List.Sublist.append_right ((List.sublist_cons_self e rest).filterMap _) _
      have keeps' : ({ c with pending := rest } : Cycle).Keeps atof s0 sends :=
        { keeps with once := once.sublist fewer }
      refine keeps'.handle e (fun id here => ?_) conforms
      rw [List.filterMap_cons, here] at once
      exact (List.nodup_cons.mp once).1
    | nil =>
      cases turn : c.ready with
      | nil => exact ⟨c, by simp only [Cycle.step, events, turn], keeps⟩
      | cons id rest =>
        have run : c.step atof (.next o) = ({ c with ready := rest } : Cycle).process atof id o := by
          simp only [Cycle.step, events, turn]
        rw [run]
        exact keeps.process proper events turn (calm o rfl)

theorem Keeps.run (keeps : c.Keeps atof s0 sends) (proper : ∀ id, ∀ m ∈ sends id, EtdbWire.Proper m)
    (inputs : List Input) (calm : c.CalmRun atof sends inputs) :
    ∃ c', c.run atof inputs = some c' ∧ c'.Keeps atof s0 sends := by
  induction inputs generalizing c with
  | nil => exact ⟨c, rfl, keeps⟩
  | cons input rest ih =>
    obtain ⟨now, later⟩ := calm
    obtain ⟨c1, step, keeps1⟩ := keeps.step proper input now fun c' step => (later c' step).1
    obtain ⟨c', run, keeps'⟩ := ih keeps1 (later c1 step).2
    exact ⟨c', bind_run step run, keeps'⟩

theorem Keeps.init {c0 : Cycle} (sends : Nat → List (List (List UInt8))) (start : Cycle.init = some c0) :
    c0.Keeps atof c0.server sends ∧ c0.server.Stands Stores.empty := by
  obtain ⟨s, begin, stands⟩ := init_stands
  rw [Cycle.init, begin] at start
  obtain rfl := Option.some.inj start
  refine ⟨⟨fun _ _ found => ?_, fun id _ => ⟨rfl, rfl, ?_⟩, fun _ => List.nil_prefix, fun _ member => ?_,
    List.nodup_nil, rfl, ⟨_, stands⟩, ∅, ?_, rfl⟩, stands⟩
  · cases found
  · rw [stands.slotOf]
    rfl
  · cases member
  · simp

end Cycle
end

theorem Cycle.Keeps.serves {atof : List UInt8 → Option ℚ} {sends : Nat → List (List (List UInt8))}
    {s0 : Server} {c : Cycle} (keeps : c.Keeps atof s0 sends) (stands0 : s0.Stands Stores.empty) :
    ∃ A, Stores.empty.Answers atof (c.log.map Entry.call) (c.log.filterMap Entry.reply) A ∧
      c.server.Stands A ∧ c.Counts ∧ (∀ id, (c.exchanges id).map Prod.fst <+: sends id) ∧
      ∀ id link, c.links id = some link →
        link.sent ++ link.bufOut.valid = (c.exchanges id).flatMap (fun e => message e.2) ∧
        ((Reader.mk link.bufIn [] ((c.exchanges id).map Prod.fst)).Whole (sends id) →
          id ∈ c.ready ∨ 0 < link.bufOut.size ∧ link.flagOut = true) := by
  obtain ⟨replies, s, A, ran, answers, stands⟩ := answers_spec atof stands0 (c.log.map Entry.call)
  rw [keeps.replayed] at ran
  cases ran
  refine ⟨A, answers, stands, keeps.counts, keeps.ordered, fun id link here => ?_⟩
  obtain ⟨_, _, written, _, flagOut, noticed⟩ := keeps.links id link here
  exact ⟨written, fun whole => (noticed whole).imp_right fun some => ⟨some, flagOut some⟩⟩

namespace Cycle
section
variable {atof : List UInt8 → Option ℚ} {sends : Nat → List (List (List UInt8))} {c c' : Cycle}
variable {link : Link} {id : Nat}

instance (o : Outside) : Decidable (c.Calm atof o) := inferInstanceAs (Decidable (∀ t ∈ c.turn, _))

def Unused (c : Cycle) : Prop := ∀ id, c.fresh ≤ id → c.links id = none

theorem Unused.put (unused : c.Unused) (opened : c.links id ≠ none) (new : Link) :
    (c.put id new).Unused := by
  intro other high
  have none := unused other high
  have apart : other ≠ id := by
    rintro rfl
    exact opened none
  exact (Function.update_of_ne apart _ _).trans none

theorem Unused.handle (unused : c.Unused) {e : Incoming} (run : c.handle e = some c') : c'.Unused := by
  obtain rfl | ⟨blockIn, blockOut, rfl⟩ | ⟨other, _, opened, rfl | ⟨new, rfl | rfl⟩⟩ := handle_cases run
  · exact unused
  · intro other high
    have high : c.fresh + 1 ≤ other := high
    exact (Function.update_of_ne (by omega) _ _).trans (unused other (by omega))
  · intro id high
    by_cases same : id = other
    · rw [same]
      exact Function.update_self ..
    · exact (Function.update_of_ne same _ _).trans (unused id high)
  · exact unused.put opened new
  · exact unused.put opened new

theorem Unused.step (unused : c.Unused) {input : Input} (run : c.step atof input = some c') :
    c'.Unused := by
  cases input with
  | wait batch =>
    dsimp only [Cycle.step] at run
    split at run
    · obtain rfl := Option.some.inj run
      exact unused
    · obtain rfl := Option.some.inj run
      exact unused
  | ended =>
    obtain rfl := Option.some.inj run
    exact unused
  | next o =>
    dsimp only [Cycle.step] at run
    split at run
    · rename_i e rest _
      have same : ({ c with pending := rest } : Cycle).Unused := unused
      exact same.handle run
    · rename_i id rest _ _
      have same : ({ c with ready := rest } : Cycle).Unused := unused
      obtain none | ⟨link, bufIn, here, goes⟩ := process_cases atof { c with ready := rest } id o
      · rw [none] at run
        cases run
      · have opened : ({ c with ready := rest } : Cycle).links id ≠ none := by
          rw [here]
          exact Option.some_ne_none link
        obtain ⟨_, goes⟩ | ⟨_, _, _, _, _, _, goes⟩ := goes
        · rw [goes] at run
          obtain rfl := Option.some.inj run
          exact same.put opened _
        · rw [goes] at run
          obtain rfl := Option.some.inj run
          exact same.put opened _
    · obtain rfl := Option.some.inj run
      exact unused

def calmInput (atof : List UInt8 → Option ℚ) (c : Cycle) : Input → Bool
  | .next o => c.Calm atof o
  | _ => true

def conforms (sends : Nat → List (List (List UInt8))) (c : Cycle) : Bool :=
  ∀ id < c.fresh, ∀ link ∈ c.links id, link.received <+: (sends id).flatMap message

def calmly (atof : List UInt8 → Option ℚ) (sends : Nat → List (List (List UInt8))) (c : Cycle) :
    List Input → Option Cycle
  | [] => some c
  | input :: rest =>
    if c.calmInput atof input then
      (c.step atof input).bind fun c' => if c'.conforms sends then c'.calmly atof sends rest else none
    else none

end
end Cycle

def readFirst : Batch :=
  ⟨[.on 0 (.readable [.bytes (message getKey)]), .on 1 (.writable [.bytes 100])], by decide⟩

end EtdbServer
