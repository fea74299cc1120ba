import Etdb.Client.Conversation
import Etdb.Wire.Words

/- The command line: a line is typed, its words are sent, and the next line is asked for when
   the reply was printed. -/
namespace EtdbClient
open EtdbServer
open EtdbTrie (bind_run)
open EtdbWire (Buf Sent Got Proper Reader message words maxPacketSize)
open EtdbString (Piece)

/-- char data[1024] -/
def dataSize : Nat := 1024

/-- A string of a reply is copied to data and printed up to a NUL; none when it leaves no
    place for one. -/
def printed (str : List UInt8) : Option (List UInt8) :=
  if str.length < dataSize then some (str.takeWhile (· ≠ 0) ++ [EtdbWire.newline]) else none

/-- The strings of a reply that are printed: the status only when it comes alone. -/
def body (reply : List (List UInt8)) : List (List UInt8) := if 1 < reply.length then reply.tail else reply

def screen (reply : List (List UInt8)) : Option (List UInt8) :=
  ((body reply).mapM printed).map List.flatten

def quitLine : List UInt8 := [113, 117, 105, 116]

inductive Noticed where
  | nothing
  | lost
  | error
  | readable (answers : List Got)
  | writable (answers : List Sent)

/-- One turn of the loop: what linenoise returns if it is called, and what is outside, with
    the value that etdb_resp_recv_req leaves behind a reply. -/
structure Pass where
  line : Option (List UInt8)
  slots : Nat → Piece
  junkOut : Nat → UInt8
  writes : List Sent
  noticed : Noticed
  junkIn : Nat → UInt8
  left : Int

/-- etdb_cli_conn with the variables of etdb_cli_cycle. FDEVENT_IN is set all the time. -/
structure Terminal where
  bufIn : Buf
  bufOut : Buf
  flagOut : Bool
  responsed : Bool
  quit : Bool
  /-- the lines that were typed, all that was written, read and printed -/
  typed : List (List UInt8)
  sent : List UInt8
  received : List UInt8
  shown : List UInt8

namespace Terminal

def start (bufIn bufOut : Buf) : Terminal := ⟨bufIn, bufOut, false, true, false, [], [], [], []⟩

/-- A line is typed; with etdb_cli_handle_user_cmd. Whether the turn goes on. -/
def prompt (t : Terminal) (p : Pass) : Option (Bool × Terminal) :=
  match p.line with
  | none => some (false, { t with quit := true })
  | some line =>
    if line = quitLine then some (false, { t with quit := true })
    else do
      let (ret, bufOut) ← t.bufOut.sendCmd p.junkOut p.slots line
      let t := { t with typed := t.typed ++ [line] }
      if ret < 0 then some (false, { t with bufOut := bufOut })
      else do
        let (len, last, out) ← bufOut.writeTo false p.writes 0
        some (true, { t with
          bufOut := last
          sent := t.sent ++ out
          flagOut := t.flagOut || decide (len ≠ bufOut.size)
          responsed := false })

/-- The loop over the events. Whether the connection is in the ready list. -/
def event (t : Terminal) : Noticed → Option (Bool × Terminal)
  | .nothing => some (false, t)
  | .lost | .error => some (false, { t with quit := true })
  | .readable answers => do
    let (len, bufIn) ← t.bufIn.readBlocking answers
    if len ≤ 0 then some (false, { t with quit := true })
    else some (true, { t with
      bufIn := bufIn
      received := t.received ++ bufIn.valid.drop t.bufIn.valid.length })
  | .writable answers =>
    if t.flagOut then do
      let (len, bufOut, out) ← t.bufOut.writeTo false answers 0
      let t := { t with bufOut := bufOut, sent := t.sent ++ out }
      if len ≤ 0 then some (false, { t with quit := true })
      else if bufOut.size = 0 then some (decide (t.bufIn.size ≠ 0), { t with flagOut := false })
      else some (false, t)
    else some (false, t)

def process (t : Terminal) (junkIn : Nat → UInt8) (left : Int) : Option Terminal := do
  let (received, bufIn) ← t.bufIn.connectRecv junkIn left
  match received with
  | .failed => some { t with bufIn := bufIn, quit := true }
  | .incomplete => some { t with bufIn := bufIn }
  | .request reply => do
    let text ← screen reply
    some { t with
      bufIn := bufIn
      shown := t.shown ++ text
      responsed := t.responsed || decide (reply ≠ []) }

def asks (t : Terminal) (p : Pass) : Option (Bool × Terminal) :=
  if t.responsed then t.prompt p else some (true, t)

def pass (t : Terminal) (p : Pass) : Option Terminal :=
  if t.quit then some t
  else do
    let (goes, t) ← t.asks p
    if goes then do
      let (ready, t) ← t.event p.noticed
      if ready then t.process p.junkIn p.left else some t
    else some t

def run (t : Terminal) : List Pass → Option Terminal
  | [] => some t
  | p :: rest => do
    let t ← t.pass p
    t.run rest

/-- The requests that were made: a line without words makes none. -/
def requests (t : Terminal) : List (List (List UInt8)) := (t.typed.map words).filter (· ≠ [])

/-- How many replies were printed: all, or all but the last that is waited for. -/
def answered (t : Terminal) : Nat := if t.responsed then t.requests.length else t.requests.length - 1

def Hears (replies : List (List (List UInt8))) (t : Terminal) : Prop :=
  t.received <+: (replies.take t.requests.length).flatMap message

def noticing (t : Terminal) (p : Pass) : Option Terminal :=
  match t.asks p with
  | some (true, t) =>
    match t.event p.noticed with
    | some (true, t) => some t
    | _ => none
  | _ => none

/-- The words of a line fit into a block below 2^30 bytes; when the parser is called, the bytes
    behind the valid ones are harmless, and no negative value is left behind a reply. -/
structure Calm (replies : List (List (List UInt8))) (t : Terminal) (p : Pass) : Prop where
  room : t.responsed = true → ∀ line ∈ p.line,
    t.bufOut.data + t.bufOut.size + (message (words line)).length < 2 ^ 30
  reads : ∀ t' ∈ t.noticing p, t'.bufIn.Harmless ∧ 0 ≤ p.left ∧ t'.Hears replies

def CalmRun (replies : List (List (List UInt8))) (t : Terminal) : List Pass → Prop
  | [] => True
  | p :: rest => t.Calm replies p ∧ ∀ t', t.pass p = some t' → t'.CalmRun replies rest

structure Holds (replies : List (List (List UInt8))) (t : Terminal) : Prop where
  roomy : t.bufOut.Roomy
  written : t.sent ++ t.bufOut.valid = t.requests.flatMap message
  few : t.answered ≤ replies.length
  reading : ∃ unread, t.received ++ unread = replies.flatMap message ∧
    (Reader.mk t.bufIn unread (replies.take t.answered)).Keeps replies
  shown : ((replies.take t.answered).mapM screen).map List.flatten = some t.shown
  hears : t.Hears replies
  busy : t.responsed = false → 0 < t.requests.length

def Waits (replies : List (List (List UInt8))) (t : Terminal) : Prop :=
  t.responsed = false → t.requests.length ≤ replies.length →
    t.received ≠ (replies.take t.requests.length).flatMap message

section
variable {replies : List (List (List UInt8))} {t : Terminal} {n : Nat}

theorem message_take (more : n < replies.length) :
    (replies.take (n + 1)).flatMap message = (replies.take n).flatMap message ++ message replies[n] := by
  rw [List.take_succ_eq_append_getElem more, List.flatMap_append, List.flatMap_singleton]

theorem take_messages (replies : List (List (List UInt8))) (n : Nat) :
    (replies.take n).flatMap message ++ (replies.drop n).flatMap message = replies.flatMap message := by
  rw [← List.flatMap_append, List.take_append_drop]

theorem take_messages_le {k : Nat} (le : n ≤ k) :
    (replies.take n).flatMap message <+: (replies.take k).flatMap message := by
  have split := take_messages (replies.take k) n
  rw [List.take_take, Nat.min_eq_left le] at split
  exact ⟨_, split⟩

theorem screen_some {reply : List (List UInt8)} (short : ∀ str ∈ body reply, str.length < dataSize) :
    ∃ text, screen reply = some text := by
  have all : ∃ texts, (body reply).mapM printed = some texts := by
    generalize body reply = strs at short
    induction strs with
    | nil => exact ⟨[], rfl⟩
    | cons str rest ih =>
      obtain ⟨texts, run⟩ := ih fun other member => short other (List.mem_cons_of_mem str member)
      refine ⟨(str.takeWhile (· ≠ 0) ++ [EtdbWire.newline]) :: texts, ?_⟩
      rw [List.mapM_cons, run, printed, if_pos (short str List.mem_cons_self)]
      rfl
  obtain ⟨texts, run⟩ := all
  exact ⟨texts.flatten, by rw [screen, run]; rfl⟩

theorem answered_idle (idle : t.responsed = true) : t.answered = t.requests.length := if_pos idle

theorem answered_busy (busy : t.responsed = false) : t.answered = t.requests.length - 1 :=
  if_neg (by rw [busy]; decide)

theorem requests_typed {t' : Terminal} {line : List UInt8} (typed : t'.typed = t.typed ++ [line]) :
    t'.requests = if words line = [] then t.requests else t.requests ++ [words line] := by
  rw [requests, requests, typed, List.map_append, List.filter_append]
  by_cases none : words line = []
  · rw [if_pos none, List.map_singleton, none]
    exact List.append_nil _
  · rw [if_neg none, List.map_singleton, List.filter_singleton]
    simp [none]

theorem Hears.short (hears : t.Hears replies) (less : t.requests.length < n) (more : n ≤ replies.length) :
    t.received ≠ (replies.take n).flatMap message := by
  intro whole
  obtain ⟨k, rfl⟩ : ∃ k, n = k + 1 := ⟨n - 1, by omega⟩
  have fewer : (replies.take t.requests.length).flatMap message <+: (replies.take k).flatMap message :=
    take_messages_le (Nat.le_of_lt_succ less)
  have before := hears.length_le.trans fewer.length_le
  have length := congrArg List.length (whole.trans (message_take more))
  rw [List.length_append, EtdbWire.message_length] at length
  omega

theorem waits_idle {t' : Terminal} (idle : t'.responsed = true) : t'.Waits replies := by
  intro busy
  rw [idle] at busy
  cases busy

theorem Holds.same {t' : Terminal} (holds : t.Holds replies) (requests : t'.requests = t.requests)
    (responsed : t'.responsed = t.responsed) (received : t'.received = t.received)
    (shown : t'.shown = t.shown) (bufIn : t'.bufIn = t.bufIn) (roomy : t'.bufOut.Roomy)
    (written : t'.sent ++ t'.bufOut.valid = t.sent ++ t.bufOut.valid) : t'.Holds replies := by
  have answered : t'.answered = t.answered := by rw [answered, answered, requests, responsed]
  refine ⟨roomy, by rw [written, requests, holds.written], by rw [answered]; exact holds.few,
    ?_, ?_, ?_, ?_⟩
  · rw [received, bufIn, answered]
    exact holds.reading
  · rw [answered, shown, holds.shown]
  · rw [Hears, received, requests]
    exact holds.hears
  · rw [responsed, requests]
    exact holds.busy

theorem Waits.same {t' : Terminal} (waits : t.Waits replies) (requests : t'.requests = t.requests)
    (responsed : t'.responsed = t.responsed) (received : t'.received = t.received) :
    t'.Waits replies := by
  rw [Waits, responsed, requests, received]
  exact waits

theorem Holds.asked {t' : Terminal} {request : List (List UInt8)} (holds : t.Holds replies)
    (more : t'.requests = t.requests ++ [request]) (idle : t.responsed = true)
    (busy : t'.responsed = false) (received : t'.received = t.received) (shown : t'.shown = t.shown)
    (bufIn : t'.bufIn = t.bufIn) (roomy : t'.bufOut.Roomy)
    (written : t'.sent ++ t'.bufOut.valid = t.sent ++ t.bufOut.valid ++ message request) :
    t'.Holds replies ∧ t'.Waits replies := by
  have length : t'.requests.length = t.requests.length + 1 := by
    rw [more, List.length_append, List.length_singleton]
  have answered : t'.answered = t.answered := by
    rw [answered_busy busy, answered_idle idle, length, Nat.add_sub_cancel]
  refine ⟨⟨roomy, ?_, by rw [answered]; exact holds.few, ?_, ?_, ?_, fun _ => by omega⟩, fun _ few => ?_⟩
  · rw [written, holds.written, more, List.flatMap_append, List.flatMap_singleton]
  · rw [received, bufIn, answered]
    exact holds.reading
  · rw [answered, shown, holds.shown]
  · rw [Hears, received, length]
    exact holds.hears.trans (take_messages_le (Nat.le_succ _))
  · rw [received]
    exact holds.hears.short (by omega) few

theorem Holds.prompt {p : Pass} (holds : t.Holds replies) (asked : t.responsed = true)
    (room : ∀ line, p.line = some line →
      t.bufOut.data + t.bufOut.size + (message (words line)).length < 2 ^ 30) :
    ∃ goes t', t.prompt p = some (goes, t') ∧ t'.Holds replies ∧ t'.Waits replies := by
  have ended : ({ t with quit := true } : Terminal).Holds replies :=
    holds.same rfl rfl rfl rfl rfl holds.roomy rfl
  unfold Terminal.prompt
  cases entered : p.line with
  | none => exact ⟨false, _, rfl, ended, waits_idle asked⟩
  | some line =>
    dsimp only
    by_cases ends : line = quitLine
    · rw [if_pos ends]
      exact ⟨false, _, rfl, ended, waits_idle asked⟩
    · rw [if_neg ends]
      rcases holds.roomy.sendCmd p.junkOut p.slots (room line entered) with
        ⟨none, sent⟩ | ⟨some, buf1, sent, roomy1, valid1, size1⟩
      · rw [sent, Option.bind_eq_bind, Option.bind_some]
        refine ⟨false, _, if_pos (show (-1 : Int) < 0 by decide),
          holds.same ((requests_typed rfl).trans (if_pos none)) rfl rfl
          rfl rfl holds.roomy rfl, waits_idle asked⟩
      · obtain ⟨len, last, out, run, sound, taken, capacity, _⟩ :=
          Buf.writeTo_spec false p.writes roomy1.sound 0
        rw [sent, Option.bind_eq_bind, Option.bind_some]
        dsimp only
        rw [if_neg (by decide), run]
        have positive := roomy1.positive
        have limit := roomy1.limit
        have roomy2 : last.Roomy := ⟨sound, by omega, by omega⟩
        have written : (t.sent ++ out) ++ last.valid =
            t.sent ++ t.bufOut.valid ++ message (words line) := by
          rw [List.append_assoc, taken, valid1, List.append_assoc]
        exact ⟨true, _, rfl,
          holds.asked ((requests_typed rfl).trans (if_neg some)) asked rfl rfl rfl rfl roomy2 written⟩

theorem Holds.event (holds : t.Holds replies) (waits : t.Waits replies) (noticed : Noticed)
    (conforms : ∀ t', t.event noticed = some (true, t') → t'.Hears replies) :
    ∃ ready t', t.event noticed = some (ready, t') ∧ t'.Holds replies ∧
      (ready = false → t'.Waits replies) := by
  have ended : ({ t with quit := true } : Terminal).Holds replies :=
    holds.same rfl rfl rfl rfl rfl holds.roomy rfl
  cases noticed with
  | nothing => exact ⟨false, t, rfl, holds, fun _ => waits⟩
  | lost => exact ⟨false, _, rfl, ended, fun _ => waits.same rfl rfl rfl⟩
  | error => exact ⟨false, _, rfl, ended, fun _ => waits.same rfl rfl rfl⟩
  | readable answers =>
    obtain ⟨unread, stream, reading⟩ := holds.reading
    obtain ⟨len, bufIn, taken, read, valid, keeps⟩ := reading.afterBlocking answers
    dsimp only at read valid keeps
    rw [Terminal.event, read, Option.bind_eq_bind, Option.bind_some] at conforms ⊢
    dsimp only at conforms ⊢
    by_cases closed : len ≤ 0
    · rw [if_pos closed]
      exact ⟨false, _, rfl, ended, fun _ => waits.same rfl rfl rfl⟩
    · rw [if_neg closed] at conforms ⊢
      rw [valid, List.drop_left] at conforms ⊢
      have arrived := conforms _ rfl
      obtain ⟨later, split⟩ := arrived.trans ⟨_, take_messages replies _⟩
      dsimp only at split
      have rest : unread = taken ++ later := by
        rw [← split, List.append_assoc] at stream
        exact List.append_cancel_left stream
      exact ⟨true, _, rfl, ⟨holds.roomy, holds.written, holds.few, ⟨later, split, keeps later rest⟩,
        holds.shown, arrived, holds.busy⟩, fun other => by cases other⟩
  | writable answers =>
    by_cases awake : t.flagOut = true
    · obtain ⟨len, bufOut, out, run, sound, taken, capacity, _⟩ :=
        Buf.writeTo_spec false answers holds.roomy.sound 0
      have positive := holds.roomy.positive
      have limit := holds.roomy.limit
      have roomy : bufOut.Roomy := ⟨sound, by omega, by omega⟩
      have written : (t.sent ++ out) ++ bufOut.valid = t.sent ++ t.bufOut.valid := by
        rw [List.append_assoc, taken]
      rw [Terminal.event, if_pos awake, run, Option.bind_eq_bind, Option.bind_some]
      dsimp only
      by_cases closed : len ≤ 0
      · rw [if_pos closed]
        exact ⟨false, _, rfl, holds.same rfl rfl rfl rfl rfl roomy written, fun _ =>
          waits.same rfl rfl rfl⟩
      · rw [if_neg closed]
        by_cases drained : bufOut.size = 0
        · rw [if_pos drained]
          exact ⟨_, _, rfl, holds.same rfl rfl rfl rfl rfl roomy written, fun _ => waits.same rfl rfl rfl⟩
        · rw [if_neg drained]
          exact ⟨false, _, rfl, holds.same rfl rfl rfl rfl rfl roomy written,
            fun _ => waits.same rfl rfl rfl⟩
    · exact ⟨false, t, by rw [Terminal.event, if_neg awake], holds, fun _ => waits⟩

/-- The parser is never ahead of the replies that may have arrived. -/
theorem Holds.ahead (holds : t.Holds replies) {buf : Buf} {unread : List UInt8} {k : Nat}
    (stream : t.received ++ unread = replies.flatMap message) (inside : k ≤ replies.length)
    (keeps : (Reader.mk buf unread (replies.take k)).Keeps replies) : k ≤ t.requests.length := by
  by_contra beyond
  obtain ⟨rest, lead, whole, start, here⟩ := keeps.ordered
  obtain ⟨n, rfl⟩ : ∃ n, k = n + 1 := ⟨k - 1, by omega⟩
  obtain rfl : rest = replies.drop (n + 1) := by
    have split := List.take_append_drop (n + 1) replies
    exact List.append_cancel_left (whole.symm.trans split.symm)
  have lead : lead.length ≤ 1 := by rcases start with rfl | rfl <;> decide
  have total := congrArg List.length (stream.trans (take_messages replies (n + 1)).symm)
  have buffered := congrArg List.length here
  have hears := (holds.hears.trans (take_messages_le (by omega : t.requests.length ≤ n))).length_le
  have inside : n < replies.length := by omega
  have last := congrArg List.length (message_take inside)
  rw [List.length_append, EtdbWire.message_length] at last
  simp only [List.length_append] at total buffered
  omega

theorem Holds.answer (holds : t.Holds replies) (proper : ∀ m ∈ replies, Proper m)
    (printable : ∀ m ∈ replies, ∀ str ∈ body m, str.length < dataSize) {bufIn : Buf} {unread : List UInt8}
    {m : List (List UInt8)} (stream : t.received ++ unread = replies.flatMap message)
    (keeps : (Reader.mk bufIn unread (replies.take t.answered ++ [m])).Keeps replies) :
    ∃ text, screen m = some text ∧ m ≠ [] ∧
      ∀ t', t' = { t with bufIn := bufIn, shown := t.shown ++ text, responsed := true } →
        t'.Holds replies ∧ t'.Waits replies := by
  obtain ⟨rest, _, whole, _⟩ := keeps.ordered
  have few := holds.few
  have total := congrArg List.length whole
  simp only [List.length_append, List.length_take, List.length_singleton] at total
  have more : t.answered < replies.length := by omega
  have next : replies.take t.answered ++ [m] = replies.take (t.answered + 1) := by
    have place := congrArg (List.take (t.answered + 1)) whole
    rw [List.take_left' (by simp; omega)] at place
    exact place.symm
  rw [next] at keeps
  have turn : t.answered + 1 = t.requests.length := by
    have below := holds.ahead stream more keeps
    cases idle : t.responsed with
    | true =>
      rw [answered_idle idle] at below
      omega
    | false =>
      rw [answered_busy idle] at below ⊢
      omega
  have member : m ∈ replies := by
    rw [whole]
    simp
  obtain ⟨text, shows⟩ := screen_some (printable m member)
  refine ⟨text, shows, (proper m member).some, ?_⟩
  rintro t' rfl
  refine ⟨⟨holds.roomy, holds.written, ?_, ⟨unread, stream, ?_⟩, ?_, holds.hears,
    fun busy => by cases busy⟩, waits_idle rfl⟩
  · change t.requests.length ≤ _
    omega
  · change (Reader.mk bufIn unread (replies.take t.requests.length)).Keeps replies
    rwa [← turn]
  · change ((replies.take t.requests.length).mapM screen).map List.flatten = _
    obtain ⟨texts, before, shown⟩ := Option.map_eq_some_iff.mp holds.shown
    rw [← turn, ← next, List.mapM_append, before, List.mapM_cons, shows]
    simp [← shown]

theorem Holds.process (holds : t.Holds replies) (proper : ∀ m ∈ replies, Proper m)
    (printable : ∀ m ∈ replies, ∀ str ∈ body m, str.length < dataSize) (harmless : t.bufIn.Harmless)
    {left : Int} (kept : 0 ≤ left) (junk : Nat → UInt8) :
    ∃ t', t.process junk left = some t' ∧ t'.Holds replies ∧ t'.Waits replies := by
  obtain ⟨unread, stream, reading⟩ := holds.reading
  obtain ⟨received, bufIn, recv, ⟨m, rfl, _, keeps⟩ | ⟨rfl, whole, _, keeps⟩⟩ :=
    reading.received proper harmless kept junk
  · obtain ⟨text, shows, some, rest⟩ := holds.answer proper printable stream keeps
    refine ⟨_, ?_, rest _ rfl⟩
    dsimp only at recv
    rw [Terminal.process, recv, Option.bind_eq_bind, Option.bind_some]
    dsimp only
    rw [shows, Option.bind_eq_bind, Option.bind_some, decide_eq_true some, Bool.or_true]
  · refine ⟨{ t with bufIn := bufIn }, ?_,
      ⟨holds.roomy, holds.written, holds.few, ⟨unread, stream, keeps⟩,
      holds.shown, holds.hears, holds.busy⟩, fun busy few all => whole ?_⟩
    · dsimp only at recv
      rw [Terminal.process, recv]
      rfl
    · have some := holds.busy busy
      refine reading.whole stream ?_ few ⟨[], (List.append_nil _).trans all.symm⟩
      change (replies.take t.answered).length < t.requests.length
      have idle : t.responsed = false := busy
      rw [List.length_take, answered_busy idle]
      omega

theorem Holds.pass {p : Pass} (holds : t.Holds replies) (waits : t.Waits replies)
    (proper : ∀ m ∈ replies, Proper m)
    (printable : ∀ m ∈ replies, ∀ str ∈ body m, str.length < dataSize) (calm : t.Calm replies p) :
    ∃ t', t.pass p = some t' ∧ t'.Holds replies ∧ t'.Waits replies := by
  by_cases stopped : t.quit = true
  · exact ⟨t, if_pos stopped, holds, waits⟩
  · have asked : ∃ goes t1, t.asks p = some (goes, t1) ∧ t1.Holds replies ∧ t1.Waits replies := by
      by_cases idle : t.responsed = true
      · rw [Terminal.asks, if_pos idle]
        exact holds.prompt idle fun line entered => calm.room idle line entered
      · exact ⟨true, t, if_neg idle, holds, waits⟩
    obtain ⟨goes, t1, asks, holds1, waits1⟩ := asked
    cases goes with
    | false => exact ⟨t1, (if_neg stopped).trans (bind_run asks rfl), holds1, waits1⟩
    | true =>
      have noticed : ∀ t', t1.event p.noticed = some (true, t') → t' ∈ t.noticing p := by
        intro t' event
        rw [Terminal.noticing, asks]
        dsimp only
        rw [event]
        rfl
      obtain ⟨ready, t2, event, holds2, waits2⟩ := holds1.event waits1 p.noticed fun t' event =>
        (calm.reads t' (noticed t' event)).2.2
      cases ready with
      | false => exact ⟨t2, (if_neg stopped).trans (bind_run asks (bind_run event rfl)), holds2, waits2 rfl⟩
      | true =>
        obtain ⟨harmless, kept, _⟩ := calm.reads t2 (noticed t2 event)
        obtain ⟨t', process, rest⟩ := holds2.process proper printable harmless kept p.junkIn
        exact ⟨t', (if_neg stopped).trans (bind_run asks (bind_run event process)), rest⟩

theorem Holds.run {passes : List Pass} (holds : t.Holds replies) (waits : t.Waits replies)
    (proper : ∀ m ∈ replies, Proper m)
    (printable : ∀ m ∈ replies, ∀ str ∈ body m, str.length < dataSize) (calm : t.CalmRun replies passes) :
    ∃ t', t.run passes = some t' ∧ t'.Holds replies ∧ t'.Waits replies := by
  induction passes generalizing t with
  | nil => exact ⟨t, rfl, holds, waits⟩
  | cons p rest ih =>
    obtain ⟨now, later⟩ := calm
    obtain ⟨t1, pass, holds1, waits1⟩ := holds.pass waits proper printable now
    obtain ⟨t', run, kept⟩ := ih holds1 waits1 (later t1 pass)
    exact ⟨t', bind_run pass run, kept⟩

end
end Terminal

namespace Terminal
section
variable {replies : List (List (List UInt8))} {t t' : Terminal} {passes : List Pass}

instance (replies : List (List (List UInt8))) (t : Terminal) (p : Pass) : Decidable (t.Calm replies p) :=
  have : ∀ t' : Terminal, Decidable (t'.Hears replies) :=
    fun t' => inferInstanceAs (Decidable (t'.received <+: _))
  decidable_of_iff ((t.responsed = true → ∀ line ∈ p.line,
      t.bufOut.data + t.bufOut.size + (message (words line)).length < 2 ^ 30) ∧
      ∀ t' ∈ t.noticing p, t'.bufIn.Harmless ∧ 0 ≤ p.left ∧ t'.Hears replies)
    ⟨fun both => ⟨both.1, both.2⟩, fun calm => ⟨calm.room, calm.reads⟩⟩

def calmly (replies : List (List (List UInt8))) (t : Terminal) : List Pass → Option Terminal
  | [] => some t
  | p :: rest => if t.Calm replies p then (t.pass p).bind fun t' => t'.calmly replies rest else none

end
end Terminal

end EtdbClient
