import Etdb.Wire.Transfer

/- The blocking connection of a client: a request is written as a whole, and then is read
   until a reply is there. Whatever the pieces, a call returns the reply that comes next. -/
namespace EtdbWire
open DecimalText

namespace Buf

/-- The loop of etdb_connect_read_to_buf without noblock. -/
def blockingTurns : List Got → Buf → Option (Int × Buf)
  | [], buf => some (0, buf)
  | got :: rest, buf => do
    match ← buf.readOnce 0 got with
    | .done buf len => some (len, buf)
    | .again buf len => if got = .interrupted then blockingTurns rest buf else some (len, buf)

def readBlocking (buf : Buf) (answers : List Got) : Option (Int × Buf) := do
  let buf ← buf.nice
  blockingTurns answers buf

/-- etdb_connect_flush with the answers to the calls of etdb_connect_write. No number is
    returned while there is something to write. -/
def flush : List (List Sent) → Buf → Int → Option (Option Int × Buf × List UInt8)
  | [], buf, len => some (if 0 < buf.size then none else some len, buf, [])
  | answers :: rest, buf, len =>
    if 0 < buf.size then do
      let (ret, buf, out) ← buf.writeTo false answers 0
      if ret = -1 then some (some (-1), buf, out)
      else
        let (len, buf, more) ← flush rest buf (toInt (len + ret))
        some (len, buf, out ++ more)
    else some (some len, buf, [])

end Buf

inductive Outcome where
  /-- still in a call of read or write -/
  | waiting
  | null
  | reply (strs : List (List UInt8))

/-- The loop of etdb_client_request with the bytes that it reads; `left` is what
    etdb_resp_recv_req returns behind the reply. -/
def awaitReply (left : Int) :
    List (List Got) → (Nat → Nat → UInt8) → Buf → Option (Outcome × Buf × List UInt8)
  | [], junk, buf => do
    let (received, buf) ← buf.connectRecv (junk 0) left
    match received with
    | .failed => some (.null, buf, [])
    | .request strs => some (.reply strs, buf, [])
    | .incomplete => some (.waiting, buf, [])
  | answers :: rest, junk, buf => do
    let (received, buf) ← buf.connectRecv (junk 0) left
    match received with
    | .failed => some (.null, buf, [])
    | .request strs => some (.reply strs, buf, [])
    | .incomplete => do
      let (len, next) ← buf.readBlocking answers
      let got := next.valid.drop buf.valid.length
      if len ≤ 0 then some (.null, next, got)
      else
        let (outcome, last, more) ← awaitReply left rest (fun i => junk (i + 1)) next
        some (outcome, last, got ++ more)

structure Client where
  bufIn : Buf
  bufOut : Buf

/-- A call of the library: the strings of its request, and what it takes from outside. -/
structure Calling where
  strs : List (List UInt8)
  junkOut : Nat → UInt8
  writes : List (List Sent)
  junkIn : Nat → Nat → UInt8
  reads : List (List Got)
  left : Int

namespace Client

def call (c : Client) (t : Calling) : Option (Outcome × Client × List UInt8 × List UInt8) := do
  let bufOut ← c.bufOut.sendToBuf t.junkOut t.strs
  let (ret, bufOut, out) ← bufOut.flush t.writes 0
  match ret with
  | none => some (.waiting, ⟨c.bufIn, bufOut⟩, out, [])
  | some ret =>
    if ret = -1 then some (.null, ⟨c.bufIn, bufOut⟩, out, [])
    else do
      let (outcome, bufIn, got) ← awaitReply t.left t.reads t.junkIn c.bufIn
      some (outcome, ⟨bufIn, bufOut⟩, out, got)

def session (c : Client) : List Calling →
    Option (List (List (List UInt8)) × Client × List UInt8 × List UInt8)
  | [] => some ([], c, [], [])
  | t :: rest => do
    let (outcome, c, out, got) ← c.call t
    match outcome with
    | .reply strs => do
      let (results, c, out', got') ← c.session rest
      some (strs :: results, c, out ++ out', got ++ got')
    | _ => some ([], c, out, got)

end Client

section
variable {buf : Buf} {r : Reader} {messages : List (List (List UInt8))}

theorem Buf.blockingTurns_takes (answers : List Got) (sound : buf.Sound) (small : buf.space < 2 ^ 31) :
    ∃ len buf' taken, blockingTurns answers buf = some (len, buf') ∧ buf'.Sound ∧
      buf'.valid = buf.valid ++ taken ∧ buf'.capacity = buf.capacity := by
  induction answers generalizing buf with
  | nil => exact ⟨0, buf, [], rfl, sound, (List.append_nil _).symm, rfl⟩
  | cons got rest ih =>
    obtain ⟨turned, taken, once, sound1, valid1, capacity1, room1⟩ := readOnce_takes sound small 0 got
    rw [blockingTurns, once, Option.bind_eq_bind, Option.bind_some]
    cases turned with
    | done buf1 len => exact ⟨len, buf1, taken, rfl, sound1, valid1, capacity1⟩
    | again buf1 len =>
      dsimp only [Turned.result] at sound1 valid1 capacity1 room1 ⊢
      by_cases again : got = .interrupted
      · rw [if_pos again]
        obtain ⟨len', buf', more, run, sound', valid, capacity⟩ := ih sound1 (by omega)
        exact ⟨len', buf', taken ++ more, run, sound', by rw [valid, valid1, List.append_assoc],
          capacity.trans capacity1⟩
      · rw [if_neg again]
        exact ⟨len, buf1, taken, rfl, sound1, valid1, capacity1⟩

theorem Reader.Keeps.afterBlocking (keeps : r.Keeps messages) (answers : List Got) : ∃ len buf' taken,
    r.buf.readBlocking answers = some (len, buf') ∧ buf'.valid = r.buf.valid ++ taken ∧
      ∀ unread, r.unread = taken ++ unread → (Reader.mk buf' unread r.got).Keeps messages := by
  obtain ⟨buf1, nice, sound1, valid1, capacity1, size1, data1⟩ := keeps.sound.nice
  have room1 := sound1.space
  have small := keeps.small
  obtain ⟨len, buf', taken, run, sound', valid, capacity⟩ :=
    Buf.blockingTurns_takes answers sound1 (by omega)
  rw [valid1] at valid
  refine ⟨len, buf', taken, ?_, valid, fun unread split =>
    keeps.appended sound' valid (capacity.trans capacity1) split⟩
  rw [Buf.readBlocking, nice]
  exact run

theorem Buf.flush_spec (calls : List (List Sent)) (sound : buf.Sound) (len : Int) :
    ∃ ret buf' out, buf.flush calls len = some (ret, buf', out) ∧ buf'.Sound ∧
      out ++ buf'.valid = buf.valid ∧ buf'.capacity = buf.capacity ∧
      (∀ n, ret = some n → n ≠ -1 → buf'.size = 0) := by
  induction calls generalizing buf len with
  | nil =>
    refine ⟨_, buf, [], rfl, sound, rfl, rfl, fun n done _ => ?_⟩
    by_cases filled : 0 < buf.size
    · rw [if_pos filled] at done
      cases done
    · omega
  | cons answers rest ih =>
    by_cases filled : 0 < buf.size
    · obtain ⟨ret, buf1, out, run, sound1, valid1, capacity1, _⟩ := writeTo_spec false answers sound 0
      by_cases failed : ret = -1
      · refine ⟨some (-1), buf1, out, ?_, sound1, valid1, capacity1, fun n done other => ?_⟩
        · rw [flush, if_pos filled, run, Option.bind_eq_bind, Option.bind_some]
          exact if_pos failed
        · cases done
          exact absurd rfl other
      · obtain ⟨ret', buf', more, run', sound', valid, capacity, drained⟩ := ih sound1 (toInt (len + ret))
        refine ⟨ret', buf', out ++ more, ?_, sound', by rw [List.append_assoc, valid, valid1],
          capacity.trans capacity1, drained⟩
        rw [flush, if_pos filled, run, Option.bind_eq_bind, Option.bind_some]
        dsimp only
        rw [if_neg failed, run']
        rfl
    · exact ⟨some len, buf, [], if_neg filled, sound, rfl, rfl, fun _ _ _ => by omega⟩

end

def Buf.readMore (buf : Buf) (left : Int) (answers : List Got) (junk : Nat → UInt8) :
    Option (Int × List UInt8 × Buf) :=
  match buf.connectRecv junk left with
  | some (.incomplete, buf) =>
    (buf.readBlocking answers).map fun (len, next) => (len, next.valid.drop buf.valid.length, next)
  | _ => none

/-- What is read is the beginning of this stream, and there are harmless bytes behind the
    valid ones whenever the parser is called. -/
def Hears (left : Int) : List UInt8 → List (List Got) → (Nat → Nat → UInt8) → Buf → Prop
  | _, [], _, buf => buf.Harmless
  | stream, answers :: rest, junk, buf => buf.Harmless ∧
      ∀ more ∈ buf.readMore left answers (junk 0), more.2.1 <+: stream ∧
        (0 < more.1 →
          Hears left (stream.drop more.2.1.length) rest (fun i => junk (i + 1)) more.2.2)

instance decideHears (left : Int) : ∀ stream reads junk buf, Decidable (Hears left stream reads junk buf)
  | _, [], _, buf => inferInstanceAs (Decidable buf.Harmless)
  | stream, answers :: rest, junk, buf =>
    have : ∀ stream buf, Decidable (Hears left stream rest (fun i => junk (i + 1)) buf) :=
      fun stream buf => decideHears left stream rest _ buf
    inferInstanceAs (Decidable (buf.Harmless ∧
      ∀ more ∈ buf.readMore left answers (junk 0), more.2.1 <+: stream ∧
        (0 < more.1 →
          Hears left (stream.drop more.2.1.length) rest (fun i => junk (i + 1)) more.2.2)))

namespace Client

def replied (c : Client) (t : Calling) : Option (List UInt8 × Client) :=
  match c.call t with
  | some (.reply _, c, _, got) => some (got, c)
  | _ => none

/-- No negative value is left behind a reply, and the requests fit into a block below 2^30
    bytes too. -/
def Hears : List UInt8 → Client → List Calling → Prop
  | _, _, [] => True
  | stream, c, t :: rest => c.bufOut.data + c.bufOut.size + (message t.strs).length < 2 ^ 30 ∧
      0 ≤ t.left ∧ EtdbWire.Hears t.left stream t.reads t.junkIn c.bufIn ∧
      ∀ next ∈ c.replied t, Hears (stream.drop next.1.length) next.2 rest

instance decideHears : ∀ stream c turns, Decidable (Client.Hears stream c turns)
  | _, _, [] => .isTrue trivial
  | stream, c, t :: rest =>
    have : ∀ stream c, Decidable (Client.Hears stream c rest) := fun stream c => decideHears stream c rest
    inferInstanceAs (Decidable (c.bufOut.data + c.bufOut.size + (message t.strs).length < 2 ^ 30 ∧
      0 ≤ t.left ∧ EtdbWire.Hears t.left stream t.reads t.junkIn c.bufIn ∧
      ∀ next ∈ c.replied t, Hears (stream.drop next.1.length) next.2 rest))

end Client

section
variable {buf : Buf} {replies got : List (List (List UInt8))} {stream beyond : List UInt8} {c : Client}

theorem awaitReply_spec {reads : List (List Got)} {junk : Nat → Nat → UInt8} {left : Int}
    (keeps : (Reader.mk buf (stream ++ beyond) got).Keeps replies) (proper : ∀ m ∈ replies, Proper m)
    (kept : 0 ≤ left) (hears : Hears left stream reads junk buf) :
    ∃ outcome buf' taken later, awaitReply left reads junk buf = some (outcome, buf', taken) ∧
      stream = taken ++ later ∧
      ((∃ m, outcome = .reply m ∧ (Reader.mk buf' (later ++ beyond) (got ++ [m])).Keeps replies) ∨
        ∀ m, outcome ≠ .reply m) := by
  induction reads generalizing buf junk stream with
  | nil =>
    obtain ⟨received, buf1, recv, ⟨m, rfl, _, keeps1⟩ | ⟨rfl, _, _, keeps1⟩⟩ :=
      keeps.received proper hears kept (junk 0)
    · refine ⟨.reply m, buf1, [], stream, ?_, rfl, Or.inl ⟨m, rfl, keeps1⟩⟩
      rw [awaitReply, recv]
      rfl
    · refine ⟨.waiting, buf1, [], stream, ?_, rfl, Or.inr fun _ other => by cases other⟩
      rw [awaitReply, recv]
      rfl
  | cons answers rest ih =>
    obtain ⟨harmless, later⟩ := hears
    obtain ⟨received, buf1, recv, ⟨m, rfl, _, keeps1⟩ | ⟨rfl, _, _, keeps1⟩⟩ :=
      keeps.received proper harmless kept (junk 0)
    · refine ⟨.reply m, buf1, [], stream, ?_, rfl, Or.inl ⟨m, rfl, keeps1⟩⟩
      rw [awaitReply, recv]
      rfl
    · obtain ⟨len, next, taken, read, valid, keeps2⟩ := keeps1.afterBlocking answers
      dsimp only at read valid keeps2
      have cut : next.valid.drop buf1.valid.length = taken := by rw [valid, List.drop_left]
      have more : (len, taken, next) ∈ buf.readMore left answers (junk 0) := by
        rw [Buf.readMore, recv, ← cut]
        exact congrArg (Option.map _) read
      obtain ⟨⟨left, split⟩, hears'⟩ := later _ more
      dsimp only at split hears'
      rw [← split, List.drop_left] at hears'
      have split := split.symm
      by_cases ended : len ≤ 0
      · refine ⟨.null, next, taken, left, ?_, split, Or.inr fun _ other => by cases other⟩
        rw [awaitReply, recv, Option.bind_eq_bind, Option.bind_some]
        dsimp only
        rw [read, Option.bind_eq_bind, Option.bind_some]
        dsimp only
        rw [if_pos ended, cut]
      · obtain ⟨outcome, buf', more, last, run, split', result⟩ :=
          ih (keeps2 (left ++ beyond) (by rw [split, List.append_assoc])) (hears' (by omega))
        refine ⟨outcome, buf', taken ++ more, last, ?_, by rw [split, split', List.append_assoc], result⟩
        rw [awaitReply, recv, Option.bind_eq_bind, Option.bind_some]
        dsimp only
        rw [read, Option.bind_eq_bind, Option.bind_some]
        dsimp only
        rw [if_neg ended, run, cut]
        rfl

/-- Between two calls the block for requests is empty. -/
structure Client.Keeps (replies got : List (List (List UInt8))) (unread : List UInt8) (c : Client) :
    Prop where
  reading : (Reader.mk c.bufIn unread got).Keeps replies
  roomy : c.bufOut.Roomy
  empty : c.bufOut.size = 0

theorem Client.Keeps.call {t : Calling} (keeps : c.Keeps replies got (stream ++ beyond))
    (proper : ∀ m ∈ replies, Proper m)
    (fits : c.bufOut.data + c.bufOut.size + (message t.strs).length < 2 ^ 30)
    (kept : 0 ≤ t.left) (hears : EtdbWire.Hears t.left stream t.reads t.junkIn c.bufIn) :
    ∃ outcome c' out taken later, c.call t = some (outcome, c', out, taken) ∧ stream = taken ++ later ∧
      ((∃ m, outcome = .reply m ∧ out = message t.strs ∧
      c'.Keeps replies (got ++ [m]) (later ++ beyond)) ∨
        (∀ m, outcome ≠ .reply m) ∧ out <+: message t.strs) := by
  obtain ⟨reading, roomy, empty⟩ := keeps
  obtain ⟨buf1, sent, roomy1, valid1, _⟩ := roomy.sendToBuf t.junkOut t.strs fits
  obtain ⟨ret, buf2, out, flushed, sound2, split, capacity, drained⟩ :=
    Buf.flush_spec t.writes roomy1.sound 0
  have before : c.bufOut.valid = [] := by rw [Buf.valid, empty, List.take_zero]
  rw [valid1, before, List.nil_append] at split
  have part : out <+: message t.strs := ⟨_, split⟩
  cases ret with
  | none =>
    refine ⟨.waiting, ⟨c.bufIn, buf2⟩, out, [], stream, ?_, rfl,
      Or.inr ⟨(fun _ other => by cases other), part⟩⟩
    rw [Client.call, sent, Option.bind_eq_bind, Option.bind_some, flushed]
    rfl
  | some n =>
    by_cases failed : n = -1
    · refine ⟨.null, ⟨c.bufIn, buf2⟩, out, [], stream, ?_, rfl,
        Or.inr ⟨(fun _ other => by cases other), part⟩⟩
      rw [Client.call, sent, Option.bind_eq_bind, Option.bind_some, flushed]
      exact if_pos failed
    · have size := drained n rfl failed
      have whole : out = message t.strs := by
        rw [← split, show buf2.valid = [] by rw [Buf.valid, size, List.take_zero], List.append_nil]
      obtain ⟨outcome, buf', taken, later, awaited, consumed, result⟩ :=
        awaitReply_spec reading proper kept hears
      refine ⟨outcome, ⟨buf', buf2⟩, out, taken, later, ?_, consumed, ?_⟩
      · rw [Client.call, sent, Option.bind_eq_bind, Option.bind_some, flushed]
        refine (if_neg failed).trans ?_
        rw [awaited]
        rfl
      · obtain ⟨m, rfl, reading'⟩ | other := result
        · have positive := roomy1.positive
          have limit := roomy1.limit
          have roomy' : buf2.Roomy := ⟨sound2, by omega, by omega⟩
          exact Or.inl ⟨m, rfl, whole, reading', roomy', size⟩
        · exact Or.inr ⟨other, part⟩

theorem Client.Keeps.session (keeps : c.Keeps replies got (stream ++ beyond))
    (proper : ∀ m ∈ replies, Proper m) (turns : List Calling) (hears : c.Hears stream turns) :
    ∃ results c' out taken, c.session turns = some (results, c', out, taken) ∧
    got ++ results <+: replies ∧
      taken <+: stream ∧ out <+: turns.flatMap (fun t => message t.strs) ∧
      (turns.take results.length).flatMap (fun t => message t.strs) <+: out := by
  induction turns generalizing c got stream with
  | nil =>
    obtain ⟨_, _, _, rest, _, split, _⟩ := keeps.reading
    refine ⟨[], c, [], [], rfl, ⟨rest, ?_⟩, List.nil_prefix, List.nil_prefix, List.nil_prefix⟩
    rw [List.append_nil, split]
  | cons t rest ih =>
    obtain ⟨fits, kept, hears1, later1⟩ := hears
    obtain ⟨outcome, c1, out, taken, later, run, split, ⟨m, rfl, rfl, keeps1⟩ | ⟨other, part⟩⟩ :=
      keeps.call proper fits kept hears1
    · obtain ⟨results, c', out', taken', run', order, more, begin, done⟩ :=
        ih keeps1 (by
          have next := later1 (taken, c1) (by rw [Client.replied, run]; rfl)
          rwa [split, List.drop_left] at next)
      refine ⟨m :: results, c', message t.strs ++ out', taken ++ taken', ?_, ?_, ?_, ?_, ?_⟩
      · rw [Client.session, run, Option.bind_eq_bind, Option.bind_some]
        dsimp only
        rw [run']
        rfl
      · rw [List.append_cons]
        exact order
      · rw [split]
        exact (List.prefix_append_right_inj taken).mpr more
      · rw [List.flatMap_cons]
        exact (List.prefix_append_right_inj _).mpr begin
      · rw [List.length_cons, List.take_succ_cons, List.flatMap_cons]
        exact (List.prefix_append_right_inj _).mpr done
    · obtain ⟨_, _, _, tail, _, order, _⟩ := keeps.reading
      refine ⟨[], c1, out, taken, ?_, ⟨tail, by rw [List.append_nil, order]⟩, ⟨later, split.symm⟩, ?_,
        List.nil_prefix⟩
      · rw [Client.session, run, Option.bind_eq_bind, Option.bind_some]
        cases outcome with
        | waiting => rfl
        | null => rfl
        | reply m => exact absurd rfl (other m)
      · rw [List.flatMap_cons]
        exact part.trans (List.prefix_append _ _)

end

end EtdbWire
