import Etdb.Wire.Loop

/- The bytes that go through a connection: what the reads bring is behind the valid bytes
   of buf_in, what the writes take was in front of those of buf_out, and a reply goes
   behind them. -/
namespace EtdbWire
open DecimalText

namespace Buf

/-- etdb_connect_write: the value returned, the buffer and the bytes that were taken. A call
    of write that would block ends the answers; without noblock there is one call. -/
def writeTo (noblock : Bool) : List Sent → Buf → Int → Option (Int × Buf × List UInt8)
  | [], buf, ret => buf.nice.map fun buf => (ret, buf, [])
  | sent :: rest, buf, ret =>
    if 0 < toInt buf.size then
      match sent with
      | .interrupted => writeTo noblock rest buf ret
      | .failed => some (-1, buf, [])
      | .bytes len =>
        let len := min len (toInt buf.size).toNat
        if len = 0 then buf.nice.map fun buf => (ret, buf, [])
        else do
          let (last, buf', out) ← if noblock then writeTo noblock rest (buf.decr len) (toInt (ret + len))
            else (buf.decr len).nice.map fun buf => (toInt (ret + len), buf, [])
          some (last, buf', buf.valid.take len ++ out)
    else buf.nice.map fun buf => (ret, buf, [])

def sendToBuf (junk : Nat → UInt8) (buf : Buf) (resp : List (List UInt8)) : Option Buf :=
  buf.encodeMessage junk resp

/-- Room for a record has been made before, and a block has an end. -/
structure Roomy (buf : Buf) : Prop where
  sound : buf.Sound
  positive : 0 < buf.capacity
  limit : buf.capacity < 2 ^ 61

def overwrite (front : Nat → UInt8) (buf : Buf) : Buf :=
  { buf with mem := (List.range buf.data).map front ++ buf.mem.drop buf.data }

section
variable {buf : Buf} {messages : List (List (List UInt8))} {unread : List UInt8}

theorem overwrite_valid (front : Nat → UInt8) (sound : buf.Sound) : (buf.overwrite front).Sound ∧
    (buf.overwrite front).valid = buf.valid ∧ (buf.overwrite front).capacity = buf.capacity := by
  obtain ⟨inside, small⟩ := sound
  have capacity : (buf.overwrite front).capacity = buf.capacity := by
    unfold Buf.capacity at inside ⊢
    simp only [overwrite, List.length_append, List.length_map, List.length_range, List.length_drop]
    omega
  refine ⟨⟨?_, by omega⟩, ?_, capacity⟩
  · change buf.data + buf.size ≤ _
    omega
  · change (((List.range buf.data).map front ++ buf.mem.drop buf.data).drop buf.data).take buf.size = _
    rw [List.drop_left' (by simp), valid]

theorem writeTo_spec (noblock : Bool) (answers : List Sent) (sound : buf.Sound) (ret : Int) :
    ∃ last buf' out, buf.writeTo noblock answers ret = some (last, buf', out) ∧ buf'.Sound ∧
      out ++ buf'.valid = buf.valid ∧ buf'.capacity = buf.capacity ∧
      (noblock = true → (last, buf'.size) = writeLoop answers buf.size ret) := by
  have ended : ∀ {buf : Buf}, buf.Sound → ∀ ret : Int, ∃ buf',
      buf.nice.map (fun buf => (ret, buf, ([] : List UInt8))) = some (ret, buf', []) ∧ buf'.Sound ∧
      buf'.valid = buf.valid ∧ buf'.capacity = buf.capacity ∧ buf'.size = buf.size := by
    intro buf sound ret
    obtain ⟨buf', nice, sound', valid, capacity, size, _⟩ := sound.nice
    exact ⟨buf', by rw [nice]; rfl, sound', valid, capacity, size⟩
  induction answers generalizing buf ret with
  | nil =>
    obtain ⟨buf', run, sound', valid, capacity, size⟩ := ended sound ret
    exact ⟨ret, buf', [], run, sound', valid, capacity, fun _ => by rw [size]; rfl⟩
  | cons sent rest ih =>
    unfold writeTo writeLoop
    by_cases wanted : 0 < toInt buf.size
    · rw [if_pos wanted, if_pos wanted]
      cases sent with
      | interrupted => exact ih sound ret
      | failed => exact ⟨-1, buf, [], rfl, sound, rfl, rfl, fun _ => rfl⟩
      | bytes len =>
        dsimp only
        have fits : min len (toInt buf.size).toNat ≤ buf.size := by
          unfold toInt
          omega
        generalize min len (toInt buf.size).toNat = num at fits
        by_cases nothing : num = 0
        · rw [if_pos nothing, if_pos nothing]
          obtain ⟨buf', run, sound', valid, capacity, size⟩ := ended sound ret
          exact ⟨ret, buf', [], run, sound', valid, capacity, fun _ => by rw [size]⟩
        · rw [if_neg nothing, if_neg nothing]
          obtain ⟨sound1, valid1, size1⟩ := sound.decr fits
          cases noblock with
          | true =>
            obtain ⟨last, buf', out, run, sound', taken, capacity, sizes⟩ := ih sound1 (toInt (ret + num))
            refine ⟨last, buf', buf.valid.take num ++ out, ?_, sound', ?_, capacity, ?_⟩
            · rw [if_pos rfl, run]
              rfl
            · rw [List.append_assoc, taken, valid1, List.take_append_drop]
            · intro _
              rw [← size1]
              exact sizes rfl
          | false =>
            obtain ⟨buf', run, sound', valid, capacity, size⟩ := ended sound1 (toInt (ret + num))
            refine ⟨toInt (ret + num), buf', buf.valid.take num ++ [], ?_, sound', ?_, capacity,
              fun other => by cases other⟩
            · rw [if_neg (by decide), run]
              rfl
            · rw [List.append_nil, valid, valid1, List.take_append_drop]
    · rw [if_neg wanted, if_neg wanted]
      obtain ⟨buf', run, sound', valid, capacity, size⟩ := ended sound ret
      exact ⟨ret, buf', [], run, sound', valid, capacity, fun _ => by rw [size]⟩

theorem Roomy.sendToBuf (roomy : buf.Roomy) (junk : Nat → UInt8) (resp : List (List UInt8))
    (small : buf.data + buf.size + (message resp).length < 2 ^ 30) :
    ∃ buf', buf.sendToBuf junk resp = some buf' ∧ buf'.Roomy ∧ buf'.valid = buf.valid ++ message resp ∧
      buf'.size = buf.size + (message resp).length := by
  induction resp generalizing buf with
  | nil =>
    obtain ⟨buf', run, sound', valid, _, size, positive', limit'⟩ :=
      appendRecord_spec junk [] roomy.sound roomy.positive roomy.limit (by decide) (by omega)
    exact ⟨buf', run, ⟨sound', positive', limit'⟩, valid, size⟩
  | cons str rest ih =>
    rw [message_cons, List.length_append] at small
    have length := frame_length str
    obtain ⟨buf1, run1, sound1, valid1, data1, size1, positive1, limit1⟩ :=
      appendRecord_spec junk str roomy.sound roomy.positive roomy.limit (by omega) (by omega)
    obtain ⟨buf', run, roomy', valid, size⟩ := ih ⟨sound1, positive1, limit1⟩ (by omega)
    refine ⟨buf', ?_, roomy', ?_, ?_⟩
    · unfold Buf.sendToBuf encodeMessage at run ⊢
      rw [List.foldlM_cons, run1]
      exact run
    · rw [valid, valid1, message_cons, List.append_assoc]
    · rw [size, size1, message_cons, List.length_append, Nat.add_assoc]

theorem readOnce_takes (sound : buf.Sound) (small : buf.space < 2 ^ 31) (ret : Int) (got : Got) :
    ∃ turned taken, buf.readOnce ret got = some turned ∧ turned.result.2.Sound ∧
      turned.result.2.valid = buf.valid ++ taken ∧ turned.result.2.capacity = buf.capacity ∧
      turned.result.2.space ≤ buf.space := by
  have same : ∀ turned : Turned, turned.result.2 = buf → turned.result.2.Sound ∧
      turned.result.2.valid = buf.valid ++ [] ∧ turned.result.2.capacity = buf.capacity ∧
      turned.result.2.space ≤ buf.space := by
    intro turned equal
    rw [equal, List.append_nil]
    exact ⟨sound, rfl, rfl, le_rfl⟩
  unfold readOnce
  by_cases reads : 0 < buf.want
  · rw [if_pos reads]
    cases got with
    | interrupted => exact ⟨.again buf ret, [], rfl, same _ rfl⟩
    | failed => exact ⟨.done buf (-1), [], rfl, same _ rfl⟩
    | bytes bytes =>
      dsimp only
      by_cases eof : bytes.take buf.want.toNat = []
      · rw [if_pos eof]
        exact ⟨.done buf 0, [], rfl, same _ rfl⟩
      · have want : buf.want = buf.space := toInt_eq (by omega) (by omega)
        have fits : (bytes.take buf.want.toNat).length ≤ buf.space := by
          rw [List.length_take, want]
          omega
        obtain ⟨buf', run, sound', valid, capacity, data, size⟩ := sound.append _ fits
        have room := sound.space
        have room' := sound'.space
        refine ⟨.again buf' (toInt (ret + (bytes.take buf.want.toNat).length)), _, ?_, sound', valid,
          capacity, ?_⟩
        · rw [if_neg eof, run]
          rfl
        · change buf'.space ≤ buf.space
          omega
  · rw [if_neg reads]
    exact ⟨.done buf ret, [], rfl, same _ rfl⟩

theorem turns_takes (answers : List Got) (sound : buf.Sound) (small : buf.space < 2 ^ 31) (ret : Int) :
    ∃ turned taken, answers.foldlM Turned.next (.again buf ret) = some turned ∧ turned.result.2.Sound ∧
      turned.result.2.valid = buf.valid ++ taken ∧ turned.result.2.capacity = buf.capacity := by
  induction answers generalizing buf ret with
  | nil => exact ⟨.again buf ret, [], rfl, sound, (List.append_nil _).symm, rfl⟩
  | cons got rest ih =>
    obtain ⟨turned, taken, once, sound1, valid1, capacity1, room1⟩ := readOnce_takes sound small ret got
    rw [List.foldlM_cons, Option.bind_eq_bind, Turned.next, once, Option.bind_some]
    cases turned with
    | again buf1 ret1 =>
      dsimp only [Turned.result] at sound1 valid1 capacity1 room1
      obtain ⟨last, more, run, sound', valid, capacity⟩ := ih sound1 (by omega) ret1
      exact ⟨last, taken ++ more, run, sound', by rw [valid, valid1, List.append_assoc],
        capacity.trans capacity1⟩
    | done buf1 len =>
      rw [done_stays]
      exact ⟨.done buf1 len, taken, rfl, sound1, valid1, capacity1⟩

end
end Buf

section
variable {r : Reader} {messages : List (List (List UInt8))}

theorem Buf.Fresh.keeps {buf : Buf} (fresh : buf.Fresh) (messages : List (List (List UInt8))) :
    (Reader.mk buf (messages.flatMap message) []).Keeps messages := by
  have := fresh.capacity
  refine ⟨fresh.sound, ?_, ?_, messages, [], rfl, Or.inl rfl, ?_⟩
  · dsimp only
    omega
  · dsimp only
    omega
  · rw [fresh.valid]

theorem Reader.Keeps.appended (keeps : r.Keeps messages) {buf' : Buf} {taken unread : List UInt8}
    (sound' : buf'.Sound)
    (valid : buf'.valid = r.buf.valid ++ taken) (capacity : buf'.capacity = r.buf.capacity)
    (split : r.unread = taken ++ unread) : (Reader.mk buf' unread r.got).Keeps messages := by
  obtain ⟨_, positive, small, rest, lead, whole, start, here⟩ := keeps
  refine ⟨sound', ?_, ?_, rest, lead, whole, start, ?_⟩
  · dsimp only
    omega
  · dsimp only
    omega
  · dsimp only
    rw [valid, List.append_assoc, ← split, here]

theorem Reader.Keeps.afterReads (keeps : r.Keeps messages) (answers : List Got) : ∃ len buf' taken,
    r.buf.readToBuf answers = some (len, buf') ∧ buf'.valid = r.buf.valid ++ taken ∧
      ∀ unread, r.unread = taken ++ unread → (Reader.mk buf' unread r.got).Keeps messages := by
  obtain ⟨buf1, nice, sound1, valid1, capacity1, size1, data1⟩ := keeps.sound.nice
  have room1 := sound1.space
  have small := keeps.small
  obtain ⟨turned, taken, run, sound', valid, capacity⟩ := Buf.turns_takes answers sound1 (by omega) 0
  rw [valid1] at valid
  refine ⟨turned.result.1, turned.result.2, taken, ?_, valid, fun unread split =>
    keeps.appended sound' valid (capacity.trans capacity1) split⟩
  rw [Buf.readToBuf, nice, Option.bind_eq_bind, Option.bind_some, run]
  rfl

theorem Reader.Whole.filled (whole : r.Whole messages) : r.buf.size ≠ 0 := by
  obtain ⟨m, lead, _, _, more, valid⟩ := whole
  intro empty
  have length := congrArg List.length valid
  have none : r.buf.valid = [] := by rw [Buf.valid, empty, List.take_zero]
  rw [none, List.length_append, List.length_append, List.length_nil, message_length] at length
  omega

/-- What a call of etdb_connect_recv gives when no negative value is left behind a message. -/
theorem Reader.Keeps.received (keeps : r.Keeps messages) (proper : ∀ m ∈ messages, Proper m)
    (harmless : r.buf.Harmless) {left : Int} (kept : 0 ≤ left) (junk : Nat → UInt8) : ∃ received buf',
    r.buf.connectRecv junk left = some (received, buf') ∧
      ((∃ m, received = .request m ∧ m ∈ messages ∧
          (Reader.mk buf' r.unread (r.got ++ [m])).Keeps messages) ∨
        received = .incomplete ∧ ¬ r.Whole messages ∧ buf'.valid = r.buf.valid ∧
          (Reader.mk buf' r.unread r.got).Keeps messages) := by
  by_cases empty : r.buf.size = 0
  · exact ⟨.incomplete, r.buf, if_pos empty, Or.inr ⟨rfl, fun whole => whole.filled empty, rfl, keeps⟩⟩
  · obtain ⟨r', step, keeps', answers⟩ := keeps.afterRecv proper harmless junk
    rw [Reader.step, Option.bind_eq_bind, Option.bind_eq_some_iff] at step
    obtain ⟨⟨received, buf'⟩, run, step⟩ := step
    refine ⟨received, buf', ?_, ?_⟩
    · rw [Buf.connectRecv, if_neg empty, run, Option.map_some]
      dsimp only
      rw [Received.behind_kept kept]
    · cases received with
      | failed => cases step
      | request m =>
        cases step
        obtain ⟨_, _, ⟨later, split⟩⟩ | ⟨_, _, got, _⟩ := answers
        · refine Or.inl ⟨m, rfl, ?_, keeps'⟩
          rw [← split]
          simp
        · have length := congrArg List.length got
          simp at length
      | incomplete =>
        cases step
        obtain ⟨_, ⟨m, got⟩, _⟩ | ⟨whole, _, _, valid⟩ := answers
        · have length := congrArg List.length got
          simp at length
        · exact Or.inr ⟨rfl, whole, valid, keeps'⟩

theorem Reader.Keeps.whole (keeps : r.Keeps messages) {arrived : List UInt8} {k : Nat}
    (stream : arrived ++ r.unread = messages.flatMap message) (next : r.got.length < k)
    (few : k ≤ messages.length) (all : (messages.take k).flatMap message <+: arrived) :
    r.Whole messages := by
  obtain ⟨rest, lead, whole, start, here⟩ := keeps.ordered
  obtain ⟨m, rest, rfl⟩ : ∃ m tail, rest = m :: tail := by
    refine List.exists_cons_of_ne_nil fun none => ?_
    rw [whole, none, List.append_nil] at few
    omega
  obtain ⟨later, beginning⟩ : r.got ++ [m] <+: messages.take k := by
    rw [List.prefix_take_iff, List.length_append, List.length_singleton]
    exact ⟨⟨rest, by rw [whole, List.append_assoc, List.singleton_append]⟩, next⟩
  obtain ⟨beyond, rfl⟩ := all
  rw [← beginning, whole] at stream
  simp only [List.flatMap_append, List.flatMap_cons, List.flatMap_nil, List.append_nil,
    List.append_assoc, List.append_cancel_left_eq] at stream
  rw [List.flatMap_cons, ← stream] at here
  simp only [← List.append_assoc] at here
  have valid := List.append_cancel_right here
  refine ⟨m, lead, start, ⟨rest, by rw [whole, List.append_assoc, List.singleton_append]⟩, ?_⟩
  rw [valid, List.append_assoc]
  exact List.prefix_append _ _

theorem Reader.Keeps.overwrite (keeps : r.Keeps messages) (front : Nat → UInt8) :
    (Reader.mk (r.buf.overwrite front) r.unread r.got).Keeps messages := by
  obtain ⟨sound, positive, small, rest, lead, whole, start, here⟩ := keeps
  obtain ⟨sound', valid, capacity⟩ := Buf.overwrite_valid front sound
  refine ⟨sound', ?_, ?_, rest, lead, whole, start, ?_⟩
  · dsimp only
    omega
  · dsimp only
    omega
  · dsimp only
    rw [valid, here]

end
end EtdbWire
