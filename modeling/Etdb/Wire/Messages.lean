import Etdb.Wire.Parser

/- Messages: what the encoder writes for a list of strings, and that the parser reads it
   back, message by message, whatever the strings hold. -/
namespace EtdbWire
open DecimalText

def frame (s : List UInt8) : List UInt8 := spell s.length ++ newline :: (s ++ [newline])

def frames (m : List (List UInt8)) : List UInt8 := m.flatMap frame

/-- The records of a message and an empty one. -/
def message (m : List (List UInt8)) : List UInt8 := frames m ++ [48, newline, newline]

structure Proper (m : List (List UInt8)) : Prop where
  some : m ≠ []
  strings : ∀ s ∈ m, s ≠ []
  fits : (message m).length ≤ maxPacketSize

def places : Nat → List (List UInt8) → List (Nat × Nat)
  | _, [] => []
  | p, s :: m => (p + ((spell s.length).length + 1), s.length) :: places (p + (frame s).length) m

def contents (rest : List UInt8) (records : List (Nat × Nat)) : List (List UInt8) :=
  records.map fun (place, len) => (rest.drop place).take len

section
variable {rest more s : List UInt8} {m : List (List UInt8)} {size parsed turns p : Nat}
    {recv : List (Nat × Nat)}

theorem frame_length (s : List UInt8) :
    (frame s).length = (spell s.length).length + 1 + s.length + 1 := by
  simp only [frame, List.length_append, List.length_cons, List.length_nil]
  omega

theorem frames_cons (s : List UInt8) (m : List (List UInt8)) :
    frames (s :: m) = frame s ++ frames m := rfl

theorem message_length (m : List (List UInt8)) : (message m).length = (frames m).length + 3 := by
  rw [message, List.length_append]
  rfl

theorem message_cons (s : List UInt8) (m : List (List UInt8)) :
    message (s :: m) = frame s ++ message m := by
  rw [message, frames_cons, List.append_assoc, message]

theorem parse_frame (filled : s ≠ []) (small : s.length < 2 ^ 30) (inside : (frame s).length ≤ size)
    (bound : size < 2 ^ 64) (turns parsed : Nat) (recv : List (Nat × Nat)) (more : List UInt8) :
    parseLoop (turns + 1) (frame s ++ more) size parsed recv =
      if maxPacketSize < parsed + (frame s).length then some .refused
      else parseLoop turns more (size - (frame s).length) (parsed + (frame s).length)
        (recv ++ [(parsed + ((spell s.length).length + 1), s.length)]) := by
  have length := frame_length s
  have spelled : frame s ++ more = spell s.length ++ newline :: (s ++ newline :: more) := by
    simp [frame]
  have body : (frame s ++ more)[(spell s.length).length + 1]? = (s ++ newline :: more)[0]? := by
    rw [spelled, List.getElem?_append_right (by omega), Nat.add_sub_cancel_left, List.getElem?_cons_succ]
  have behind : (frame s ++ more).drop ((spell s.length).length + 1 + s.length) = newline :: more := by
    have split : frame s ++ more = (spell s.length ++ newline :: s) ++ newline :: more := by simp [frame]
    rw [split]
    exact List.drop_left' (by simp only [List.length_append, List.length_cons]; omega)
  have left : sizeT ((size : Int) - ((spell s.length).length + 1 + s.length : Nat)) =
      size - ((spell s.length).length + 1 + s.length) := by
    unfold sizeT
    omega
  obtain ⟨c, tail, rfl⟩ := List.exists_cons_of_ne_nil filled
  rw [parseLoop, if_neg (by omega)]
  have header : readHeader (frame (c :: tail) ++ more) size = _ :=
    spelled ▸ readHeader_spell small (c :: tail ++ newline :: more) (by omega)
  rw [header]
  dsimp only
  rw [body, left, behind]
  dsimp only
  rw [List.cons_append, List.getElem?_cons_zero]
  dsimp only
  rw [if_neg (fun h => by simp at h), if_neg (by omega), if_neg (fun h => h rfl)]
  have total : parsed + ((spell (c :: tail).length).length + 1 + (c :: tail).length) + 1 =
      parsed + (frame (c :: tail)).length := by omega
  have size' : size - ((spell (c :: tail).length).length + 1 + (c :: tail).length) - 1 =
      size - (frame (c :: tail)).length := by omega
  rw [total, size']

/-- The empty record ends the message; its second newline is left. -/
theorem parse_tail (size : Nat) (inside : 3 ≤ size) (bound : size < 2 ^ 64) (turns parsed : Nat)
    (recv : List (Nat × Nat))
    (more : List UInt8) : parseLoop (turns + 1) (48 :: newline :: newline :: more) size parsed recv =
      some (.ready recv (parsed + 2)) := by
  have header : readHeader (48 :: newline :: newline :: more) size = some (.line 2 0) := by
    have shorter : (spell 0).length < size := by
      rw [show (spell 0).length = 1 from rfl]
      omega
    exact readHeader_spell (n := 0) (by decide) (newline :: more) shorter
  rw [parseLoop, if_neg (by omega), header]
  exact if_pos ⟨rfl, rfl⟩

theorem parse_message (strings : ∀ s ∈ m, s ≠ []) (small : parsed + (frames m).length ≤ maxPacketSize)
    (inside : (message m).length ≤ size) (bound : size < 2 ^ 64) (enough : m.length < turns) :
    parseLoop turns (message m ++ more) size parsed recv =
      some (.ready (recv ++ places parsed m) (parsed + (frames m).length + 2)) := by
  induction m generalizing turns size parsed recv with
  | nil =>
    obtain ⟨turns, rfl⟩ : ∃ t, turns = t + 1 := ⟨turns - 1, by omega⟩
    rw [message_length] at inside
    have tail := parse_tail size (by omega) bound turns parsed recv more
    simpa [message, frames, places] using tail
  | cons s m ih =>
    obtain ⟨turns, rfl⟩ : ∃ t, turns = t + 1 := ⟨turns - 1, by omega⟩
    rw [frames_cons, List.length_append] at small
    rw [message_cons, List.length_append] at inside
    have short := frame_length s
    have packet : maxPacketSize = 2 ^ 25 := rfl
    rw [message_cons, List.append_assoc, parse_frame (strings s List.mem_cons_self)
      (by omega) (by omega) bound,
      if_neg (by omega), ih (fun t member => strings t (List.mem_cons_of_mem s member)) (by omega)
      (by omega)
      (by omega) (by simpa using enough), places, frames_cons, List.length_append, List.append_assoc]
    simp only [List.singleton_append, Nat.add_assoc]

theorem contents_places (rest more : List UInt8) (here : rest.drop p = frames m ++ more) :
    contents rest (places p m) = m := by
  induction m generalizing p with
  | nil => rfl
  | cons s m ih =>
    rw [frames_cons, List.append_assoc] at here
    have later : rest.drop (p + (frame s).length) = frames m ++ more := by
      rw [← List.drop_drop, here, List.drop_left]
    have first : (rest.drop (p + ((spell s.length).length + 1))).take s.length = s := by
      have split : frame s ++ (frames m ++ more) = (spell s.length ++ [newline]) ++
        (s ++ newline :: (frames m ++ more)) := by
        simp [frame]
      rw [← List.drop_drop, here, split, List.drop_left' (by simp), List.take_left]
    change (rest.drop (p + ((spell s.length).length + 1))).take s.length :: contents rest
      (places _ m) = s :: m
    rw [first, ih later]

theorem message_head (m : List (List UInt8)) : ∃ c tail, message m = c :: tail ∧ c ≠ newline := by
  have digit : ∀ (n : Nat) (l : List UInt8), ∃ c tail, spell n ++ l = c :: tail ∧ c ≠ newline := by
    intro n l
    obtain ⟨c, tail, spelled⟩ := List.exists_cons_of_ne_nil (spell_some n)
    refine ⟨c, tail ++ l, by rw [spelled, List.cons_append], ?_⟩
    rintro rfl
    exact newline_not_in_spell n (by rw [spelled]; exact List.mem_cons_self)
  cases m with
  | nil => exact digit 0 [newline, newline]
  | cons s m =>
    rw [message_cons, frame, List.append_assoc]
    exact digit s.length _

theorem message_strip {v lead : List UInt8} (start : lead = [] ∨ lead = [newline])
    (begins : v <+: message m ++ more) : (lead ++ v).dropWhile (· = newline) = v := by
  have keep : v.dropWhile (· = newline) = v := by
    cases v with
    | nil => rfl
    | cons c v =>
      obtain ⟨d, tail, spelled, other⟩ := message_head m
      rw [spelled, List.cons_append, List.cons_prefix_cons] at begins
      rw [List.dropWhile_cons_of_neg (by simpa [begins.1] using other)]
  rcases start with rfl | rfl
  · exact keep
  · rw [List.singleton_append, List.dropWhile_cons_of_pos (by simp), keep]

end

/- The encoder. -/

namespace Buf

section
variable {buf : Buf} {junk : Nat → UInt8} {need : Nat}

theorem makeRoom_spec (junk : Nat → UInt8) (need turns : Nat) (sound : buf.Sound)
    (some : 0 < buf.capacity)
    (limit : buf.capacity < 2 ^ 61) (small : buf.data + buf.size + need < 2 ^ 60)
    (enough : need < min buf.space need + turns) :
    ∃ buf', makeRoom junk need turns buf = Option.some buf' ∧ buf'.Sound ∧ buf'.valid = buf.valid ∧
      buf'.data = buf.data ∧ buf'.size = buf.size ∧ need ≤ buf'.space ∧ 0 < buf'.capacity ∧
      buf'.capacity < 2 ^ 61 := by
  induction turns generalizing buf with
  | zero => omega
  | succ turns ih =>
    unfold makeRoom
    have room := sound.space
    have inside := sound.inside
    by_cases short : buf.space < need
    · rw [if_pos short]
      have capacity := buf.grow_capacity junk
      obtain ⟨sound', valid⟩ := sound.grow (by omega) junk
      have room' := sound'.space
      have data : (buf.grow junk).data = buf.data := rfl
      have size : (buf.grow junk).size = buf.size := rfl
      obtain ⟨buf', made, facts⟩ := ih sound' (by omega) (by omega) (by omega) (by omega)
      rw [valid, data, size] at facts
      exact ⟨buf', made, facts⟩
    · rw [if_neg short]
      exact ⟨buf, rfl, sound, rfl, rfl, rfl, by omega, some, limit⟩

theorem appendRecord_spec (junk : Nat → UInt8) (str : List UInt8) (sound : buf.Sound)
    (some : 0 < buf.capacity)
    (limit : buf.capacity < 2 ^ 61) (short : str.length < 2 ^ 30) (small : buf.data + buf.size < 2 ^ 59) :
    ∃ buf', buf.appendRecord junk str = Option.some buf' ∧ buf'.Sound ∧
    buf'.valid = buf.valid ++ frame str ∧
      buf'.data = buf.data ∧ buf'.size = buf.size + (frame str).length ∧ 0 < buf'.capacity ∧
      buf'.capacity < 2 ^ 61 := by
  have line : lengthLine (toInt str.length) = spell str.length ++ [newline] := by
    rw [toInt_eq (by omega) (by omega), lengthLine, if_neg (by omega), Int.toNat_natCast]
    rfl
  have digits : (spell str.length).length ≤ 10 := spell_length (by omega) (by decide)
  obtain ⟨buf0, made, sound0, valid0, data0, size0, room0, some0, limit0⟩ :=
    makeRoom_spec junk (16 + 2 * str.length + 1) (16 + 2 * str.length + 1 + 1) sound some limit
    (by omega) (by omega)
  have space0 := sound0.space
  obtain ⟨buf1, run1, sound1, valid1, capacity1, data1, size1⟩ :=
    sound0.append (spell str.length ++ [newline])
    (by simp only [List.length_append, List.length_singleton]; omega)
  have space1 := sound1.space
  rw [List.length_append, List.length_singleton] at size1
  obtain ⟨buf2, run2, sound2, valid2, capacity2, data2, size2⟩ := sound1.append str (by omega)
  have space2 := sound2.space
  obtain ⟨buf3, run3, sound3, valid3, capacity3, data3, size3⟩ := sound2.append [newline]
    (by rw [List.length_singleton]; omega)
  rw [List.length_singleton] at size3
  refine ⟨buf3, ?_, sound3, ?_, by omega, by rw [frame_length]; omega, by omega, by omega⟩
  · unfold appendRecord
    dsimp only
    rw [made, line]
    dsimp only [Option.bind_eq_bind, Option.bind_some]
    rw [run1]
    dsimp only [Option.bind_some]
    rw [run2]
    exact run3
  · rw [valid3, valid2, valid1, valid0, frame]
    simp

end
end Buf
/- Round trips. -/

namespace Buf

/-- A buffer as etdb_connect_init_buf makes it, on a block with anything in it. -/
structure Fresh (buf : Buf) : Prop where
  capacity : buf.capacity = 8192
  data : buf.data = 0
  size : buf.size = 0

def encodeMessage (junk : Nat → UInt8) (buf : Buf) (m : List (List UInt8)) : Option Buf := do
  let buf ← m.foldlM (fun buf str => buf.appendRecord junk str) buf
  buf.appendRecordTail junk

def parse (buf : Buf) : Option Answer := parseReq (buf.mem.drop buf.data) buf.size

/-- Successive calls yield the messages; each consumes what the one before it left of its
    message, and its own up to the last newline. -/
def Decodes : List UInt8 → Buf → List (List (List UInt8)) → Prop
  | _, _, [] => True
  | lead, buf, m :: rest => ∃ records parsed, buf.parse = some (.ready records parsed) ∧
      contents (buf.mem.drop buf.data) records = m ∧ buf.valid.take parsed ++ [newline] = lead ++
      message m ∧ (buf.decr parsed).Decodes [newline] rest

section
variable {buf : Buf} {junk : Nat → UInt8} {m : List (List UInt8)} {lead more : List UInt8}

theorem Fresh.sound (fresh : buf.Fresh) : buf.Sound := by
  have := fresh.capacity
  have := fresh.data
  have := fresh.size
  exact ⟨by omega, by omega⟩

theorem Fresh.valid (fresh : buf.Fresh) : buf.valid = [] := by
  rw [Buf.valid, fresh.size, List.take_zero]

theorem memory (buf : Buf) :
    buf.mem.drop buf.data = buf.valid ++ buf.mem.drop (buf.data + buf.size) := by
  rw [Buf.valid, ← List.drop_drop, List.take_append_drop]

theorem encode_spec (junk : Nat → UInt8) (sound : buf.Sound) (some : 0 < buf.capacity)
    (limit : buf.capacity < 2 ^ 61) (small : buf.data + buf.size + (message m).length < 2 ^ 30) :
    ∃ buf', buf.encodeMessage junk m = Option.some buf' ∧ buf'.valid = buf.valid ++ message m := by
  induction m generalizing buf with
  | nil =>
    obtain ⟨buf', run, _, valid, _⟩ := appendRecord_spec junk [] sound some limit (by decide) (by omega)
    exact ⟨buf', run, valid⟩
  | cons s m ih =>
    rw [message_cons, List.length_append] at small
    have length := frame_length s
    obtain ⟨buf', run, sound', valid, data, size, some', limit'⟩ :=
      appendRecord_spec junk s sound some limit (by omega) (by omega)
    obtain ⟨buf'', run', valid'⟩ := ih sound' some' limit' (by omega)
    refine ⟨buf'', ?_, by rw [valid', valid, message_cons, List.append_assoc]⟩
    unfold encodeMessage at run' ⊢
    rw [List.foldlM_cons, run]
    exact run'

theorem parse_valid (sound : buf.Sound) : buf.parse = parseLoop ((buf.mem.drop buf.data).length + 1)
    (buf.valid.dropWhile (· = newline) ++ buf.mem.drop (buf.data + buf.size))
    (buf.valid.dropWhile (· = newline)).length
    (buf.size - (buf.valid.dropWhile (· = newline)).length) [] := by
  have length := sound.valid_length
  have shorter := (List.dropWhile_sublist (· = newline) (l := buf.valid)).length_le
  have split : buf.valid = buf.valid.takeWhile (· = newline) ++ buf.valid.dropWhile (· = newline) :=
    List.takeWhile_append_dropWhile.symm
  have lead : (buf.valid.takeWhile (· = newline)).length =
    buf.size - (buf.valid.dropWhile (· = newline)).length := by
    have total := congrArg List.length split
    rw [List.length_append] at total
    omega
  have skip := skipNewlines_valid buf.valid (buf.mem.drop (buf.data + buf.size))
  rw [length] at skip
  have rest : (buf.mem.drop buf.data).drop (buf.size - (buf.valid.dropWhile (· = newline)).length) =
      buf.valid.dropWhile (· = newline) ++ buf.mem.drop (buf.data + buf.size) := by
    have whole : buf.valid ++ buf.mem.drop (buf.data + buf.size) = buf.valid.takeWhile (· = newline) ++
        (buf.valid.dropWhile (· = newline) ++ buf.mem.drop (buf.data + buf.size)) := by
      rw [← List.append_assoc, ← split]
    rw [buf.memory, whole]
    exact List.drop_left' lead
  unfold parse parseReq
  rw [buf.memory, skip]
  dsimp only
  rw [← buf.memory, rest]
  congr 1
  omega

theorem parse_whole (sound : buf.Sound) (proper : Proper m) (start : lead = [] ∨ lead = [newline])
    (here : buf.valid = lead ++ message m ++ more) :
    buf.parse = some (.ready (places lead.length m) (lead.length + (frames m).length + 2)) ∧
      contents (buf.mem.drop buf.data) (places lead.length m) = m := by
  have length := sound.valid_length
  have fits := proper.fits
  have bound : buf.size < 2 ^ 64 := by
    have := sound.inside
    have := sound.small
    omega
  have strip : buf.valid.dropWhile (· = newline) = message m ++ more := by
    rw [here, List.append_assoc]
    exact message_strip start List.prefix_rfl
  have total := congrArg List.length here
  have frames := message_length m
  have one : lead.length ≤ 1 := by
    rcases start with rfl | rfl <;> simp
  simp only [List.length_append] at total
  have count : m.length ≤ (EtdbWire.frames m).length := by
    clear * -
    induction m with
    | nil => exact Nat.zero_le _
    | cons s m ih =>
      rw [frames_cons, List.length_append, frame_length, List.length_cons]
      omega
  have memory : buf.size ≤ (buf.mem.drop buf.data).length := by
    rw [buf.memory, List.length_append]
    omega
  constructor
  · rw [parse_valid sound, strip, List.append_assoc,
      parse_message proper.strings (by rw [List.length_append]; omega) (by rw [List.length_append]; omega)
        (by rw [List.length_append]; omega) (by omega)]
    have lead' : buf.size - (message m ++ more).length = lead.length := by
      rw [List.length_append]
      omega
    rw [lead', List.nil_append]
  · refine contents_places _ ([48, newline, newline] ++ (more ++ buf.mem.drop (buf.data + buf.size))) ?_
    rw [buf.memory, here, List.append_assoc, List.append_assoc, List.drop_left,
      message, List.append_assoc]

theorem decodes (messages : List (List (List UInt8))) (proper : ∀ m ∈ messages, Proper m)
    (sound : buf.Sound)
    (start : lead = [] ∨ lead = [newline]) (here : buf.valid = lead ++ messages.flatMap message) :
    buf.Decodes lead messages := by
  induction messages generalizing buf lead with
  | nil => trivial
  | cons m rest ih =>
    rw [List.flatMap_cons, ← List.append_assoc] at here
    obtain ⟨run, strings⟩ := parse_whole sound (proper m List.mem_cons_self) start here
    have split : buf.valid = (lead ++ frames m ++ [48, newline]) ++
      ([newline] ++ rest.flatMap message) := by
      rw [here, message]
      simp
    have parsed : (lead ++ frames m ++ [48, newline]).length = lead.length + (frames m).length + 2 := by
      simp only [List.length_append, List.length_cons, List.length_nil]
    have consumed : lead.length + (frames m).length + 2 ≤ buf.size := by
      have total := congrArg List.length split
      rw [sound.valid_length, List.length_append] at total
      omega
    obtain ⟨sound', valid', _⟩ := sound.decr consumed
    rw [← parsed, split, List.drop_left] at valid'
    refine ⟨_, _, run, strings, ?_, ih (fun m' member => proper m' (List.mem_cons_of_mem m member))
      ?_ (Or.inr rfl) ?_⟩
    · rw [← parsed, split, List.take_left, message]
      simp
    · exact sound'
    · rw [← parsed]
      exact valid'

end
end Buf

/-- What the encoder writes for any messages, put one after the other, is read back as
    these messages, in order and with nothing left but a last newline. -/
theorem wire_round_trip (messages : List (List (List UInt8))) (proper : ∀ m ∈ messages, Proper m)
    (out : Buf) (fresh : out.Fresh) (junk : Nat → UInt8) :
    ∃ bytes, messages.mapM (fun m => (out.encodeMessage junk m).map Buf.valid) = some bytes ∧
      ∀ buf : Buf, buf.Sound → buf.valid = bytes.flatten → buf.Decodes [] messages := by
  refine ⟨messages.map message, ?_, fun buf sound valid => ?_⟩
  · have each : ∀ m ∈ messages, (out.encodeMessage junk m).map Buf.valid = some (message m) := by
      intro m member
      have := fresh.capacity
      have := fresh.data
      have := fresh.size
      have fits := (proper m member).fits
      have packet : maxPacketSize = 2 ^ 25 := rfl
      obtain ⟨out', run, valid⟩ := Buf.encode_spec (m := m) junk fresh.sound (by omega) (by omega)
        (by omega)
      rw [run, Option.map_some, valid, fresh.valid, List.nil_append]
    clear proper
    induction messages with
    | nil => rfl
    | cons m rest ih =>
      rw [List.mapM_cons, each m List.mem_cons_self, ih fun m' member =>
        each m' (List.mem_cons_of_mem m member)]
      rfl
  · exact Buf.decodes messages proper sound (Or.inl rfl)
      (by rw [valid, List.flatMap_def, List.nil_append])

/-- Two messages; the strings of the first look like records themselves. -/
theorem wire_round_trip_once : ∃ bytes, [[[48, 10], [49, 10, 48, 10, 10]], [[103]]].mapM
      (fun m => ((Buf.mk (List.replicate 8192 0) 0 0).encodeMessage (fun _ => 0) m).map Buf.valid) =
      some bytes ∧
    ∀ buf : Buf, buf.Sound → buf.valid = bytes.flatten →
      buf.Decodes [] [[[48, 10], [49, 10, 48, 10, 10]], [[103]]] :=
  wire_round_trip _ (by
    intro m member
    have cases : m = [[48, 10], [49, 10, 48, 10, 10]] ∨ m = [[103]] := by simpa using member
    rcases cases with rfl | rfl <;> exact ⟨by simp, by simp, by decide +kernel⟩)
    ⟨List.replicate 8192 0, 0, 0⟩ ⟨List.length_replicate, rfl, rfl⟩ (fun _ => 0)

end EtdbWire
