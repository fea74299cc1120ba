import Etdb.Wire.Bounds

/- Requests that arrive in pieces. A stream of messages is read in any pieces, with the
   compaction and growth of the buffer, and the parser is called at any time. When what
   lies behind the valid bytes does not look like the end of a record, every message is
   handed out once, in order, as soon as it is there. -/
namespace EtdbWire
open DecimalText

inductive Received where
  | request (strs : List (List UInt8))
  | incomplete
  | failed

/-- A request is given up for a negative value behind it. -/
def Received.behind (left : Int) : Received → Received
  | .request strs => if left < 0 then .failed else .request strs
  | received => received

namespace Buf

/-- The room that etdb_resp_recv_req makes in a full buffer without a request. -/
def spare (buf : Buf) (junk : Nat → UInt8) : Option Buf :=
  if buf.space = 0 then do
    let buf ← buf.nice
    some (if buf.space = 0 then buf.grow junk else buf)
  else some buf

/-- etdb_resp_recv_req. Behind a request it falls off its end, and what it returns is
    anything. -/
def recvReq (buf : Buf) (junk : Nat → UInt8) : Option (Received × Buf) :=
  match buf.parse with
  | none => none
  | some .refused => some (.failed, buf)
  | some .notReady => (buf.spare junk).map fun buf => (.incomplete, buf)
  | some (.ready records parsed) =>
    if records = [] then ((buf.decr parsed).spare junk).map fun buf => (.incomplete, buf)
    else some (.request (contents (buf.mem.drop buf.data) records), buf.decr parsed)

/-- etdb_connect_recv, where `left` is what etdb_resp_recv_req returns behind a request. -/
def connectRecv (buf : Buf) (junk : Nat → UInt8) (left : Int) : Option (Received × Buf) :=
  if buf.size = 0 then some (.incomplete, buf)
  else (buf.recvReq junk).map fun (received, buf) => (received.behind left, buf)

def want (buf : Buf) : Int := toInt buf.space

/-- Each length line that the parser comes to is closed, or the byte behind the body that
    it declares is in the block and is not a newline. -/
def Harmless (buf : Buf) : Prop :=
  ∀ r, Relation.ReflTransGen (Follows buf.size) (buf.valid.dropWhile (· = newline)) r → Closed r ∨
    ∃ headLen bodyLen c, readHeader r r.length = some (.line headLen bodyLen) ∧
      (r ++ buf.mem.drop (buf.data + buf.size))[headLen + bodyLen]? = some c ∧ c ≠ newline

def spares (stale rest : List UInt8) : Bool :=
  closes rest ||
    match readHeader rest rest.length with
    | some (.line headLen bodyLen) => (rest ++ stale)[headLen + bodyLen]?.any (· != newline)
    | _ => false

end Buf

/-- The buffer, the bytes that have not arrived, and the requests handed out. -/
structure Reader where
  buf : Buf
  unread : List UInt8
  got : List (List (List UInt8))
  deriving DecidableEq

inductive Move where
  | read (len : Nat)
  | recv (junk : Nat → UInt8)

namespace Reader

/-- A read appends as many bytes as have arrived and fit. -/
def step (r : Reader) : Move → Option Reader
  | .read len => do
    let buf ← r.buf.nice
    let bytes := r.unread.take (min len buf.want.toNat)
    let buf ← buf.append bytes
    some { r with buf := buf, unread := r.unread.drop bytes.length }
  | .recv junk => do
    let (received, buf) ← r.buf.recvReq junk
    match received with
    | .request strs => some { r with buf := buf, got := r.got ++ [strs] }
    | .incomplete => some { r with buf := buf }
    | .failed => none

def Whole (messages : List (List (List UInt8))) (r : Reader) : Prop :=
  ∃ m lead, (lead = [] ∨ lead = [newline]) ∧ r.got ++ [m] <+: messages ∧ lead ++ message m <+: r.buf.valid

def Ordered (messages : List (List (List UInt8))) (r : Reader) : Prop :=
  ∃ rest lead, messages = r.got ++ rest ∧ (lead = [] ∨ lead = [newline]) ∧
    r.buf.valid ++ r.unread = lead ++ rest.flatMap message

/-- Every call of the parser hands out the next message when it is there, and leaves the
    valid bytes alone when it is not. -/
def Serves (messages : List (List (List UInt8))) : Reader → List Move → Prop
  | r, [] => r.Ordered messages
  | r, .read len :: rest => ∃ r', r.step (.read len) = some r' ∧ r'.Serves messages rest
  | r, .recv junk :: rest => ∃ r', r.step (.recv junk) = some r' ∧
      (r.Whole messages ∧ (∃ m, r'.got = r.got ++ [m]) ∧ r'.got <+: messages ∨
        ¬ r.Whole messages ∧ r.buf.parse = some .notReady ∧ r'.got = r.got ∧ r'.buf.valid = r.buf.valid) ∧
      r'.Serves messages rest

def HarmlessRun : Reader → List Move → Prop
  | _, [] => True
  | r, move :: rest => (∀ junk, move = .recv junk → r.buf.Harmless) ∧
      ∀ r', r.step move = some r' → r'.HarmlessRun rest

end Reader

section
variable {v stale later s lead : List UInt8} {m : List (List UInt8)} {total parsed turns : Nat}
    {recv : List (Nat × Nat)}
variable {messages : List (List (List UInt8))} {buf : Buf} {junk : Nat → UInt8} {r : Reader}

theorem Received.behind_request {strs strs' : List (List UInt8)} {left : Int}
    (handed : (Received.request strs).behind left = .request strs') : strs = strs' := by
  dsimp only [Received.behind] at handed
  by_cases negative : left < 0
  · rw [if_pos negative] at handed
    cases handed
  · rw [if_neg negative] at handed
    exact Received.request.inj handed

theorem Received.behind_kept {left : Int} (kept : 0 ≤ left) (received : Received) :
    received.behind left = received := by
  cases received with
  | request strs => exact if_neg (not_lt.mpr kept)
  | incomplete => rfl
  | failed => rfl

theorem parse_short (small : s.length < 2 ^ 30) (start : v <+: frame s)
    (short : v.length < (frame s).length)
    (harmless : Closed v ∨ ∃ headLen bodyLen c, readHeader v v.length = some (.line headLen bodyLen) ∧
      (v ++ stale)[headLen + bodyLen]? = some c ∧ c ≠ newline) (turns parsed : Nat)
      (recv : List (Nat × Nat)) :
    parseLoop (turns + 1) (v ++ stale) v.length parsed recv = some .notReady := by
  have length := frame_length s
  by_cases closed : Closed v
  · unfold parseLoop
    by_cases empty : v.length = 0
    · rw [if_pos empty]
    · rw [if_neg empty]
      by_cases line : v.length ≤ (spell s.length).length
      · -- the length line itself is cut
        have digits : v <+: spell s.length := List.prefix_of_prefix_length_le start ⟨_, rfl⟩ line
        have none : newline ∉ v := fun member => newline_not_in_spell s.length (digits.subset member)
        have header : readHeader (v ++ stale) v.length = some .missing := by
          rw [readHeader, memchr_missing none]
        rw [header]
      · -- a closed line has its body, and only the last newline is missing
        have text : v = spell s.length ++ newline :: s.take
          (v.length - ((spell s.length).length + 1)) := by
          have whole : frame s = (spell s.length ++ newline :: s.take
            (v.length - ((spell s.length).length + 1))) ++
              (s.drop (v.length - ((spell s.length).length + 1)) ++ [newline]) := by
            rw [frame, List.append_assoc, List.cons_append, ← List.append_assoc (s.take _),
              List.take_append_drop]
          refine (List.prefix_of_prefix_length_le start ⟨_, whole.symm⟩ ?_).eq_of_length ?_
          · simp only [List.length_append, List.length_cons, List.length_take]
            omega
          · simp only [List.length_append, List.length_cons, List.length_take]
            omega
        have header : readHeader v v.length = some (.line ((spell s.length).length + 1) s.length) := by
          have shorter : (spell s.length).length < v.length := by omega
          have line := readHeader_spell small (s.take (v.length - ((spell s.length).length + 1))) shorter
          rwa [← text] at line
        rw [Closed, header] at closed
        obtain ⟨body, whole⟩ := closed
        have left : sizeT ((v.length : Int) - ((spell s.length).length + 1 + s.length : Nat)) = 0 := by
          unfold sizeT
          omega
        have inside : (spell s.length).length + 1 < (v ++ stale).length := by
          rw [List.length_append]
          omega
        rw [readHeader_extend header stale]
        dsimp only
        rw [List.getElem?_eq_getElem inside, left]
        dsimp only
        rw [if_neg (by omega), if_pos rfl]
  · obtain ⟨headLen, bodyLen, c, line, behind, other⟩ := harmless.resolve_left closed
    have digits10 : (spell s.length).length ≤ 10 := spell_length (by omega) (by decide)
    exact parse_open line closed behind other (by omega) turns parsed recv

theorem follows_frame (filled : s ≠ []) (small : s.length < 2 ^ 30) (v : List UInt8)
    (packet : total - v.length ≤ maxPacketSize) : Follows total (frame s ++ v) v := by
  have length := frame_length s
  have text : frame s ++ v = spell s.length ++ newline :: (s ++ newline :: v) := by simp [frame]
  refine ⟨(spell s.length).length + 1, s.length, ?_, ?_, ?_, packet⟩
  · rw [text]
    exact readHeader_spell small _ (by simp)
  · exact fun h => filled (List.length_eq_zero_iff.mp h.2)
  · have split : frame s ++ v = (spell s.length ++ newline :: s) ++ newline :: v := by simp [frame]
    rw [split]
    exact List.drop_left' (by simp only [List.length_append, List.length_cons]; omega)

theorem parse_partial (strings : ∀ s ∈ m, s ≠ []) (fits : parsed + (frames m).length ≤ maxPacketSize)
    (start : v <+: message m ++ later) (short : v.length < (message m).length)
    (count : parsed + v.length = total) (bound : total < 2 ^ 64)
    (harmless : ∀ r, Relation.ReflTransGen (Follows total) v r → Closed r ∨ ∃ headLen bodyLen c,
      readHeader r r.length = some (.line headLen bodyLen) ∧
      (r ++ stale)[headLen + bodyLen]? = some c ∧ c ≠ newline)
    (enough : v.length < turns) (recv : List (Nat × Nat)) :
    parseLoop turns (v ++ stale) v.length parsed recv = some .notReady := by
  obtain ⟨turns, rfl⟩ : ∃ t, turns = t + 1 := ⟨turns - 1, by omega⟩
  induction m generalizing v parsed turns recv with
  | nil =>
    have start : v <+: frame [] := List.prefix_of_prefix_length_le start ⟨later, rfl⟩ (le_of_lt short)
    exact parse_short (by decide) start short (harmless v .refl) turns parsed recv
  | cons s m ih =>
    have packet : maxPacketSize = 2 ^ 25 := rfl
    have length := frame_length s
    rw [frames_cons, List.length_append] at fits
    rw [message_cons, List.append_assoc] at start
    rw [message_cons, List.length_append] at short
    by_cases whole : (frame s).length ≤ v.length
    · obtain ⟨v, rfl⟩ := List.prefix_of_prefix_length_le ⟨_, rfl⟩ start whole
      have start' : v <+: message m ++ later := (List.prefix_append_right_inj _).mp start
      rw [List.length_append] at short count
      obtain ⟨turns, rfl⟩ : ∃ t, turns = t + 1 := ⟨turns - 1, by rw [List.length_append] at enough; omega⟩
      have follows : Follows total (frame s ++ v) v :=
        follows_frame (strings s List.mem_cons_self) (by omega) v (by omega)
      rw [List.append_assoc, parse_frame (strings s List.mem_cons_self) (by omega)
        (by simp) (by simp; omega), if_neg (by omega), List.length_append, Nat.add_sub_cancel_left]
      exact ih (fun t member => strings t (List.mem_cons_of_mem s member)) (by omega) start'
        (by omega) (by omega)
        (fun r reached => harmless r (.head follows reached)) _ _
        (by rw [List.length_append] at enough; omega)
    · exact parse_short (by omega) (List.prefix_of_prefix_length_le start ⟨_, rfl⟩ (by omega)) (by omega)
        (harmless v .refl) _ parsed recv

/-- What the block holds in between, and how the rest of the stream lies behind. -/
structure Reader.Keeps (messages : List (List (List UInt8))) (r : Reader) : Prop where
  sound : r.buf.Sound
  positive : 0 < r.buf.capacity
  small : r.buf.capacity ≤ 2 ^ 28
  ordered : r.Ordered messages

theorem Buf.spare_room (junk : Nat → UInt8) (sound : buf.Sound) (some : 0 < buf.capacity)
    (small : 2 * buf.capacity < 2 ^ 63) : ∃ buf', buf.spare junk = Option.some buf' ∧
      buf'.Sound ∧ buf'.valid = buf.valid ∧ 0 < buf'.space ∧
      (buf'.capacity = buf.capacity ∧ buf.space ≤ buf'.space ∨
        buf'.capacity = 2 * buf.capacity ∧ buf.space = 0 ∧ buf'.space = buf.capacity ∧
        buf.capacity ≤ 2 * buf.size) := by
  unfold Buf.spare
  by_cases full : buf.space = 0
  · rw [if_pos full]
    obtain ⟨buf', run, sound', valid, capacity, size, data⟩ := sound.nice
    rw [run]
    have room := sound'.space
    have inside := sound'.inside
    dsimp only [Option.bind_eq_bind, Option.bind_some]
    by_cases full' : buf'.space = 0
    · rw [if_pos full']
      have double := buf'.grow_capacity junk
      obtain ⟨sound'', valid'⟩ := sound'.grow (by omega) junk
      have data' : (buf'.grow junk).data = buf'.data := rfl
      have size' : (buf'.grow junk).size = buf'.size := rfl
      have room' := sound''.space
      exact ⟨_, rfl, sound'', by rw [valid', valid], by omega, Or.inr ⟨by omega, full, by omega, by omega⟩⟩
    · rw [if_neg full']
      exact ⟨buf', rfl, sound', valid, by omega, Or.inl ⟨capacity, by omega⟩⟩
  · rw [if_neg full]
    exact ⟨buf, rfl, sound, rfl, by omega, Or.inl ⟨rfl, le_rfl⟩⟩

theorem Buf.spare_small (junk : Nat → UInt8) (sound : buf.Sound) (some : 0 < buf.capacity)
    (small : buf.capacity ≤ 2 ^ 28) (fits : buf.size ≤ 2 ^ 26) : ∃ buf',
    buf.spare junk = Option.some buf' ∧
      buf'.Sound ∧ buf'.valid = buf.valid ∧ 0 < buf'.capacity ∧ buf'.capacity ≤ 2 ^ 28 := by
  obtain ⟨buf', run, sound', valid, room, grown⟩ := buf.spare_room junk sound some (by omega)
  exact ⟨buf', run, sound', valid, by omega, by omega⟩

theorem Reader.Keeps.afterRead (keeps : r.Keeps messages) (len : Nat) :
    ∃ r', r.step (.read len) = some r' ∧ r'.Keeps messages ∧ r'.got = r.got := by
  obtain ⟨sound, positive, small, rest, lead, whole, start, here⟩ := keeps
  obtain ⟨buf1, run1, sound1, valid1, capacity1, size1, data1⟩ := sound.nice
  have room := sound1.space
  have want : buf1.want = buf1.space := Buf.toInt_eq (by omega) (by omega)
  have fits : (r.unread.take (min len buf1.want.toNat)).length ≤ buf1.space := by
    rw [List.length_take, want]
    omega
  obtain ⟨buf2, run2, sound2, valid2, capacity2, data2, size2⟩ := sound1.append _ fits
  refine ⟨⟨buf2, r.unread.drop (r.unread.take (min len buf1.want.toNat)).length, r.got⟩, ?_,
    ⟨sound2, ?_, ?_, rest, lead, whole, start, ?_⟩, rfl⟩
  · unfold Reader.step
    dsimp only [Option.bind_eq_bind]
    rw [run1, Option.bind_some, run2]
    rfl
  · change 0 < buf2.capacity
    omega
  · change buf2.capacity ≤ _
    omega
  · change buf2.valid ++ _ = _
    have taken := List.prefix_append_drop (List.take_prefix (min len buf1.want.toNat) r.unread)
    rw [valid2, valid1, List.append_assoc, ← taken, here]

theorem Reader.Keeps.quiet (keeps : r.Keeps messages) (proper : ∀ m ∈ messages, Proper m)
    (harmless : r.buf.Harmless) (missing : ¬ r.Whole messages) :
    r.buf.parse = some .notReady ∧ r.buf.size ≤ 2 ^ 26 := by
  obtain ⟨sound, positive, small, rest, lead, split, start, here⟩ := keeps
  have packet : maxPacketSize = 2 ^ 25 := rfl
  have length := sound.valid_length
  have memory : (r.buf.mem.drop r.buf.data).length =
    r.buf.size + (r.buf.mem.drop (r.buf.data + r.buf.size)).length := by
    rw [r.buf.memory, List.length_append, length]
  have one : lead.length ≤ 1 := by
    rcases start with rfl | rfl <;> simp
  have begins : r.buf.valid <+: lead ++ rest.flatMap message := ⟨r.unread, here⟩
  rw [Buf.parse_valid sound]
  by_cases early : r.buf.valid.length < lead.length
  · -- not even the newline of the message before
    have nil : r.buf.valid = [] := List.length_eq_zero_iff.mp (by omega)
    rw [nil]
    exact ⟨rfl, by rw [nil, List.length_nil] at length; omega⟩
  · obtain ⟨v, valid⟩ := List.prefix_of_prefix_length_le ⟨_, rfl⟩ begins (not_lt.mp early)
    rw [← valid, List.prefix_append_right_inj] at begins
    have total := congrArg List.length valid
    rw [List.length_append, length] at total
    cases rest with
    | nil =>
      obtain rfl := List.prefix_nil.mp begins
      have strip : r.buf.valid.dropWhile (· = newline) = [] := by
        rw [← valid, List.append_nil]
        rcases start with rfl | rfl <;> rfl
      rw [strip]
      exact ⟨rfl, by rw [List.length_nil] at total; omega⟩
    | cons m rest =>
      have fits := (proper m (by rw [split]; simp)).fits
      have frames := message_length m
      rw [List.flatMap_cons] at begins
      have strip : r.buf.valid.dropWhile (· = newline) = v := by
        rw [← valid]
        exact message_strip start begins
      have short : v.length < (message m).length := by
        by_contra long
        refine missing ⟨m, lead, start, ⟨rest, by rw [split, List.append_assoc]; rfl⟩, ?_⟩
        rw [← valid, List.prefix_append_right_inj]
        exact List.prefix_of_prefix_length_le ⟨_, rfl⟩ begins (not_lt.mp long)
      unfold Buf.Harmless at harmless
      rw [strip] at harmless ⊢
      refine ⟨?_, by omega⟩
      exact parse_partial (proper m (by rw [split]; simp)).strings (by omega) begins short
        (show r.buf.size - v.length + v.length = r.buf.size by omega) (by omega) harmless (by omega) []

theorem Reader.Keeps.afterRecv (keeps : r.Keeps messages) (proper : ∀ m ∈ messages, Proper m)
    (harmless : r.buf.Harmless) (junk : Nat → UInt8) : ∃ r', r.step (.recv junk) = some r' ∧
    r'.Keeps messages ∧
      (r.Whole messages ∧ (∃ m, r'.got = r.got ++ [m]) ∧ r'.got <+: messages ∨
        ¬ r.Whole messages ∧ r.buf.parse = some .notReady ∧ r'.got = r.got ∧
        r'.buf.valid = r.buf.valid) := by
  have packet : maxPacketSize = 2 ^ 25 := rfl
  by_cases whole : r.Whole messages
  · obtain ⟨sound, positive, small, rest, lead, split, start, here⟩ := keeps
    have found := whole
    obtain ⟨m, lead', start', next, more, valid⟩ := found
    obtain ⟨rest, rfl⟩ : ∃ rest', rest = m :: rest' := by
      obtain ⟨rest', tail⟩ := next
      rw [split, List.append_assoc, List.append_cancel_left_eq] at tail
      exact ⟨rest', tail.symm⟩
    have behind : more ++ r.unread = rest.flatMap message ∧ lead' = lead := by
      have both : lead' ++ (message m ++ (more ++ r.unread)) = lead ++
        (message m ++ rest.flatMap message) := by
        rw [List.flatMap_cons, ← valid] at here
        simpa using here
      have strip := congrArg (List.dropWhile (· = newline)) both
      rw [message_strip start' List.prefix_rfl, message_strip start List.prefix_rfl] at strip
      rw [strip] at both
      exact ⟨List.append_cancel_left strip, List.append_cancel_right both⟩
    obtain ⟨behind, rfl⟩ := behind
    have propers := proper m (by rw [split]; simp)
    obtain ⟨run, strings⟩ := Buf.parse_whole sound propers start valid.symm
    have cut : r.buf.valid = (lead' ++ frames m ++ [48, newline]) ++ ([newline] ++ more) := by
      rw [← valid, message]
      simp
    have parsed : (lead' ++ frames m ++ [48, newline]).length = lead'.length + (frames m).length + 2 := by
      simp only [List.length_append, List.length_cons, List.length_nil]
    have consumed : lead'.length + (frames m).length + 2 ≤ r.buf.size := by
      have total := congrArg List.length cut
      rw [sound.valid_length, List.length_append] at total
      omega
    obtain ⟨sound', valid', _⟩ := sound.decr consumed
    rw [← parsed, cut, List.drop_left, parsed] at valid'
    refine ⟨⟨r.buf.decr (lead'.length + (frames m).length + 2), r.unread, r.got ++ [m]⟩, ?_,
      ⟨sound', positive, small, rest, [newline], ?_, Or.inr rfl, ?_⟩, Or.inl ⟨whole, ⟨m, rfl⟩, next⟩⟩
    · have filled : places lead'.length m ≠ [] := by
        obtain ⟨s, tail, rfl⟩ := List.exists_cons_of_ne_nil propers.some
        exact List.cons_ne_nil _ _
      rw [Reader.step, Buf.recvReq, run]
      dsimp only
      rw [if_neg filled, strings]
      rfl
    · rw [split, List.append_assoc]
      rfl
    · dsimp only
      rw [valid', List.append_assoc, behind]
  · obtain ⟨quiet, fits⟩ := keeps.quiet proper harmless whole
    obtain ⟨sound, positive, small, ordered⟩ := keeps
    obtain ⟨buf, run, sound', valid, positive', small'⟩ :=
      Buf.spare_small junk sound positive small fits
    obtain ⟨rest, lead, split, start, here⟩ := ordered
    refine ⟨{ r with buf := buf }, ?_,
      ⟨sound', positive', small', rest, lead, split, start, by rw [valid, here]⟩,
      Or.inr ⟨whole, quiet, rfl, valid⟩⟩
    rw [Reader.step, Buf.recvReq, quiet]
    dsimp only
    rw [run]
    rfl

theorem Buf.spares_iff {stale rest : List UInt8} : Buf.spares stale rest = true ↔
    Closed rest ∨ ∃ headLen bodyLen c, readHeader rest rest.length = some (.line headLen bodyLen) ∧
      (rest ++ stale)[headLen + bodyLen]? = some c ∧ c ≠ newline := by
  rw [Buf.spares, Bool.or_eq_true, closes_iff]
  refine or_congr_right ?_
  cases readHeader rest rest.length with
  | none => simp
  | some header =>
    cases header with
    | missing => simp
    | refused => simp
    | line headLen bodyLen => simp [Option.any_eq_true]

instance : Decidable buf.Harmless :=
  decidable_of_iff (everywhere (Buf.spares (buf.mem.drop (buf.data + buf.size))) buf.size
      ((buf.valid.dropWhile (· = newline)).length + 1) (buf.valid.dropWhile (· = newline)) = true) <| by
    rw [everywhere_iff (Nat.lt_succ_self _)]
    exact forall₂_congr fun _ _ => Buf.spares_iff

instance Reader.decideHarmless : (r : Reader) → (moves : List Move) → Decidable (r.HarmlessRun moves)
  | _, [] => .isTrue trivial
  | r, move :: rest =>
    have here : Decidable (∀ junk, move = .recv junk → r.buf.Harmless) :=
      match move with
      | .read _ => .isTrue fun _ other => Move.noConfusion other
      | .recv junk => decidable_of_iff r.buf.Harmless ⟨fun harmless _ _ => harmless, fun all => all junk rfl⟩
    have (r' : Reader) : Decidable (r'.HarmlessRun rest) := decideHarmless r' rest
    have later : Decidable (∀ r' ∈ r.step move, r'.HarmlessRun rest) := inferInstance
    have later : Decidable (∀ r', r.step move = some r' → r'.HarmlessRun rest) := later
    @instDecidableAnd _ _ here later

theorem Reader.Keeps.serves (keeps : r.Keeps messages) (proper : ∀ m ∈ messages, Proper m)
    (moves : List Move) (harmless : r.HarmlessRun moves) : r.Serves messages moves := by
  induction moves generalizing r with
  | nil => exact keeps.ordered
  | cons move rest ih =>
    obtain ⟨here, later⟩ := harmless
    cases move with
    | read len =>
      obtain ⟨r', step, keeps', _⟩ := keeps.afterRead len
      exact ⟨r', step, ih keeps' (later r' step)⟩
    | recv junk =>
      obtain ⟨r', step, keeps', answers⟩ := keeps.afterRecv proper (here junk rfl) junk
      exact ⟨r', step, answers, ih keeps' (later r' step)⟩

/-- However a stream of messages is cut and whenever the parser is called: as long as the
    calls find harmless bytes behind the valid ones, each hands out the next message if
    it is there and leaves the buffer as it is if not, and none is lost. -/
theorem stream_served (messages : List (List (List UInt8))) (proper : ∀ m ∈ messages, Proper m)
    (buf : Buf)
    (fresh : buf.Fresh) (moves : List Move)
    (harmless : (Reader.mk buf (messages.flatMap message) []).HarmlessRun moves) :
    (Reader.mk buf (messages.flatMap message) []).Serves messages moves := by
  have := fresh.capacity
  have keeps : (Reader.mk buf (messages.flatMap message) []).Keeps messages := by
    refine ⟨fresh.sound, ?_, ?_, messages, [], rfl, Or.inl rfl, ?_⟩
    · change 0 < buf.capacity
      omega
    · change buf.capacity ≤ _
      omega
    · rw [fresh.valid]
  exact keeps.serves proper moves harmless

theorem Buf.Fresh.space (fresh : buf.Fresh) : buf.space = 8192 := by
  have := fresh.capacity
  have := fresh.data
  have := fresh.size
  rw [fresh.sound.space]
  omega

theorem Buf.Fresh.nice (fresh : buf.Fresh) : buf.nice = some buf := if_neg (by rw [fresh.data]; omega)

theorem Buf.Fresh.append (fresh : buf.Fresh) {bytes : List UInt8} (fits : bytes.length ≤ 8192) :
    buf.append bytes = some ⟨bytes ++ buf.mem.drop bytes.length, 0, bytes.length⟩ := by
  have capacity := fresh.capacity
  have data := fresh.data
  have size := fresh.size
  have slot : buf.slot = 0 := by
    rw [fresh.sound.slot]
    omega
  have count : sizeT ((buf.size : Int) + bytes.length) = bytes.length := by
    unfold sizeT
    omega
  rw [Buf.append, if_pos (by omega), slot, count, data]
  simp

theorem first_read (fresh : buf.Fresh) (stream : List UInt8) (len : Nat)
    (fits : (stream.take len).length ≤ 8192) :
    (Reader.mk buf stream []).step
    (.read len) = some ⟨⟨stream.take len ++ buf.mem.drop (stream.take len).length, 0,
      (stream.take len).length⟩, stream.drop (stream.take len).length, []⟩ := by
  have want : buf.want = 8192 := by rw [Buf.want, fresh.space, Buf.toInt_eq (by decide) (by decide)]; rfl
  have bytes : stream.take (min len buf.want.toNat) = stream.take len := by
    rw [want, show Int.toNat 8192 = 8192 from rfl]
    rw [List.length_take] at fits
    by_cases small : len ≤ 8192
    · rw [Nat.min_eq_left small]
    · rw [Nat.min_eq_right (by omega), List.take_of_length_le (by omega),
        List.take_of_length_le (by omega)]
  unfold Reader.step
  dsimp only [Option.bind_eq_bind]
  rw [fresh.nice, Option.bind_some, bytes, fresh.append fits, Option.bind_some]

def blank : Buf := ⟨List.replicate 8192 0, 0, 0⟩

theorem blank_fresh : blank.Fresh := ⟨List.length_replicate, rfl, rfl⟩

/-- Two messages, one cut in its only record and the other in its body: the calls behind the
    cuts wait, the others hand out "ab" and "c". -/
theorem stream_served_once : (Reader.mk blank (List.flatMap message [[[97, 98]], [[99]]]) []).Serves
    [[[97, 98]], [[99]]] [.read 3, .recv fun _ => 0, .read 8, .recv fun _ => 0, .recv fun _ => 0,
      .read 9, .recv fun _ => 0] := by
  refine stream_served [[[97, 98]], [[99]]] ?_ blank blank_fresh [.read 3, .recv fun _ => 0, .read 8,
    .recv fun _ => 0, .recv fun _ => 0, .read 9, .recv fun _ => 0] (by decide +kernel)
  intro m member
  simp only [List.mem_cons, List.not_mem_nil, or_false] at member
  rcases member with rfl | rfl
  · exact ⟨by simp, by simp, by decide +kernel⟩
  · exact ⟨by simp, by simp, by decide +kernel⟩

/-- A block that still holds the end of some other request. -/
def leftover : Buf := ⟨[0, 0, 120, 120, 120, 10, 48, 10, 10] ++ List.replicate 8183 0, 0, 0⟩

theorem leftover_fresh : leftover.Fresh :=
    ⟨by rw [leftover, Buf.capacity, List.length_append, List.length_replicate]; rfl, rfl, rfl⟩

theorem stale_bytes_invent : leftover.Fresh ∧
    ¬ (Reader.mk leftover (List.flatMap message [[[97, 98, 99]]]) []).Serves
    [[[97, 98, 99]]] [.read 2, .recv fun _ => 0] := by
  refine ⟨leftover_fresh, ?_⟩
  rintro ⟨r, step, r', step', _, rest, lead, split, _⟩
  rw [first_read leftover_fresh _ 2 (by decide +kernel)] at step
  obtain rfl := Option.some.inj step
  have got : (some r').map Reader.got = some [[[120, 120, 120]]] := by
    rw [← step']
    decide +kernel
  rw [Option.map_some, Option.some.injEq] at got
  rw [got] at split
  cases split

end
end EtdbWire
