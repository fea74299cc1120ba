import Etdb.Wire.Stream

/- The loop of etdb_server.c on one non-blocking connection: the events that are waited
   for, the reads and writes they lead to, and the requests that are served behind them.
   The interest in reading is never dropped, so a readable event may come while requests
   wait in the buffer. A live connection is not closed as long as no such event finds a
   buffer that the last read has filled and that is not half consumed. -/
namespace EtdbWire

/-- What one call of read returns; no bytes are the end of the stream. -/
inductive Got where
  | bytes (bytes : List UInt8)
  | interrupted
  | failed
  deriving DecidableEq

inductive Sent where
  | bytes (len : Nat)
  | interrupted
  | failed
  deriving DecidableEq

namespace Buf

/-- The loop of etdb_connect_read_to_buf between two calls of read: it goes on with the
    bytes read so far, or it has ended with what is returned. -/
inductive Turned where
  | again (buf : Buf) (ret : Int)
  | done (buf : Buf) (len : Int)

def readOnce (buf : Buf) (ret : Int) (got : Got) : Option Turned :=
  if 0 < buf.want then
    match got with
    | .interrupted => some (.again buf ret)
    | .failed => some (.done buf (-1))
    | .bytes bytes =>
      let bytes := bytes.take buf.want.toNat
      if bytes = [] then some (.done buf 0)
      else (buf.append bytes).map fun buf => .again buf (toInt (ret + bytes.length))
  else some (.done buf ret)

def Turned.next : Turned → Got → Option Turned
  | .again buf ret, got => buf.readOnce ret got
  | .done buf len, _ => some (.done buf len)

def Turned.result : Turned → Int × Buf
  | .again buf ret => (ret, buf)
  | .done buf len => (len, buf)

/-- etdb_connect_read_to_buf. When the answers are used up, the next read would block. -/
def readToBuf (buf : Buf) (answers : List Got) : Option (Int × Buf) := do
  let buf ← buf.nice
  let turned ← answers.foldlM Turned.next (.again buf 0)
  some turned.result

def command (buf : Buf) : Nat × Nat :=
  match buf.parse with
  | some (.ready (r :: _) _) => (buf.data + r.1, r.2)
  | _ => (0, 0)

def requested (buf : Buf) : Bool :=
  match buf.parse with
  | some (.ready records _) => !records.isEmpty
  | _ => false

def lower (c : UInt8) : UInt8 := if 65 ≤ c ∧ c ≤ 90 then c + 32 else c

def tolower (buf : Buf) (place : Nat × Nat) : Buf :=
  { buf with mem := buf.mem.take place.1 ++ ((buf.mem.drop place.1).take place.2).map lower ++
      (buf.mem.drop place.1).drop place.2 }

end Buf

/-- The loop of etdb_connect_write, on the number of bytes in buf_out. -/
def writeLoop : List Sent → Nat → Int → Int × Nat
  | [], size, ret => (ret, size)
  | sent :: rest, size, ret =>
    if 0 < toInt size then
      match sent with
      | .interrupted => writeLoop rest size ret
      | .failed => (-1, size)
      | .bytes len =>
        let len := min len (toInt size).toNat
        if len = 0 then (ret, size) else writeLoop rest (size - len) (toInt (ret + len))
    else (ret, size)

/-- etdb_connection_t with the flags of its event; of buf_out only the size is kept. -/
structure Conn where
  bufIn : Buf
  outSize : Nat
  flagIn : Bool
  flagOut : Bool
  closed : Bool

inductive Event where
  | readable (answers : List Got)
  | writable (answers : List Sent)
  | error

/-- What a turn of the loop takes from outside: the new half of a block that grows, the
    value that etdb_resp_recv_req leaves behind a request, and the number of bytes that the
    reply puts into buf_out. -/
structure Turn where
  junk : Nat → UInt8
  left : Int
  reply : Nat

namespace Conn

/-- The first loop of etdb_master_cycle, and whether the connection is put on the ready
    list. Events that are not waited for do not come. -/
def handle (conn : Conn) : Event → Option (Conn × Bool)
  | .error => some ({ conn with closed := true }, false)
  | .readable answers =>
    if conn.closed ∨ ¬ conn.flagIn then some (conn, false)
    else
      match conn.bufIn.readToBuf answers with
      | none => none
      | some (len, buf) =>
        if len ≤ 0 then some ({ conn with bufIn := buf, closed := true }, false)
        else some ({ conn with bufIn := buf }, true)
  | .writable answers =>
    if conn.closed ∨ ¬ conn.flagOut then some (conn, false)
    else
      match writeLoop answers conn.outSize 0 with
      | (len, size) =>
        if len ≤ 0 then some ({ conn with outSize := size, closed := true }, false)
        else if size = 0 then
          if conn.bufIn.size ≠ 0 then some ({ conn with outSize := size, flagOut := false }, true)
          else some ({ conn with outSize := size, flagOut := false, flagIn := true }, false)
        else some ({ conn with outSize := size }, false)

/-- The post process of etdb_master_cycle with etdb_serv_exec_proc. etdb_event_mgr_set adds
    its flag to those that are set. -/
def process (conn : Conn) (turn : Turn) : Option Conn :=
  match conn.bufIn.connectRecv turn.junk turn.left with
  | none => none
  | some (.failed, buf) => some { conn with bufIn := buf, closed := true }
  | some (.incomplete, buf) => some { conn with bufIn := buf, flagIn := true }
  | some (.request _, buf) =>
    some { conn with
      bufIn := buf.tolower conn.bufIn.command
      outSize := conn.outSize + turn.reply
      flagOut := conn.flagOut || decide (0 < conn.outSize + turn.reply) }

def step (conn : Conn) (event : Event) (turn : Turn) : Option Conn :=
  match conn.handle event with
  | none => none
  | some (conn, true) => conn.process turn
  | some (conn, false) => some conn

def ready (conn : Conn) (event : Event) : Option Conn :=
  (conn.handle event).bind fun (conn, ready) => if ready then some conn else none

def filled (conn : Conn) (before : Bool) : Event → Bool
  | .readable _ => decide (conn.bufIn.space = 0)
  | _ => before

/-- The last read has filled the buffer, and every call of the parser since then has found
    a request in it. -/
def brimful (conn : Conn) (before : Bool) (event : Event) : Bool :=
  match conn.handle event with
  | none => before
  | some (conn, ready) => conn.filled before event && (!ready || conn.bufIn.requested)

end Conn

/-- A readable event comes with bytes, the end of the stream or an error, and a writable one
    with room for a byte or an error. -/
def Real : Event → Prop
  | .readable answers => answers.dropWhile (· = .interrupted) ≠ []
  | .writable answers => ∃ sent ∈ (answers.dropWhile (· = .interrupted)).head?, sent ≠ .bytes 0
  | .error => True

/-- The peer has closed, or the socket has failed. -/
def Gone : Event → Prop
  | .readable answers => .bytes [] ∈ answers ∨ .failed ∈ answers
  | .writable answers => .failed ∈ answers
  | .error => True

namespace Conn

/-- No readable event finds a buffer full from the last read and at most half consumed,
    nor one whose free part does not fit into an int, and no writable event more bytes to
    send than fit into an int. -/
def Paced (conn : Conn) (brim : Bool) : Event → Prop
  | .readable _ => (brim = true → conn.bufIn.capacity / 2 < conn.bufIn.data) ∧
      ∀ buf ∈ conn.bufIn.nice, buf.space < 2 ^ 31
  | .writable _ => conn.outSize < 2 ^ 31
  | .error => True

/-- The parser finds harmless bytes behind the valid ones and does not refuse these, and
    no negative value is left behind a request. -/
def Sane (conn : Conn) (turn : Turn) : Prop :=
  conn.bufIn.Harmless ∧ conn.bufIn.parse ≠ some .refused ∧ (conn.bufIn.requested = true → 0 ≤ turn.left)

def PacedRun : Conn → Bool → List (Event × Turn) → Prop
  | _, _, [] => True
  | conn, brim, (event, turn) :: rest => conn.Paced brim event ∧
      (∀ conn' ∈ conn.ready event, conn'.Sane turn) ∧
      ∀ conn' ∈ conn.step event turn, conn'.PacedRun (conn.brimful brim event) rest

/-- A readable event finds a free byte behind etdb_buf_nice, and 0 is returned only when the
    peer has closed. -/
def Roomy (conn : Conn) (event : Event) : Prop :=
  ∀ answers, event = .readable answers → ∃ buf, conn.bufIn.nice = some buf ∧ 0 < buf.space ∧
    ∀ buf', conn.bufIn.readToBuf answers = some (0, buf') → .bytes [] ∈ answers

def RoomyRun : Conn → List (Event × Turn) → Prop
  | _, [] => True
  | conn, (event, turn) :: rest => (conn.closed = false → conn.Roomy event) ∧
      ∃ conn', conn.step event turn = some conn' ∧
        (conn.closed = false → conn'.closed = true → Gone event) ∧ conn'.RoomyRun rest

structure Accepted (conn : Conn) : Prop where
  fresh : conn.bufIn.Fresh
  out : conn.outSize = 0
  flagIn : conn.flagIn = true
  flagOut : conn.flagOut = false
  isOpen : conn.closed = false

end Conn

section
variable {buf : Buf} {conn : Conn} {brim : Bool} {event : Event} {turn : Turn}

namespace Buf
variable {ret : Int}

theorem nice_data {buf' : Buf} (nice : buf.nice = some buf') : buf'.data ≤ buf.data := by
  unfold Buf.nice at nice
  by_cases past : buf.capacity / 2 < buf.data
  · rw [if_pos past] at nice
    by_cases inside : buf.data + buf.size ≤ buf.capacity
    · rw [if_pos inside] at nice
      obtain rfl := Option.some.inj nice
      exact Nat.zero_le _
    · rw [if_neg inside] at nice
      cases nice
  · rw [if_neg past] at nice
    obtain rfl := Option.some.inj nice
    exact le_rfl

theorem readOnce_full (full : ¬ 0 < buf.want) (got : Got) :
    buf.readOnce ret got = some (.done buf ret) := if_neg full

theorem readOnce_bytes (sound : buf.Sound) (small : buf.space < 2 ^ 31) (room : 0 < buf.space)
    {bytes : List UInt8} (filled : bytes ≠ []) (ret : Int) : ∃ (buf' : Buf) (num : Nat), 0 < num ∧
      num ≤ buf.space ∧ buf'.Sound ∧ buf'.capacity = buf.capacity ∧ buf'.data = buf.data ∧
      buf'.size = buf.size + num ∧
      buf.readOnce ret (.bytes bytes) = some (.again buf' (toInt (ret + num))) := by
  have want : buf.want = buf.space := toInt_eq (by omega) (by omega)
  have some : 0 < (bytes.take buf.want.toNat).length := by
    have := List.length_pos_iff.mpr filled
    rw [List.length_take, want]
    omega
  have fits : (bytes.take buf.want.toNat).length ≤ buf.space := by
    rw [List.length_take, want]
    omega
  obtain ⟨buf', run, sound', _, capacity, data, size⟩ := sound.append _ fits
  refine ⟨buf', (bytes.take buf.want.toNat).length, some, fits, sound', capacity, data, size, ?_⟩
  have reads : 0 < buf.want := by omega
  unfold readOnce
  simp only [if_pos reads, if_neg (List.length_pos_iff.mp some), run, Option.map_some]

theorem done_stays (answers : List Got) (len : Int) :
    answers.foldlM Turned.next (.done buf len) = some (.done buf len) := by
  induction answers with
  | nil => rfl
  | cons got rest ih => exact ih

theorem turns_spec (answers : List Got) (sound : buf.Sound) (ret : Int) (start : 0 ≤ ret)
    (small : ret + buf.space < 2 ^ 31) :
    ∃ turned, answers.foldlM Turned.next (.again buf ret) = some turned ∧
      turned.result.2.Sound ∧ turned.result.2.capacity = buf.capacity ∧ turned.result.2.data = buf.data ∧
      (0 < turned.result.1 → turned.result.1 = ret + turned.result.2.size - buf.size) ∧
      (turned.result.1 = 0 → .bytes [] ∈ answers ∨
        ret = 0 ∧ (answers.dropWhile (· = .interrupted) = [] ∨ buf.space = 0)) ∧
      (turned.result.1 < 0 → .failed ∈ answers) := by
  induction answers generalizing buf ret with
  | nil => exact ⟨.again buf ret, rfl, sound, rfl, rfl, fun _ => by simp [Turned.result],
      fun none => Or.inr ⟨none, Or.inl rfl⟩, fun failed => absurd failed (not_lt.mpr start)⟩
  | cons got rest ih =>
    have want : buf.want = buf.space := toInt_eq (by omega) (by omega)
    rw [List.foldlM_cons, Option.bind_eq_bind, Turned.next]
    by_cases full : buf.space = 0
    · rw [readOnce_full (by omega), Option.bind_some, done_stays]
      exact ⟨.done buf ret, rfl, sound, rfl, rfl, fun _ => by simp [Turned.result],
        fun none => Or.inr ⟨none, Or.inr full⟩, fun failed => absurd failed (not_lt.mpr start)⟩
    · have reads : 0 < buf.want := by omega
      cases got with
      | interrupted =>
        rw [show buf.readOnce ret .interrupted = some (.again buf ret) from if_pos reads,
          Option.bind_some]
        obtain ⟨turned, run, sound', capacity, data, size, zero, failed⟩ := ih sound ret start small
        refine ⟨turned, run, sound', capacity, data, size, fun none => ?_,
          fun below => List.mem_cons_of_mem _ (failed below)⟩
        rcases zero none with eof | ⟨none, nothing⟩
        · exact Or.inl (List.mem_cons_of_mem _ eof)
        · exact Or.inr ⟨none, nothing⟩
      | failed =>
        rw [show buf.readOnce ret .failed = some (.done buf (-1)) from if_pos reads,
          Option.bind_some, done_stays]
        exact ⟨.done buf (-1), rfl, sound, rfl, rfl, (fun other => by cases other),
          (fun other => by cases other), fun _ => List.mem_cons_self⟩
      | bytes bytes =>
        by_cases eof : bytes = []
        · subst eof
          have once : buf.readOnce ret (.bytes []) = some (.done buf 0) := by
            unfold readOnce
            simp only [if_pos reads, List.take_nil, ↓reduceIte]
          rw [once, Option.bind_some, done_stays]
          exact ⟨.done buf 0, rfl, sound, rfl, rfl, (fun other => by cases other),
            (fun _ => Or.inl List.mem_cons_self), fun other => by cases other⟩
        · obtain ⟨buf', num, some, fits, sound', capacity, data, size, once⟩ :=
            readOnce_bytes sound (by omega) (by omega) eof ret
          have room := sound.space
          have room' := sound'.space
          have sum : toInt (ret + num) = ret + num := toInt_eq (by omega) (by omega)
          rw [once, sum, Option.bind_some]
          obtain ⟨turned, run, sound'', capacity', data', size', zero, failed⟩ :=
            ih sound' (ret + num) (by omega) (by omega)
          refine ⟨turned, run, sound'', by omega, by omega, by omega, fun none => ?_,
            fun below => List.mem_cons_of_mem _ (failed below)⟩
          rcases zero none with eof | ⟨none, _⟩
          · exact Or.inl (List.mem_cons_of_mem _ eof)
          · omega

theorem readToBuf_spec (answers : List Got) (sound : buf.Sound)
    (small : ∀ buf', buf.nice = some buf' → buf'.space < 2 ^ 31) : ∃ buf1 len buf', buf.nice = some buf1 ∧
      buf1.Sound ∧ buf1.capacity = buf.capacity ∧ buf1.size = buf.size ∧ buf1.data ≤ buf.capacity / 2 ∧
      buf.readToBuf answers = some (len, buf') ∧ buf'.Sound ∧
      buf'.capacity = buf.capacity ∧ (0 < len → 0 < buf'.size) ∧ (len = 0 → .bytes [] ∈ answers ∨
        (answers.dropWhile (· = .interrupted) = [] ∨ buf1.space = 0)) ∧
      (len < 0 → .failed ∈ answers) := by
  obtain ⟨buf1, nice, sound1, _, capacity, size, data⟩ := sound.nice
  obtain ⟨turned, run, sound', capacity', _, size', zero, failed⟩ :=
    turns_spec answers sound1 0 le_rfl (by have := small buf1 nice; omega)
  refine ⟨buf1, turned.result.1, turned.result.2, nice, sound1, capacity, size, data, ?_,
    sound', by omega, by omega, fun none => ?_, failed⟩
  · rw [readToBuf, nice, Option.bind_eq_bind, Option.bind_some, run]
    rfl
  · rcases zero none with eof | ⟨_, nothing⟩
    · exact Or.inl eof
    · exact Or.inr nothing

end Buf

theorem writeLoop_spec (answers : List Sent) {size : Nat} {ret : Int} (start : 0 ≤ ret)
    (small : ret + size < 2 ^ 31) :
    (ret ≤ (writeLoop answers size ret).1 ∨ .failed ∈ answers) ∧
    (0 < size → (∃ sent ∈ (answers.dropWhile (· = .interrupted)).head?, sent ≠ .bytes 0) →
      ret < (writeLoop answers size ret).1 ∨ .failed ∈ answers) := by
  induction answers generalizing size ret with
  | nil => simp [writeLoop]
  | cons sent rest ih =>
    have want : toInt size = size := Buf.toInt_eq (by omega) (by omega)
    unfold writeLoop
    rw [want]
    by_cases nothing : size = 0
    · rw [if_neg (by omega)]
      exact ⟨Or.inl le_rfl, fun some => absurd some (by omega)⟩
    · rw [if_pos (by omega)]
      cases sent with
      | interrupted =>
        obtain ⟨grows, sends⟩ := ih start small
        refine ⟨grows.imp_right (List.mem_cons_of_mem _), fun some real => ?_⟩
        exact (sends some real).imp_right (List.mem_cons_of_mem _)
      | failed => exact ⟨Or.inr List.mem_cons_self, fun _ _ => Or.inr List.mem_cons_self⟩
      | bytes len =>
        dsimp only
        rw [Int.toNat_natCast]
        by_cases none : min len size = 0
        · rw [if_pos none]
          refine ⟨Or.inl le_rfl, fun _ real => ?_⟩
          obtain rfl : len = 0 := by omega
          simp at real
        · have sum : toInt (ret + (min len size : Nat)) = ret + (min len size : Nat) :=
            Buf.toInt_eq (by omega) (by omega)
          have start' : 0 ≤ ret + (min len size : Nat) := by omega
          have small' : ret + (min len size : Nat) + (size - min len size : Nat) < 2 ^ 31 := by omega
          have grows := (ih start' small').1
          rw [if_neg none, sum]
          constructor
          · exact grows.imp (fun more => by omega) (List.mem_cons_of_mem _)
          · intro _ _
            exact grows.imp (fun more => by omega) (List.mem_cons_of_mem _)

/-- Over harmless bytes that it does not refuse, the parser serves a request and leaves the
    free part as it is, or there is room afterwards. -/
theorem Buf.recvReq_spec (junk : Nat → UInt8) (sound : buf.Sound) (filled : 0 < buf.size)
    (small : 2 * buf.capacity < 2 ^ 63) (harmless : buf.Harmless) (taken : buf.parse ≠ some .refused) :
    ∃ received buf', buf.recvReq junk = some (received, buf') ∧ buf'.Sound ∧
      (buf'.capacity = buf.capacity ∧ buf.space ≤ buf'.space ∨
        buf'.capacity = 2 * buf.capacity ∧ buf.space = 0 ∧ buf'.space = buf.capacity) ∧
      (received = .incomplete ∧ 0 < buf'.space ∨
        (∃ strs, received = .request strs) ∧ buf.requested = true) := by
  have inside := sound.inside
  have length := sound.valid_length
  have shorter := (List.dropWhile_sublist (· = newline) (l := buf.valid)).length_le
  have memory : (buf.mem.drop buf.data).length =
    buf.size + (buf.mem.drop (buf.data + buf.size)).length := by
    rw [buf.memory, List.length_append, length]
  obtain ⟨answer, run, within⟩ := parse_harmless buf.size (buf.valid.dropWhile (· = newline))
    (buf.size - (buf.valid.dropWhile (· = newline)).length) ((buf.mem.drop buf.data).length + 1) []
    (by omega) (by omega) (by omega) (fun _ member => by cases member) harmless
  rw [← Buf.parse_valid sound] at run
  unfold Buf.recvReq Buf.requested
  rw [run]
  cases answer with
  | refused => exact absurd run taken
  | notReady =>
    obtain ⟨buf', spare, sound', _, room, grown⟩ := buf.spare_room junk sound (by omega) small
    refine ⟨.incomplete, buf', by rw [spare]; rfl, sound', ?_, Or.inl ⟨rfl, room⟩⟩
    rcases grown with same | ⟨double, free⟩
    · exact Or.inl same
    · exact Or.inr ⟨double, free.1, free.2.1⟩
  | ready records parsed =>
    obtain ⟨sound', _, size⟩ := sound.decr within.1
    have free := sound.space
    have free' := sound'.space
    have capacity : (buf.decr parsed).capacity = buf.capacity := rfl
    have data : (buf.decr parsed).data = buf.data + parsed := rfl
    have consumed := within.1
    dsimp only
    by_cases nothing : records = []
    · rw [if_pos nothing]
      obtain ⟨buf', spare, sound'', _, room, grown⟩ := (buf.decr parsed).spare_room junk sound'
        (by omega) small
      refine ⟨.incomplete, buf', by rw [spare]; rfl, sound'', ?_, Or.inl ⟨rfl, room⟩⟩
      rcases grown with ⟨same, more⟩ | ⟨double, full, free, _⟩
      · exact Or.inl ⟨same, by omega⟩
      · exact Or.inr ⟨double, by omega, free⟩
    · rw [if_neg nothing]
      exact ⟨_, _, rfl, sound', Or.inl ⟨rfl, by omega⟩, Or.inr ⟨⟨_, rfl⟩, by simpa using nothing⟩⟩

theorem Buf.tolower_spec (sound : buf.Sound) (place : Nat × Nat) : (buf.tolower place).Sound ∧
    (buf.tolower place).capacity = buf.capacity ∧ (buf.tolower place).space = buf.space := by
  have capacity : (buf.tolower place).capacity = buf.capacity := by
    unfold Buf.tolower Buf.capacity
    simp only [List.length_append, List.length_map, List.length_take, List.length_drop]
    omega
  have inside := sound.inside
  have small := sound.small
  have sound' : (buf.tolower place).Sound := by
    refine ⟨?_, by omega⟩
    change buf.data + buf.size ≤ _
    omega
  refine ⟨sound', capacity, ?_⟩
  have data : (buf.tolower place).data = buf.data := rfl
  have size : (buf.tolower place).size = buf.size := rfl
  rw [sound'.space, sound.space, capacity, data, size]

/-- What holds in every turn: the buffer lies in its block, a block over 2^32 bytes has a
    free part that no int holds, a buffer without a free byte is one that the last read has
    filled, and a connection that waits to write has something to write. -/
structure Conn.Tame (conn : Conn) (brim : Bool) : Prop where
  sound : conn.bufIn.Sound
  positive : 0 < conn.bufIn.capacity
  limit : conn.bufIn.capacity ≤ 2 ^ 33
  wide : conn.bufIn.capacity ≤ 2 ^ 32 ∨ 2 ^ 31 ≤ conn.bufIn.space
  room : conn.closed = false → brim = false → 0 < conn.bufIn.space
  waiting : conn.closed = false → conn.flagOut = true → 0 < conn.outSize

theorem Conn.Tame.afterProcess (tame : conn.Tame brim) (live : conn.closed = false)
    (filled : 0 < conn.bufIn.size) (sane : conn.Sane turn) :
    ∃ conn', conn.process turn = some conn' ∧ conn'.Tame (brim && conn.bufIn.requested) ∧
      conn'.closed = false := by
  obtain ⟨sound, positive, limit, wide, room, waiting⟩ := tame
  obtain ⟨harmless, taken, kept⟩ := sane
  obtain ⟨received, buf, run, sound', grown, answer⟩ :=
    Buf.recvReq_spec turn.junk sound filled (by omega) harmless taken
  have limit' : buf.capacity ≤ 2 ^ 33 := by omega
  have wide' : buf.capacity ≤ 2 ^ 32 ∨ 2 ^ 31 ≤ buf.space := by omega
  have positive' : 0 < buf.capacity := by omega
  unfold Conn.process Buf.connectRecv
  rw [if_neg (by omega), run, Option.map_some]
  rcases answer with ⟨rfl, free⟩ | ⟨⟨strs, rfl⟩, found⟩
  · exact ⟨_, rfl, ⟨sound', positive', limit', wide', fun _ _ => free, waiting⟩, live⟩
  · obtain ⟨sound'', capacity, space⟩ := buf.tolower_spec sound' conn.bufIn.command
    have behind : (Received.request strs).behind turn.left = .request strs :=
      if_neg (not_lt.mpr (kept found))
    dsimp only
    rw [behind]
    refine ⟨_, rfl, ⟨sound'', ?_, ?_, ?_, ?_, ?_⟩, live⟩
    · dsimp only
      omega
    · dsimp only
      omega
    · dsimp only
      omega
    · intro _ quiet
      have := room live (by rwa [found, Bool.and_true] at quiet)
      dsimp only
      omega
    · intro _ out
      rcases Bool.or_eq_true_iff.mp out with before | more
      · have := waiting live before
        dsimp only
        omega
      · exact of_decide_eq_true more

theorem Conn.Tame.afterRead {answers} (tame : conn.Tame brim)
    (paced : conn.Paced brim (.readable answers)) (real : Real (.readable answers)) :
    ∃ conn' ready, conn.handle (.readable answers) = some (conn', ready) ∧
      conn'.Tame (conn'.filled brim (.readable answers)) ∧
      (ready = true → conn'.closed = false ∧ 0 < conn'.bufIn.size) ∧
      (conn.closed = false → conn'.closed = true → Gone (.readable answers)) := by
  obtain ⟨sound, positive, limit, wide, room, waiting⟩ := tame
  obtain ⟨half, small⟩ := paced
  obtain ⟨buf1, len, buf', nice, sound1, capacity1, size1, data1, run, sound', capacity, filled, zero,
    failed⟩ := Buf.readToBuf_spec answers sound small
  have free := sound.space
  have free1 := sound1.space
  have inside := sound.inside
  have narrow := Buf.nice_data nice
  have narrower := small buf1 nice
  unfold Conn.handle
  dsimp only
  by_cases asleep : conn.closed = true ∨ ¬ conn.flagIn = true
  · rw [if_pos asleep]
    exact ⟨_, _, rfl, ⟨sound, positive, limit, wide, (fun _ free =>
      Nat.pos_of_ne_zero (of_decide_eq_false free)), waiting⟩, (fun other => by cases other),
      fun live closed => absurd (live.symm.trans closed) Bool.false_ne_true⟩
  · rw [if_neg asleep, run]
    have live : conn.closed = false := by simpa using (not_or.mp asleep).1
    have tame' : ∀ closed, Conn.Tame { conn with bufIn := buf', closed := closed }
      (decide (buf'.space = 0)) := by
      intro closed
      refine ⟨sound', by dsimp only; omega, by dsimp only; omega, by dsimp only; omega, ?_,
        fun _ => waiting live⟩
      exact fun _ free => Nat.pos_of_ne_zero (of_decide_eq_false free)
    dsimp only
    by_cases ended : len ≤ 0
    · rw [if_pos ended]
      refine ⟨_, _, rfl, tame' true, (fun other => by cases other), fun _ _ => ?_⟩
      have found : 0 < buf1.space := by
        cases brim with
        | false =>
          have := room live rfl
          omega
        | true =>
          have := half rfl
          omega
      by_cases none : len = 0
      · rcases zero none with eof | nothing | full
        · exact Or.inl eof
        · exact absurd nothing real
        · omega
      · exact Or.inr (failed (by omega))
    · rw [if_neg ended]
      exact ⟨_, _, rfl, tame' conn.closed, (fun _ => ⟨live, filled (by omega)⟩),
        fun _ closed => absurd (live.symm.trans closed) Bool.false_ne_true⟩

theorem Conn.Tame.afterWrite {answers} (tame : conn.Tame brim)
    (paced : conn.Paced brim (.writable answers)) (real : Real (.writable answers)) :
    ∃ conn' ready, conn.handle (.writable answers) = some (conn', ready) ∧
      conn'.Tame (conn'.filled brim (.writable answers)) ∧
      (ready = true → conn'.closed = false ∧ 0 < conn'.bufIn.size) ∧
      (conn.closed = false → conn'.closed = true → Gone (.writable answers)) := by
  obtain ⟨sound, positive, limit, wide, room, waiting⟩ := tame
  unfold Conn.handle
  dsimp only
  have tame' : ∀ size flagIn flagOut closed, (closed = false → conn.closed = false) →
      (closed = false → flagOut = true → 0 < size) →
      Conn.Tame ⟨conn.bufIn, size, flagIn, flagOut, closed⟩ brim := by
    intro size flagIn flagOut closed live waiting'
    exact ⟨sound, positive, limit, wide, fun still => room (live still), waiting'⟩
  by_cases asleep : conn.closed = true ∨ ¬ conn.flagOut = true
  · rw [if_pos asleep]
    exact ⟨_, _, rfl, tame' _ _ _ _ id waiting, (fun other => by cases other),
      fun live closed => absurd (live.symm.trans closed) Bool.false_ne_true⟩
  · rw [if_neg asleep]
    have live : conn.closed = false := by simpa using (not_or.mp asleep).1
    have flag : conn.flagOut = true := not_not.mp (not_or.mp asleep).2
    have small : (0 : Int) + conn.outSize < 2 ^ 31 := by
      have : conn.outSize < 2 ^ 31 := paced
      omega
    have sends := (writeLoop_spec answers le_rfl small).2 (waiting live flag) real
    cases write : writeLoop answers conn.outSize 0 with
    | mk len size =>
      rw [write] at sends
      dsimp only
      by_cases ended : len ≤ 0
      · rw [if_pos ended]
        exact ⟨_, _, rfl, tame' _ _ _ _ (fun _ => live) (fun other => by cases other),
          (fun other => by cases other), fun _ _ => sends.resolve_left (not_lt.mpr ended)⟩
      · rw [if_neg ended]
        have open' : ∀ conn' : Conn, conn'.closed = conn.closed → conn.closed = false →
            conn'.closed = true → Gone (.writable answers) := fun conn' same _ closed =>
          absurd (live.symm.trans (same.symm.trans closed)) Bool.false_ne_true
        by_cases sent : size = 0
        · rw [if_pos sent]
          by_cases left : conn.bufIn.size ≠ 0
          · rw [if_pos left]
            exact ⟨_, _, rfl, tame' _ _ _ _ id (fun _ other => by cases other),
              (fun _ => ⟨live, Nat.pos_of_ne_zero left⟩), open' _ rfl⟩
          · rw [if_neg left]
            exact ⟨_, _, rfl, tame' _ _ _ _ id (fun _ other => by cases other),
              (fun other => by cases other), open' _ rfl⟩
        · rw [if_neg sent]
          exact ⟨_, _, rfl, tame' _ _ _ _ id (fun _ _ => Nat.pos_of_ne_zero sent),
            (fun other => by cases other), open' _ rfl⟩

theorem Conn.Tame.afterHandle (tame : conn.Tame brim) (paced : conn.Paced brim event)
    (real : Real event) : ∃ conn' ready, conn.handle event = some (conn', ready) ∧
      conn'.Tame (conn'.filled brim event) ∧
      (ready = true → conn'.closed = false ∧ 0 < conn'.bufIn.size) ∧
      (conn.closed = false → conn'.closed = true → Gone event) := by
  cases event with
  | error => exact ⟨_, _, rfl, ⟨tame.sound, tame.positive, tame.limit, tame.wide,
      (fun other => by cases other), fun other => by cases other⟩, (fun other => by cases other),
      fun _ _ => trivial⟩
  | readable answers => exact tame.afterRead paced real
  | writable answers => exact tame.afterWrite paced real

/-- A readable event finds room: a full buffer is half consumed, so that it is compacted. -/
theorem Conn.Tame.roomy (tame : conn.Tame brim) (live : conn.closed = false) (real : Real event)
    (paced : conn.Paced brim event) : conn.Roomy event := by
  intro answers same
  subst same
  obtain ⟨half, small⟩ := paced
  obtain ⟨sound, positive, _, _, room, _⟩ := tame
  obtain ⟨buf1, len, buf', nice, sound1, capacity1, size1, data1, run, sound', capacity, filled, zero,
    failed⟩ := Buf.readToBuf_spec answers sound small
  have free := sound.space
  have free1 := sound1.space
  have inside := sound.inside
  have found : 0 < buf1.space := by
    cases brim with
    | false =>
      have := Buf.nice_data nice
      have := room live rfl
      omega
    | true =>
      have := half rfl
      omega
  refine ⟨buf1, nice, found, fun other ended => ?_⟩
  rw [run] at ended
  cases ended
  rcases zero rfl with eof | nothing | full
  · exact eof
  · exact absurd nothing real
  · omega

theorem Conn.Tame.afterStep (tame : conn.Tame brim) (paced : conn.Paced brim event) (real : Real event)
    (sane : ∀ conn' ∈ conn.ready event, conn'.Sane turn) :
    ∃ conn', conn.step event turn = some conn' ∧ conn'.Tame (conn.brimful brim event) ∧
      (conn.closed = false → conn'.closed = true → Gone event) := by
  obtain ⟨conn', ready, handled, tame', waiting, gone⟩ := tame.afterHandle paced real
  unfold Conn.step Conn.brimful
  rw [handled]
  cases ready with
  | false => exact ⟨conn', rfl, by simpa using tame', gone⟩
  | true =>
    obtain ⟨live, filled⟩ := waiting rfl
    have member : conn' ∈ conn.ready event := by
      rw [Conn.ready, handled]
      rfl
    obtain ⟨conn'', run, tame'', live'⟩ := tame'.afterProcess live filled (sane conn' member)
    exact ⟨conn'', run, tame'', fun _ closed => absurd (live'.symm.trans closed) Bool.false_ne_true⟩

theorem Conn.Tame.run (tame : conn.Tame brim) (events : List (Event × Turn))
    (real : ∀ e ∈ events, Real e.1) (paced : conn.PacedRun brim events) : conn.RoomyRun events := by
  induction events generalizing conn brim with
  | nil => trivial
  | cons first rest ih =>
    obtain ⟨event, turn⟩ := first
    obtain ⟨here, sane, later⟩ := paced
    have comes := real _ List.mem_cons_self
    obtain ⟨conn', step, tame', gone⟩ := tame.afterStep here comes sane
    exact ⟨fun live => tame.roomy live comes here, conn', step, gone,
      ih tame' (fun e member => real e (List.mem_cons_of_mem _ member)) (later conn' step)⟩

def idle : Conn := ⟨blank, 0, true, false, false⟩

instance : Decidable (Real event) :=
  match event with
  | .readable answers => inferInstanceAs (Decidable (answers.dropWhile (· = .interrupted) ≠ []))
  | .writable answers =>
    inferInstanceAs (Decidable (∃ sent ∈ (answers.dropWhile (· = .interrupted)).head?, sent ≠ .bytes 0))
  | .error => .isTrue trivial

instance : Decidable (conn.Paced brim event) :=
  match event with
  | .readable _ => inferInstanceAs (Decidable ((brim = true → conn.bufIn.capacity / 2 < conn.bufIn.data) ∧
      ∀ buf ∈ conn.bufIn.nice, buf.space < 2 ^ 31))
  | .writable _ => inferInstanceAs (Decidable (conn.outSize < 2 ^ 31))
  | .error => .isTrue trivial

instance : Decidable (conn.Sane turn) :=
  inferInstanceAs (Decidable (_ ∧ _ ∧ (conn.bufIn.requested = true → 0 ≤ turn.left)))

instance Conn.decidePaced : (conn : Conn) → (brim : Bool) → (events : List (Event × Turn)) →
    Decidable (conn.PacedRun brim events)
  | _, _, [] => .isTrue trivial
  | conn, brim, (event, turn) :: rest =>
    have (conn' : Conn) : Decidable (conn'.PacedRun (conn.brimful brim event) rest) :=
      decidePaced conn' (conn.brimful brim event) rest
    inferInstanceAs (Decidable (conn.Paced brim event ∧ (∀ conn' ∈ conn.ready event, conn'.Sane turn) ∧
      ∀ conn' ∈ conn.step event turn, conn'.PacedRun (conn.brimful brim event) rest))

end
end EtdbWire
