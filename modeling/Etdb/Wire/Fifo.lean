import Etdb.Wire.Buffer
import Mathlib.Tactic.Ring

/- Runs of buffer operations. The buffer is kept beside the bytes that went in and came out; every
   realloc may be refused. -/
namespace EtdbWire
open DecimalText

namespace Buf

def init (mem : List UInt8) : Buf := ⟨mem, 0, 0⟩

/-- etdb_buf_grow under an answer of realloc: the contents of the new half or, where -1 is
    returned, none. No block has 2^63 bytes. -/
def tryGrow (buf : Buf) (grant : Option (Nat → UInt8)) : Option Buf :=
  grant.bind fun junk => if 2 * buf.capacity < 2 ^ 63 then some (buf.grow junk) else none

def tryRoom (grants : Nat → Option (Nat → UInt8)) (size : Nat) : Nat → Buf → Option (Bool × Buf)
  | 0, _ => none
  | turns + 1, buf =>
    if buf.space < size then
      match buf.tryGrow (grants turns) with
      | some grown => tryRoom grants size turns grown
      | none => some (false, buf)
    else some (true, buf)

def putRecord (buf : Buf) (str : List UInt8) : Option (Option Int × Buf) := do
  let len := lengthLine (toInt str.length)
  let buf ← buf.append len
  let buf ← buf.append str
  let buf ← buf.append [10]
  some (some (toInt (len.length + str.length + 1)), buf)

/-- etdb_buf_append_record, in at most so many turns of its loop; the int is none where it
    returns -1. -/
def tryRecord (grants : Nat → Option (Nat → UInt8)) (turns : Nat) (buf : Buf) (str : List UInt8) :
    Option (Option Int × Buf) := do
  let made ← tryRoom grants (sizeT (16 + 2 * str.length + 1)) turns buf
  if made.1 then made.2.putRecord str else some (none, made.2)

/-- After some doublings there is room for so many bytes, and each of them is granted and
    leaves a block that lies in memory. -/
def Supplied (buf : Buf) (grants : Nat → Option (Nat → UInt8)) (need turns : Nat) : Prop :=
  ∃ k < turns, need ≤ buf.space + (2 ^ k - 1) * buf.capacity ∧
    ∀ i < k, (grants (turns - 1 - i)).isSome ∧ 2 ^ (i + 1) * buf.capacity < 2 ^ 63

instance (buf : Buf) (grants : Nat → Option (Nat → UInt8)) (need turns : Nat) :
    Decidable (buf.Supplied grants need turns) :=
  inferInstanceAs (Decidable (∃ k, k < turns ∧ _))

def Takes (buf : Buf) (grants : Nat → Option (Nat → UInt8)) (str : List UInt8) : Prop :=
  buf.Supplied grants (sizeT (16 + 2 * str.length + 1)) 63

instance (buf : Buf) (grants : Nat → Option (Nat → UInt8)) (str : List UInt8) :
    Decidable (buf.Takes grants str) := inferInstanceAs (Decidable (Supplied ..))

end Buf

/-- A process has less than 2^63 bytes of memory, and its first page is never mapped. -/
def InMemory (str : List UInt8) : Prop := str.length ≤ 2 ^ 63 - 4096

def record (str : List UInt8) : List UInt8 := Buf.lengthLine (toInt str.length) ++ str ++ [10]

inductive BufOp
  | appendRecord (grants : Nat → Option (Nat → UInt8)) (str : List UInt8)
  | receive (bytes : List UInt8)
  | consume (num : Nat)
  | nice
  | grow (junk : Nat → UInt8)

/-- What callers see to: received bytes fit, no more is consumed than is there, and the
    block that realloc gives lies in memory. -/
def BufOp.Allowed (buf : Buf) : BufOp → Prop
  | .appendRecord _ str => InMemory str
  | .receive bytes => bytes.length ≤ buf.space
  | .consume num => num ≤ buf.size
  | .nice => True
  | .grow _ => 2 * buf.capacity < 2 ^ 63

structure Fifo where
  buf : Buf
  appended : List UInt8
  consumed : List UInt8

namespace Fifo

def start (buf : Buf) : Fifo := ⟨buf, [], []⟩

/-- A record counts as appended where the buffer can take it. -/
def step (f : Fifo) : BufOp → Option Fifo
  | .appendRecord grants str => do
    let (_, buf) ← f.buf.tryRecord grants 63 str
    some { f with buf := buf, appended := f.appended ++ if f.buf.Takes grants str then record str else [] }
  | .receive bytes => do
    let buf ← f.buf.append bytes
    some { f with buf := buf, appended := f.appended ++ bytes }
  | .consume num =>
    some { f with buf := f.buf.decr num, consumed := f.consumed ++ f.buf.valid.take num }
  | .nice => do
    let buf ← f.buf.nice
    some { f with buf := buf }
  | .grow junk => some { f with buf := f.buf.grow junk }

/-- `apart` is about the two regions of the memcpy in etdb_buf_nice. -/
structure Faithful (f : Fifo) : Prop where
  inside : f.buf.data + f.buf.size ≤ f.buf.capacity
  apart : f.buf.capacity / 2 < f.buf.data → ∀ i < f.buf.size, ∀ j < f.buf.size, f.buf.data + i ≠ j
  order : f.consumed ++ f.buf.valid = f.appended

/-- etdb_buf_append_record returns the length of what it has written where the buffer can take
    the record, and -1 elsewhere. -/
def Answers (f : Fifo) (op : BufOp) : Prop :=
  ∀ grants str, op = .appendRecord grants str → (f.buf.tryRecord grants 63 str).map Prod.fst =
    some (if f.buf.Takes grants str then some (toInt (record str).length) else none)

def Lasts : Fifo → List BufOp → Prop
  | f, [] => f.Faithful
  | f, op :: ops => f.Faithful ∧
      (op.Allowed f.buf → f.Answers op ∧ ∃ f', f.step op = some f' ∧ f'.Lasts ops)

end Fifo

section
variable {buf : Buf} {f : Fifo} {str : List UInt8} {turns : Nat}

theorem lengthLine_length (n : Nat) : (Buf.lengthLine (toInt n)).length ≤ 12 := by
  have low : -2 ^ 31 ≤ toInt n := by
    unfold toInt
    omega
  have high : toInt n < 2 ^ 31 := by
    unfold toInt
    omega
  unfold Buf.lengthLine
  split
  · have digits : (spell (-toInt n).toNat).length ≤ 10 := spell_length (by omega) (by decide)
    rw [List.length_append, List.length_cons, List.length_singleton]
    omega
  · have digits : (spell (toInt n).toNat).length ≤ 10 := spell_length (by omega) (by decide)
    rw [List.length_append, List.length_singleton]
    omega

theorem record_length (str : List UInt8) :
    (record str).length = (Buf.lengthLine (toInt str.length)).length + str.length + 1 := by
  rw [record, List.length_append, List.length_append, List.length_singleton]

theorem record_fits (stored : InMemory str) :
    (record str).length ≤ sizeT (16 + 2 * str.length + 1) := by
  have line := lengthLine_length str.length
  have whole : sizeT (16 + 2 * str.length + 1) = 16 + 2 * str.length + 1 := by
    unfold InMemory at stored
    unfold sizeT
    omega
  rw [record_length, whole]
  omega

theorem tryGrow_some (junk : Nat → UInt8) (small : 2 * buf.capacity < 2 ^ 63) :
    buf.tryGrow (some junk) = some (buf.grow junk) := if_pos small

theorem supplied_grow {grants : Nat → Option (Nat → UInt8)} {need : Nat} {junk : Nat → UInt8}
    (sound : buf.Sound) (short : buf.space < need) (granted : grants turns = some junk)
    (small : 2 * buf.capacity < 2 ^ 63) :
    buf.Supplied grants need (turns + 1) ↔ (buf.grow junk).Supplied grants need turns := by
  have capacity := buf.grow_capacity junk
  have space : (buf.grow junk).space = buf.space + buf.capacity := by
    have data : (buf.grow junk).data = buf.data := rfl
    have size : (buf.grow junk).size = buf.size := rfl
    have inside := sound.inside
    rw [(sound.grow small junk).1.space, sound.space, capacity, data, size]
    omega
  unfold Buf.Supplied
  rw [space, capacity]
  have room (k : Nat) : buf.space + (2 ^ (k + 1) - 1) * buf.capacity =
      buf.space + buf.capacity + (2 ^ k - 1) * (2 * buf.capacity) := by
    have one : 1 ≤ 2 ^ k := Nat.one_le_two_pow
    obtain ⟨m, power⟩ : ∃ m, 2 ^ k = m + 1 := ⟨2 ^ k - 1, by omega⟩
    rw [Nat.pow_succ, power, Nat.add_sub_cancel, show (m + 1) * 2 - 1 = 2 * m + 1 by omega]
    ring
  have block (i : Nat) : 2 ^ (i + 1 + 1) * buf.capacity = 2 ^ (i + 1) * (2 * buf.capacity) := by ring
  constructor
  · intro supplied
    obtain ⟨k, below, enough, each⟩ := supplied
    obtain ⟨k, rfl⟩ : ∃ j, k = j + 1 := ⟨k - 1, by
      rcases Nat.eq_zero_or_pos k with rfl | some
      · simp only [Nat.pow_zero, Nat.sub_self, Nat.zero_mul, Nat.add_zero] at enough
        omega
      · omega⟩
    refine ⟨k, by omega, by rwa [← room], fun i less => ?_⟩
    have next := each (i + 1) (by omega)
    rwa [block, show turns + 1 - 1 - (i + 1) = turns - 1 - i by omega] at next
  · intro supplied
    obtain ⟨k, below, enough, each⟩ := supplied
    refine ⟨k + 1, by omega, by rwa [room], fun i less => ?_⟩
    cases i with
    | zero =>
      rw [show turns + 1 - 1 - 0 = turns by omega, granted]
      exact ⟨rfl, by omega⟩
    | succ i =>
      rw [block, show turns + 1 - 1 - (i + 1) = turns - 1 - i by omega]
      exact each i (by omega)

/-- By induction on the turns: a block that has doubled so often would not lie in memory. -/
theorem Buf.Sound.tryRoom (sound : buf.Sound) (grants : Nat → Option (Nat → UInt8)) (need : Nat)
    (enough : 2 ^ 63 ≤ buf.capacity * 2 ^ turns) :
    ∃ room buf', Buf.tryRoom grants need turns buf = some (room, buf') ∧ buf'.Sound ∧
      buf'.valid = buf.valid ∧ buf.capacity ≤ buf'.capacity ∧ (room = true → need ≤ buf'.space) ∧
      (room = true ↔ buf.Supplied grants need turns) := by
  induction turns generalizing buf with
  | zero =>
    have small := sound.small
    omega
  | succ turns ih =>
    unfold Buf.tryRoom
    by_cases short : buf.space < need
    · -- where the first doubling fails, nothing is supplied
      have first (supplied : buf.Supplied grants need (turns + 1)) :
          (grants turns).isSome ∧ 2 * buf.capacity < 2 ^ 63 := by
        obtain ⟨k, _, room, each⟩ := supplied
        rcases Nat.eq_zero_or_pos k with rfl | some
        · simp only [Nat.pow_zero, Nat.sub_self, Nat.zero_mul, Nat.add_zero] at room
          omega
        · have zero := each 0 some
          rwa [Nat.zero_add, Nat.pow_one, Nat.sub_zero, Nat.add_sub_cancel] at zero
      rw [if_pos short]
      cases granted : grants turns with
      | none =>
        refine ⟨false, buf, rfl, sound, rfl, le_refl _, fun other => Bool.noConfusion other, ?_⟩
        constructor
        · intro other
          cases other
        · intro supplied
          have some := (first supplied).1
          rw [granted] at some
          cases some
      | some junk =>
        by_cases small : 2 * buf.capacity < 2 ^ 63
        · obtain ⟨sound', valid⟩ := sound.grow small junk
          have capacity := buf.grow_capacity junk
          have enough' : 2 ^ 63 ≤ (buf.grow junk).capacity * 2 ^ turns := by
            rw [capacity, Nat.mul_comm 2, Nat.mul_assoc, ← Nat.pow_succ']
            exact enough
          obtain ⟨room, buf', run, sound'', valid', larger, spare, supplied⟩ := ih sound' enough'
          rw [tryGrow_some junk small]
          exact ⟨room, buf', run, sound'', valid'.trans valid, by omega, spare,
            supplied.trans (supplied_grow sound short granted small).symm⟩
        · rw [show buf.tryGrow (some junk) = none from if_neg small]
          exact ⟨false, buf, rfl, sound, rfl, le_refl _, (fun other => Bool.noConfusion other),
            (fun other => Bool.noConfusion other), fun supplied => absurd (first supplied).2 small⟩
    · rw [if_neg short]
      refine ⟨true, buf, rfl, sound, rfl, le_refl _, fun _ => not_lt.mp short, fun _ => ?_, fun _ => rfl⟩
      exact ⟨0, Nat.succ_pos _, by omega, fun i less => absurd less (Nat.not_lt_zero i)⟩

theorem Buf.Sound.putRecord (sound : buf.Sound) (room : (record str).length ≤ buf.space) :
    ∃ buf', buf.putRecord str = some (some (toInt (record str).length), buf') ∧ buf'.Sound ∧
      buf'.capacity = buf.capacity ∧ buf'.valid = buf.valid ++ record str := by
  rw [record_length] at room
  have space := sound.space
  obtain ⟨buf1, run1, sound1, valid1, capacity1, data1, size1⟩ :=
    sound.append (Buf.lengthLine (toInt str.length)) (by omega)
  have space1 := sound1.space
  obtain ⟨buf2, run2, sound2, valid2, capacity2, data2, size2⟩ := sound1.append str (by omega)
  have space2 := sound2.space
  obtain ⟨buf3, run3, sound3, valid3, capacity3, data3, size3⟩ := sound2.append [10]
    (by rw [List.length_singleton]; omega)
  refine ⟨buf3, ?_, sound3, by omega, ?_⟩
  · unfold Buf.putRecord
    dsimp only
    rw [run1]
    dsimp only [Option.bind_eq_bind, Option.bind_some]
    rw [run2]
    dsimp only [Option.bind_some]
    rw [run3, record_length]
    rfl
  · rw [valid3, valid2, valid1, record, List.append_assoc, List.append_assoc, List.append_assoc]

theorem Buf.Sound.tryRecord (sound : buf.Sound) (positive : 0 < buf.capacity)
    (stored : InMemory str) (grants : Nat → Option (Nat → UInt8)) : ∃ buf',
    buf.tryRecord grants 63 str =
      some (if buf.Takes grants str then some (toInt (record str).length) else none, buf') ∧
    buf'.Sound ∧ 0 < buf'.capacity ∧
    buf'.valid = buf.valid ++ if buf.Takes grants str then record str else [] := by
  obtain ⟨room, buf0, made, sound0, valid0, larger, spare, supplied⟩ :=
    sound.tryRoom grants (sizeT (16 + 2 * str.length + 1))
      (Nat.le_mul_of_pos_left (2 ^ 63) positive)
  have supplied : room = true ↔ buf.Takes grants str := supplied
  unfold Buf.tryRecord
  rw [made, Option.bind_eq_bind, Option.bind_some]
  cases room with
  | false =>
    have refused := fun takes => Bool.false_ne_true (supplied.mpr takes)
    rw [if_neg refused, if_neg refused, List.append_nil]
    exact ⟨buf0, rfl, sound0, by omega, valid0⟩
  | true =>
    obtain ⟨buf', run, sound', capacity, valid⟩ :=
      sound0.putRecord ((record_fits stored).trans (spare rfl))
    have takes := supplied.mp rfl
    rw [if_pos takes, if_pos takes, if_pos rfl]
    exact ⟨buf', run, sound', by omega, by rw [valid, valid0]⟩

structure Fifo.Kept (f : Fifo) : Prop where
  sound : f.buf.Sound
  positive : 0 < f.buf.capacity
  order : f.consumed ++ f.buf.valid = f.appended

theorem Fifo.Kept.faithful (kept : f.Kept) : f.Faithful where
  inside := kept.sound.inside
  apart := by
    intro past i below j below' same
    have inside := kept.sound.inside
    omega
  order := kept.order

theorem Fifo.Kept.answers (kept : f.Kept) (op : BufOp) (allowed : op.Allowed f.buf) : f.Answers op := by
  intro grants str same
  subst same
  obtain ⟨buf, run, _⟩ := kept.sound.tryRecord kept.positive allowed grants
  rw [run, Option.map_some]

theorem Fifo.Kept.step (kept : f.Kept) (op : BufOp) (allowed : op.Allowed f.buf) :
    ∃ f', f.step op = some f' ∧ f'.Kept := by
  obtain ⟨sound, positive, order⟩ := kept
  cases op with
  | appendRecord grants str =>
    obtain ⟨buf, run, sound', positive', valid⟩ := sound.tryRecord positive allowed grants
    refine ⟨_, by rw [Fifo.step, run]; rfl, sound', positive', ?_⟩
    dsimp only
    rw [valid, ← List.append_assoc, order]
  | receive bytes =>
    obtain ⟨buf, run, sound', valid, capacity, _⟩ := sound.append bytes allowed
    refine ⟨_, by rw [Fifo.step, run]; rfl, sound', capacity ▸ positive, ?_⟩
    dsimp only
    rw [valid, ← List.append_assoc, order]
  | consume num =>
    obtain ⟨sound', valid, _⟩ := sound.decr allowed
    refine ⟨_, rfl, sound', positive, ?_⟩
    dsimp only
    rw [valid, List.append_assoc, List.take_append_drop, order]
  | nice =>
    obtain ⟨buf, run, sound', valid, capacity, _⟩ := sound.nice
    exact ⟨_, by rw [Fifo.step, run]; rfl, sound', capacity ▸ positive, by rw [valid]; exact order⟩
  | grow junk =>
    obtain ⟨sound', valid⟩ := sound.grow allowed junk
    refine ⟨_, rfl, sound', ?_, by rw [valid]; exact order⟩
    dsimp only
    rw [Buf.grow_capacity]
    omega

theorem Fifo.Kept.lasts (kept : f.Kept) (ops : List BufOp) : f.Lasts ops := by
  induction ops generalizing f with
  | nil => exact kept.faithful
  | cons op ops ih =>
    refine ⟨kept.faithful, fun allowed => ?_⟩
    obtain ⟨f', run, kept'⟩ := kept.step op allowed
    exact ⟨kept.answers op allowed, f', run, ih kept'⟩

end

/-- Whatever realloc answers: no call leaves the block or runs on, the two regions of a compaction
    are apart, a record is appended and its length returned wherever the reallocations make room
    for it, and the bytes consumed and held are those appended, in order. -/
theorem buffer_is_fifo (mem : List UInt8) (positive : 1 ≤ mem.length) (block : mem.length < 2 ^ 63)
    (ops : List BufOp) : (Fifo.start (Buf.init mem)).Lasts ops := by
  have kept : (Fifo.start (Buf.init mem)).Kept :=
    ⟨⟨Nat.zero_le _, block⟩, positive, by simp [Buf.valid, Buf.init, Fifo.start]⟩
  exact kept.lasts ops

/-- One byte grows to 32, a second record finds no block of 64, and the first one leaves the
    front of the block before a compaction. -/
theorem buffer_is_fifo_once : (Fifo.start (Buf.init [0])).Lasts
    [.appendRecord (fun _ => some fun _ => 0) [97], .appendRecord (fun _ => none) (List.replicate 20 98),
      .consume 4, .nice] :=
  buffer_is_fifo [0] (by decide) (by decide) _

end EtdbWire
