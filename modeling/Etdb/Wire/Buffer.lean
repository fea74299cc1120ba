import Etdb.Lib.Decimal

/- etdb_buf.c. A buffer is the whole allocated block together with the place and the
   number of its valid bytes; bytes of earlier requests stay in the block. An access
   outside the block ends the run with none. -/
namespace EtdbWire
open DecimalText

def sizeT (n : Int) : Nat := (n % 2 ^ 64).toNat

def toInt (n : Int) : Int := (n + 2 ^ 31) % 2 ^ 32 - 2 ^ 31

/-- etdb_buf_t; `data` is the distance from the start of the block. -/
structure Buf where
  mem : List UInt8
  data : Nat
  size : Nat
  deriving DecidableEq

namespace Buf

def capacity (buf : Buf) : Nat := buf.mem.length

def valid (buf : Buf) : List UInt8 := (buf.mem.drop buf.data).take buf.size

def space (buf : Buf) : Nat := sizeT (buf.capacity - buf.data - buf.size)

def decr (buf : Buf) (num : Nat) : Buf :=
    { buf with size := sizeT (buf.size - num), data := buf.data + num }

def slot (buf : Buf) : Nat := sizeT (buf.data + buf.size)

/-- Bytes copied to the slot, and etdb_buf_incr. -/
def append (buf : Buf) (bytes : List UInt8) : Option Buf :=
  if buf.slot + bytes.length ≤ buf.capacity then
    some { buf with
      mem := buf.mem.take buf.slot ++ bytes ++ buf.mem.drop (buf.slot + bytes.length)
      size := sizeT (buf.size + bytes.length) }
  else none

def nice (buf : Buf) : Option Buf :=
  if buf.capacity / 2 < buf.data then
    if buf.data + buf.size ≤ buf.capacity then
      some { buf with mem := buf.valid ++ buf.mem.drop buf.size, data := 0 }
    else none
  else some buf

/-- etdb_buf_grow; `junk` is what the new half of the block holds. -/
def grow (buf : Buf) (junk : Nat → UInt8) : Buf :=
  { buf with mem := buf.mem ++ (List.range buf.capacity).map junk }

/-- The loop of etdb_buf_append_record that makes room. -/
def makeRoom (junk : Nat → UInt8) (size : Nat) : Nat → Buf → Option Buf
  | 0, _ => none
  | turns + 1, buf => if buf.space < size then makeRoom junk size turns (buf.grow junk) else some buf

/-- snprintf with "%d\n" -/
def lengthLine (len : Int) : List UInt8 :=
  (if len < 0 then 45 :: spell (-len).toNat else spell len.toNat) ++ [10]

def appendRecord (junk : Nat → UInt8) (buf : Buf) (str : List UInt8) : Option Buf := do
  let size := 16 + 2 * str.length + 1
  let buf ← makeRoom junk size (size + 1) buf
  let buf ← buf.append (lengthLine (toInt str.length))
  let buf ← buf.append str
  buf.append [10]

def appendRecordTail (junk : Nat → UInt8) (buf : Buf) : Option Buf := buf.appendRecord junk []

structure Sound (buf : Buf) : Prop where
  inside : buf.data + buf.size ≤ buf.capacity
  small : buf.capacity < 2 ^ 63

section
variable {buf buf' : Buf} {bytes : List UInt8} {n : Nat} {junk : Nat → UInt8}

theorem toInt_eq {n : Int} (low : -2 ^ 31 ≤ n) (high : n < 2 ^ 31) : toInt n = n := by
  unfold toInt
  omega

theorem Sound.valid_length (sound : buf.Sound) : buf.valid.length = buf.size := by
  have := sound.inside
  unfold capacity at this
  rw [valid, List.length_take, List.length_drop]
  omega

theorem Sound.space (sound : buf.Sound) : buf.space = buf.capacity - (buf.data + buf.size) := by
  have := sound.inside
  have := sound.small
  unfold Buf.space sizeT
  omega

theorem Sound.slot (sound : buf.Sound) : buf.slot = buf.data + buf.size := by
  have := sound.inside
  have := sound.small
  unfold Buf.slot sizeT
  omega

theorem Sound.append (sound : buf.Sound) (bytes : List UInt8) (room : bytes.length ≤ buf.space) :
    ∃ buf', buf.append bytes = some buf' ∧ buf'.Sound ∧ buf'.valid = buf.valid ++ bytes ∧
      buf'.capacity = buf.capacity ∧ buf'.data = buf.data ∧ buf'.size = buf.size + bytes.length := by
  have slot := sound.slot
  obtain ⟨inside, small⟩ := sound
  rw [Sound.space ⟨inside, small⟩] at room
  have size : sizeT ((buf.size : Int) + bytes.length) = buf.size + bytes.length := by
    unfold sizeT
    omega
  unfold capacity at inside small room
  have capacity' : (buf.mem.take buf.slot ++ bytes ++ buf.mem.drop (buf.slot + bytes.length)).length =
      buf.mem.length := by
    simp only [List.length_append, List.length_take, List.length_drop]
    omega
  refine ⟨_, if_pos (show buf.slot + bytes.length ≤ buf.capacity by unfold capacity; omega),
    ⟨?_, ?_⟩, ?_, capacity', rfl, size⟩
  · dsimp only [capacity]
    omega
  · dsimp only [capacity]
    omega
  · dsimp only [valid]
    rw [size, slot, List.append_assoc, List.drop_append_of_le_length (by simp; omega), List.drop_take,
      Nat.add_sub_cancel_left, ← List.append_assoc]
    exact List.take_left' (by simp only [List.length_append, List.length_take, List.length_drop]; omega)

theorem Sound.nice (sound : buf.Sound) : ∃ buf', buf.nice = some buf' ∧ buf'.Sound ∧
    buf'.valid = buf.valid ∧
    buf'.capacity = buf.capacity ∧ buf'.size = buf.size ∧ buf'.data ≤ buf.capacity / 2 := by
  have length := sound.valid_length
  obtain ⟨inside, small⟩ := sound
  unfold Buf.nice
  by_cases past : buf.capacity / 2 < buf.data
  · rw [if_pos past, if_pos inside]
    have capacity' : (buf.valid ++ buf.mem.drop buf.size).length = buf.mem.length := by
      unfold capacity at inside
      rw [List.length_append, length, List.length_drop]
      omega
    refine ⟨_, rfl, ⟨?_, ?_⟩, ?_, capacity', rfl, Nat.zero_le _⟩
    · dsimp only [capacity] at inside ⊢
      omega
    · dsimp only [capacity] at small ⊢
      omega
    · change ((buf.valid ++ buf.mem.drop buf.size).drop 0).take buf.size = buf.valid
      rw [List.drop_zero, ← length, List.take_left]
  · rw [if_neg past]
    exact ⟨buf, rfl, ⟨inside, small⟩, rfl, rfl, rfl, not_lt.mp past⟩

theorem grow_capacity (junk : Nat → UInt8) : (buf.grow junk).capacity = 2 * buf.capacity := by
  simp only [grow, capacity, List.length_append, List.length_map, List.length_range]
  omega

theorem Sound.grow (sound : buf.Sound) (small : 2 * buf.capacity < 2 ^ 63) (junk : Nat → UInt8) :
    (buf.grow junk).Sound ∧ (buf.grow junk).valid = buf.valid := by
  have inside := sound.inside
  refine ⟨⟨?_, ?_⟩, ?_⟩
  · rw [grow_capacity]
    change buf.data + buf.size ≤ 2 * buf.capacity
    omega
  · rw [grow_capacity]
    exact small
  · unfold capacity at inside
    change ((buf.mem ++ _).drop buf.data).take buf.size = (buf.mem.drop buf.data).take buf.size
    rw [List.drop_append_of_le_length (by omega), List.take_append_of_le_length
      (by rw [List.length_drop]; omega)]

theorem Sound.decr (sound : buf.Sound) (consumed : n ≤ buf.size) : (buf.decr n).Sound ∧
    (buf.decr n).valid = buf.valid.drop n ∧ (buf.decr n).size = buf.size - n := by
  obtain ⟨inside, small⟩ := sound
  have size : sizeT ((buf.size : Int) - n) = buf.size - n := by
    unfold sizeT
    omega
  refine ⟨⟨?_, small⟩, ?_, size⟩
  · change buf.data + n + sizeT ((buf.size : Int) - n) ≤ buf.capacity
    rw [size]
    omega
  · change (buf.mem.drop (buf.data + n)).take (sizeT ((buf.size : Int) - n)) = _
    rw [size, valid, List.drop_take, List.drop_drop]

end
end Buf
end EtdbWire
