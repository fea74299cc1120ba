import Mathlib.Logic.Function.Basic
import Etdb.Lib.Arena
import Etdb.Wire.Buffer

/- etdb_palloc.c over etdb_alloc.c. Chunks and large headers are known by their addresses; an
   access through NULL ends the run with none. What a header holds is kept apart from the
   bytes of memory, which are the callers'. -/
namespace EtdbPool
open EtdbWire (sizeT)
open Function (update)

/-- An answer of the system allocator. `freed` is what realloc may do when it is asked for no
    bytes. -/
inductive Answer
  | got (a : Nat)
  | refused
  | freed
  deriving DecidableEq

def Answer.address : Answer → Nat
  | got a => a
  | refused => 0
  | freed => 0

/-- The live blocks with their lengths, the answers that the system allocator will give, and
    the bytes. -/
structure Memory where
  blocks : List Nat
  length : Nat → Nat
  supply : List Answer
  bytes : Nat → UInt8

/-- The members of a linked list have different addresses, and there are no more than these. -/
def addresses : Nat := 2 ^ 63

namespace Memory

def start (supply : List Answer) (bytes : Nat → UInt8) : Memory := ⟨[], fun _ => 0, supply, bytes⟩

/-- What malloc, realloc and posix_memalign promise of a new block: it is aligned to at least 8
    bytes, lies below 2^63, and shares no address with another; an empty block has one of its own. -/
def Fresh (m : Memory) (a size : Nat) : Prop :=
  0 < a ∧ a % 8 = 0 ∧ a + max 1 size ≤ addresses ∧
    ∀ b ∈ m.blocks, a + max 1 size ≤ b ∨ b + max 1 (m.length b) ≤ a

instance (m : Memory) (a size : Nat) : Decidable (m.Fresh a size) :=
  inferInstanceAs (Decidable (_ ∧ _ ∧ _ ∧ ∀ b ∈ m.blocks, _))

def next (m : Memory) : Answer := m.supply.headD .refused

def answered (m : Memory) : Memory := { m with supply := m.supply.tail }

def enter (m : Memory) (a size : Nat) : Memory :=
    { m with blocks := a :: m.blocks, length := update m.length a size }

def remove (m : Memory) (a : Nat) : Memory := { m with blocks := m.blocks.filter (· ≠ a) }

/-- etdb_alloc, etdb_memalign -/
def alloc (m : Memory) (size : Nat) : Nat × Memory :=
  if m.Fresh m.next.address size then (m.next.address, m.answered.enter m.next.address size)
  else (0, m.answered)

def free (m : Memory) (old : Nat) : Option Memory :=
  if old = 0 then some m else if old ∈ m.blocks then some (m.remove old) else none

def copy (bytes : Nat → UInt8) (new old size : Nat) : Nat → UInt8 :=
  fun a => if new ≤ a ∧ a < new + size then bytes (old + (a - new)) else bytes a

def realloc (m : Memory) (old size : Nat) : Option (Nat × Memory) :=
  if old = 0 then some (m.alloc size)
  else if old ∈ m.blocks then
    if (m.remove old).Fresh m.next.address size then
      some (m.next.address, { (m.remove old).answered.enter m.next.address size with
        bytes := copy m.bytes m.next.address old (min (m.length old) size) })
    else if m.next = .freed ∧ size = 0 then some (0, (m.remove old).answered)
    else some (0, m.answered)
  else none

end Memory

/-- etdb_pool_data_t; `stop` is its end. -/
structure PoolData where
  last : Nat
  stop : Nat
  next : Nat
  failed : Nat

structure PoolLarge where
  next : Nat
  alloc : Nat

/-- A pool with the memory under it: `d` and `larges` are the headers by their addresses; max,
    current and large stand in the first chunk, at `pool`. -/
structure Pool where
  mem : Memory
  pool : Nat
  d : Nat → PoolData
  max : Nat
  current : Nat
  large : Nat
  larges : Nat → PoolLarge

/-- etdb_align_ptr with ETDB_ALIGNMENT -/
def alignPtr (p : Nat) : Nat := sizeT (p + 7) / 8 * 8

/-- sizeof(etdb_pool_t) -/
def poolSize : Nat := 56

def poolDataSize : Nat := 32

def poolLargeSize : Nat := 16

/-- etdb_create_pool, none where it returns NULL -/
def createPool (mem : Memory) (size : Nat) : Option Pool :=
  let p := (mem.alloc size).1
  if p = 0 then none
  else
    let rest := sizeT (size - poolSize)
    some {
      mem := (mem.alloc size).2
      pool := p
      d := update (fun _ => ⟨0, 0, 0, 0⟩) p ⟨p + poolSize, p + size, 0, 0⟩
      max := if rest < 4096 then rest else 4096
      current := p
      large := 0
      larges := fun _ => ⟨0, 0⟩ }

/-- The loop of etdb_palloc and etdb_pnalloc: the chunk that has room, or NULL. -/
def bumpLoop (d : Nat → PoolData) (round : Nat → Nat) (size : Nat) : Nat → Nat → Option Nat
  | 0, _ => none
  | turns + 1, p =>
    if p = 0 then none
    else if size ≤ sizeT ((d p).stop - round (d p).last) then some p
    else if (d p).next = 0 then some 0
    else bumpLoop d round size turns (d p).next

/-- The loop of etdb_palloc_block: the failure counters, the new current, and the last chunk. -/
def failLoop : Nat → (Nat → PoolData) → Nat → Nat → Option ((Nat → PoolData) × Nat × Nat)
  | 0, _, _, _ => none
  | turns + 1, d, current, p =>
    if p = 0 then none
    else if (d p).next = 0 then some (d, current, p)
    else
      failLoop turns (update d p { d p with failed := sizeT ((d p).failed + 1) })
        (if 4 < (d p).failed then (d p).next else current) (d p).next

/-- The loop of etdb_palloc_large: a free entry among the first so many, or NULL. -/
def slotLoop (larges : Nat → PoolLarge) : Nat → Nat → Nat
  | 0, _ => 0
  | left + 1, l =>
    if l = 0 then 0 else if (larges l).alloc = 0 then l else slotLoop larges left (larges l).next

/-- The loop of etdb_prealloc_large and etdb_pfree: the entry, or NULL. -/
def findLarge (larges : Nat → PoolLarge) (raw : Nat) : Nat → Nat → Option Nat
  | 0, _ => none
  | turns + 1, l =>
    if l = 0 then some 0
    else if raw = (larges l).alloc then some l
    else findLarge larges raw turns (larges l).next

namespace Pool

def pallocBlock (p : Pool) (size : Nat) : Option (Nat × Pool) :=
  let psize := sizeT ((p.d p.pool).stop - p.pool)
  let new := (p.mem.alloc psize).1
  let p := { p with mem := (p.mem.alloc psize).2 }
  if new = 0 then some (0, p)
  else
    let m := alignPtr (new + poolDataSize)
    let d := update p.d new ⟨m + size, new + psize, 0, 0⟩
    (failLoop addresses d p.current p.current).map fun out =>
      (m, { p with
        d := update out.1 out.2.2 { out.1 out.2.2 with next := new }
        current := if out.2.1 = 0 then new else out.2.1 })

/-- What etdb_palloc and etdb_pnalloc do with sizes up to max. -/
def bump (p : Pool) (round : Nat → Nat) (size : Nat) : Option (Nat × Pool) := do
  let c ← bumpLoop p.d round size addresses p.current
  if c = 0 then p.pallocBlock size
  else
    let m := round (p.d c).last
    some (m, { p with d := update p.d c { p.d c with last := m + size } })

/-- The new entry of etdb_palloc_large, by etdb_palloc; a pool whose max is below its size is not
    followed further. -/
def enterLarge (p : Pool) (a : Nat) : Option (Nat × Pool) :=
  if poolLargeSize ≤ p.max then do
    let out ← p.bump alignPtr poolLargeSize
    if out.1 = 0 then do
      let mem ← out.2.mem.free a
      some (0, { out.2 with mem := mem })
    else
      some (a, { out.2 with
        larges := update out.2.larges out.1 ⟨out.2.large, a⟩
        large := out.1 })
  else none

def pallocLarge (p : Pool) (size : Nat) : Option (Nat × Pool) :=
  let a := (p.mem.alloc size).1
  let p := { p with mem := (p.mem.alloc size).2 }
  if a = 0 then some (0, p)
  else
    let slot := slotLoop p.larges 5 p.large
    if slot = 0 then p.enterLarge a
    else some (a, { p with larges := update p.larges slot { p.larges slot with alloc := a } })

def palloc (p : Pool) (size : Nat) : Option (Nat × Pool) :=
  if size ≤ p.max then p.bump alignPtr size else p.pallocLarge size

def pnalloc (p : Pool) (size : Nat) : Option (Nat × Pool) :=
  if size ≤ p.max then p.bump id size else p.pallocLarge size

def preallocLarge (p : Pool) (raw size : Nat) : Option (Nat × Pool) := do
  let l ← findLarge p.larges raw addresses p.large
  if l = 0 then some (0, p)
  else do
    let out ← p.mem.realloc raw size
    some (out.1, { p with
      mem := out.2
      larges := update p.larges l { p.larges l with alloc := out.1 } })

def pfree (p : Pool) (raw : Nat) : Option (Int × Pool) := do
  let l ← findLarge p.larges raw addresses p.large
  if l = 0 then some (-1, p)
  else do
    let mem ← p.mem.free raw
    some (0, { p with mem := mem, larges := update p.larges l { p.larges l with alloc := 0 } })

end Pool
end EtdbPool
