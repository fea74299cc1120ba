import Etdb.Pool.Large

/- etdb_stack.c: a stack in one array of a pool, which grows in place while it ends where the
   first chunk's used part ends. -/
namespace EtdbPool
open Arena
open EtdbWire (sizeT)
open Function (update)

structure Stack where
  nalloc : Nat
  nelts : Nat
  size : Nat
  elts : Nat
  deriving DecidableEq

def stackInit (p : Pool) (n size : Nat) : Option (Stack × Pool) :=
  (p.palloc (sizeT (n * size : Nat))).map fun out => (⟨n, 0, size, out.1⟩, out.2)

namespace Stack

def region (s : Stack) : Region := ⟨s.elts, s.nalloc * s.size⟩

/-- The last lines of etdb_stack_push. -/
def take (s : Stack) : Nat × Stack :=
  (s.elts + sizeT (s.nelts * s.size : Nat), { s with nelts := sizeT (s.nelts + 1 : Nat) })

def InPlace (s : Stack) (p : Pool) : Prop :=
  s.elts + sizeT (s.size * s.nalloc : Nat) = (p.d p.pool).last ∧
    sizeT ((p.d p.pool).last + s.size : Nat) ≤ (p.d p.pool).stop

instance (s : Stack) (p : Pool) : Decidable (s.InPlace p) := inferInstanceAs (Decidable (_ ∧ _))

/-- The other branch of etdb_stack_push: an array of twice the size, none where it returns NULL. -/
def move (s : Stack) (p : Pool) : Option (Option Stack × Pool) :=
  let size := sizeT (s.size * s.nalloc : Nat)
  (p.palloc (sizeT (2 * size : Nat))).map fun out =>
    if out.1 = 0 then (none, out.2)
    else
      (some { s with elts := out.1, nalloc := sizeT (s.nalloc * 2 : Nat) },
        { out.2 with
          mem := { out.2.mem with bytes := Memory.copy out.2.mem.bytes out.1 s.elts size } })

def grow (s : Stack) (p : Pool) : Option (Option Stack × Pool) :=
  if s.nelts = s.nalloc then
    if s.InPlace p then
      let last := sizeT ((p.d p.pool).last + s.size : Nat)
      some (some { s with nalloc := sizeT (s.nalloc + 1 : Nat) },
        { p with d := update p.d p.pool { p.d p.pool with last := last } })
    else s.move p
  else some (some s, p)

/-- etdb_stack_push: the slot, or NULL. -/
def push (s : Stack) (p : Pool) : Option (Nat × Stack × Pool) :=
  (s.grow p).map fun out => out.1.elim (0, s, out.2) fun grown => (grown.take.1, grown.take.2, out.2)

def pop (s : Stack) : Nat × Stack :=
  (s.elts + sizeT (sizeT (s.nelts - 1) * s.size : Nat), { s with nelts := sizeT (s.nelts - 1) })

end Stack

def readBytes (bytes : Nat → UInt8) (a n : Nat) : List UInt8 :=
  (List.range n).map fun i => bytes (a + i)

def writeBytes (bytes : Nat → UInt8) (a : Nat) (v : List UInt8) : Nat → UInt8 :=
  fun x => if a ≤ x ∧ x < a + v.length then v.getD (x - a) 0 else bytes x

/-- The array of a stack, and what it holds, in the order of the pushes. Elements of no bytes are
    not counted: the counter of such a stack is free to wrap. -/
structure Stands (L : Layout Owner) (chain : List Nat) (bytes : Nat → UInt8) (k : Nat) (s : Stack)
    (items : List (List UInt8)) : Prop where
  region : L.region (.array k) = some s.region
  large : L.home (.array k) ∉ chain → 0 < s.nalloc * s.size
  count : 0 < s.size → s.nelts = items.length ∧ s.nelts ≤ s.nalloc
  read : ∀ i x, items[i]? = some x → readBytes bytes (s.elts + i * s.size) s.size = x

section
variable {p : Pool} {chain chain' heads : List Nat} {L L' : Layout Owner} {bytes bytes' : Nat → UInt8}
  {a k n i : Nat} {s : Stack} {items : List (List UInt8)} {v x : List UInt8}

theorem readBytes_congr (same : ∀ x, a ≤ x → x < a + n → bytes' x = bytes x) :
    readBytes bytes' a n = readBytes bytes a n := by
  refine List.map_congr_left fun i inside => ?_
  have small := List.mem_range.mp inside
  exact same (a + i) (Nat.le_add_right a i) (by omega)

theorem readBytes_shift {b : Nat} (same : ∀ i < n, bytes' (b + i) = bytes (a + i)) :
    readBytes bytes' b n = readBytes bytes a n :=
  List.map_congr_left fun i inside => same i (List.mem_range.mp inside)

theorem readBytes_write : readBytes (writeBytes bytes a v) a v.length = v := by
  refine List.ext_getElem (by simp [readBytes]) fun i left right => ?_
  simp only [readBytes, List.getElem_map, List.getElem_range, writeBytes]
  rw [if_pos ⟨Nat.le_add_right a i, by omega⟩, Nat.add_sub_cancel_left, List.getD_eq_getElem?_getD,
    List.getElem?_eq_getElem right, Option.getD_some]

theorem writeBytes_other {y : Nat} (outside : ¬ (a ≤ y ∧ y < a + v.length)) :
    writeBytes bytes a v y = bytes y := if_neg outside

theorem Stands.slot (stands : Stands L chain bytes k s items) (member : i < items.length) :
    i * s.size + s.size ≤ s.nalloc * s.size := by
  by_cases empty : s.size = 0
  · rw [empty]
    exact Nat.le_refl _
  · obtain ⟨count, le⟩ := stands.count (Nat.pos_of_ne_zero empty)
    rw [← Nat.succ_mul]
    exact Nat.mul_le_mul_right s.size (by omega)

theorem Stands.frame (stands : Stands L chain bytes k s items)
    (same : L'.region (.array k) = L.region (.array k) ∧ L'.home (.array k) = L.home (.array k))
    (grown : chain ⊆ chain') (kept : ∀ x, s.region.Holds x → bytes' x = bytes x) :
    Stands L' chain' bytes' k s items := by
  refine ⟨same.1.trans stands.region, fun out => ?_, stands.count, fun i x here => ?_⟩
  · rw [same.2] at out
    exact stands.large fun inside => out (grown inside)
  · have slot := stands.slot (List.getElem?_eq_some_iff.mp here).1
    rw [← stands.read i x here]
    refine readBytes_congr fun y low high => kept y ⟨?_, ?_⟩
    · exact Nat.le_trans (Nat.le_add_right _ _) low
    · unfold Stack.region
      dsimp only
      omega

theorem Stands.limit (stands : Stands L chain bytes k s items) (kept : Kept p chain heads L) :
    0 < s.elts ∧ s.elts + s.nalloc * s.size ≤ addresses := by
  obtain ⟨owned, low, high⟩ := kept.sound.inside _ _ stands.region
  have member := (kept.owned _).mp owned
  have block := kept.block member
  have ordered := (kept.sound.ordered _ owned).2
  rw [kept.stop _ member] at ordered
  unfold Stack.region at low high
  dsimp only at low high
  omega

theorem Stands.span (stands : Stands L chain bytes k s items) (kept : Kept p chain heads L) :
    sizeT (s.size * s.nalloc : Nat) = s.nalloc * s.size := by
  have limit := (stands.limit kept).2
  unfold addresses at limit
  rw [Nat.mul_comm]
  exact sizeT_eq (by omega)

theorem Stands.slots (stands : Stands L chain bytes k s items) (kept : Kept p chain heads L)
    (full : 0 < s.size) : s.nalloc < 2 ^ 63 ∧ s.size ≤ s.nalloc * s.size ∨ s.nalloc = 0 := by
  obtain ⟨start, limit⟩ := stands.limit kept
  unfold addresses at limit
  have le := Nat.le_mul_of_pos_right s.nalloc full
  by_cases none' : s.nalloc = 0
  · exact Or.inr none'
  · have one := Nat.le_mul_of_pos_left s.size (Nat.pos_of_ne_zero none')
    exact Or.inl ⟨by omega, one⟩

theorem Stands.unwrapped (stands : Stands L chain bytes k s items) (kept : Kept p chain heads L)
    (small : n ≤ 2 * s.nalloc + 1) :
    sizeT n * s.size = n * s.size ∧ (0 < s.size → sizeT n = n) := by
  by_cases empty : s.size = 0
  · rw [empty]
    exact ⟨rfl, fun bad => absurd bad (Nat.lt_irrefl 0)⟩
  · have few := stands.slots kept (Nat.pos_of_ne_zero empty)
    have same : sizeT n = n := sizeT_eq (by omega)
    rw [same]
    exact ⟨rfl, fun _ => rfl⟩

theorem Stands.take (stands : Stands L chain bytes k s items) (kept : Kept p chain heads L)
    (room : 0 < s.size → s.nelts < s.nalloc) (length : v.length = s.size) :
    Stands L chain (writeBytes bytes s.take.1 v) k s.take.2 (items ++ [v]) ∧
      s.take.1 ≠ 0 ∧ ∀ y, s.take.1 ≤ y ∧ y < s.take.1 + v.length → s.region.Holds y := by
  obtain ⟨start, limit⟩ := stands.limit kept
  unfold addresses at limit
  have slot : s.take.1 = s.elts + items.length * s.size ∧
      items.length * s.size + s.size ≤ s.nalloc * s.size := by
    unfold Stack.take
    by_cases empty : s.size = 0
    · rw [empty]
      exact ⟨rfl, Nat.le_refl _⟩
    · have full := Nat.pos_of_ne_zero empty
      obtain ⟨count, _⟩ := stands.count full
      have fits : items.length * s.size + s.size ≤ s.nalloc * s.size := by
        rw [← Nat.succ_mul]
        exact Nat.mul_le_mul_right s.size (by have := room full; omega)
      refine ⟨?_, fits⟩
      dsimp only
      rw [count, sizeT_eq (by omega)]
  obtain ⟨here, fits⟩ := slot
  refine ⟨⟨stands.region, stands.large, fun full => ?_, fun i x found =>
    ?_⟩, by omega, fun y inside => ?_⟩
  · obtain ⟨count, _⟩ := stands.count full
    have more := room full
    have few := stands.slots kept full
    have next : sizeT (s.nelts + 1 : Nat) = s.nelts + 1 := sizeT_eq (by omega)
    unfold Stack.take
    dsimp only
    rw [next, List.length_append, List.length_singleton]
    exact ⟨by rw [count], more⟩
  · by_cases old : i < items.length
    · rw [List.getElem?_append_left old] at found
      rw [← stands.read i x found]
      refine readBytes_congr fun y low high => writeBytes_other fun inside => ?_
      have below : i * s.size + s.size ≤ items.length * s.size := by
        rw [← Nat.succ_mul]
        exact Nat.mul_le_mul_right s.size old
      rw [here] at inside
      change s.elts + i * s.size ≤ y at low
      change y < s.elts + i * s.size + s.size at high
      omega
    · have last : i = items.length := by
        have bound := (List.getElem?_eq_some_iff.mp found).1
        rw [List.length_append, List.length_singleton] at bound
        omega
      subst last
      rw [List.getElem?_concat_length] at found
      cases found
      change readBytes (writeBytes bytes s.take.1 v) (s.elts + items.length * s.size) s.size = v
      rw [← here, ← length]
      exact readBytes_write
  · rw [here] at inside
    refine ⟨Nat.le_trans (Nat.le_add_right _ _) inside.1, ?_⟩
    unfold Stack.region
    dsimp only
    omega

theorem Stands.begins (stands : Stands L chain bytes k s items) (kept : Kept p chain heads L)
    (ends : s.elts + s.nalloc * s.size = (p.d p.pool).last) : p.pool ≤ s.elts := by
  have first := kept.chunks _ kept.first
  have pool := (kept.owned _).mpr first.block
  have used := (kept.bounds kept.first).1
  have inside := kept.sound.ordered _ pool
  obtain ⟨owned, low, high⟩ := kept.sound.inside _ _ stands.region
  have below := (kept.sound.ordered _ owned).2
  unfold Stack.region at low high
  dsimp only at low high
  rw [first.last] at inside
  have header : 0 < p.headerSize p.pool := by
    rw [Pool.headerSize, if_pos rfl]
    decide
  by_cases same : L.home (.array k) = p.pool
  · rwa [same] at low
  · cases kept.sound.blocks _ _ owned pool same <;> omega

/-- What growing comes to: a slot for one more element, with all else as it was. -/
structure Grown (p : Pool) (chain : List Nat) (L : Layout Owner) (k : Nat) (s : Stack)
    (items : List (List UInt8)) (out : Option Stack × Pool) (chain' heads' : List Nat)
    (L' : Layout Owner) : Prop where
  kept : Kept out.2 chain' heads' L'
  grown : chain ⊆ chain'
  same : ∀ k', k'.Caller → k' ≠ .array k → L'.region k' = L.region k' ∧ L'.home k' = L.home k'
  refused : out.1 = none → out.2.mem.bytes = p.mem.bytes ∧
    L'.region (.array k) = L.region (.array k) ∧ L'.home (.array k) = L.home (.array k)
  stands : ∀ t ∈ out.1, Stands L' chain' out.2.mem.bytes k t items
  room : ∀ t ∈ out.1, t.size = s.size ∧ (0 < t.size → t.nelts < t.nalloc)
  bytes : ∀ t ∈ out.1, ∀ y, ¬ t.region.Holds y → out.2.mem.bytes y = p.mem.bytes y

theorem Stands.growInPlace (stands : Stands L chain p.mem.bytes k s items)
    (kept : Kept p chain heads L) (full : s.nelts = s.nalloc)
    (ends : s.elts + s.nalloc * s.size = (p.d p.pool).last)
    (fits : (p.d p.pool).last + s.size ≤ (p.d p.pool).stop) :
    ∃ L', Grown p chain L k s items (some { s with nalloc := sizeT (s.nalloc + 1 : Nat) },
      { p with d := update p.d p.pool { p.d p.pool with last := (p.d p.pool).last + s.size } })
      chain heads L' := by
  have first := kept.chunks _ kept.first
  have nalloc := stands.unwrapped kept (n := s.nalloc + 1) (by omega)
  rw [Nat.succ_mul] at nalloc
  obtain ⟨bumped, room⟩ := kept.bumpFrom kept.first (Nat.le_refl _) fits
  have place : ({ s with nalloc := sizeT (s.nalloc + 1 : Nat) } : Stack).region =
      ⟨s.elts, s.nalloc * s.size + s.size⟩ := congrArg (Region.mk s.elts) nalloc.1
  have behind : (L.raise p.pool ((p.d p.pool).last + s.size)).Room p.pool
      ⟨s.elts + s.nalloc * s.size, s.size⟩ := by
    rw [ends]
    exact room
  have here : (L.raise p.pool ((p.d p.pool).last + s.size)).region (.array k) =
      some ⟨s.elts, s.nalloc * s.size⟩ := stands.region
  have sound := behind.stretch bumped.kept.sound here (stands.begins kept ends)
  refine ⟨_, bumped.kept.settle sound (fun out => absurd kept.first out) trivial, fun _ => id,
    fun k' _ other => ⟨Layout.place_other other, Layout.place_home_other other⟩, nofun, ?_, ?_, ?_⟩
  · rintro t ⟨⟩
    refine ⟨Layout.place_self.trans (congrArg some place.symm), fun out =>
      ?_, fun size => ?_, stands.read⟩
    · rw [Layout.place_home] at out
      exact absurd kept.first out
    · obtain ⟨count, le⟩ := stands.count size
      refine ⟨count, ?_⟩
      dsimp only
      rw [nalloc.2 size]
      omega
  · rintro t ⟨⟩
    refine ⟨rfl, fun size => ?_⟩
    dsimp only
    rw [nalloc.2 size]
    omega
  · exact fun _ _ _ _ => rfl

theorem Stands.move (stands : Stands L chain p.mem.bytes k s items) (kept : Kept p chain heads L)
    (full : s.nelts = s.nalloc) (some' : s.nalloc ≠ 0 ∨ s.size = 0) :
    ∃ out chain' heads' L', s.move p = some out ∧ Grown p chain L k s items out chain' heads' L' := by
  obtain ⟨start, limit⟩ := stands.limit kept
  unfold addresses at limit
  have twice : sizeT (2 * (s.nalloc * s.size) : Nat) = 2 * (s.nalloc * s.size) := sizeT_eq (by omega)
  have nalloc := stands.unwrapped kept (n := s.nalloc * 2) (by omega)
  rw [Nat.mul_right_comm, Nat.mul_comm (s.nalloc * s.size)] at nalloc
  unfold Stack.move
  dsimp only
  rw [stands.span kept, twice]
  obtain ⟨⟨a, p'⟩, run, ⟨chain', heads', L', kept', frame, spare⟩, _⟩ :=
    kept.palloc (2 * (s.nalloc * s.size))
  rw [run, Option.map_some]
  dsimp only at spare ⊢
  by_cases null : a = 0
  · rw [if_pos null]
    exact ⟨_, chain', heads', L', rfl, kept', frame.grown, fun k' caller _ => frame.same k' caller,
      fun _ => ⟨frame.bytes, frame.same (.array k) trivial⟩, nofun, nofun, nofun⟩
  · rw [if_neg null]
    obtain ⟨i, spare, large⟩ := spare null
    have place : ({ s with elts := a, nalloc := sizeT (s.nalloc * 2 : Nat) } : Stack).region =
        ⟨a, 2 * (s.nalloc * s.size)⟩ := congrArg (Region.mk a) nalloc.1
    refine ⟨_, chain', heads', _, rfl, (kept'.give (k := .array k) spare trivial).rewrite _, frame.grown,
      fun k' caller other => ?_, nofun, ?_, ?_, ?_⟩
    · obtain ⟨region, home⟩ := frame.same k' caller
      exact ⟨(Layout.place_other other).trans region, (Layout.place_home_other other).trans home⟩
    · rintro t ⟨⟩
      refine ⟨Layout.place_self.trans (congrArg some place.symm), fun out => ?_, fun size => ?_,
        fun i x found => ?_⟩
      · rw [Layout.place_home] at out
        rw [nalloc.1]
        exact large out
      · obtain ⟨count, le⟩ := stands.count size
        refine ⟨count, ?_⟩
        dsimp only
        rw [nalloc.2 size]
        omega
      · have slot := stands.slot (List.getElem?_eq_some_iff.mp found).1
        rw [← stands.read i x found]
        refine readBytes_shift fun j small => ?_
        dsimp only at small ⊢
        unfold Memory.copy
        rw [if_pos ⟨by omega, by omega⟩, frame.bytes]
        exact congrArg p.mem.bytes (by omega)
    · rintro t ⟨⟩
      refine ⟨rfl, fun size => ?_⟩
      dsimp only at size ⊢
      rw [nalloc.2 size, full]
      omega
    · rintro t ⟨⟩ y outside
      rw [place] at outside
      unfold Memory.copy
      dsimp only
      refine (if_neg fun inside => outside ⟨inside.1, ?_⟩).trans (congrFun frame.bytes y)
      dsimp only
      omega

theorem Stands.grow (stands : Stands L chain p.mem.bytes k s items) (kept : Kept p chain heads L)
    (roomy : s.nalloc ≠ 0 ∨ s.size = 0 ∨
      s.elts = (p.d p.pool).last ∧ (p.d p.pool).last + s.size ≤ (p.d p.pool).stop) :
    ∃ out chain' heads' L', s.grow p = some out ∧ Grown p chain L k s items out chain' heads' L' := by
  unfold Stack.grow
  by_cases full : s.nelts = s.nalloc
  · rw [if_pos full]
    obtain ⟨start, limit⟩ := stands.limit kept
    obtain ⟨_, ordered, _, top⟩ := kept.bounds kept.first
    have unwrapped : sizeT ((p.d p.pool).last + s.size : Nat) = (p.d p.pool).last + s.size := by
      unfold addresses at limit top
      refine sizeT_eq ?_
      by_cases empty : s.size = 0
      · omega
      · have few := stands.slots kept (Nat.pos_of_ne_zero empty)
        omega
    by_cases inPlace : s.InPlace p
    · rw [if_pos inPlace, unwrapped]
      unfold Stack.InPlace at inPlace
      rw [stands.span kept, unwrapped] at inPlace
      obtain ⟨L', grown⟩ := stands.growInPlace kept full inPlace.1 inPlace.2
      exact ⟨_, chain, heads, L', rfl, grown⟩
    · rw [if_neg inPlace]
      refine stands.move kept full ?_
      by_cases some' : s.nalloc = 0
      · refine Or.inr ((roomy.resolve_left fun bad => bad some').resolve_right fun fits => inPlace ?_)
        unfold Stack.InPlace
        rw [stands.span kept, unwrapped, some', Nat.zero_mul]
        exact fits
      · exact Or.inl some'
  · rw [if_neg full]
    refine ⟨_, chain, heads, L, rfl, kept, fun _ => id, fun _ _ _ => ⟨rfl, rfl⟩, nofun, ?_, ?_, ?_⟩
    · rintro t ⟨⟩
      exact stands
    · rintro t ⟨⟩
      exact ⟨rfl, fun size => by have := (stands.count size).2; omega⟩
    · exact fun _ _ _ _ => rfl

theorem Stands.pop (stands : Stands L chain bytes k s items) (kept : Kept p chain heads L)
    (last : items.getLast? = some x) :
    readBytes bytes s.pop.1 s.size = x ∧ Stands L chain bytes k s.pop.2 items.dropLast := by
  obtain ⟨start, limit⟩ := stands.limit kept
  unfold addresses at limit
  obtain ⟨before, rfl⟩ := List.getLast?_eq_some_iff.mp last
  have here : (before ++ [x])[before.length]? = some x := List.getElem?_concat_length
  have read := stands.read _ _ here
  have slot := stands.slot (List.getElem?_eq_some_iff.mp here).1
  rw [List.dropLast_concat]
  have earlier : ∀ i y, before[i]? = some y → readBytes bytes (s.elts + i * s.size) s.size = y := by
    intro i y found
    refine stands.read i y ?_
    rw [List.getElem?_append_left (List.getElem?_eq_some_iff.mp found).1]
    exact found
  by_cases empty : s.size = 0
  · rw [empty] at read ⊢
    exact ⟨read, stands.region, stands.large, fun bad => absurd bad (by simp [Stack.pop, empty]), earlier⟩
  · have full := Nat.pos_of_ne_zero empty
    obtain ⟨count, le⟩ := stands.count full
    have few := stands.slots kept full
    rw [List.length_append, List.length_singleton] at count
    have rest : sizeT (s.nelts - 1) = before.length := by
      rw [count, Nat.cast_add, Nat.cast_one, add_sub_cancel_right]
      exact sizeT_eq (by omega)
    unfold Stack.pop
    rw [rest, sizeT_eq (by omega)]
    exact ⟨read, stands.region, stands.large, fun _ => ⟨rfl, by dsimp only; omega⟩, earlier⟩

end
end EtdbPool
