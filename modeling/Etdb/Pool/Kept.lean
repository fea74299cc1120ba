import Mathlib.Data.List.Perm.Subperm
import Etdb.Lib.Linked
import Etdb.Pool.State

/- What holds of a pool between two calls, and that the chunks keep it. The layout is a ghost:
   the code knows of no owners, only of the ends of the chunks. -/
namespace EtdbPool
open Arena NullLinked
open Function (update)
open EtdbWire (sizeT)

/-- Who has a region: the pool itself for its headers, or a caller. -/
inductive Owner
  | chunk (c : Nat)
  | large (h : Nat)
  | client (n : Nat)
  | array (k : Nat)
  deriving DecidableEq

def Owner.Caller : Owner → Prop
  | .chunk _ => False
  | .large _ => False
  | .client _ => True
  | .array _ => True

structure Memory.Placed (m : Memory) : Prop where
  place : ∀ b ∈ m.blocks, 0 < b ∧ b % 8 = 0 ∧ b + max 1 (m.length b) ≤ addresses
  apart : ∀ b ∈ m.blocks, ∀ b' ∈ m.blocks, b ≠ b' →
    b + max 1 (m.length b) ≤ b' ∨ b' + max 1 (m.length b') ≤ b

def Pool.headerSize (p : Pool) (c : Nat) : Nat := if c = p.pool then poolSize else poolDataSize

/-- A chunk on the chain: a block as long as the first, in use up to `last`. -/
structure Chunk (p : Pool) (L : Layout Owner) (c : Nat) : Prop where
  block : c ∈ p.mem.blocks
  length : p.mem.length c = p.mem.length p.pool
  stop : (p.d c).stop = c + p.mem.length c
  last : L.top c = (p.d c).last
  header : L.region (.chunk c) = some ⟨c, p.headerSize c⟩
  home : L.home (.chunk c) = c

structure Entry (p : Pool) (chain : List Nat) (L : Layout Owner) (h : Nat) : Prop where
  header : L.region (.large h) = some ⟨h, poolLargeSize⟩
  home : L.home (.large h) ∈ chain
  alloc : (p.larges h).alloc ≠ 0 → (p.larges h).alloc ∈ p.mem.blocks ∧ (p.larges h).alloc ∉ chain

def Distinct (heads : List Nat) (alloc : Nat → Nat) : Prop :=
  ∀ h ∈ heads, ∀ h' ∈ heads, alloc h = alloc h' → alloc h ≠ 0 → h = h'

structure Kept (p : Pool) (chain heads : List Nat) (L : Layout Owner) : Prop where
  sound : L.Sound
  owned : ∀ b, L.owned b ↔ b ∈ p.mem.blocks
  stop : ∀ b ∈ p.mem.blocks, L.stop b = b + p.mem.length b
  placed : p.mem.Placed
  chained : Linked 0 (fun c => (p.d c).next) p.pool chain
  listed : Linked 0 (fun h => (p.larges h).next) p.large heads
  current : p.current ∈ chain
  chunks : ∀ c ∈ chain, Chunk p L c
  entries : ∀ h ∈ heads, Entry p chain L h
  distinct : Distinct heads fun h => (p.larges h).alloc
  whole : ∀ k r, L.region k = some r → L.home k ∉ chain →
    r.start = L.home k ∧ ∃ h ∈ heads, (p.larges h).alloc = L.home k
  wide : 4096 ≤ p.mem.length p.pool ∧ p.mem.length p.pool % 8 = 0
  most : poolLargeSize ≤ p.max ∧ p.max + poolSize ≤ p.mem.length p.pool

structure Frame (p p' : Pool) (chain chain' : List Nat) (L L' : Layout Owner) : Prop where
  bytes : p'.mem.bytes = p.mem.bytes
  grown : chain ⊆ chain'
  same : ∀ k, k.Caller → L'.region k = L.region k ∧ L'.home k = L.home k

/-- Memory set aside that no one has yet, in a chunk or a whole large block. -/
def Spare (p : Pool) (chain heads : List Nat) (L : Layout Owner) (i : Nat) (r : Region) : Prop :=
  L.Room i r ∧ (i ∉ chain → r.start = i ∧ ∃ h ∈ heads, (p.larges h).alloc = i)

section
variable {m : Memory} {p : Pool} {chain heads : List Nat} {L : Layout Owner}
  {a b c i n size : Nat} {k : Owner} {r : Region}

theorem sizeT_eq {n : Nat} (small : n < 2 ^ 64) : sizeT n = n := by
  unfold sizeT
  omega

/-- A way of rounding up that stays below every aligned end. -/
def Rounds (round : Nat → Nat) : Prop :=
  ∀ n e, n ≤ e → e % 8 = 0 → e ≤ addresses → n ≤ round n ∧ round n ≤ e

theorem rounds_id : Rounds id := fun _ _ below _ _ => ⟨Nat.le_refl _, below⟩

theorem rounds_align : Rounds alignPtr := by
  intro n e below aligned small
  unfold addresses at small
  unfold alignPtr sizeT
  omega

theorem alignPtr_aligned (n : Nat) : alignPtr n % 8 = 0 := by
  unfold alignPtr
  omega

theorem Memory.Fresh.new (fresh : m.Fresh a size) : a ∉ m.blocks := by
  intro member
  have := fresh.2.2.2 a member
  omega

@[simp] theorem Memory.enter_length_self (m : Memory) (a size : Nat) :
    (m.answered.enter a size).length a = size := by
  unfold enter
  exact Function.update_self ..

theorem Memory.enter_length_other (m : Memory) (size : Nat) (other : b ≠ a) :
    (m.answered.enter a size).length b = m.length b := by
  unfold enter
  exact Function.update_of_ne other ..

theorem Memory.Fresh.enter (fresh : m.Fresh a size) (placed : m.Placed) :
    (m.answered.enter a size).Placed := by
  have old : ∀ b ∈ m.blocks, (m.answered.enter a size).length b = m.length b := by
    rintro b member
    refine m.enter_length_other size ?_
    rintro rfl
    exact fresh.new member
  have here := m.enter_length_self a size
  refine ⟨fun b member => ?_, fun b left b' right other => ?_⟩
  · cases List.mem_cons.mp member with
    | inl same =>
      rw [same, here]
      exact ⟨fresh.1, fresh.2.1, fresh.2.2.1⟩
    | inr member =>
      rw [old b member]
      exact placed.place b member
  · cases List.mem_cons.mp left with
    | inl same =>
      cases List.mem_cons.mp right with
      | inl same' => exact absurd (same.trans same'.symm) other
      | inr right =>
        rw [same, here, old b' right]
        exact fresh.2.2.2 b' right
    | inr left =>
      rw [old b left]
      cases List.mem_cons.mp right with
      | inl same' =>
        rw [same', here]
        exact (fresh.2.2.2 b left).symm
      | inr right =>
        rw [old b' right]
        exact placed.apart b left b' right other

theorem Memory.alloc_cases (m : Memory) (size : Nat) :
    m.alloc size = (0, m.answered) ∨
      ∃ a, m.Fresh a size ∧ m.alloc size = (a, m.answered.enter a size) := by
  by_cases fresh : m.Fresh m.next.address size
  · exact Or.inr ⟨m.next.address, fresh, if_pos fresh⟩
  · exact Or.inl (if_neg fresh)

theorem Kept.nodup (kept : Kept p chain heads L) : chain.Nodup := linked_nodup kept.chained

theorem Kept.first (kept : Kept p chain heads L) : p.pool ∈ chain := by
  have chained := kept.chained
  cases chain with
  | nil => exact absurd kept.current List.not_mem_nil
  | cons c cs => exact chained.1 ▸ List.mem_cons_self

theorem length_le_addresses {l : List Nat} (nodup : l.Nodup) (small : ∀ a ∈ l, a < addresses) :
    l.length ≤ addresses := by
  have inside : l ⊆ List.range addresses := fun a member => List.mem_range.mpr (small a member)
  have le := (nodup.subperm inside).length_le
  rwa [List.length_range] at le

theorem Kept.block (kept : Kept p chain heads L) (member : b ∈ p.mem.blocks) :
    0 < b ∧ b % 8 = 0 ∧ b + p.mem.length b ≤ addresses ∧ b < addresses := by
  have place := kept.placed.place b member
  omega

theorem Kept.bounds (kept : Kept p chain heads L) (member : c ∈ chain) :
    c + p.headerSize c ≤ (p.d c).last ∧ (p.d c).last ≤ (p.d c).stop ∧ (p.d c).stop % 8 = 0 ∧
      (p.d c).stop ≤ addresses := by
  have chunk := kept.chunks c member
  have block := kept.block chunk.block
  have inside := (kept.sound.inside _ _ chunk.header).2.2
  have ordered := kept.sound.ordered c ((kept.owned c).mpr chunk.block)
  rw [chunk.home, chunk.last] at inside
  rw [chunk.last, kept.stop c chunk.block] at ordered
  have wide := kept.wide
  rw [chunk.stop, chunk.length]
  rw [chunk.length] at ordered block
  refine ⟨inside, ordered.2, ?_, block.2.2.1⟩
  omega

theorem Kept.raise (kept : Kept p chain heads L) (member : c ∈ chain) (up : (p.d c).last ≤ n)
    (fits : n ≤ (p.d c).stop) :
    Kept { p with d := update p.d c { p.d c with last := n } } chain heads (L.raise c n) := by
  have chunk := kept.chunks c member
  have next : ∀ q, (update p.d c { p.d c with last := n } q).next = (p.d q).next := by
    intro q
    rw [Function.update_apply]
    split <;> simp only [*]
  have stop : ∀ q, (update p.d c { p.d c with last := n } q).stop = (p.d q).stop := by
    intro q
    rw [Function.update_apply]
    split <;> simp only [*]
  refine { kept with
    sound := kept.sound.raise (by rwa [chunk.last]) ?_
    chained := linked_congr kept.chained fun q _ => next q
    chunks := fun q here => ?_
    entries := fun h here => ⟨(kept.entries h here).header, (kept.entries h here).home,
      (kept.entries h here).alloc⟩ }
  · rw [kept.stop c chunk.block, ← chunk.stop]
    exact fits
  · have old := kept.chunks q here
    refine ⟨old.block, old.length, (stop q).trans old.stop, ?_, old.header, old.home⟩
    by_cases same : q = c
    · subst same
      have here : (update p.d q { p.d q with last := n } q).last = n := by rw [Function.update_self]
      exact (if_pos rfl).trans here.symm
    · refine (if_neg same).trans (old.last.trans ?_)
      exact (congrArg PoolData.last (Function.update_of_ne same _ p.d)).symm

theorem Kept.enter (kept : Kept p chain heads L) (fresh : p.mem.Fresh a size) (low : a ≤ n)
    (high : n ≤ a + size) :
    Kept { p with mem := p.mem.answered.enter a size } chain heads (L.acquire a n (a + size)) := by
  have old : ∀ b ∈ p.mem.blocks, b ≠ a := by
    rintro b member rfl
    exact fresh.new member
  have length : ∀ b ∈ p.mem.blocks, (p.mem.answered.enter a size).length b = p.mem.length b :=
    fun b member => p.mem.enter_length_other size (old b member)
  have first := length _ (kept.chunks _ kept.first).block
  have new : ¬ L.owned a := fun owned => fresh.new ((kept.owned a).mp owned)
  have clear : ∀ j, L.owned j → a + size ≤ j ∨ L.stop j ≤ a := by
    intro j owned
    have member := (kept.owned j).mp owned
    have apart := fresh.2.2.2 j member
    rw [kept.stop j member]
    omega
  refine { kept with
    sound := kept.sound.acquire low high new clear
    owned := fun b => ?_
    stop := fun b member => ?_
    placed := fresh.enter kept.placed
    chunks := fun c here => ?_
    entries := fun h here => ?_
    wide := ?_
    most := ?_ }
  · refine Iff.trans ?_ List.mem_cons.symm
    exact or_congr_right (kept.owned b)
  · cases List.mem_cons.mp member with
    | inl same =>
      rw [same]
      exact (if_pos rfl).trans (congrArg (a + ·) (if_pos rfl : _ = size)).symm
    | inr member =>
      refine (if_neg (old b member)).trans ((kept.stop b member).trans ?_)
      exact (congrArg (b + ·) (length b member)).symm
  · have chunk := kept.chunks c here
    have same := length c chunk.block
    refine ⟨List.mem_cons_of_mem a chunk.block, same.trans (chunk.length.trans first.symm),
      chunk.stop.trans (congrArg (c + ·) same).symm, ?_, chunk.header, chunk.home⟩
    exact (if_neg (old c chunk.block)).trans chunk.last
  · have entry := kept.entries h here
    refine ⟨entry.header, entry.home, fun full => ?_⟩
    exact ⟨List.mem_cons_of_mem a (entry.alloc full).1, (entry.alloc full).2⟩
  · rw [first]
    exact kept.wide
  · rw [first]
    exact kept.most

theorem Kept.enter_room (kept : Kept p chain heads L) (fresh : p.mem.Fresh a size)
    (high : n ≤ a + size) (low : a ≤ r.start) (fits : r.start + r.len ≤ n) :
    (L.acquire a n (a + size)).Room a r := by
  refine kept.sound.acquire_room high (fun j owned => ?_) low fits
  have member := (kept.owned j).mp owned
  have apart := fresh.2.2.2 j member
  rw [kept.stop j member]
  omega

theorem bumpLoop_spec {d : Nat → PoolData} {q turns : Nat} {l : List Nat} (round : Nat → Nat) (size : Nat)
    (linked : Linked 0 (fun c => (d c).next) q l) (some' : l ≠ []) (short : l.length ≤ turns) :
    ∃ c, bumpLoop d round size turns q = some c ∧
      (c = 0 ∨ c ∈ l ∧ size ≤ sizeT ((d c).stop - round (d c).last)) := by
  induction l generalizing q turns with
  | nil => exact absurd rfl some'
  | cons x xs ih =>
    obtain ⟨rfl, proper, rest⟩ := linked
    cases turns with
    | zero => exact absurd short (Nat.not_succ_le_zero _)
    | succ turns =>
      unfold bumpLoop
      rw [if_neg proper]
      by_cases fits : size ≤ sizeT ((d q).stop - round (d q).last)
      · exact ⟨q, if_pos fits, Or.inr ⟨List.mem_cons_self, fits⟩⟩
      · rw [if_neg fits]
        by_cases last : (d q).next = 0
        · exact ⟨0, if_pos last, Or.inl rfl⟩
        · rw [if_neg last]
          have more : xs ≠ [] := by
            rintro rfl
            exact last rest
          obtain ⟨c, run, found⟩ := ih rest more (Nat.le_of_succ_le_succ short)
          refine ⟨c, run, found.imp id fun here => ?_⟩
          exact ⟨List.mem_cons_of_mem q here.1, here.2⟩

/-- Two states of the headers that differ in the counters only. -/
def SameData (d d' : Nat → PoolData) : Prop :=
  ∀ c, (d' c).last = (d c).last ∧ (d' c).stop = (d c).stop ∧ (d' c).next = (d c).next

theorem SameData.relink {d d' : Nat → PoolData} {z : Nat} (same : SameData d d') (c : Nat) :
    (update d' z { d' z with next := a } c).last = (d c).last ∧
      (update d' z { d' z with next := a } c).stop = (d c).stop ∧
      (c ≠ z → (update d' z { d' z with next := a } c).next = (d c).next) := by
  obtain ⟨last, stop, next⟩ := same c
  rw [← last, ← stop, ← next, Function.update_apply]
  split
  · next here => exact here ▸ ⟨rfl, rfl, fun other => absurd rfl other⟩
  · exact ⟨rfl, rfl, fun _ => rfl⟩

theorem failLoop_spec {d : Nat → PoolData} {q z u turns : Nat} {l : List Nat}
    (linked : Linked 0 (fun c => (d c).next) q (l ++ [z])) (short : l.length < turns) :
    ∃ d' u', failLoop turns d u q = some (d', u', z) ∧ SameData d d' ∧
      (u' = u ∨ u' ∈ l ++ [z]) := by
  induction l generalizing q u d turns with
  | nil =>
    obtain ⟨rfl, proper, rest⟩ := linked
    cases turns with
    | zero => exact absurd short (Nat.not_lt_zero _)
    | succ turns =>
      refine ⟨d, u, ?_, fun _ => ⟨rfl, rfl, rfl⟩, Or.inl rfl⟩
      unfold failLoop
      rw [if_neg proper, if_pos (show (d q).next = 0 from rest)]
  | cons x xs ih =>
    obtain ⟨rfl, proper, rest⟩ := linked
    cases turns with
    | zero => exact absurd short (Nat.not_lt_zero _)
    | succ turns =>
      have start := linked_start rest (List.append_ne_nil_of_right_ne_nil xs (List.cons_ne_nil z []))
      have more : (d q).next ≠ 0 := start.1
      have same : SameData d (update d q { d q with failed := sizeT ((d q).failed + 1) }) := by
        intro c
        rw [Function.update_apply]
        split
        · next here => exact here ▸ ⟨rfl, rfl, rfl⟩
        · exact ⟨rfl, rfl, rfl⟩
      obtain ⟨d', u', run, same', kept⟩ := ih
        (d := update d q { d q with failed := sizeT ((d q).failed + 1) })
        (u := if 4 < (d q).failed then (d q).next else u)
        (linked_congr rest fun c _ => (same c).2.2) (Nat.lt_of_succ_lt_succ short)
      refine ⟨d', u', ?_, fun c => ?_, ?_⟩
      · unfold failLoop
        rw [if_neg proper, if_neg more]
        exact run
      · obtain ⟨last, stop, next⟩ := same' c
        exact ⟨last.trans (same c).1, stop.trans (same c).2.1, next.trans (same c).2.2⟩
      · cases kept with
        | inr later => exact Or.inr (List.mem_cons_of_mem q later)
        | inl kept =>
          by_cases failing : 4 < (d q).failed
          · rw [if_pos failing] at kept
            exact Or.inr (List.mem_cons_of_mem q (kept ▸ start.2))
          · rw [if_neg failing] at kept
            exact Or.inl kept

/-- The layout with a new chunk at a: its header, and the first cells behind it given away. -/
def withChunk (L : Layout Owner) (a psize size : Nat) : Layout Owner :=
  ((L.acquire a (a + poolDataSize) (a + psize)).place (.chunk a) a ⟨a, poolDataSize⟩).raise a
    (a + poolDataSize + size)

theorem withChunk_top (other : c ≠ a) {psize : Nat} : (withChunk L a psize size).top c = L.top c :=
  (if_neg other).trans (if_neg other)

theorem withChunk_region (L : Layout Owner) (psize size : Nat) (other : k ≠ .chunk a) :
    (withChunk L a psize size).region k = L.region k ∧ (withChunk L a psize size).home k = L.home k :=
  ⟨if_neg other, if_neg other⟩

theorem withChunk_sound {psize : Nat} (kept : Kept p chain heads L) (fresh : p.mem.Fresh a psize)
    (small : poolDataSize + size ≤ psize) :
    (withChunk L a psize size).Sound ∧ (withChunk L a psize size).Room a ⟨a + poolDataSize, size⟩ ∧
      ∀ i r, L.Room i r → (withChunk L a psize size).Room i r := by
  have high : a + poolDataSize ≤ a + psize := by omega
  have entered := (kept.enter fresh (Nat.le_add_right a poolDataSize) high).sound
  have header := kept.enter_room fresh (r := ⟨a, poolDataSize⟩) high (Nat.le_refl a) (Nat.le_refl _)
  have placed := header.sound (k := .chunk a) entered
  have top : ((L.acquire a (a + poolDataSize) (a + psize)).place (.chunk a) a
      ⟨a, poolDataSize⟩).top a = a + poolDataSize := if_pos rfl
  have stop : ((L.acquire a (a + poolDataSize) (a + psize)).place (.chunk a) a
      ⟨a, poolDataSize⟩).stop a = a + psize := if_pos rfl
  have fits : a + poolDataSize + size ≤ a + psize := by omega
  refine ⟨placed.raise (by rw [top]; exact Nat.le_add_right _ _) (by rwa [stop]), ?_, fun i r room => ?_⟩
  · exact placed.raise_room (Or.inl rfl) (by rwa [stop]) (Nat.le_of_eq top) (Nat.le_refl _)
  · have new : ¬ L.owned a := fun owned => fresh.new ((kept.owned a).mp owned)
    have other : a ≠ i := fun same => new (same ▸ room.owned)
    have room' := room.acquire (m := a + poolDataSize) (n := a + psize) new
    refine (room'.place (header.apart_room entered room' other)).raise ?_
    rw [top]
    exact Nat.le_add_right _ _

theorem Kept.extend {d : Nat → PoolData} {before : List Nat} {z cur : Nat}
    (kept : Kept p (before ++ [z]) heads L) (fresh : p.mem.Fresh a (p.mem.length p.pool))
    (same : SameData (update p.d a ⟨a + poolDataSize + size, a + p.mem.length p.pool, 0, 0⟩) d)
    (small : poolDataSize + size ≤ p.mem.length p.pool) (current : cur ∈ before ++ [z]) :
    Kept { p with
        mem := p.mem.answered.enter a (p.mem.length p.pool)
        d := update d z { d z with next := a }
        current := cur } (before ++ [z, a]) heads (withChunk L a (p.mem.length p.pool) size) := by
  have member : ∀ c, c ∈ before ++ [z, a] ↔ c ∈ before ++ [z] ∨ c = a := by
    intro c
    simp only [List.mem_append, List.mem_cons, List.not_mem_nil, or_false, or_assoc]
  have out : ∀ c ∈ before ++ [z], c ≠ a := by
    rintro c inside rfl
    exact fresh.new (kept.chunks c inside).block
  have entered := kept.enter fresh (n := a + poolDataSize) (Nat.le_add_right _ _) (by omega)
  have relinked := fun c => same.relink (a := a) (z := z) c
  refine { entered with
    sound := (withChunk_sound kept fresh small).1
    chained := linked_extend kept.chained (Nat.ne_of_gt fresh.1) ?_ ?_ fun y inside => ?_
    current := (member cur).mpr (Or.inl current)
    chunks := fun c inside => ?_
    entries := fun h inside => ?_
    whole := fun k r found away => ?_ }
  · dsimp only
    rw [Function.update_self]
  · have other : a ≠ z := (out z (by simp)).symm
    refine ((relinked a).2.2 other).trans ?_
    rw [Function.update_self]
  · have other : y ≠ z := by
      rintro rfl
      exact (List.nodup_append.mp kept.nodup).2.2 y inside y (by simp) rfl
    refine ((relinked y).2.2 other).trans ?_
    rw [Function.update_of_ne (out y (by simp [inside])) _ p.d]
  · obtain ⟨last, stop, _⟩ := relinked c
    cases (member c).mp inside with
    | inl old =>
      have chunk := entered.chunks c old
      have other := out c old
      have owner : Owner.chunk c ≠ .chunk a := fun bad => other (Owner.chunk.inj bad)
      obtain ⟨region, home⟩ := withChunk_region L (p.mem.length p.pool) size owner
      rw [Function.update_of_ne other _ p.d] at last stop
      refine ⟨chunk.block, chunk.length, stop.trans chunk.stop, ?_, region.trans chunk.header,
        home.trans chunk.home⟩
      rw [withChunk_top other]
      exact (kept.chunks c old).last.trans last.symm
    | inr new =>
      subst new
      have length := p.mem.enter_length_self c (p.mem.length p.pool)
      have first := kept.first
      have base := p.mem.enter_length_other (p.mem.length p.pool) (out p.pool first)
      rw [Function.update_self] at last stop
      refine ⟨List.mem_cons_self, length.trans base.symm, ?_, ?_, ?_, if_pos rfl⟩
      · rw [length]
        exact stop
      · exact (if_pos rfl).trans last.symm
      · refine (if_pos rfl).trans ?_
        rw [Pool.headerSize, if_neg (out p.pool first).symm]
  · have entry := entered.entries h inside
    have owner : Owner.large h ≠ .chunk a := nofun
    obtain ⟨region, home⟩ := withChunk_region L (p.mem.length p.pool) size owner
    refine ⟨region.trans entry.header, ?_, fun filled => ⟨(entry.alloc filled).1, fun bad => ?_⟩⟩
    · rw [home]
      exact (member _).mpr (Or.inl entry.home)
    · cases (member _).mp bad with
      | inl old => exact (entry.alloc filled).2 old
      | inr new => exact fresh.new (new ▸ ((kept.entries h inside).alloc filled).1)
  · by_cases chunk : k = .chunk a
    · subst chunk
      exact absurd ((member _).mpr (Or.inr (if_pos rfl))) away
    · obtain ⟨region, home⟩ := withChunk_region L (p.mem.length p.pool) size chunk
      rw [region] at found
      rw [home] at away ⊢
      exact kept.whole k r found fun old => away ((member _).mpr (Or.inl old))

theorem Kept.answered (kept : Kept p chain heads L) :
    Kept { p with mem := p.mem.answered } chain heads L :=
  { kept with
    placed := ⟨kept.placed.place, kept.placed.apart⟩
    chunks := fun c here => { kept.chunks c here with }
    entries := fun h here => { kept.entries h here with } }

/-- What small allocations do: they may lengthen the chain and use up cells that no room holds. -/
structure Bumped (p p' : Pool) (chain chain' heads : List Nat) (L L' : Layout Owner) : Prop where
  kept : Kept p' chain' heads L'
  frame : Frame p p' chain chain' L L'
  larges : p'.larges = p.larges
  large : p'.large = p.large
  others : ∀ b ∈ p.mem.blocks, b ∈ p'.mem.blocks ∧ (b ∉ chain → b ∉ chain')
  rooms : ∀ i r, L.Room i r → L'.Room i r

theorem Kept.bumpFrom (kept : Kept p chain heads L) (member : c ∈ chain) (low : (p.d c).last ≤ n)
    (fits : n + size ≤ (p.d c).stop) :
    Bumped p { p with d := update p.d c { p.d c with last := n + size } } chain chain heads L
        (L.raise c (n + size)) ∧ (L.raise c (n + size)).Room c ⟨n, size⟩ := by
  have chunk := kept.chunks c member
  have up : L.top c ≤ n + size := by
    rw [chunk.last]
    omega
  refine ⟨⟨kept.raise member (by omega) fits, ⟨rfl, fun _ => id, fun _ _ => ⟨rfl, rfl⟩⟩, rfl, rfl,
    fun b here => ⟨here, id⟩, fun i r room => room.raise up⟩, ?_⟩
  refine kept.sound.raise_room ((kept.owned c).mpr chunk.block) ?_ (by rwa [chunk.last])
    (Nat.le_refl _)
  rwa [kept.stop c chunk.block, ← chunk.stop]

theorem Kept.psize (kept : Kept p chain heads L) :
    sizeT ((p.d p.pool).stop - p.pool) = p.mem.length p.pool := by
  have first := kept.chunks _ kept.first
  have base := kept.block first.block
  have limit : addresses < 2 ^ 64 := by decide
  rw [first.stop, Nat.cast_add, add_sub_cancel_left]
  exact sizeT_eq (by omega)

theorem Kept.walk (kept : Kept p chain heads L) : ∃ pre l z, chain = (pre ++ l) ++ [z] ∧
    Linked 0 (fun c => (p.d c).next) p.current (l ++ [z]) ∧ (l ++ [z]).length ≤ addresses := by
  obtain ⟨pre, post, split⟩ := List.append_of_mem kept.current
  have chained := kept.chained
  have short := length_le_addresses kept.nodup fun c inside =>
    (kept.block (kept.chunks c inside).block).2.2.2
  rw [split] at chained short
  have tail := List.dropLast_append_getLast (List.cons_ne_nil p.current post)
  refine ⟨pre, (p.current :: post).dropLast, (p.current :: post).getLast (List.cons_ne_nil _ _), ?_,
    ?_, ?_⟩
  · rw [List.append_assoc, tail]
    exact split
  · rw [tail]
    exact linked_behind chained
  · rw [tail]
    rw [List.length_append] at short
    omega

theorem Kept.pallocBlock (kept : Kept p chain heads L) (small : size ≤ p.max) :
    ∃ out chain' L', p.pallocBlock size = some out ∧ Bumped p out.2 chain chain' heads L L' ∧
      (out.1 ≠ 0 → ∃ c ∈ chain', L'.Room c ⟨out.1, size⟩) ∧ out.1 % 8 = 0 := by
  unfold Pool.pallocBlock
  dsimp only
  rw [kept.psize]
  obtain none' | ⟨a, fresh, some'⟩ := p.mem.alloc_cases (p.mem.length p.pool)
  · refine ⟨(0, { p with mem := p.mem.answered }), chain, L, ?_, ⟨kept.answered, ⟨rfl, fun _ => id,
      fun _ _ => ⟨rfl, rfl⟩⟩, rfl, rfl, fun b here => ⟨here, id⟩, fun _ _ => id⟩,
      fun some' => absurd rfl some', rfl⟩
    rw [none']
    exact if_pos rfl
  · have proper := fresh.1
    have aligned := fresh.2.1
    have room := fresh.2.2.1
    have fits : poolDataSize + size ≤ p.mem.length p.pool := by
      have most := kept.most.2
      unfold poolSize at most
      unfold poolDataSize
      omega
    have m : alignPtr (a + poolDataSize) = a + poolDataSize := by
      unfold addresses at room
      unfold alignPtr sizeT poolDataSize
      omega
    rw [some']
    dsimp only
    rw [if_neg (Nat.ne_of_gt proper), m]
    obtain ⟨pre, l, z, rfl, walk, short⟩ := kept.walk
    have out : ∀ c ∈ (pre ++ l) ++ [z], c ≠ a := by
      rintro c inside rfl
      exact fresh.new (kept.chunks c inside).block
    have later : ∀ c ∈ l ++ [z], c ∈ (pre ++ l) ++ [z] := by
      intro c inside
      rw [List.append_assoc]
      exact List.mem_append_right pre inside
    rw [List.length_append, List.length_singleton] at short
    obtain ⟨d, cur, run, same, kept'⟩ := failLoop_spec (u := p.current)
      (d := update p.d a ⟨a + poolDataSize + size, a + p.mem.length p.pool, 0, 0⟩)
      (linked_congr walk fun c inside => by
        rw [Function.update_of_ne (out c (later c inside)) _ p.d]) short
    have current : cur ∈ (pre ++ l) ++ [z] := by
      cases kept' with
      | inl same => exact same ▸ kept.current
      | inr inside => exact later cur inside
    have proper' : cur ≠ 0 := Nat.ne_of_gt (kept.block (kept.chunks cur current).block).1
    rw [run, Option.map_some]
    dsimp only
    rw [if_neg proper']
    obtain ⟨_, room', rooms⟩ := withChunk_sound kept fresh fits
    have split : (pre ++ l) ++ [z, a] = ((pre ++ l) ++ [z]) ++ [a] := by
      rw [List.append_assoc (pre ++ l)]
      rfl
    refine ⟨_, _, _, rfl, ⟨kept.extend fresh same fits current, ⟨rfl, fun c inside => ?_,
      fun k caller => ?_⟩, rfl, rfl, fun b here => ⟨List.mem_cons_of_mem a here, fun away bad => ?_⟩,
      rooms⟩, fun _ => ⟨a, by rw [split]; simp, room'⟩, by unfold poolDataSize; omega⟩
    · rw [split]
      exact List.mem_append_left [a] inside
    · refine withChunk_region L _ _ ?_
      rintro rfl
      exact caller
    · rw [split] at bad
      cases List.mem_append.mp bad with
      | inl old => exact away old
      | inr new =>
        rw [List.mem_singleton.mp new] at here
        exact fresh.new here

theorem Kept.bump {round : Nat → Nat} (kept : Kept p chain heads L) (rounds : Rounds round)
    (small : size ≤ p.max) :
    ∃ out chain' L', p.bump round size = some out ∧ Bumped p out.2 chain chain' heads L L' ∧
      (out.1 ≠ 0 → ∃ c ∈ chain', L'.Room c ⟨out.1, size⟩) ∧
      ((∀ n, round n % 8 = 0) → out.1 % 8 = 0) := by
  obtain ⟨pre, l, z, split, walk, short⟩ := kept.walk
  obtain ⟨c, run, found⟩ := bumpLoop_spec round size walk (List.append_ne_nil_of_right_ne_nil l
    (List.cons_ne_nil z [])) short
  unfold Pool.bump
  rw [run, Option.bind_eq_bind, Option.bind_some]
  by_cases null : c = 0
  · rw [if_pos null]
    obtain ⟨out, chain', L', block, bumped, room, aligned⟩ := kept.pallocBlock small
    exact ⟨out, chain', L', block, bumped, room, fun _ => aligned⟩
  · rw [if_neg null]
    obtain ⟨inside, fits⟩ := found.resolve_left null
    have member : c ∈ chain := by
      rw [split, List.append_assoc]
      exact List.mem_append_right pre inside
    obtain ⟨_, ordered, eight, limit⟩ := kept.bounds member
    obtain ⟨low, high⟩ := rounds _ _ ordered eight limit
    have fits' : round (p.d c).last + size ≤ (p.d c).stop := by
      rw [← Nat.cast_sub high, sizeT_eq (by unfold addresses at limit; omega)] at fits
      omega
    obtain ⟨bumped, room⟩ := kept.bumpFrom member low fits'
    exact ⟨_, chain, _, rfl, bumped, fun _ => ⟨c, member, room⟩, fun aligned => aligned _⟩

def firstLayout (a size : Nat) : Layout Owner where
  owned := fun b => b = a
  top := fun _ => a + poolSize
  stop := fun _ => a + size
  region := fun k => if k = .chunk a then some ⟨a, poolSize⟩ else none
  home := fun _ => a

theorem firstLayout_some (here : (firstLayout a size).region k = some r) :
    k = .chunk a ∧ r = ⟨a, poolSize⟩ := by
  by_cases same : k = .chunk a
  · exact ⟨same, Option.some.inj (here.symm.trans (if_pos same))⟩
  · exact absurd ((if_neg same).symm.trans here) nofun

theorem firstLayout_sound (wide : poolSize ≤ size) : (firstLayout a size).Sound where
  ordered i owned := by
    cases owned
    exact ⟨Nat.le_add_right _ _, Nat.add_le_add_left wide _⟩
  blocks i j owned owned' other := absurd (owned.trans owned'.symm) other
  inside k r here := by
    obtain ⟨_, rfl⟩ := firstLayout_some here
    exact ⟨rfl, Nat.le_refl _, Nat.le_refl _⟩
  disjoint k k' r s left right other :=
    absurd ((firstLayout_some left).1.trans (firstLayout_some right).1.symm) other

theorem createPool_kept {supply : List Answer} {bytes : Nat → UInt8} (aligned : size % 8 = 0)
    (wide : 4096 ≤ size) (made : createPool (Memory.start supply bytes) size = some p) :
    ∃ L, Kept p [p.pool] [] L := by
  unfold createPool at made
  obtain none' | ⟨a, fresh, some'⟩ := (Memory.start supply bytes).alloc_cases size
  · rw [none'] at made
    exact absurd made nofun
  · rw [some'] at made
    dsimp only at made
    rw [if_neg (Nat.ne_of_gt fresh.1)] at made
    cases made
    have limit := fresh.2.2.1
    unfold addresses at limit
    have here : update (fun _ => (⟨0, 0, 0, 0⟩ : PoolData)) a ⟨a + poolSize, a + size, 0, 0⟩ a =
        ⟨a + poolSize, a + size, 0, 0⟩ := by rw [Function.update_self]
    have length := (Memory.start supply bytes).enter_length_self a size
    have rest : sizeT (size - poolSize) = size - poolSize := by
      rw [← Nat.cast_sub (by unfold poolSize; omega)]
      exact sizeT_eq (by omega)
    have proper : a ≠ 0 := Nat.ne_of_gt fresh.1
    have max : poolLargeSize ≤ (if sizeT (size - poolSize) < 4096 then sizeT
      (size - poolSize) else 4096) ∧
        (if sizeT (size - poolSize) < 4096 then sizeT (size - poolSize) else 4096) + poolSize ≤ size := by
      rw [rest]
      unfold poolSize poolLargeSize
      split <;> omega
    refine ⟨firstLayout a size, firstLayout_sound (by unfold poolSize; omega),
      fun b => List.mem_singleton.symm, fun b member => ?_, ?_, ⟨rfl, proper, ?_⟩, rfl,
      List.mem_singleton.mpr rfl, fun c member => ?_, nofun, nofun, fun k r _ away => ?_, ?_, ?_⟩
    · rw [List.mem_singleton.mp member]
      exact congrArg (a + ·) length.symm
    · exact fresh.enter ⟨nofun, nofun⟩
    · exact congrArg PoolData.next here
    · rw [List.mem_singleton.mp member]
      refine ⟨List.mem_singleton.mpr rfl, rfl, ?_, ?_, ?_, rfl⟩
      · exact (congrArg PoolData.stop here).trans (congrArg (a + ·) length.symm)
      · exact (congrArg PoolData.last here).symm
      · refine (if_pos rfl).trans ?_
        rw [Pool.headerSize, if_pos rfl]
    · exact absurd (List.mem_singleton.mpr rfl) away
    · dsimp only
      rw [length]
      exact ⟨wide, aligned⟩
    · dsimp only
      rw [length]
      exact max

end
end EtdbPool
