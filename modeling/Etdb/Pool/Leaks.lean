import Etdb.Pool.Destroy

/- What the calls lose of the memory that they took from the system: a block whose reallocation
   is refused, and no other. -/
namespace EtdbPool
open Arena NullLinked
open Function (update)
open EtdbWire (sizeT)

/-- The lists of a pool, and what no list leads to. -/
def Leaves (p : Pool) (lost : Nat → Prop) : Prop :=
  ∃ chain heads, Linked 0 (fun c => (p.d c).next) p.pool chain ∧
    Linked 0 (fun h => (p.larges h).next) p.large heads ∧ ∀ b, Lost p chain heads b ↔ lost b

section
variable {p : Pool} {chain heads : List Nat} {L : Layout Owner} {m : Memory} {a b size : Nat}
variable {out : Nat × Pool} {lost : Nat → Prop}

theorem Kept.pallocBlock_blocks (kept : Kept p chain heads L) (run : p.pallocBlock size = some out)
    (block : b ∈ out.2.mem.blocks) : b ∈ p.mem.blocks ∨ ∃ z ∈ chain, (out.2.d z).next = b := by
  rw [Pool.pallocBlock] at run
  dsimp only at run
  rw [kept.psize] at run
  obtain none' | ⟨a, fresh, some'⟩ := p.mem.alloc_cases (p.mem.length p.pool)
  · rw [none'] at run
    cases run
    exact Or.inl block
  · rw [some'] at run
    dsimp only at run
    rw [if_neg (Nat.ne_of_gt fresh.1)] at run
    obtain ⟨pre, l, z, split, walk, short⟩ := kept.walk
    have later : ∀ c ∈ l ++ [z], c ∈ chain := by
      intro c inside
      rw [split, List.append_assoc]
      exact List.mem_append_right pre inside
    have old : ∀ c ∈ l ++ [z], c ≠ a := by
      rintro c inside rfl
      exact fresh.new (kept.chunks c (later c inside)).block
    rw [List.length_append, List.length_singleton] at short
    obtain ⟨d, cur, found, _, _⟩ := failLoop_spec (u := p.current)
      (d := update p.d a ⟨alignPtr (a + poolDataSize) + size, a + p.mem.length p.pool, 0, 0⟩)
      (linked_congr walk fun c inside => by rw [Function.update_of_ne (old c inside) _ p.d]) short
    rw [found] at run
    cases run
    rcases List.mem_cons.mp block with rfl | block
    · refine Or.inr ⟨z, later z (by simp), ?_⟩
      dsimp only
      rw [Function.update_self]
    · exact Or.inl block

theorem Kept.next_member (kept : Kept p chain heads L) {c : Nat} (inside : c ∈ chain)
    (proper : (p.d c).next ≠ 0) : (p.d c).next ∈ chain := by
  obtain ⟨before, behind, rfl⟩ := List.append_of_mem inside
  have tail := (linked_behind kept.chained).2.2
  cases behind with
  | nil => exact absurd tail proper
  | cons x xs =>
    rw [show (p.d c).next = x from tail.1]
    simp

theorem Kept.bump_blocks {round : Nat → Nat} (kept : Kept p chain heads L)
    (run : p.bump round size = some out)
    (block : b ∈ out.2.mem.blocks) : b ∈ p.mem.blocks ∨ ∃ z ∈ chain, (out.2.d z).next = b := by
  obtain ⟨c, _, run⟩ := Option.bind_eq_some_iff.mp run
  by_cases null : c = 0
  · rw [if_pos null] at run
    exact kept.pallocBlock_blocks run block
  · rw [if_neg null] at run
    cases run
    exact Or.inl block

theorem Kept.bump_lost {round : Nat → Nat} (kept : Kept p chain heads L) (rounds : Rounds round)
    (small : size ≤ p.max) (run : p.bump round size = some out) :
    ∃ chain' L', Bumped p out.2 chain chain' heads L L' ∧
      ∀ b, Lost out.2 chain' heads b ↔ Lost p chain heads b := by
  obtain ⟨out', chain', L', run', bumped, _, _⟩ := kept.bump rounds small
  cases run.symm.trans run'
  refine ⟨chain', L', bumped, fun b => ?_⟩
  rw [Lost, bumped.larges]
  constructor
  · rintro ⟨block, away, free⟩
    refine ⟨?_, fun inside => away (bumped.frame.grown inside), free⟩
    rcases kept.bump_blocks run block with old | ⟨z, inside, rfl⟩
    · exact old
    · exact absurd (bumped.kept.next_member (bumped.frame.grown inside)
        (Nat.ne_of_gt (bumped.kept.block block).1)) away
  · rintro ⟨block, away, free⟩
    exact ⟨(bumped.others b block).1, (bumped.others b block).2 away, free⟩

theorem Bumped.leaves {p' : Pool} {chain' : List Nat} {L' : Layout Owner}
    (bumped : Bumped p p' chain chain' heads L L') (same : ∀ b, Lost p' chain' heads b ↔ lost b) :
    Leaves p' lost := ⟨chain', heads, bumped.kept.chained, bumped.kept.listed, same⟩

theorem Leaves.congr {lost' : Nat → Prop} (leaves : Leaves p lost) (same : ∀ b, lost b ↔ lost' b) :
    Leaves p lost' := by
  obtain ⟨chain, heads, chained, listed, before⟩ := leaves
  exact ⟨chain, heads, chained, listed, fun b => (before b).trans (same b)⟩

theorem entry_old {larges : Nat → PoolLarge} {l : Nat} (inside : l ∈ heads) :
    (∀ x ∈ heads, (larges x).alloc ≠ b) ↔
      (larges l).alloc ≠ b ∧ ∀ x ∈ heads, x ≠ l → (larges x).alloc ≠ b := by
  refine ⟨fun free => ⟨free l inside, fun x here _ => free x here⟩, fun both x here => ?_⟩
  by_cases same : x = l
  · rw [same]
    exact both.1
  · exact both.2 x here same

theorem Kept.entry_lost (kept : Kept p chain heads L) {l : Nat} (inside : l ∈ heads) (mem : Memory)
    (a : Nat) : Leaves { p with mem := mem, larges := update p.larges l { p.larges l with alloc := a } }
      fun b => b ∈ mem.blocks ∧ b ∉ chain ∧ a ≠ b ∧ ∀ x ∈ heads, x ≠ l → (p.larges x).alloc ≠ b := by
  refine ⟨chain, heads, kept.chained, linked_congr kept.listed fun x _ => alloc_next p.larges l a x,
    fun b => and_congr_right fun _ => and_congr_right fun _ => ?_⟩
  rw [entry_old inside, alloc_here]
  refine and_congr_right fun _ => forall₂_congr fun x _ => imp_congr_right fun other => ?_
  rw [alloc_other _ _ other]

theorem Kept.lost_iff (kept : Kept p chain heads L) {l : Nat} (inside : l ∈ heads) (b : Nat) :
    Lost p chain heads b ↔ b ∈ p.mem.blocks ∧ b ≠ 0 ∧ b ∉ chain ∧ (p.larges l).alloc ≠ b ∧
      ∀ x ∈ heads, x ≠ l → (p.larges x).alloc ≠ b := by
  rw [Lost, entry_old inside]
  refine and_congr_right fun block => ?_
  rw [and_iff_right (Nat.ne_of_gt (kept.block block).1)]

theorem Kept.enterLarge_lost (kept : Kept p chain heads L) (room : L.Room a ⟨a, size⟩) (away : a ∉ chain)
    (new : ∀ l ∈ heads, (p.larges l).alloc ≠ a) (run : p.enterLarge a = some out) :
    Leaves out.2 fun b => Lost p chain heads b ∧ b ≠ a := by
  obtain ⟨res, run', ⟨_, heads', _, kept', _, _⟩, _⟩ := kept.enterLarge room away new
  cases run.symm.trans run'
  rw [Pool.enterLarge, if_pos kept.most.1] at run
  obtain ⟨⟨h, p'⟩, bump, run⟩ := Option.bind_eq_some_iff.mp run
  obtain ⟨chain', L', bumped, same⟩ := kept.bump_lost rounds_align kept.most.1 bump
  dsimp only at run bumped same
  have block : a ∈ p'.mem.blocks := (bumped.others a ((kept.owned a).mp room.owned)).1
  have proper : a ≠ 0 := Nat.ne_of_gt (bumped.kept.block block).1
  by_cases null : h = 0
  · rw [if_pos null] at run
    have free : p'.mem.free a = some (p'.mem.remove a) := (if_neg proper).trans (if_pos block)
    rw [free] at run
    cases run
    refine ⟨chain', heads, bumped.kept.chained, bumped.kept.listed, fun b => ?_⟩
    dsimp only
    rw [← same b, Lost, Lost, mem_remove, and_right_comm]
  · rw [if_neg null] at run
    cases run
    obtain ⟨rest, first⟩ : ∃ rest, heads' = h :: rest := by
      cases heads' with
      | nil => exact absurd kept'.listed null
      | cons x rest => exact ⟨rest, by rw [← show h = x from kept'.listed.1]⟩
    have listed := kept'.listed
    rw [first] at listed
    have out := (List.nodup_cons.mp (linked_nodup listed)).1
    have tail := listed.2.2
    dsimp only at tail
    rw [Function.update_self] at tail
    have old : rest = heads := linked_unique (linked_congr tail fun x inside => by
      rw [Function.update_of_ne (fun equal : x = h => out (equal ▸ inside))]) bumped.kept.listed
    rw [old] at listed out
    refine ⟨chain', h :: heads, bumped.kept.chained, listed, fun b => ?_⟩
    have others : (∀ x ∈ heads, (update p'.larges h ⟨p'.large, a⟩ x).alloc ≠ b) ↔
        ∀ x ∈ heads, (p'.larges x).alloc ≠ b := forall₂_congr fun x inside => by
      rw [Function.update_of_ne (fun equal : x = h => out (equal ▸ inside))]
    dsimp only
    rw [← same b, Lost, Lost, List.forall_mem_cons]
    dsimp only
    rw [Function.update_self, others]
    constructor
    · rintro ⟨here, gone, other, free⟩
      exact ⟨⟨here, gone, free⟩, Ne.symm other⟩
    · rintro ⟨⟨here, gone, free⟩, other⟩
      exact ⟨here, gone, Ne.symm other, free⟩

theorem Kept.pallocLarge_lost (kept : Kept p chain heads L) (run : p.pallocLarge size = some out) :
    Leaves out.2 (Lost p chain heads) := by
  rw [Pool.pallocLarge] at run
  dsimp only at run
  obtain none' | ⟨a, fresh, some'⟩ := p.mem.alloc_cases size
  · rw [none'] at run
    cases run
    exact ⟨chain, heads, kept.chained, kept.listed, fun b => Iff.rfl⟩
  · have entered := kept.enter fresh (Nat.le_add_right a size) (Nat.le_refl _)
    have room := kept.enter_room fresh (r := ⟨a, size⟩) (Nat.le_refl _) (Nat.le_refl a) (Nat.le_refl _)
    have away : a ∉ chain := fun inside => fresh.new (kept.chunks a inside).block
    have new : ∀ l ∈ heads, (p.larges l).alloc ≠ a := by
      rintro l inside rfl
      exact fresh.new ((kept.entries l inside).alloc (Nat.ne_of_gt fresh.1)).1
    rw [some'] at run
    dsimp only at run
    rw [if_neg (Nat.ne_of_gt fresh.1)] at run
    have old : ∀ b, (b ∈ (p.mem.answered.enter a size).blocks ∧ b ≠ a) ↔ b ∈ p.mem.blocks := by
      intro b
      constructor
      · rintro ⟨here, other⟩
        exact (List.mem_cons.mp here).resolve_left other
      · intro here
        exact ⟨List.mem_cons_of_mem a here, fun same => fresh.new (same ▸ here)⟩
    by_cases null : slotLoop p.larges 5 p.large = 0
    · rw [if_pos null] at run
      obtain ⟨chain', heads', chained, listed, same⟩ := entered.enterLarge_lost room away new run
      refine ⟨chain', heads', chained, listed, fun b => (same b).trans ?_⟩
      dsimp only
      rw [Lost, Lost, and_right_comm, old b]
    · rw [if_neg null] at run
      cases run
      obtain ⟨inside, free⟩ := (slotLoop_spec 5 kept.listed).resolve_left null
      refine (kept.entry_lost inside (p.mem.answered.enter a size) a).congr fun b => ?_
      rw [kept.lost_iff inside, free, ← old b]
      constructor
      · rintro ⟨here, away, other, free⟩
        have proper := Nat.ne_of_gt (kept.block ((old b).mp ⟨here, Ne.symm other⟩)).1
        exact ⟨⟨here, Ne.symm other⟩, proper, away, Ne.symm proper, free⟩
      · rintro ⟨⟨here, other⟩, _, away, _, free⟩
        exact ⟨here, away, Ne.symm other, free⟩

theorem Kept.palloc_lost (kept : Kept p chain heads L) (run : p.palloc size = some out) :
    Leaves out.2 (Lost p chain heads) := by
  rw [Pool.palloc] at run
  by_cases small : size ≤ p.max
  · rw [if_pos small] at run
    obtain ⟨chain', L', bumped, same⟩ := kept.bump_lost rounds_align small run
    exact bumped.leaves same
  · rw [if_neg small] at run
    exact kept.pallocLarge_lost run

theorem Kept.pnalloc_lost (kept : Kept p chain heads L) (run : p.pnalloc size = some out) :
    Leaves out.2 (Lost p chain heads) := by
  rw [Pool.pnalloc] at run
  by_cases small : size ≤ p.max
  · rw [if_pos small] at run
    obtain ⟨chain', L', bumped, same⟩ := kept.bump_lost rounds_id small run
    exact bumped.leaves same
  · rw [if_neg small] at run
    exact kept.pallocLarge_lost run

/-- The block that a refused reallocation leaves without an entry. -/
def Pool.Refuses (p : Pool) (raw size b : Nat) : Prop :=
  b = raw ∧ raw ≠ 0 ∧ findLarge p.larges raw addresses p.large ≠ some 0 ∧
    ∃ mem, p.mem.realloc raw size = some (0, mem) ∧ raw ∈ mem.blocks

theorem Kept.pfree_lost (kept : Kept p chain heads L) {raw : Nat} {answer : Int × Pool}
    (run : p.pfree raw = some answer) : Leaves answer.2 (Lost p chain heads) := by
  obtain ⟨l, find, found⟩ := kept.findLarge raw
  rw [Pool.pfree, find, Option.bind_eq_bind, Option.bind_some] at run
  by_cases null : l = 0
  · rw [if_pos null] at run
    cases run
    exact ⟨chain, heads, kept.chained, kept.listed, fun _ => Iff.rfl⟩
  · rw [if_neg null] at run
    obtain ⟨inside, held⟩ := found.resolve_left null
    by_cases empty : raw = 0
    · have free : p.mem.free raw = some p.mem := if_pos empty
      rw [free] at run
      cases run
      refine (kept.entry_lost inside p.mem 0).congr fun b => ?_
      rw [kept.lost_iff inside, held, empty]
      constructor
      · rintro ⟨here, away, full, free⟩
        exact ⟨here, Ne.symm full, away, full, free⟩
      · rintro ⟨here, _, rest⟩
        exact ⟨here, rest⟩
    · obtain ⟨block, _, _⟩ := kept.unlist inside held empty
      have free : p.mem.free raw = some (p.mem.remove raw) := (if_neg empty).trans (if_pos block)
      rw [free] at run
      cases run
      refine (kept.entry_lost inside (p.mem.remove raw) 0).congr fun b => ?_
      rw [kept.lost_iff inside, held, mem_remove]
      constructor
      · rintro ⟨⟨here, other⟩, away, full, free⟩
        exact ⟨here, Ne.symm full, away, Ne.symm other, free⟩
      · rintro ⟨here, full, away, other, free⟩
        exact ⟨⟨here, Ne.symm other⟩, away, Ne.symm full, free⟩

theorem Kept.alloc_lost (kept : Kept p chain heads L) {raw : Nat} {P : Prop}
    (alloc : p.mem.alloc size = (a, m)) (empty : raw = 0) (b : Nat) :
    (b ∈ m.blocks ∧ b ∉ chain ∧ a ≠ b ∧ P) ↔
      b ∈ p.mem.blocks ∧ b ≠ 0 ∧ b ∉ chain ∧ raw ≠ b ∧ P := by
  rw [empty]
  obtain none' | ⟨a', fresh, some'⟩ := p.mem.alloc_cases size
  · cases none'.symm.trans alloc
    constructor
    · rintro ⟨here, away, full, rest⟩
      exact ⟨here, Ne.symm full, away, full, rest⟩
    · rintro ⟨here, _, rest⟩
      exact ⟨here, rest⟩
  · cases some'.symm.trans alloc
    constructor
    · rintro ⟨here, away, other, rest⟩
      have old := (List.mem_cons.mp here).resolve_left (Ne.symm other)
      have proper := Nat.ne_of_gt (kept.block old).1
      exact ⟨old, proper, away, Ne.symm proper, rest⟩
    · rintro ⟨here, _, away, _, rest⟩
      exact ⟨List.mem_cons_of_mem a here, away, fun same => fresh.new (same ▸ here), rest⟩

theorem Memory.realloc_cases {mem : Memory} {raw : Nat} (proper : raw ≠ 0) (block : raw ∈ m.blocks)
    (run : m.realloc raw size = some (a, mem)) :
    (a ≠ 0 ∧ a ∉ (m.remove raw).blocks ∧ mem.blocks = a :: (m.remove raw).blocks) ∨
      a = 0 ∧ (mem.blocks = (m.remove raw).blocks ∨ mem.blocks = m.blocks) := by
  rw [Memory.realloc, if_neg proper, if_pos block] at run
  by_cases fresh : (m.remove raw).Fresh m.next.address size
  · rw [if_pos fresh] at run
    cases run
    exact Or.inl ⟨Nat.ne_of_gt fresh.1, fresh.new, rfl⟩
  · rw [if_neg fresh] at run
    by_cases freed : m.next = .freed ∧ size = 0
    · rw [if_pos freed] at run
      cases run
      exact Or.inr ⟨rfl, Or.inl rfl⟩
    · rw [if_neg freed] at run
      cases run
      exact Or.inr ⟨rfl, Or.inr rfl⟩

theorem Kept.realloc_lost (kept : Kept p chain heads L) {mem : Memory} {raw : Nat} {P : Prop}
    (proper : raw ≠ 0) (block : raw ∈ p.mem.blocks) (away : raw ∉ chain)
    (run : p.mem.realloc raw size = some (a, mem)) (b : Nat) (alone : b = raw → P) :
    (b ∈ mem.blocks ∧ b ∉ chain ∧ a ≠ b ∧ P) ↔
      (b ∈ p.mem.blocks ∧ b ≠ 0 ∧ b ∉ chain ∧ raw ≠ b ∧ P) ∨ b = raw ∧ a = 0 ∧ raw ∈ mem.blocks := by
  obtain ⟨full, fresh, blocks⟩ | ⟨rfl, blocks | blocks⟩ := Memory.realloc_cases proper block run
  · rw [blocks, or_iff_left fun refused => full refused.2.1]
    constructor
    · rintro ⟨here, gone, other, free⟩
      obtain ⟨old, apart⟩ := mem_remove.mp ((List.mem_cons.mp here).resolve_left (Ne.symm other))
      exact ⟨old, Nat.ne_of_gt (kept.block old).1, gone, Ne.symm apart, free⟩
    · rintro ⟨here, _, gone, apart, free⟩
      have old := mem_remove.mpr ⟨here, Ne.symm apart⟩
      exact ⟨List.mem_cons_of_mem _ old, gone, fun same => fresh (same ▸ old), free⟩
  · rw [blocks, or_iff_left fun refused => (mem_remove.mp refused.2.2).2 rfl, mem_remove]
    constructor
    · rintro ⟨⟨old, apart⟩, gone, full, free⟩
      exact ⟨old, Ne.symm full, gone, Ne.symm apart, free⟩
    · rintro ⟨here, full, gone, apart, free⟩
      exact ⟨⟨here, Ne.symm apart⟩, gone, Ne.symm full, free⟩
  · rw [blocks]
    constructor
    · rintro ⟨here, gone, full, free⟩
      by_cases same : b = raw
      · exact Or.inr ⟨same, rfl, block⟩
      · exact Or.inl ⟨here, Ne.symm full, gone, Ne.symm same, free⟩
    · rintro (⟨here, full, gone, _, free⟩ | ⟨rfl, _⟩)
      · exact ⟨here, gone, Ne.symm full, free⟩
      · exact ⟨block, away, Ne.symm proper, alone rfl⟩

theorem Kept.preallocLarge_lost (kept : Kept p chain heads L) {raw : Nat}
    (run : p.preallocLarge raw size = some out) :
    Leaves out.2 fun b => Lost p chain heads b ∨ p.Refuses raw size b := by
  obtain ⟨l, find, found⟩ := kept.findLarge raw
  rw [Pool.preallocLarge, find, Option.bind_eq_bind, Option.bind_some] at run
  by_cases null : l = 0
  · rw [if_pos null] at run
    cases run
    refine ⟨chain, heads, kept.chained, kept.listed, fun b => (or_iff_left ?_).symm⟩
    rintro ⟨_, _, listed, _⟩
    exact listed (by rw [find, null])
  · rw [if_neg null] at run
    obtain ⟨inside, held⟩ := found.resolve_left null
    obtain ⟨⟨a, mem⟩, realloc, run⟩ := Option.bind_eq_some_iff.mp run
    cases run
    refine (kept.entry_lost inside mem a).congr fun b => ?_
    rw [kept.lost_iff inside, held]
    by_cases empty : raw = 0
    · have never : ¬ p.Refuses raw size b := fun refused => refused.2.1 empty
      rw [or_iff_left never]
      have alloc : p.mem.alloc size = (a, mem) := by
        rw [empty] at realloc
        exact Option.some.inj ((if_pos rfl).symm.trans realloc)
      exact kept.alloc_lost alloc empty b
    · obtain ⟨block, away, _⟩ := kept.unlist inside held empty
      have refuses : p.Refuses raw size b ↔ b = raw ∧ a = 0 ∧ raw ∈ mem.blocks := by
        refine and_congr_right fun _ => ?_
        constructor
        · rintro ⟨_, _, mem', refused, stays⟩
          cases realloc.symm.trans refused
          exact ⟨rfl, stays⟩
        · rintro ⟨rfl, stays⟩
          exact ⟨empty, by rw [find]; simpa using null, mem, realloc, stays⟩
      rw [refuses]
      refine kept.realloc_lost empty block away realloc b ?_
      rintro rfl x here other same
      exact other (kept.distinct x here l inside (same.trans held.symm) fun none =>
        empty (same.symm.trans none))

theorem Leaves.frame {p' : Pool} (leaves : Leaves p lost) (blocks : p'.mem.blocks = p.mem.blocks)
    (pool : p'.pool = p.pool) (next : ∀ c, (p'.d c).next = (p.d c).next) (large : p'.large = p.large)
    (larges : p'.larges = p.larges) : Leaves p' lost := by
  obtain ⟨chain, heads, chained, listed, same⟩ := leaves
  refine ⟨chain, heads, ?_, ?_, fun b => ?_⟩
  · rw [pool]
    exact linked_congr chained fun c _ => next c
  · rw [large, larges]
    exact listed
  · rw [← same b, Lost, Lost, blocks, larges]

theorem Kept.leaves (kept : Kept p chain heads L) : Leaves p (Lost p chain heads) :=
  ⟨chain, heads, kept.chained, kept.listed, fun _ => Iff.rfl⟩

theorem Kept.grow_lost (kept : Kept p chain heads L) {s : Stack} {answer : Option Stack × Pool}
    (run : s.grow p = some answer) : Leaves answer.2 (Lost p chain heads) := by
  rw [Stack.grow] at run
  split at run
  · split at run
    · cases run
      refine kept.leaves.frame rfl rfl (fun c => ?_) rfl rfl
      dsimp only
      rw [Function.update_apply]
      split
      · rename_i same
        rw [same]
      · rfl
    · obtain ⟨⟨a, p'⟩, palloc, same⟩ := Option.map_eq_some_iff.mp run
      have leaves := kept.palloc_lost palloc
      dsimp only at same leaves
      rw [← same]
      split
      · exact leaves
      · exact leaves.frame rfl rfl (fun _ => rfl) rfl rfl
  · cases run
    exact kept.leaves

theorem Kept.push_lost (kept : Kept p chain heads L) {s : Stack} {answer : Nat × Stack × Pool}
    (run : s.push p = some answer) : Leaves answer.2.2 (Lost p chain heads) := by
  obtain ⟨⟨grown, p'⟩, grow, same⟩ := Option.map_eq_some_iff.mp run
  have leaves := kept.grow_lost grow
  rw [← same]
  cases grown with
  | none => exact leaves
  | some t => exact leaves

end

namespace Run

def Refuses (r : Run) : Op → Nat → Prop
  | .preallocLarge _ raw size, b => r.pool.Refuses raw size b
  | _, _ => False

/-- The blocks of all refused reallocations of a run. -/
def Refused (r : Run) : List Op → Nat → Prop
  | [], _ => False
  | op :: ops, b => r.Refuses op b ∨ ∃ out, r.step op = some out ∧ out.2.Refused ops b

def AllowedRun (r : Run) : List Op → Prop
  | [] => True
  | op :: ops => r.Contract op ∧ r.Roomy op ∧ ∀ out, r.step op = some out → out.2.AllowedRun ops

section
variable {r : Run} {chain heads : List Nat} {L : Layout Owner}

theorem Held.step_lost {op : Op} {out : Nat × Run} (held : r.Held chain heads L)
    (step : r.step op = some out) :
    Leaves out.2.pool fun b => Lost r.pool chain heads b ∨ r.Refuses op b := by
  have nothing : ∀ {p : Pool}, Leaves p (Lost r.pool chain heads) →
      Leaves p fun b => Lost r.pool chain heads b ∨ False := fun leaves =>
    leaves.congr fun _ => (or_iff_left id).symm
  cases op with
  | palloc n size =>
    obtain ⟨res, run, rfl⟩ := Option.map_eq_some_iff.mp step
    exact nothing (held.kept.palloc_lost run)
  | pnalloc n size =>
    obtain ⟨res, run, rfl⟩ := Option.map_eq_some_iff.mp step
    exact nothing (held.kept.pnalloc_lost run)
  | pallocLarge n size =>
    obtain ⟨res, run, rfl⟩ := Option.map_eq_some_iff.mp step
    exact nothing (held.kept.pallocLarge_lost run)
  | preallocLarge n raw size =>
    obtain ⟨res, run, rfl⟩ := Option.map_eq_some_iff.mp step
    exact held.kept.preallocLarge_lost run
  | pfree raw =>
    obtain ⟨res, run, rfl⟩ := Option.map_eq_some_iff.mp step
    exact nothing (held.kept.pfree_lost run)
  | write n offset v =>
    obtain ⟨s, here, rfl⟩ := Option.map_eq_some_iff.mp step
    exact nothing (held.kept.leaves.frame rfl rfl (fun _ => rfl) rfl rfl)
  | stackInit k n size =>
    obtain ⟨res, run, rfl⟩ := Option.map_eq_some_iff.mp step
    obtain ⟨res', run', rfl⟩ := Option.map_eq_some_iff.mp run
    exact nothing (held.kept.palloc_lost run')
  | push k v =>
    obtain ⟨s, here, run⟩ := Option.bind_eq_some_iff.mp step
    obtain ⟨res, run', rfl⟩ := Option.map_eq_some_iff.mp run
    have leaves := nothing (held.kept.push_lost run')
    dsimp only
    split
    · exact leaves
    · exact leaves.frame rfl rfl (fun _ => rfl) rfl rfl
  | pop k =>
    obtain ⟨s, here, rfl⟩ := Option.map_eq_some_iff.mp step
    exact nothing held.kept.leaves

theorem Held.lost {ops : List Op} (held : r.Held chain heads L) (allowed : r.AllowedRun ops) :
    ∃ chain' heads' L', (r.after ops).Held chain' heads' L' ∧
      ∀ b, Lost (r.after ops).pool chain' heads' b ↔ Lost r.pool chain heads b ∨ r.Refused ops b := by
  induction ops generalizing r chain heads L with
  | nil => exact ⟨chain, heads, L, held, fun b => (or_iff_left id).symm⟩
  | cons op ops ih =>
    obtain ⟨contract, roomy, rest⟩ := allowed
    obtain ⟨out, chain1, heads1, L1, step, _, held1⟩ := held.step contract roomy
    obtain ⟨chain2, heads2, chained, listed, same⟩ := held.step_lost step
    obtain rfl := linked_unique held1.kept.chained chained
    obtain rfl := linked_unique held1.kept.listed listed
    obtain ⟨chain', heads', L', held', same'⟩ := ih held1 (rest out step)
    have refused : ∀ b, r.Refused (op :: ops) b ↔ r.Refuses op b ∨ out.2.Refused ops b := by
      intro b
      refine or_congr_right ⟨?_, fun later => ⟨out, step, later⟩⟩
      rintro ⟨other, step', later⟩
      cases step.symm.trans step'
      exact later
    rw [after, step, Option.getD_some]
    exact ⟨chain', heads', L', held', fun b => by rw [same', same, refused, or_assoc]⟩

end

theorem createPool_blocks {supply : List Answer} {bytes : Nat → UInt8} {size : Nat} {p : Pool}
    (made : createPool (Memory.start supply bytes) size = some p) : p.mem.blocks = [p.pool] := by
  unfold createPool at made
  obtain none' | ⟨a, fresh, some'⟩ := (Memory.start supply bytes).alloc_cases size
  · rw [none'] at made
    cases made
  · rw [some'] at made
    dsimp only at made
    rw [if_neg (Nat.ne_of_gt fresh.1)] at made
    cases made
    rfl

/-- Whatever was allocated, freed and pushed in a pool, destroying it gives every block that is
    still in use back to the system, once, but for the blocks whose reallocation was refused:
    these are lost. -/
theorem pool_is_given_back (supply : List Answer) (bytes : Nat → UInt8) (size : Nat) (ops : List Op)
    (aligned : size % 8 = 0) (wide : 4096 ≤ size) :
    ∀ p ∈ createPool (Memory.start supply bytes) size, (start p).AllowedRun ops →
      ∃ m, ((start p).after ops).pool.destroyPool = some m ∧
        ∀ b, b ∈ m.blocks ↔ (start p).Refused ops b := by
  intro p made allowed
  obtain ⟨L, kept⟩ := createPool_kept aligned wide made
  have held : (start p).Held [p.pool] [] L :=
    ⟨kept, fun _ _ none => (by cases none), fun _ _ none => (by cases none)⟩
  obtain ⟨chain, heads, L', held', same⟩ := held.lost allowed
  obtain ⟨m, destroy, left⟩ := held'.kept.destroyPool
  refine ⟨m, destroy, fun b => (left b).trans ((same b).trans (or_iff_right ?_))⟩
  rintro ⟨block, away, _⟩
  rw [start, createPool_blocks made] at block
  exact away block

def losing : List Op := [.pallocLarge 0 5000, .preallocLarge 1 8192 6000]

theorem losing_made :
    (createPool (Memory.start [.got 4096, .got 8192, .refused] fun _ => 0) 4096).isSome := by
  decide +kernel

def losingStart : Run :=
  start ((createPool (Memory.start [.got 4096, .got 8192, .refused] fun _ => 0) 4096).get losing_made)

theorem losing_step : (losingStart.step (.pallocLarge 0 5000)).isSome := by decide +kernel

def losingNext : Nat × Run := (losingStart.step (.pallocLarge 0 5000)).get losing_step

theorem losing_refused : losingNext.2.Refuses (.preallocLarge 1 8192 6000) 8192 := by
  have answer : (losingNext.2.pool.mem.realloc 8192 6000).map Prod.fst = some 0 := by decide +kernel
  have stays : (losingNext.2.pool.mem.realloc 8192 6000).all fun out => decide (8192 ∈ out.2.blocks) := by
    decide +kernel
  obtain ⟨⟨a, mem⟩, realloc, rfl⟩ := Option.map_eq_some_iff.mp answer
  rw [realloc] at stays
  exact ⟨rfl, by decide, by decide +kernel, mem, realloc, of_decide_eq_true stays⟩

theorem losing_allowed : losingStart.AllowedRun losing := by
  refine ⟨trivial, trivial, fun out next => ⟨fun k s found => ?_, trivial, fun _ _ => trivial⟩⟩
  have handed : (losingStart.pool.pallocLarge 5000).map (losingStart.hand 0 5000) = some out := next
  obtain ⟨res, _, rfl⟩ := Option.map_eq_some_iff.mp handed
  cases found

theorem pool_is_given_back_once : ∃ m, (losingStart.after losing).pool.destroyPool = some m ∧
    8192 ∈ m.blocks ∧ 4096 ∉ m.blocks := by
  obtain ⟨m, destroy, left⟩ := pool_is_given_back [.got 4096, .got 8192, .refused] (fun _ => 0) 4096
    losing rfl (Nat.le_refl _) _ (Option.some_get losing_made).symm losing_allowed
  refine ⟨m, destroy, (left 8192).mpr ?_, fun here => ?_⟩
  · exact Or.inr ⟨losingNext, (Option.some_get losing_step).symm, Or.inl losing_refused⟩
  · rcases (left 4096).mp here with none | ⟨_, _, ⟨same, _⟩ | ⟨_, _, none⟩⟩
    · exact none
    · exact absurd same (by decide)
    · exact none

end Run
end EtdbPool
