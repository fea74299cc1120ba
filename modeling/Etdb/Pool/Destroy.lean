import Etdb.Pool.Runs

/- etdb_destroy_pool. Each block of the pool goes back to the system once, and what no list
   leads to stays behind. -/
namespace EtdbPool
open NullLinked
open Function (update)

def freeLarges (larges : Nat → PoolLarge) : Nat → Nat → Memory → Option Memory
  | 0, _, _ => none
  | turns + 1, l, mem =>
    if l = 0 then some mem
    else if (larges l).alloc = 0 then freeLarges larges turns (larges l).next mem
    else do
      let mem ← mem.free (larges l).alloc
      freeLarges larges turns (larges l).next mem

/-- The loop over the chunks; `n` is the one whose header is read behind the free. -/
def freeChunks (d : Nat → PoolData) : Nat → Nat → Nat → Memory → Option Memory
  | 0, _, _, _ => none
  | turns + 1, p, n, mem => do
    let mem ← mem.free p
    if n = 0 then some mem
    else if n ∈ mem.blocks then freeChunks d turns n (d n).next mem
    else none

/-- etdb_destroy_pool; a free of what is not in use, and a header that is read in memory that
    was freed, end the run with none. -/
def Pool.destroyPool (p : Pool) : Option Memory := do
  let mem ← freeLarges p.larges addresses p.large p.mem
  freeChunks p.d addresses p.pool (p.d p.pool).next mem

def Lost (p : Pool) (chain heads : List Nat) (b : Nat) : Prop :=
  b ∈ p.mem.blocks ∧ b ∉ chain ∧ ∀ h ∈ heads, (p.larges h).alloc ≠ b

section
variable {p : Pool} {chain heads : List Nat} {L : Arena.Layout Owner} {m : Memory} {b q turns : Nat}

theorem mem_remove : b ∈ (m.remove q).blocks ↔ b ∈ m.blocks ∧ b ≠ q :=
  List.mem_filter.trans (and_congr_right fun _ => decide_eq_true_iff)

/-- By induction on the list; no block is in two entries. -/
theorem freeLarges_spec {larges : Nat → PoolLarge} (linked : Linked 0 (fun h => (larges h).next) q heads)
    (short : heads.length < turns) (nodup : heads.Nodup)
    (distinct : Distinct heads fun h => (larges h).alloc)
    (live : ∀ h ∈ heads, (larges h).alloc ≠ 0 → (larges h).alloc ∈ m.blocks) :
    ∃ m', freeLarges larges turns q m = some m' ∧
      ∀ b, b ∈ m'.blocks ↔ b ∈ m.blocks ∧ ∀ h ∈ heads, (larges h).alloc ≠ 0 → (larges h).alloc ≠ b := by
  induction heads generalizing q turns m with
  | nil =>
    obtain ⟨turns, rfl⟩ : ∃ k, turns = k + 1 :=
      ⟨turns - 1, by simp only [List.length_nil] at short; omega⟩
    refine ⟨m, if_pos linked, fun b => ?_⟩
    simp
  | cons h rest ih =>
    obtain ⟨turns, rfl⟩ : ∃ k, turns = k + 1 := ⟨turns - 1, by rw [List.length_cons] at short; omega⟩
    obtain ⟨rfl, proper, further⟩ := linked
    obtain ⟨out, nodup'⟩ := List.nodup_cons.mp nodup
    have distinct' : Distinct rest fun h => (larges h).alloc := fun x hx y hy =>
      distinct x (List.mem_cons_of_mem q hx) y (List.mem_cons_of_mem q hy)
    have short' := Nat.lt_of_succ_lt_succ short
    rw [freeLarges, if_neg proper]
    by_cases empty : (larges q).alloc = 0
    · rw [if_pos empty]
      obtain ⟨m', run, left⟩ := ih further short' nodup' distinct' fun x hx =>
        live x (List.mem_cons_of_mem q hx)
      refine ⟨m', run, fun b => (left b).trans (and_congr_right fun _ => ?_)⟩
      rw [List.forall_mem_cons]
      exact ⟨fun others => ⟨fun full => absurd empty full, others⟩, fun both => both.2⟩
    · rw [if_neg empty]
      have free : m.free (larges q).alloc = some (m.remove (larges q).alloc) :=
        (if_neg empty).trans (if_pos (live q List.mem_cons_self empty))
      obtain ⟨m', run, left⟩ := ih (m := m.remove (larges q).alloc) further short' nodup' distinct'
        fun x hx full => mem_remove.mpr ⟨live x (List.mem_cons_of_mem q hx) full, fun same =>
          out (distinct x (List.mem_cons_of_mem q hx) q List.mem_cons_self same full ▸ hx)⟩
      refine ⟨m', by rw [free]; exact run, fun b => ?_⟩
      rw [left b, mem_remove, List.forall_mem_cons]
      constructor
      · rintro ⟨⟨here, other⟩, others⟩
        exact ⟨here, fun _ same => other same.symm, others⟩
      · rintro ⟨here, other, others⟩
        exact ⟨⟨here, fun same => other empty same.symm⟩, others⟩

/-- By induction on the chain; the next header is read before its chunk is freed. -/
theorem freeChunks_spec {d : Nat → PoolData} {rest : List Nat}
    (linked : Linked 0 (fun c => (d c).next) q (q :: rest)) (short : rest.length < turns)
    (live : ∀ c ∈ q :: rest, c ∈ m.blocks) : ∃ m', freeChunks d turns q (d q).next m = some m' ∧
      ∀ b, b ∈ m'.blocks ↔ b ∈ m.blocks ∧ b ∉ q :: rest := by
  induction rest generalizing q turns m with
  | nil =>
    obtain ⟨turns, rfl⟩ : ∃ k, turns = k + 1 := ⟨turns - 1, by rw [List.length_nil] at short; omega⟩
    obtain ⟨_, proper, ended⟩ := linked
    have free : m.free q = some (m.remove q) := (if_neg proper).trans (if_pos (live q List.mem_cons_self))
    refine ⟨m.remove q, ?_, fun b => ?_⟩
    · rw [freeChunks, free]
      exact if_pos ended
    · rw [mem_remove, List.mem_singleton]
  | cons c rest ih =>
    obtain ⟨turns, rfl⟩ : ∃ k, turns = k + 1 := ⟨turns - 1, by rw [List.length_cons] at short; omega⟩
    have nodup := List.nodup_cons.mp (linked_nodup linked)
    obtain ⟨_, proper, step, further⟩ := linked
    have free : m.free q = some (m.remove q) := (if_neg proper).trans (if_pos (live q List.mem_cons_self))
    have live' : ∀ x ∈ c :: rest, x ∈ (m.remove q).blocks := fun x inside =>
      mem_remove.mpr ⟨live x (List.mem_cons_of_mem q inside), fun same => nodup.1 (same ▸ inside)⟩
    obtain ⟨m', run, left⟩ := ih ⟨rfl, further⟩ (Nat.lt_of_succ_lt_succ short) live'
    refine ⟨m', ?_, fun b => ?_⟩
    · rw [freeChunks, free]
      dsimp only [bind, Option.bind] at step ⊢
      rw [step, if_neg further.1, if_pos (live' c List.mem_cons_self)]
      exact run
    · rw [left b, mem_remove, List.mem_cons (b := q), not_or, and_assoc]

theorem Kept.heads_short (kept : Kept p chain heads L) : heads.length < addresses := by
  have places : ∀ h ∈ 0 :: heads, h < addresses := by
    intro h member
    rcases List.mem_cons.mp member with rfl | member
    · decide
    · have entry := kept.entries h member
      have inside := (kept.sound.inside _ _ entry.header).2.2
      have bounds := kept.bounds entry.home
      rw [(kept.chunks _ entry.home).last] at inside
      unfold poolLargeSize at inside
      dsimp only at inside
      omega
  exact length_le_addresses (List.nodup_cons.mpr
    ⟨linked_proper kept.listed, linked_nodup kept.listed⟩) places

/-- The pool is given back, but for the blocks that it has lost. -/
theorem Kept.destroyPool (kept : Kept p chain heads L) : ∃ m, p.destroyPool = some m ∧
    ∀ b, b ∈ m.blocks ↔ Lost p chain heads b := by
  obtain ⟨m1, run, left⟩ := freeLarges_spec kept.listed kept.heads_short (linked_nodup kept.listed)
    kept.distinct fun h inside full => ((kept.entries h inside).alloc full).1
  have chained := kept.chained
  have many := length_le_addresses kept.nodup fun c inside =>
    (kept.block (kept.chunks c inside).block).2.2.2
  obtain ⟨rest, first⟩ : ∃ rest, chain = p.pool :: rest := by
    cases chain with
    | nil => exact absurd kept.current List.not_mem_nil
    | cons c rest => exact ⟨rest, by rw [chained.1]⟩
  have live : ∀ c ∈ chain, c ∈ m1.blocks := fun c inside => (left c).mpr ⟨(kept.chunks c inside).block,
    fun h entry full same => ((kept.entries h entry).alloc full).2 (same ▸ inside)⟩
  rw [first] at chained many live
  obtain ⟨m2, run', left'⟩ := freeChunks_spec chained (Nat.lt_of_succ_le many) live
  refine ⟨m2, by rw [Pool.destroyPool, run]; exact run', fun b => ?_⟩
  rw [left' b, left b, ← first, Lost, and_right_comm, and_assoc]
  refine and_congr_right fun here => and_congr_right fun _ => forall₂_congr fun h _ => ?_
  refine ⟨fun other same => ?_, fun other _ => other⟩
  exact other (fun empty => Nat.ne_of_gt (kept.block here).1 (same.symm.trans empty)) same

end
end EtdbPool
