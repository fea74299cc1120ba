import Mathlib.Algebra.Order.Ring.Int
import Mathlib.Data.List.Perm.Subperm
import Etdb.Trie.Growth

/- Runs in front of an allocator that can fail. A trie in use keeps growing, so every failure
   that lies ahead is met in the end; until then nothing tells it from a trie with memory to
   spare. -/
namespace EtdbTrie
open ByteTree Trie

structure Serves (t : Trie) (m : Entries) : Prop where
  found : ∀ key, key ≠ [] → t.exactMatchSearch key = some ((m key).getD noValue)
  longest : ∀ key, t.matchLongestSearch key = some (m.longest [] none key)
  paths : ∀ key, t.commonPrefixPathSearch key ≠ none
  numKeys : ∃ n, t.numKeys = some n ∧ m.Size n

/-- With these results of the coming reallocations the calls stay in the arrays, whatever they
    are and however many, and what they store can be found. -/
def Withstands (t : Trie) (m : Entries) (rs : List Bool) : Prop :=
  ∀ calls, (∀ c ∈ calls, c.Valid) → m.RoomyRun calls →
    ∃ t', (t.supply rs).calls calls = some (m.answers calls, t') ∧ Serves t' (m.after calls)

section
variable {t t' : Trie} {T : ByteTree.Tree Int} {m : Entries} {rs : List Bool} {n k : Nat}

theorem serves_of_good (good : Good t T) (models : Models T m)
    (nonneg : ∀ key x, m key = some x → 0 ≤ x) : Serves t m where
  found := fun key _ => models.search good nonneg key
  longest := matchLongestSearch_spec good models
  paths := by
    intro key
    have search := commonPrefixPathSearch_spec good key
    by_cases missing : answer T (pathOf key) = noPath
    · rw [search.1 missing]
      exact Option.some_ne_none _
    · obtain ⟨out, run, _⟩ := search.2 missing
      rw [run]
      exact Option.some_ne_none _
  numKeys := numKeys_spec good models

theorem Serves.supply (serves : Serves t m) (rs : List Bool) : Serves (t.supply rs) m := by
  have c := unseen_arm rs t.capacity
  have same : t.supply rs = t.arm rs t.capacity := rfl
  refine ⟨fun key some => ?_, fun key => ?_, fun key => ?_, ?_⟩
  · rw [same, c.exactMatchSearch]
    exact serves.found key some
  · rw [same, c.matchLongestSearch]
    exact serves.longest key
  · rw [same, c.commonPrefixPathSearch]
    exact serves.paths key
  · rw [same, c.numKeys]
    exact serves.numKeys

theorem withstands_of_granted (good : Good t T) (models : Models T m)
    (nonneg : ∀ key x, m key = some x → 0 ≤ x) (granted : false ∉ rs) : Withstands t m rs := by
  intro calls valid roomy
  obtain ⟨t', T', run, good', models', nonneg'⟩ := calls_spec calls good models nonneg valid roomy
  obtain ⟨k, _, fine, _⟩ := calls_weathers good models nonneg valid roomy run rs
  exact ⟨_, fine fun early => granted (List.mem_of_mem_take early),
    (serves_of_good good' models' nonneg').supply _⟩

theorem numKeysFrom_le (t : Trie) (n : Nat) (run : t.numKeysFrom n = some k) : k ≤ n := by
  induction n generalizing k with
  | zero =>
    obtain rfl := Option.some.inj run
    exact Nat.le_refl 0
  | succ n ih =>
    obtain ⟨i, before, run⟩ := Option.bind_eq_some_iff.mp run
    obtain ⟨c, _, run⟩ := Option.bind_eq_some_iff.mp run
    have := ih before
    split at run
    · obtain ⟨p, _, last⟩ := Option.bind_eq_some_iff.mp run
      have last := Option.some.inj last
      split at last <;> omega
    · have last := Option.some.inj run
      omega

theorem keys_fit (good : Good t T) (models : Models T m) {keys : List (List UInt8)} (nodup : keys.Nodup)
    (held : ∀ key ∈ keys, m key ≠ none) : (keys.length : Int) ≤ t.capacity := by
  obtain ⟨n, run, all, _, member, rfl⟩ := numKeys_spec good models
  have cells := numKeysFrom_le t _ run
  have few := (nodup.subperm fun key inside => (member key).mpr (held key inside)).length_le
  have size := good.free.sized.le; have pos := good.free.sized.pos
  omega

def repeatedKeys (n : Nat) : List (List UInt8) := (List.range n).map fun i => List.replicate (i + 1) 1

theorem repeatedKeys_nodup (n : Nat) : (repeatedKeys n).Nodup := by
  refine List.nodup_range.map fun i j same => ?_
  have := congrArg List.length same
  simpa using this

theorem storeAll_valid {keys : List (List UInt8)} (proper : [] ∉ keys) : ∀ c ∈ storeAll keys 0,
    c.Valid := by
  intro c inside
  obtain ⟨key, member, rfl⟩ := List.mem_map.mp inside
  exact ⟨fun empty => proper (empty ▸ member), Int.le_refl 0⟩

/-- Enough keys take the results past any failure. -/
theorem granted_of_withstands (good : Good t T) (models : Models T m)
    (nonneg : ∀ key x, m key = some x → 0 ≤ x) (withstands : Withstands t m rs) : false ∉ rs := by
  intro ahead
  have pos : 256 ≤ t.capacity := Int.le_trans good.free.sized.pos good.free.sized.le
  let n := (2 ^ rs.length * t.capacity).toNat + 1
  have proper : [] ∉ repeatedKeys n := by simp [repeatedKeys, List.replicate_succ]
  have valid := storeAll_valid proper
  have roomy := storeAll_roomy m (repeatedKeys n) 0
  obtain ⟨t', T', run, good', models', _⟩ := calls_spec _ good models nonneg valid roomy
  obtain ⟨k, grown, _, bad⟩ := calls_weathers good models nonneg valid roomy run rs
  have held : ∀ key ∈ repeatedKeys n, m.after (storeAll (repeatedKeys n) 0) key ≠ none := by
    intro key inside
    rw [storeAll_after, if_pos inside]
    exact Option.some_ne_none 0
  have fit := keys_fit good' models' (repeatedKeys_nodup n) held
  have length : (repeatedKeys n).length = n := by simp [repeatedKeys]
  have far : rs.length < k := by
    by_contra near
    have few : (2 : Int) ^ k ≤ 2 ^ rs.length := pow_le_pow_right₀ (by decide) (by omega)
    have := Int.mul_le_mul_of_nonneg_right few (show 0 ≤ t.capacity by omega)
    omega
  obtain ⟨u, runs, _⟩ := withstands _ valid roomy
  rw [List.take_of_length_le (by omega)] at bad
  rw [bad ahead] at runs
  cases runs

/-- A trie in use withstands the coming results of etdb_realloc when and only when none is a
    failure. -/
theorem withstands_iff (past : List Call) (valid : ∀ c ∈ past, c.Valid)
    (roomy : Entries.empty.RoomyRun past) :
    ∃ t, (init [] >>= fun t => t.calls past) = some (Entries.empty.answers past, t) ∧
      ∀ rs, Withstands t (Entries.empty.after past) rs ↔ false ∉ rs := by
  obtain ⟨t0, run0, good0⟩ := init_good
  have start : ∀ key x, Entries.empty key = some x → 0 ≤ x := fun _ _ held => by cases held
  obtain ⟨t, T, run, good, models, nonneg⟩ := calls_spec past good0 models_empty start valid roomy
  exact ⟨t, bind_run run0 run, fun rs =>
    ⟨granted_of_withstands good models nonneg, withstands_of_granted good models nonneg⟩⟩

theorem withstands_once : ∃ t, (init [] >>= fun t => t.calls [.update [1] 5]) = some ([0], t) ∧
    ∀ rs, Withstands t (Entries.empty.after [.update [1] 5]) rs ↔ false ∉ rs :=
  withstands_iff [.update [1] 5] (by simp [Call.Valid]) ⟨trivial, trivial⟩

/-- The first update of a new trie adds a block, whose cells, infos or list links are then
    not there. -/
theorem failed_growth_breaks : ∃ t, init [] = some t ∧
    ∀ rs ∈ [[false], [true, false], [true, true, false]],
    (t.supply rs).update [1] 5 = none ∧ ¬ Withstands t Entries.empty rs := by
  obtain ⟨t, run, _⟩ := init_good
  refine ⟨t, run, fun rs inside => ?_⟩
  have stops : ∀ rs ∈ [[false], [true, false], [true, true, false]],
      ((init []).bind fun t => (t.supply rs).update [1] 5).isNone := by decide +kernel
  have none := Option.isNone_iff_eq_none.mp (stops rs inside)
  rw [run, Option.bind_some] at none
  refine ⟨none, fun withstands => ?_⟩
  obtain ⟨u, runs, _⟩ := withstands [.update [1] 5] (by simp [Call.Valid]) ⟨trivial, trivial⟩
  obtain ⟨r, called, _⟩ := Option.bind_eq_some_iff.mp runs
  rw [show (t.supply rs).call (.update [1] 5) = _ from none] at called
  cases called

end
end EtdbTrie
