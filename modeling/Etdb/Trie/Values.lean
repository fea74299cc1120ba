import Etdb.Trie.Prefix

/- etdb_trie_common_prefix_search: the values of the keys with a prefix, without their
   suffixes. It takes the way of the path search, and finds what that finds, with the value
   of the prefix itself in front. -/
namespace EtdbTrie
open ByteXor ByteChain ByteTree Trie
namespace Trie

/-- The loop of etdb_trie_common_prefix_search_dfs with the calls it makes; what is pushed
    on the stack comes in order. -/
def valueLoop (t : Trie) : Nat → Int → Int → UInt8 → Option (List Int)
  | 0, _, _, _ => none
  | fuel + 1, origin, base, child =>
    if child = 0 then some []
    else do
      let (b, next) ← t.find origin [child]
      let entered ← (if b = noPath then some [] else do
        let (base', first) ← t.firstChild next
        let below ← t.valueLoop fuel next base' first
        some (if b ≠ noValue then b :: below else below))
      let i ← t.ninfoAt (xorByte base child)
      let rest ← t.valueLoop fuel origin base i.sibling
      some (entered ++ rest)

def commonPrefixSearch (t : Trie) (key : List UInt8) : Option (List Int) := do
  let (b, origin) ← t.find 0 key
  if b = noPath then some []
  else do
    let (base, first) ← t.firstChild origin
    let values ← t.valueLoop (257 * (t.size.toNat + 1)) origin base first
    some (if b ≠ noValue then b :: values else values)

theorem bind_keeps {α α' β β' : Type} {x : Option α} {x' : Option α'} {f : α → Option β}
    {f' : α' → Option β'} (p : α' → α) (q : β' → β) (first : x = x'.map p)
    (rest : ∀ a, f (p a) = (f' a).map q) : (x >>= f) = (x' >>= f').map q := by
  rw [first]
  cases x' with
  | none => rfl
  | some a => exact rest a

/-- The two walks agree on any arrays, whatever labels the path search has behind it. -/
theorem valueLoop_path (t : Trie) (fuel : Nat) (origin base : Int) (child : UInt8) (stack : List UInt8) :
    t.valueLoop fuel origin base child =
      (t.pathLoop fuel origin base child stack).map (List.map Prod.snd) := by
  induction fuel generalizing origin base child stack with
  | zero => rfl
  | succ fuel ih =>
    rw [valueLoop, pathLoop]
    by_cases last : child = 0
    · rw [if_pos last, if_pos last]
      rfl
    rw [if_neg last, if_neg last]
    refine bind_keeps id _ Option.map_id'.symm fun place => ?_
    obtain ⟨b, next⟩ := place
    refine bind_keeps (List.map Prod.snd) _ ?_ fun entered => ?_
    · by_cases missing : b = noPath
      · rw [if_pos missing, if_pos missing]
        rfl
      · rw [if_neg missing, if_neg missing]
        refine bind_keeps id _ Option.map_id'.symm fun child' => ?_
        obtain ⟨base', first⟩ := child'
        refine bind_keeps _ _ (ih next base' first (stack ++ [child])) fun below => ?_
        by_cases value : b = noValue <;> simp [value]
    · refine bind_keeps id _ Option.map_id'.symm fun i => ?_
      refine bind_keeps _ _ (ih origin base i.sibling stack) fun rest => ?_
      simp

end Trie

def CollectsValues (t : Trie) (m : Entries) (P : List UInt8) : Prop :=
  ∃ keys : List (List UInt8), keys.Nodup ∧ (∀ key, key ∈ keys ↔ P <+: key ∧ m key ≠ none) ∧
    ∃ out, t.commonPrefixSearch P = some out ∧ out.map some = keys.map m

section
variable {t : Trie} {T : ByteTree.Tree Int} {m : Entries} {P : List UInt8}

theorem commonPrefixSearch_found (t : Trie) {key : List UInt8} {b origin : Int} {r : Option Int}
    {out : List (List UInt8 × Int)} (found : t.find 0 key = some (b, origin))
    (paths : t.commonPrefixPathSearch key = some (r, out)) :
    t.commonPrefixSearch key =
      some (if b ≠ noPath ∧ b ≠ noValue then b :: out.map Prod.snd else out.map Prod.snd) := by
  rw [Trie.commonPrefixPathSearch, found, Option.bind_eq_bind, Option.bind_some] at paths
  rw [Trie.commonPrefixSearch, found, Option.bind_eq_bind, Option.bind_some]
  dsimp only at paths ⊢
  by_cases missing : b = noPath
  · rw [if_pos missing] at paths ⊢
    cases paths
    simp [missing]
  rw [if_neg missing] at paths ⊢
  rw [Option.bind_eq_bind, Option.bind_eq_some_iff] at paths
  obtain ⟨⟨base, first⟩, child, paths⟩ := paths
  rw [Option.bind_eq_bind, Option.bind_eq_some_iff] at paths
  obtain ⟨entries, walk, pair⟩ := paths
  cases pair
  refine bind_run child ?_
  dsimp only
  rw [valueLoop_path t _ origin base first [], walk, Option.map_some, Option.bind_eq_bind,
    Option.bind_some]
  simp [missing]

/-- The keys whose values are collected: the prefix if it has a value, and those listed. -/
def collected (P : List UInt8) (own : Bool) (out : List (List UInt8 × Int)) : List (List UInt8) :=
  (if own then [P] else []) ++ out.map fun entry => P ++ entry.1

theorem collected_nodup {own : Bool} {out : List (List UInt8 × Int)} (nodup : (out.map Prod.fst).Nodup)
    (proper : ∀ S v, (S, v) ∈ out → S ≠ []) : (collected P own out).Nodup := by
  have later : (out.map fun entry => P ++ entry.1).Nodup := by
    have mapped := nodup.map (List.append_right_injective P)
    rwa [List.map_map] at mapped
  cases own with
  | false => exact later
  | true =>
    refine List.nodup_cons.mpr ⟨fun member => ?_, later⟩
    obtain ⟨⟨S, v⟩, entry, same⟩ := List.mem_map.mp member
    exact proper S v entry (List.append_right_eq_self.mp same)

theorem collects_found (good : Good t T) (models : Models T m) (found : answer T (pathOf P) ≠ noPath) :
    ∃ (keys : List (List UInt8)) (out : List Int), t.commonPrefixSearch P = some out ∧ keys.Nodup ∧
      out.map some = keys.map m ∧
      (∀ key ∈ keys, ∃ S v, key = P ++ S ∧ m key = some v ∧ 0 ∉ S ∧ v ≠ noPath ∧ v ≠ noValue) ∧
      ((∀ S v, m (P ++ S) = some v → v ≠ noPath ∧ v ≠ noValue) →
        ∀ S v, 0 ∉ S → m (P ++ S) = some v → P ++ S ∈ keys) := by
  obtain ⟨origin, start, _⟩ := find_root good P
  obtain ⟨out, run, nodup, sound, complete⟩ := search_found good models found
  refine ⟨collected P (decide (answer T (pathOf P) ≠ noValue)) out, _,
    commonPrefixSearch_found t start run, collected_nodup nodup fun S v entry => (sound S v entry).1,
    ?_, ?_, ?_⟩
  · have later : (out.map Prod.snd).map some = (out.map fun entry => P ++ entry.1).map m := by
      rw [List.map_map, List.map_map]
      refine List.map_congr_left fun entry inside => ?_
      exact (sound entry.1 entry.2 inside).2.2.1.symm
    by_cases value : answer T (pathOf P) ≠ noValue
    · have own : m P = some (answer T (pathOf P)) := by
        rw [← models.stored P, stored_of_answer found value]
      simp [collected, found, value, own, later]
    · simp [collected, value, later]
  · intro key member
    rcases List.mem_append.mp member with own | listed
    · by_cases value : answer T (pathOf P) ≠ noValue
      · rw [if_pos (decide_eq_true value), List.mem_singleton] at own
        refine ⟨[], answer T (pathOf P), by simp [own], ?_, List.not_mem_nil, found, value⟩
        rw [own, ← models.stored P, stored_of_answer found value]
      · rw [if_neg (by simpa using value)] at own
        cases own
    · obtain ⟨⟨S, v⟩, entry, rfl⟩ := List.mem_map.mp listed
      obtain ⟨_, clean, held, codes⟩ := sound S v entry
      exact ⟨S, v, rfl, held, clean, codes⟩
  · intro codes S v clean held
    by_cases same : S = []
    · subst same
      rw [List.append_nil] at held ⊢
      have value := answer_of_stored ((models.stored P).trans held)
      have proper := (codes [] v (by rw [List.append_nil]; exact held)).2
      refine List.mem_append_left _ ?_
      rw [value, if_pos (decide_eq_true proper)]
      exact List.mem_singleton_self P
    · exact List.mem_append_right _ (List.mem_map.mpr ⟨(S, v), complete codes S v same clean held, rfl⟩)

/-- The search collects the values of the keys with a prefix when and only when no suffix
    contains NUL and no value is a failure code: where the path search lists them all. -/
theorem search_collects_values (reached : Reached t m) (P : List UInt8) :
    CollectsValues t m P ↔ ∀ S v, m (P ++ S) = some v → 0 ∉ S ∧ v ≠ noPath ∧ v ≠ noValue := by
  obtain ⟨T, good, models⟩ := reached_good reached
  by_cases found : answer T (pathOf P) ≠ noPath
  · obtain ⟨keys, out, run, nodup, values, sound, complete⟩ := collects_found good models found
    constructor
    · rintro ⟨all, nodup', member, out', run', values'⟩ S v held
      obtain rfl := Option.some.inj (run.symm.trans run')
      have size : all.length = keys.length := by
        have lengths := congrArg List.length (values'.symm.trans values)
        rwa [List.length_map, List.length_map] at lengths
      have inside : keys ⊆ all := by
        intro key listed
        obtain ⟨S, v, rfl, held, _⟩ := sound key listed
        exact (member _).mpr ⟨List.prefix_append P S, by simp [held]⟩
      have perm := (nodup.subperm inside).perm_of_length_le size.le
      have listed := perm.mem_iff.mpr ((member (P ++ S)).mpr ⟨List.prefix_append P S, by simp [held]⟩)
      obtain ⟨S', v', same, held', rest⟩ := sound _ listed
      obtain rfl := List.append_cancel_left same
      obtain rfl := Option.some.inj (held.symm.trans held')
      exact rest
    · intro clean
      refine ⟨keys, nodup, fun key => ⟨fun listed => ?_, ?_⟩, out, run, values⟩
      · obtain ⟨S, v, rfl, held, _⟩ := sound key listed
        exact ⟨List.prefix_append P S, by simp [held]⟩
      · rintro ⟨⟨S, rfl⟩, present⟩
        obtain ⟨v, held⟩ := Option.ne_none_iff_exists'.mp present
        exact complete (fun S v held => (clean S v held).2) S v (clean S v held).1 held
  · have missing := not_not.mp found
    obtain ⟨origin, start, _⟩ := find_root good P
    have run := commonPrefixSearch_found t start ((commonPrefixPathSearch_spec good P).1 missing)
    rw [missing, if_neg (by simp)] at run
    constructor
    · rintro ⟨all, _, member, out', run', values'⟩ S v held
      obtain rfl := Option.some.inj (run.symm.trans run')
      have empty : all = [] := List.map_eq_nil_iff.mp values'.symm
      have listed := (member (P ++ S)).mpr ⟨List.prefix_append P S, by simp [held]⟩
      rw [empty] at listed
      cases listed
    · intro clean
      have own : ∀ v, m P = some v → v ≠ noPath := fun v held =>
        (clean [] v (by rw [List.append_nil]; exact held)).2.1
      have none := (search_missing good models own missing).2
      refine ⟨[], List.nodup_nil, fun key => ⟨fun listed => (by cases listed), ?_⟩, _, run, rfl⟩
      rintro ⟨⟨S, rfl⟩, present⟩
      exact absurd (none S) present

theorem search_collects_values_once : ∃ t, Reached t (Entries.empty.kept (.update [50, 37, 65] 1)) ∧
    (CollectsValues t (Entries.empty.kept (.update [50, 37, 65] 1)) [50] ↔
      ∀ S v, Entries.empty.kept (.update [50, 37, 65] 1) ([50] ++ S) = some v →
        0 ∉ S ∧ v ≠ noPath ∧ v ≠ noValue) := by
  obtain ⟨t, reached⟩ := reached_update [50, 37, 65] 1 (by simp)
  exact ⟨t, reached, search_collects_values reached [50]⟩

end
end EtdbTrie
