import Etdb.Trie.Longest

/- A trie that holds keys with type heads and non-negative values, as the database keeps
   it: every call answers from the stored entries, and a call on a key leaves what is
   stored under the other heads in place. -/
namespace EtdbTrie
open ByteTree Trie

structure Stores (t : Trie) (T : ByteTree.Tree Int) (m : Entries) : Prop where
  good : Good t T
  models : Models T m
  typed : ∀ key, m key ≠ none → Typed key
  nonneg : ∀ key v, m key = some v → 0 ≤ v

/-- Two trees differ only below the given heads. -/
def Apart (heads : List UInt8) (T T' : ByteTree.Tree Int) : Prop := ∀ a, a ∉ heads → Tree.SameBelow a T T'

section
variable {t t' : Trie} {T T' T'' : ByteTree.Tree Int} {m m' : Entries} {head a : UInt8}
    {rest : List UInt8} {v : Int}
variable {heads : List UInt8} {w : Path}

theorem Apart.refl (heads : List UInt8) (T : ByteTree.Tree Int) : Apart heads T T := fun a _ => .refl a T

theorem Apart.trans (apart : Apart heads T T') (apart' : Apart heads T' T'') : Apart heads T T'' :=
  fun a out => (apart a out).trans (apart' a out)

theorem Apart.mono {more : List UInt8} (apart : Apart heads T T') (subset : heads ⊆ more) :
    Apart more T T' :=
  fun a out => apart a (fun inside => out (subset inside))

theorem head_first (type : head ∈ typeHeads) (rest : List UInt8) :
    (encode (head :: rest)).head? = some head := by
  rw [encode_cons, labelsOf_plain (head_plain type).1 (head_plain type).2]
  rfl

theorem head_last (type : head ∈ typeHeads) (rest : List UInt8) :
    (pathOf (head :: rest)).getLast? = some head := by
  rw [path_last, head_first type]

theorem init_stores : ∃ t, init [] = some t ∧ Stores t (Tree.empty 0) Entries.empty := by
  obtain ⟨t, run, good⟩ := init_good
  exact ⟨t, run, good, models_empty, fun _ held => absurd rfl held, fun _ _ held => by cases held⟩

theorem Stores.previous (stores : Stores t T m) (key : List UInt8) : 0 ≤ (m key).getD 0 := by
  cases held : m key with
  | none => simp
  | some v => exact stores.nonneg key v held

theorem Stores.search (stores : Stores t T m) (key : List UInt8) :
    t.exactMatchSearch key = some ((m key).getD noValue) :=
  stores.models.search stores.good stores.nonneg key

theorem Stores.longest (stores : Stores t T m) (key : List UInt8) :
    t.matchLongestSearch key = some (m.longest [] none key) :=
  matchLongestSearch_spec stores.good stores.models key

theorem Stores.update (stores : Stores t T m) (rest : List UInt8) (type : head ∈ typeHeads)
    (nonneg : 0 ≤ v) : ∃ t' T', t.update (head :: rest) v = some ((m (head :: rest)).getD 0, t') ∧
      Stores t' T' (Function.update m (head :: rest) (some v)) ∧ Apart [head] T T' := by
  have proper : head :: rest ≠ [] := List.cons_ne_nil head rest
  obtain ⟨t', run, good⟩ := update_spec (v := v) stores.good proper
  have models := stores.models.put stores.good proper v
  have typed := kept_typed stores.typed (c := .update (head :: rest) v) ⟨head, rest, rfl, type⟩
  rw [Entries.kept, if_neg (show ¬ m.Refuses (.update (head :: rest) v) from id)] at typed
  rw [stores.models.stored] at run
  refine ⟨t', _, run, ⟨good, models, typed, ?_⟩, fun a other => ?_⟩
  · exact fun key x => nonneg_apply (c := .update (head :: rest) v) stores.nonneg ⟨proper, nonneg⟩ key x
  · exact Tree.put_apart 0 (head_first type rest) (by simpa using other)

theorem Stores.erase (stores : Stores t T m) (rest : List UInt8) (type : head ∈ typeHeads) :
    ∃ t' T', t.erase (head :: rest) = some ((m (head :: rest)).getD (-1), t') ∧
      Stores t' T' (Function.update m (head :: rest) none) ∧ Apart [head] T T' := by
  have typed := kept_typed stores.typed (c := .erase (head :: rest)) ⟨head, rest, rfl, type⟩
  rw [Entries.kept, if_neg (not_refused stores.nonneg _)] at typed
  have nonneg := nonneg_apply (c := .erase (head :: rest)) stores.nonneg (List.cons_ne_nil head rest)
  have stored := stores.models.stored (head :: rest)
  cases value : m (head :: rest) with
  | none =>
    rw [value] at stored
    have same : Function.update m (head :: rest) none = m := Function.update_eq_self_iff.mpr value.symm
    rw [same]
    exact ⟨t, T, erase_missing stores.good stored, stores, .refl _ T⟩
  | some x =>
    rw [value] at stored
    have slot := (Tree.stored_eq_some.mp stored).1
    have positive := stores.nonneg _ x value
    have codes : ¬ (x = noPath ∨ x = noValue) := by
      simp only [noPath, noValue]
      omega
    have room := (stores.models.roomy_iff stores.good value).mp (typed_roomy stores.typed _)
    obtain ⟨t', run, good⟩ := erase_spec stores.good stored codes room
    refine ⟨t', _, run, ⟨good, stores.models.prune stores.good slot, typed, nonneg⟩, fun a other => ?_⟩
    refine Tree.prune_apart (b := head) ?_ (by simpa using other)
    have last := head_last type rest
    obtain ⟨d, u, back⟩ := List.exists_cons_of_ne_nil (show pathOf (head :: rest) ≠ [] by
      intro empty
      rw [empty] at last
      cases last)
    rw [back, List.getLast?_cons_cons, ← back, last]

theorem Stores.list (stores : Stores t T m) (P : List UInt8) :
    ∃ r out, t.commonPrefixPathSearch P = some (r, out) ∧ (out.map Prod.fst).Nodup ∧
      ∀ S v, (S, v) ∈ out ↔ S ≠ [] ∧ 0 ∉ S ∧ m (P ++ S) = some v := by
  have codes : ∀ key v, m key = some v → v ≠ noPath ∧ v ≠ noValue := by
    intro key v held
    have := stores.nonneg key v held
    simp only [noPath, noValue]
    omega
  by_cases found : answer T (pathOf P) ≠ noPath
  · obtain ⟨out, run, nodup, sound, complete⟩ := search_found stores.good stores.models found
    refine ⟨_, out, run, nodup, fun S v => ⟨fun entry => ?_, ?_⟩⟩
    · obtain ⟨some, zero, held, _⟩ := sound S v entry
      exact ⟨some, zero, held⟩
    · rintro ⟨some, zero, held⟩
      exact complete (fun S v held => codes _ v held) S v some zero held
  · obtain ⟨run, empty⟩ := search_missing stores.good stores.models (fun v held => (codes P v held).1)
      (not_not.mp found)
    refine ⟨none, [], run, List.nodup_nil, fun S v => ?_⟩
    simp [empty]

theorem answer_apart (same : Tree.SameBelow a T T') {p : Path} (last : p.getLast? = some a) :
    answer T' p = answer T p := by
  unfold answer
  rw [(same.2 p last).1, (same.2 p last).2]
  simp only [same.mem last]

theorem Trie.Walked.apart (same : Tree.SameBelow a T T') {pending stack : List UInt8}
    {out : List (List UInt8 × Int)} (walked : Walked T w pending stack out) (last : w.getLast? = some a) :
    Walked T' w pending stack out := by
  have deeper : ∀ (c : UInt8) (w : Path), w.getLast? = some a → (pathOf [c] ++ w).getLast? = some a := by
    intro c w last
    rw [List.getLast?_append, last, Option.some_or]
  induction walked with
  | done w stack => exact .done w stack
  | @skip w c rest stack out missing next ih =>
    refine .skip ?_ (ih last)
    rw [answer_apart same (deeper c w last)]
    exact missing
  | @enter w c rest stack below out found inside next ihBelow ihNext =>
    have here := answer_apart same (deeper c w last)
    rw [← here] at found ⊢
    refine .enter found ?_ (ihNext last)
    unfold named
    rw [(same.2 _ (deeper c w last)).1]
    exact ihBelow (deeper c w last)

theorem Trie.Walked.unique {pending stack : List UInt8} {out out' : List (List UInt8 × Int)}
    (walked : Walked T w pending stack out) (walked' : Walked T w pending stack out') : out = out' := by
  induction walked generalizing out' with
  | done => cases walked'; rfl
  | skip missing next ih =>
    cases walked' with
    | skip _ next' => exact ih next'
    | enter found _ _ => exact absurd missing found
  | enter found inside next ihBelow ihNext =>
    cases walked' with
    | skip missing _ => exact absurd missing found
    | enter _ inside' next' => rw [ihBelow inside', ihNext next']

theorem search_apart (good : Good t T) (good' : Good t' T') (type : head ∈ typeHeads)
    (same : Tree.SameBelow head T T') (rest : List UInt8) :
    t'.commonPrefixPathSearch (head :: rest) = t.commonPrefixPathSearch (head :: rest) := by
  have last := head_last type rest
  have here := answer_apart same last
  obtain ⟨missing, found⟩ := commonPrefixPathSearch_spec good (head :: rest)
  obtain ⟨missing', found'⟩ := commonPrefixPathSearch_spec good' (head :: rest)
  rw [here] at missing' found'
  by_cases path : answer T (pathOf (head :: rest)) = noPath
  · rw [missing path, missing' path]
  · obtain ⟨out, run, walked⟩ := found path
    obtain ⟨out', run', walked'⟩ := found' path
    have kids : named T' (pathOf (head :: rest)) = named T (pathOf (head :: rest)) := by
      unfold named
      rw [(same.2 _ last).1]
    rw [kids] at walked'
    rw [run, run', (walked.apart same last).unique walked']

theorem Stores.apart (stores : Stores t T m) (stores' : Stores t' T' m') (type : head ∈ typeHeads)
    (same : Tree.SameBelow head T T') (rest : List UInt8) : m' (head :: rest) = m (head :: rest) := by
  rw [← stores.models.stored, ← stores'.models.stored]
  exact same.stored (head_last type rest)

end
end EtdbTrie
