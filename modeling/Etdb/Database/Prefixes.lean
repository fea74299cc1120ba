import Etdb.Database.Maps

/- etdb_database_kv_match_longest in a slot that any commands were run on. -/
namespace EtdbDatabase
open EtdbTrie

/-- The answer is the record of the longest stored key that a query begins with, and how
    many bytes of the query that is; there is none only when no stored key begins it. -/
def Db.LongestMatch (db : Db) (stored : List UInt8 → Prop) (query : List UInt8) :
    Option (Nat × List UInt8) → Prop
  | none => ∀ key, key <+: query → ¬ stored key
  | some (matchLen, bytes) => ∃ key p, key <+: query ∧ stored key ∧ matchLen = key.length ∧
      (∀ other, other <+: query → stored other → other.length ≤ matchLen) ∧
      db.kvGet key = some (some bytes) ∧ db.trie.exactMatchSearch (Db.encodeKvHead key) = some p ∧
      db.trie.matchLongestSearch (Db.encodeKvHead query) = some (some (p, matchLen + 1))

section
variable {db : Db} {L : Layout} {S : Store} {s : Ideal} {atof : List UInt8 → Option ℚ} {op : Op}
    {ops : List Op}
variable {query key bytes : List UInt8} {matchLen : Nat} {α : Type} {f : List UInt8 → Option α} {a : α}

theorem inits_longer (query : List UInt8) : query.inits.reverse.Pairwise fun P P' =>
    P'.length ≤ P.length := by
  rw [List.pairwise_reverse]
  induction query with
  | nil => exact List.pairwise_singleton _ _
  | cons word rest ih =>
    rw [List.inits_cons]
    refine List.Pairwise.cons (fun P _ => Nat.zero_le _) ?_
    rw [List.pairwise_map]
    exact ih.imp fun shorter => Nat.succ_le_succ shorter

theorem findSome_longest (hit : query.inits.reverse.findSome? f = some a) : ∃ key, key <+: query ∧
    f key = some a ∧ ∀ other, other <+: query → (f other).isSome → other.length ≤ key.length := by
  obtain ⟨before, key, rest, split, here, missed⟩ := List.findSome?_eq_some_iff.mp hit
  have sorted := inits_longer query
  have member : ∀ other, other <+: query ↔ other ∈ before ++ key :: rest := by
    intro other
    rw [← split, List.mem_reverse, List.mem_inits]
  rw [split, List.pairwise_append] at sorted
  refine ⟨key, (member key).mpr (by simp), here, fun other begins found => ?_⟩
  rcases List.mem_append.mp ((member other).mp begins) with early | late
  · rw [missed other early] at found
    cases found
  · rcases List.mem_cons.mp late with rfl | later
    · exact le_refl _
    · exact List.rel_of_pairwise_cons sorted.2.1 later

theorem findSome_missing (missing : query.inits.reverse.findSome? f = none)
    (begins : key <+: query) : f key = none :=
  List.findSome?_eq_none_iff.mp missing key (List.mem_reverse.mpr ((List.mem_inits key query).mpr begins))

def KvKept (S : Store) (s : Ideal) : Prop :=
  ∀ key, S (Db.encodeKvHead key) = (s.kv key).map fun value => .bytes (Store.kept 24 value)

theorem KvKept.step (kept : KvKept S s) : KvKept (S.apply atof op) (s.apply atof op) := by
  intro key
  by_cases other : op.kind = .kv
  · cases op with
    | kvSet k value =>
      by_cases same : key = k
      · simp [Store.apply, Ideal.apply, same]
      · simp [Store.apply, Ideal.apply, kv_key, same, kept key]
    | kvDel k =>
      by_cases same : key = k
      · simp [Store.apply, Ideal.apply, same]
      · simp [Store.apply, Ideal.apply, kv_key, same, kept key]
    | kvGet _ => exact kept key
    | kvMatchLongest _ => exact kept key
    | _ => cases other
  · rw [away_kv other, Ideal.apply_kv other, kept key]

theorem KvKept.run (kept : KvKept S s) : KvKept (S.after atof ops) (s.after atof ops) := by
  induction ops generalizing S s with
  | nil => exact kept
  | cons op rest ih => exact ih kept.step

theorem KvKept.stored (kept : KvKept S s) : (s.kv key).isSome ↔
    (S.value (Db.encodeKvHead key)).isSome := by
  rw [Store.value, kept key]
  cases s.kv key <;> exact Iff.rfl

theorem walk_entry (holds : Holds db L S) (found : S.longest query = some (matchLen, bytes))
    (begins : key <+: query)
    (long : matchLen = key.length) : ∃ p, db.trie.exactMatchSearch (Db.encodeKvHead key) = some p ∧
      db.trie.matchLongestSearch (Db.encodeKvHead query) = some (some (p, matchLen + 1)) := by
  have headed : ValueHeaded Db.kvHead typeKv := Or.inl ⟨rfl, rfl⟩
  have entry : ∀ P, (S.value (Db.encodeKvHead P)).isSome ↔
    ∃ v, L.entries (Db.encodeKvHead P) = some v := by
    intro P
    constructor
    · intro stored
      refine Option.ne_none_iff_exists'.mp fun missing => ?_
      rw [Store.value, show S (Db.encodeKvHead P) = none from (holds.none_iff (headed.plain P).2).mp
        missing] at stored
      cases stored
    · rintro ⟨v, held⟩
      obtain ⟨node, stored, _⟩ := holds.value headed held
      rw [Store.value, show S (Db.encodeKvHead P) = _ from stored]
      rfl
  obtain ⟨last, starts, here, longest⟩ := findSome_longest found
  obtain ⟨value, stored, pair⟩ := Option.map_eq_some_iff.mp here
  obtain ⟨rfl, _⟩ := Prod.mk.inj pair
  have same : last = key := (List.prefix_of_prefix_length_le starts begins
    (le_of_eq long)).eq_of_length long
  subst same
  obtain ⟨v, held⟩ := (entry last).mp (by rw [stored]; rfl)
  have walk := holds.stores.longest (Db.encodeKvHead query)
  rw [longest_entry] at walk
  refine ⟨v, by rw [holds.stores.search, held]; rfl, walk.trans (congrArg some ?_)⟩
  -- the walk hits the key, and no longer one
  cases hit : query.inits.reverse.findSome? fun P => (L.entries (Db.encodeKvHead P)).map fun v =>
    (v, P.length + 1) with
  | none =>
    have missing := findSome_missing hit starts
    rw [held] at missing
    cases missing
  | some best =>
    obtain ⟨other, starts', here', longest'⟩ := findSome_longest hit
    obtain ⟨v', held', rfl⟩ := Option.map_eq_some_iff.mp here'
    have first : other.length ≤ last.length :=
      longest other starts' (by simpa using (entry other).mpr ⟨v', held'⟩)
    have second : last.length ≤ other.length := longest' last starts (by simp [held])
    have same : other = last :=
      (List.prefix_of_prefix_length_le starts' starts first).eq_of_length (le_antisymm first second)
    subst same
    rw [held] at held'
    rw [Option.some.inj held']

theorem longestMatch_spec (holds : Holds db L S) (kept : KvKept S s) (query : List UInt8) :
    ∃ answer, db.kvMatchLongest query = some answer ∧
      db.LongestMatch (fun key => (s.kv key).isSome) query answer := by
  refine ⟨S.longest query, kvMatchLongest_spec holds query, ?_⟩
  cases found : S.longest query with
  | none =>
    intro key begins stored
    have missing := findSome_missing found begins
    rw [Option.map_eq_none_iff] at missing
    rw [kept.stored, missing] at stored
    cases stored
  | some pair =>
    obtain ⟨matchLen, bytes⟩ := pair
    obtain ⟨key, begins, here, longest⟩ := findSome_longest found
    obtain ⟨value, stored, pair⟩ := Option.map_eq_some_iff.mp here
    obtain ⟨rfl, rfl⟩ := Prod.mk.inj pair
    obtain ⟨p, search, walk⟩ := walk_entry holds found begins rfl
    refine ⟨key, p, begins, kept.stored.mpr (by rw [stored]; rfl), rfl, fun other starts set =>
      ?_, ?_, search, walk⟩
    · exact longest other starts (by simpa using kept.stored.mp set)
    · rw [kvGet_run holds, stored]

/-- Whatever was run on a slot, a query finds the record of the longest kv key that it
    begins with, and no entry of another type. -/
theorem longest_key_matches (atof : List UInt8 → Option ℚ) (ops : List Op) :
    ∃ replies db, (Db.init >>= fun db => db.run atof ops) = some (replies, db) ∧
      ∀ query, ∃ answer, db.kvMatchLongest query = some answer ∧
        db.LongestMatch (fun key => ((Ideal.empty.after atof ops).kv key).isSome) query answer := by
  obtain ⟨replies, db, L, run, holds, _⟩ := reached_holds atof ops
  have kept : KvKept (Store.empty.after atof ops) (Ideal.empty.after atof ops) := KvKept.run fun _ => rfl
  exact ⟨replies, db, run, fun query => longestMatch_spec holds kept query⟩

end
end EtdbDatabase
