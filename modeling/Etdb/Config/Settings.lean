import Etdb.Config.File

/- What is asked for is what the file sets last, and what is written comes back. -/
namespace EtdbConfig
open EtdbTrie EtdbString

abbrev Values := List UInt8 → Option (List UInt8)

/-- The trie leads from each key that is set to the place of its value. -/
def Config.Holds (config : Config) (m : Values) : Prop :=
  ∃ T e, Trie.Good config.trie T ∧ Models T e ∧ ∀ key, (e key = none ∧ m key = none) ∨
    ∃ (n : Nat) (value : List UInt8), e key = some (n : Int) ∧ config.values[n]? = some value ∧
      m key = some value ∧ 0 ∉ value

def Values.set (m : Values) (line : List UInt8) : Values :=
  (setting line).elim m fun e => Function.update m e.1 (some e.2)

section
variable {config : Config} {m : Values} {key value line : List UInt8}

theorem Config.Holds.put (holds : config.Holds m) (key : List UInt8) (clean : 0 ∉ value) :
    ∃ answer trie, config.trie.update key config.values.length = some (answer, trie) ∧
      Config.Holds ⟨trie, config.values ++ [value]⟩
        (if key = [] then m else Function.update m key (some value)) := by
  obtain ⟨T, e, good, models, places⟩ := holds
  have further : ∀ {n : Nat} {v : List UInt8}, config.values[n]? = some v →
      (config.values ++ [value])[n]? = some v := fun here => by
    rw [List.getElem?_append_left (List.getElem?_eq_some_iff.mp here).1, here]
  by_cases empty : key = []
  · rw [if_pos empty]
    refine ⟨-1, config.trie, if_pos empty, T, e, good, models, fun other => ?_⟩
    rcases places other with none | ⟨n, v, stored, here, same, clean⟩
    · exact Or.inl none
    · exact Or.inr ⟨n, v, stored, further here, same, clean⟩
  · rw [if_neg empty]
    obtain ⟨trie, run, good'⟩ := Trie.update_spec (v := (config.values.length : Int)) good empty
    refine ⟨_, trie, run, _, _, good', models.put good empty _, fun other => ?_⟩
    by_cases same : other = key
    · rw [same]
      refine Or.inr ⟨config.values.length, value, Function.update_self .., ?_,
        Function.update_self .., clean⟩
      rw [List.getElem?_concat_length]
    · rw [Entries.apply, Function.update_of_ne same, Function.update_of_ne same]
      rcases places other with none | ⟨n, v, stored, here, equal, clean⟩
      · exact Or.inl none
      · exact Or.inr ⟨n, v, stored, further here, equal, clean⟩

theorem strip_sublist (s : List UInt8) : ∀ c ∈ strip s, c ∈ s := fun _ inside =>
  List.dropWhile_subset _ ((List.rdropWhile_prefix _ _).subset inside)

theorem real_sublist (s : List UInt8) : ∀ c ∈ real s, c ∈ s := fun _ inside =>
  List.dropWhile_subset _ ((List.rdropWhile_prefix _ _).subset inside)

theorem real_splits (s : List UInt8) :
    (∃ splits n, strSplit s equals [⟨0, 0⟩, ⟨0, 0⟩] 2 = some ⟨n, splits, n⟩ ∧ n ≠ 2 ∧
      ∀ a b rest, s.splitOn equals ≠ a :: b :: rest) ∨
    ∃ first second rest, strSplit s equals [⟨0, 0⟩, ⟨0, 0⟩] 2 = some ⟨2, [first, second], 2⟩ ∧
      s.splitOn equals = first.bytes s :: second.bytes s :: rest ∧
      first.data + first.len ≤ s.length ∧ second.data + second.len ≤ s.length := by
  have spec : ∃ cut, strSplit s equals [⟨0, 0⟩, ⟨0, 0⟩] 2 = some cut ∧
      Cut.Stores s [⟨0, 0⟩, ⟨0, 0⟩] 0 ((s.splitOn equals).take 2) cut :=
    splitFrom_spec (show s = [] ++ [] ++ s from rfl) List.not_mem_nil le_rfl (Nat.zero_le 2)
  obtain ⟨⟨ret, splits, splitNum⟩, cut, rfl, rfl, pieces, bytes, inside, array⟩ := spec
  cases parts : s.splitOn equals with
  | nil => exact absurd parts (by simp)
  | cons a tail =>
    cases tail with
    | nil =>
      rw [parts] at cut
      exact Or.inl ⟨splits, _, cut, by simp, fun _ _ _ same => by cases same⟩
    | cons b rest =>
      rw [parts] at cut bytes array
      obtain ⟨first, second, rfl⟩ : ∃ first second, pieces = [first, second] :=
        List.length_eq_two.mp (by rw [← List.length_map (Piece.bytes s), bytes]; rfl)
      obtain ⟨rfl, rfl⟩ : first.bytes s = a ∧ second.bytes s = b := by simpa using bytes
      cases array
      exact Or.inr ⟨first, second, rest, cut, rfl, inside _ (by simp), inside _ (by simp)⟩

theorem setting_none (none : (real line).head? = some hash ∨ (real line).length ≤ 1 ∨
    ∀ a b rest, (real line).splitOn equals ≠ a :: b :: rest) : setting line = Option.none := by
  rw [setting]
  split
  · rfl
  · rename_i proper
    split
    · rename_i a b rest pieces
      exact absurd pieces ((none.resolve_left fun here => proper (Or.inl here)).resolve_left
        (fun here => proper (Or.inr here)) a b rest)
    · rfl

theorem setting_some {a b : List UInt8} {rest : List (List UInt8)} (plain : (real line).head? ≠ some hash)
    (long : ¬ (real line).length ≤ 1) (pieces : (real line).splitOn equals = a :: b :: rest) :
    setting line = if strip a = [] then none else some ((strip a).map upper, strip b) := by
  rw [setting, if_neg fun either => either.elim plain long, pieces]

theorem Config.Holds.parseLine (holds : config.Holds m) (clean : 0 ∉ line) :
    ∃ config', config.parseLine line = some config' ∧ config'.Holds (m.set line) := by
  obtain ⟨read, length, comment⟩ := line_real line rfl
  rw [Config.parseLine, Values.set]
  dsimp only
  by_cases hashed : (real line).head? = some hash
  · rw [if_pos (comment.mpr hashed), setting_none (Or.inl hashed)]
    exact ⟨config, rfl, holds⟩
  rw [if_neg fun here => hashed (comment.mp here)]
  by_cases short : (real line).length ≤ 1
  · rw [if_pos (by omega), setting_none (Or.inr (Or.inl short))]
    exact ⟨config, rfl, holds⟩
  rw [if_neg (by omega), ← read]
  rcases real_splits (real line) with ⟨splits, n, cut, other, few⟩ | ⟨first, second, rest, cut,
    pieces, inside, inside'⟩
  · rw [cut, setting_none (Or.inr (Or.inr few))]
    exact ⟨config, if_neg other, holds⟩
  · obtain ⟨a, trimmed, bytes, _⟩ := trim_spec inside
    obtain ⟨b, trimmed', bytes', _⟩ := trim_spec inside'
    have harmless : 0 ∉ b.bytes (real line) := by
      rw [bytes', Piece.bytes]
      intro zero
      exact clean (real_sublist _ _
        (List.mem_of_mem_drop (List.mem_of_mem_take (strip_sublist _ _ zero))))
    obtain ⟨answer, trie, run, next⟩ := holds.put ((a.bytes (real line)).map upper) harmless
    rw [cut, setting_some hashed short pieces]
    refine ⟨_, bind_run rfl ((if_pos rfl).trans
      (bind_run trimmed (bind_run trimmed' (bind_run run rfl)))), ?_⟩
    rw [bytes, bytes'] at next
    rw [bytes']
    by_cases keyless : strip (first.bytes (real line)) = []
    · rw [if_pos (by rw [keyless]; rfl)] at next
      rwa [if_pos keyless]
    · rw [if_neg fun none => keyless (List.map_eq_nil_iff.mp none)] at next
      rwa [if_neg keyless]

theorem Config.Holds.parseLines {lines : List (List UInt8)} (holds : config.Holds m)
    (clean : ∀ line ∈ lines, 0 ∉ line) :
    ∃ config', config.parseLines lines = some config' ∧ config'.Holds (lines.foldl Values.set m) := by
  induction lines generalizing config m with
  | nil => exact ⟨config, rfl, holds⟩
  | cons line rest ih =>
    obtain ⟨config', run, holds'⟩ := holds.parseLine (clean line List.mem_cons_self)
    obtain ⟨last, run', held⟩ := ih holds' fun other inside => clean other (List.mem_cons_of_mem _ inside)
    exact ⟨last, bind_run run run', held⟩

theorem foldl_set (lines : List (List UInt8)) (m : Values) (key : List UInt8) :
    lines.foldl Values.set m key = (said lines key).or (m key) := by
  induction lines generalizing m with
  | nil => rfl
  | cons line rest ih =>
    rw [List.foldl_cons, ih, said, said, List.filterMap_cons, Values.set]
    cases found : setting line with
    | none => rfl
    | some e =>
      rw [List.reverse_cons, List.find?_append, List.find?_singleton]
      cases (rest.filterMap setting).reverse.find? (fun e => e.1 = key) with
      | some later => rfl
      | none =>
        by_cases same : e.1 = key
        · rw [if_pos (decide_eq_true same), Option.elim_some, ← same, Function.update_self]
          rfl
        · rw [if_neg (by simpa using same), Option.elim_some, Function.update_of_ne (Ne.symm same)]
          rfl

theorem load_holds (file : List UInt8) :
    ∃ config, Config.load file = some config ∧ config.Holds (said (buffers file)) := by
  obtain ⟨trie, start, good⟩ := Trie.init_good
  have empty : Config.Holds ⟨trie, []⟩ fun _ => none :=
    ⟨_, _, good, models_empty, fun _ => Or.inl ⟨rfl, rfl⟩⟩
  have clean : ∀ line ∈ buffers file, 0 ∉ line := by
    intro line inside zero
    obtain ⟨piece, _, rfl⟩ := List.mem_map.mp inside
    exact absurd (List.mem_takeWhile_imp zero) (by decide)
  obtain ⟨config, run, holds⟩ := empty.parseLines clean
  have last : (buffers file).foldl Values.set (fun _ => none) = said (buffers file) := by
    funext key
    rw [foldl_set, Option.or_none]
  rw [last] at holds
  exact ⟨config, bind_run start run, holds⟩

theorem Config.Holds.search (holds : config.Holds m) (key : List UInt8) :
    (config.trie.exactMatchSearch key = some noValue ∧ m key = none) ∨
    ∃ (n : Nat) (value : List UInt8), config.trie.exactMatchSearch key = some (n : Int) ∧
      config.values[n]? = some value ∧ m key = some value ∧ 0 ∉ value := by
  obtain ⟨T, e, good, models, places⟩ := holds
  have nonneg : ∀ key v, e key = some v → 0 ≤ v := by
    intro key v stored
    rcases places key with ⟨none, _⟩ | ⟨n, _, here, _⟩
    · cases none.symm.trans stored
    · cases here.symm.trans stored
      exact Int.natCast_nonneg n
  have search := models.search good nonneg key
  rcases places key with ⟨none, unset⟩ | ⟨n, value, stored, here, held, clean⟩
  · rw [none] at search
    exact Or.inl ⟨search, unset⟩
  · rw [stored] at search
    exact Or.inr ⟨n, value, search, here, held, clean⟩

/-- The text of a value, or the default when there is none or it is empty. -/
def textOr (ini : List UInt8) : Option (List UInt8) → List UInt8
  | none => ini
  | some value => if value = [] then ini else value

/-- The number that a value is, or the default. -/
def numberOr (ini : Int) (value : Option (List UInt8)) : Int := (value.bind atoi).getD ini

theorem Config.Holds.getString (holds : config.Holds m) (key ini : List UInt8) :
    config.getString key ini = some (textOr ini (m key)) := by
  rcases holds.search key with ⟨search, unset⟩ | ⟨n, value, search, here, held, clean⟩
  · rw [unset]
    exact bind_run search rfl
  · have positive : ¬ (n : Int) < 0 := by omega
    have whole : value.takeWhile (· ≠ 0) = value :=
      List.takeWhile_eq_self_iff.mpr fun c inside => decide_eq_true fun same => clean (same ▸ inside)
    rw [held]
    refine bind_run search ((if_neg positive).trans (bind_run here ?_))
    rw [whole, textOr]
    by_cases empty : value = []
    · rw [if_pos (List.length_eq_zero_iff.mpr empty), if_pos empty]
    · rw [if_neg fun none => empty (List.length_eq_zero_iff.mp none), if_neg empty]

theorem Config.Holds.getInt (holds : config.Holds m) (key : List UInt8) (ini : Int) :
    config.getInt key ini = some (numberOr ini (m key)) := by
  rcases holds.search key with ⟨search, unset⟩ | ⟨n, value, search, here, held, _⟩
  · rw [unset]
    exact bind_run search rfl
  · have positive : ¬ (n : Int) < 0 := by omega
    rw [held]
    exact bind_run search ((if_neg positive).trans (bind_run here rfl))

/-- Whatever bytes the config file holds, it is read to its end, and what is asked for is what
    was set last, or else the default: for a text also when nothing stands behind the equals
    sign, for a number when it is not one. -/
theorem file_is_read (file : List UInt8) : ∃ config, Config.load file = some config ∧ ∀ key,
    (∀ ini, config.getString key ini = some (textOr ini (said (buffers file) key))) ∧
      ∀ ini, config.getInt key ini = some (numberOr ini (said (buffers file) key)) := by
  obtain ⟨config, run, holds⟩ := load_holds file
  exact ⟨config, run, fun key => ⟨holds.getString key, holds.getInt key⟩⟩

end
end EtdbConfig
