import Etdb.Database.Ownership

/- kv, hash and set commands on a slot that stands for a store. -/
namespace EtdbDatabase
open EtdbTrie

section
variable {db db' : Db} {L L' : Layout} {S : Store} {head type : UInt8} {rest key : List UInt8} {v : Int}
variable {owner' : Int → Option (List UInt8)}

theorem encodeHashHead_eq (name key : List UInt8) :
    Db.encodeHashHead name key = Db.hashHead :: UInt8.ofNat name.length :: key := by
  simp [Db.encodeHashHead, Db.encodeName]

theorem encodeSetHead_eq (name key : List UInt8) :
    Db.encodeSetHead name key = Db.setHead :: UInt8.ofNat name.length :: key := by
  simp [Db.encodeSetHead, Db.encodeName]

theorem Holds.away_alloc (holds : Holds db L S) {r : Record}
    (heap : db'.heap = Function.update db.heap db.fresh (some r))
    (owner : L'.owner = Function.update L.owner db.fresh (some key)) : Away key db db' L L' := by
  have old : ∀ a other, L.owner a = some other → a ≠ db.fresh := by
    intro a other own same
    have := (holds.owned a other own).2
    omega
  refine ⟨fun a other _ own => ?_, fun a other _ own => ?_⟩
  · rw [owner, Function.update_of_ne (old a other own), own]
  · rw [heap, Function.update_of_ne (old a other own)]

theorem Holds.owned_alloc (holds : Holds db L S) (fresh : db'.fresh = db.fresh + 1)
    (owner : owner' = Function.update L.owner db.fresh (some key)) (a : Int) (k : List UInt8)
    (own : owner' a = some k) : L.owner a = some k ∨ 0 < a ∧ a < db'.fresh := by
  have positive := holds.fresh
  by_cases here : a = db.fresh
  · exact Or.inr (by omega)
  · rw [owner, Function.update_of_ne here] at own
    exact Or.inl own

def ValueHeaded (head type : UInt8) : Prop :=
  head = Db.kvHead ∧ type = typeKv ∨ head = Db.hashHead ∧ type = typeHash

theorem ValueHeaded.typed (headed : ValueHeaded head type) : head ∈ typeHeads := by
  rcases headed with ⟨rfl, _⟩ | ⟨rfl, _⟩ <;> decide

theorem ValueHeaded.plain (headed : ValueHeaded head type) (rest : List UInt8) :
    (head :: rest).head? ≠ some Db.spatialPointHead1 ∧
    (head :: rest).head? ≠ some Db.spatialPointHead2 := by
  rcases headed with ⟨rfl, _⟩ | ⟨rfl, _⟩ <;>
    simp [Db.kvHead, Db.hashHead, Db.spatialPointHead1, Db.spatialPointHead2]

theorem Holds.value (holds : Holds db L S) (headed : ValueHeaded head type)
    (held : L.entries (head :: rest) = some v) :
    ∃ node, S (head :: rest) = some (.bytes (node.data.take node.size)) ∧ db.heap v = some (.value node) ∧
      node.type = type ∧ L.owner v = some (head :: rest) := by
  obtain ⟨cell, stored, denotes⟩ := holds.denotes (headed.plain rest).2 held
  cases cell with
  | bytes value =>
    obtain ⟨own, node, here, rfl, kind⟩ := denotes
    refine ⟨node, stored, here, ?_, own⟩
    rcases headed with ⟨rfl, rfl⟩ | ⟨rfl, rfl⟩ <;>
    rcases kind with ⟨first, type⟩ | ⟨first, type⟩
    · exact type
    · cases first
    · cases first
    · exact type
  | member =>
    rcases headed with ⟨rfl, rfl⟩ | ⟨rfl, rfl⟩ <;> cases denotes.1
  | queue values =>
    rcases headed with ⟨rfl, rfl⟩ | ⟨rfl, rfl⟩ <;> cases denotes.1
  | place lat lon =>
    rcases headed with ⟨rfl, rfl⟩ | ⟨rfl, rfl⟩ <;> cases denotes.1

theorem storeValue_run (holds : Holds db L S) (headed : ValueHeaded head type) (rest value : List UInt8) :
    ∃ t' T', db.storeValue type (head :: rest) value =
        some (0, { (db.alloc (.value ⟨type, value.length % 2 ^ 24, value⟩)).2 with trie := t' }) ∧
      Stores t' T' (Function.update L.entries (head :: rest) (some db.fresh)) ∧
      Apart [head] L.tree T' := by
  have positive := holds.fresh
  obtain ⟨t', T', run, stores', apart⟩ := holds.stores.update (v := db.fresh) rest headed.typed (by omega)
  have previous := holds.stores.previous (head :: rest)
  let db1 : Db := (db.alloc (.value ⟨type, value.length % 2 ^ 24, value⟩)).2
  exact ⟨t', T', bind_run (Db.trieUpdate_run (d := db1) run) (if_neg (by omega)), stores', apart⟩

theorem storeValue_spec (holds : Holds db L S) (headed : ValueHeaded head type)
    (rest value : List UInt8) : ∃ db' L', db.storeValue type (head :: rest) value = some (0, db') ∧
      Holds db' L' (Function.update S (head :: rest) (some (.bytes (Store.kept 24 value)))) ∧
      Apart [head] L.tree L'.tree ∧ (S (head :: rest) = none →
        Tends db db' L L' S (Function.update S (head :: rest)
        (some (.bytes (Store.kept 24 value))))) := by
  obtain ⟨t', T', run, stores', apart⟩ := storeValue_run holds headed rest value
  have plain := headed.plain rest
  let db' : Db := { (db.alloc (.value ⟨type, value.length % 2 ^ 24, value⟩)).2 with trie := t' }
  let L' : Layout := ⟨T', Function.update L.entries (head :: rest) (some db.fresh),
    Function.update L.owner db.fresh (some (head :: rest))⟩
  have away : Away (head :: rest) db db' L L' := holds.away_alloc rfl rfl
  have later : db.fresh ≤ db.fresh + 1 := Int.le_of_lt (Int.lt_succ db.fresh)
  refine ⟨_, _, run, holds.change stores' away later (holds.owned_alloc rfl rfl) plain ?_,
    apart, fun missing => ?_⟩
  · refine .some ⟨Function.update_self _ _ _, _, Function.update_self _ _ _, rfl, ?_⟩
    simpa [ValueHeaded] using headed
  · refine Tends.change holds plain.2 later away.heap
      (fun _ _ other => Function.update_of_ne other _ _) fun a live => ?_
    by_cases new : a = db.fresh
    · exact Or.inl ⟨(behind_iff (Function.update_self _ _ _) (Function.update_self _ _ _)).mpr new,
        Or.inl (le_of_eq new.symm)⟩
    · exact Or.inr ⟨fun dead => live ((Function.update_of_ne new _ _).trans dead),
        not_behind_none missing⟩

theorem fetchValue_spec (holds : Holds db L S) (headed : ValueHeaded head type) (rest : List UInt8) :
    db.fetchValue (head :: rest) = some (S.value (head :: rest)) := by
  have search := holds.stores.search (head :: rest)
  refine bind_run search ?_
  cases held : L.entries (head :: rest) with
  | none =>
    have missing := (holds.none_iff (headed.plain rest).2).mp held
    rw [Store.value, missing]
    rfl
  | some v =>
    obtain ⟨node, stored, here, _⟩ := holds.value headed held
    have nonneg := holds.stores.nonneg _ v held
    rw [Option.getD_some, if_neg (by omega), Store.value, stored, Db.valueAt, here]
    rfl

theorem dropValue_spec (holds : Holds db L S) (headed : ValueHeaded head type) (rest : List UInt8) :
    ∃ db' L', db.dropValue (head :: rest) = some (if (S (head :: rest)).isSome then 0 else -1, db') ∧
      Holds db' L' (Function.update S (head :: rest) none) ∧ Apart [head] L.tree L'.tree ∧
      Tends db db' L L' S (Function.update S (head :: rest) none) := by
  obtain ⟨t', T', run, stores', apart⟩ := holds.stores.erase rest headed.typed
  have erased := Db.trieErase_run run
  have plain := headed.plain rest
  cases held : L.entries (head :: rest) with
  | none =>
    have missing := (holds.none_iff plain.2).mp held
    refine ⟨{ db with trie := t' }, ⟨T', _, L.owner⟩, ?_, holds.change stores' .refl (le_refl _)
      (fun _ _ own => Or.inl own) plain .none, apart, ?_⟩
    · rw [held] at erased
      rw [missing]
      exact bind_run erased rfl
    · exact Tends.change holds plain.2 (le_refl _) (fun _ _ _ _ => rfl)
        (fun _ _ other => Function.update_of_ne other _ _) fun a live =>
        Or.inr ⟨live, not_behind_none missing⟩
  | some v =>
    obtain ⟨node, stored, here, _, own⟩ := holds.value headed held
    have nonneg := holds.stores.nonneg _ v held
    have others : ∀ a other, other ≠ head :: rest → L.owner a = some other →
        Function.update db.heap v none a = db.heap a := by
      intro a other different own'
      refine Function.update_of_ne ?_ _ _
      rintro rfl
      exact different (Option.some.inj (own'.symm.trans own))
    refine ⟨{ db with trie := t', heap := Function.update db.heap v none }, ⟨T', _, L.owner⟩, ?_,
      holds.change stores' ⟨fun _ _ _ own => own, others⟩ (le_refl _) (fun _ _ own => Or.inl own)
      plain .none, apart, ?_⟩
    · rw [held, Option.getD_some] at erased
      rw [stored]
      refine bind_run erased ?_
      refine (if_neg (show ¬ v < 0 by omega)).trans ?_
      exact bind_run (Db.free_run (d := { db with trie := t' }) here) rfl
    · refine Tends.change holds plain.2 (le_refl _) others
        (fun _ _ other => Function.update_of_ne other _ _)
        fun a live => Or.inr ?_
      have other : a ≠ v := by
        rintro rfl
        exact live (Function.update_self _ _ _)
      exact ⟨fun dead => live ((Function.update_of_ne other _ _).trans dead),
        fun behind => other ((behind_iff held stored).mp behind)⟩

theorem set_plain (rest : List UInt8) : (Db.setHead :: rest).head? ≠ some Db.spatialPointHead1 ∧
    (Db.setHead :: rest).head? ≠ some Db.spatialPointHead2 := by
  simp [Db.setHead, Db.spatialPointHead1, Db.spatialPointHead2]

theorem Holds.member (holds : Holds db L S) (held : L.entries (Db.setHead :: rest) = some v) :
    S (Db.setHead :: rest) = some .member ∧ v = 1 := by
  obtain ⟨cell, stored, denotes⟩ := holds.denotes (set_plain rest).2 held
  cases cell with
  | bytes value =>
    obtain ⟨_, _, _, _, ⟨type, _⟩ | ⟨type, _⟩⟩ := denotes <;> cases type
  | member => exact ⟨stored, denotes.2⟩
  | queue values => cases denotes.1
  | place lat lon => cases denotes.1

theorem Tends.member (holds : Holds db L S) {t' : Trie} {T' : ByteTree.Tree Int} (entry : Option Int)
    (cell : Option Cell) : Tends db { db with trie := t' } L
      ⟨T', Function.update L.entries (Db.setHead :: rest) entry, L.owner⟩ S
      (Function.update S (Db.setHead :: rest) cell) := by
  refine Tends.change holds (set_plain rest).2 (le_refl _) (fun _ _ _ _ => rfl)
    (fun _ _ other => Function.update_of_ne other _ _) fun a live => Or.inr ⟨live, ?_⟩
  rintro ⟨v, cell', held, stored, occupies⟩
  rw [(holds.member held).1] at stored
  obtain rfl := Option.some.inj stored
  exact occupies

theorem setAdd_spec (holds : Holds db L S) (name key : List UInt8) :
    ∃ db' L', db.setAdd name key = some (0, db') ∧
      Holds db' L' (Function.update S (Db.encodeSetHead name key) (some .member)) ∧
      Apart [Db.setHead] L.tree L'.tree ∧
      Tends db db' L L' S (Function.update S (Db.encodeSetHead name key) (some .member)) := by
  unfold Db.setAdd
  rw [encodeSetHead_eq]
  generalize UInt8.ofNat name.length :: key = rest
  obtain ⟨t', T', run, stores', apart⟩ := holds.stores.update (v := 1) rest
    (show Db.setHead ∈ typeHeads by decide) (by decide)
  have previous := holds.stores.previous (Db.setHead :: rest)
  have added : db.trieUpdate (Db.setHead :: rest) 1 = _ := Db.trieUpdate_run run
  exact ⟨{ db with trie := t' }, ⟨T', _, L.owner⟩, bind_run added (if_neg (by omega)),
    holds.change stores' .refl
    (le_refl _) (fun _ _ own => Or.inl own) (set_plain rest) (.some ⟨rfl, rfl⟩), apart, .member holds _ _⟩

theorem setDel_spec (holds : Holds db L S) (name key : List UInt8) :
    ∃ db' L', db.setDel name key = some (if (S (Db.encodeSetHead name key)).isSome then 0 else -1, db') ∧
      Holds db' L' (Function.update S (Db.encodeSetHead name key) none) ∧
      Apart [Db.setHead] L.tree L'.tree ∧
      Tends db db' L L' S (Function.update S (Db.encodeSetHead name key) none) := by
  unfold Db.setDel
  rw [encodeSetHead_eq]
  generalize UInt8.ofNat name.length :: key = rest
  obtain ⟨t', T', run, stores', apart⟩ := holds.stores.erase rest (show Db.setHead ∈ typeHeads by decide)
  refine ⟨{ db with trie := t' }, ⟨T', _, L.owner⟩, ?_, holds.change stores' .refl (le_refl _)
    (fun _ _ own => Or.inl own) (set_plain rest) .none, apart, .member holds _ _⟩
  refine bind_run (Db.trieErase_run run) ?_
  cases held : L.entries (Db.setHead :: rest) with
  | none =>
    rw [(holds.none_iff (set_plain rest).2).mp held]
    rfl
  | some v =>
    obtain ⟨stored, rfl⟩ := holds.member held
    rw [stored]
    rfl

theorem setIsmember_spec (holds : Holds db L S) (name key : List UInt8) :
    db.setIsmember name key = some (if (S (Db.encodeSetHead name key)).isSome then 1 else 0) := by
  unfold Db.setIsmember
  rw [encodeSetHead_eq]
  generalize UInt8.ofNat name.length :: key = rest
  refine bind_run (holds.stores.search (Db.setHead :: rest)) ?_
  cases held : L.entries (Db.setHead :: rest) with
  | none =>
    rw [(holds.none_iff (set_plain rest).2).mp held]
    rfl
  | some v =>
    obtain ⟨stored, rfl⟩ := holds.member held
    rw [stored]
    rfl

theorem setMembers_spec (holds : Holds db L S) (name : List UInt8) :
    ∃ items, db.setMembers name = some items ∧ items.Nodup ∧
      ∀ key, key ∈ items ↔ key ≠ [] ∧ 0 ∉ key ∧ S (Db.encodeSetHead name key) ≠ none := by
  obtain ⟨r, out, run, nodup, entries⟩ := holds.stores.list (Db.encodeSetHead name [])
  refine ⟨out.map Prod.fst, bind_run run rfl, nodup, fun key => ?_⟩
  have longer : Db.encodeSetHead name [] ++ key = Db.encodeSetHead name key := by
    simp [encodeSetHead_eq]
  have held : (∃ v, L.entries (Db.encodeSetHead name key) = some v) ↔
    S (Db.encodeSetHead name key) ≠ none := by
    rw [← Option.ne_none_iff_exists', encodeSetHead_eq, ne_eq, holds.none_iff (set_plain _).2]
  rw [← held]
  simp only [List.mem_map, Prod.exists, exists_and_right, exists_eq_right, entries, longer]
  constructor
  · rintro ⟨v, some, clean, stored⟩
    exact ⟨some, clean, v, stored⟩
  · rintro ⟨some, clean, v, stored⟩
    exact ⟨v, some, clean, stored⟩

theorem longest_findSome (m : Entries) (before : List UInt8) (best : Option (Int × Nat))
    (key : List UInt8) : m.longest before best key = (key.inits.tail.reverse.findSome? fun P =>
      (m (before ++ P)).map fun v => (v, before.length + P.length)).or best := by
  induction key generalizing before best with
  | nil => rfl
  | cons word rest ih =>
    have firsts : (word :: rest).inits.tail = [word] :: rest.inits.tail.map (word :: ·) := by
      cases rest <;> simp
    have shift : ∀ P : List UInt8, before ++ [word] ++ P = before ++ word :: P := fun P => by simp
    have count : ∀ P : List UInt8, (before ++ [word]).length + P.length =
      before.length + (word :: P).length :=
      fun P => by simp only [List.length_append, List.length_cons, List.length_nil]; omega
    unfold Entries.longest
    rw [ih, firsts, List.reverse_cons, ← List.map_reverse, List.findSome?_append,
      List.findSome?_map, Option.or_assoc]
    simp only [shift, count]
    congr 1
    simp only [List.findSome?_singleton]
    cases m (before ++ [word]) <;> rfl

theorem longest_entry (m : Entries) (key : List UInt8) : m.longest [] none (Db.encodeKvHead key) =
    key.inits.reverse.findSome? fun P => (m (Db.encodeKvHead P)).map fun v => (v, P.length + 1) := by
  have firsts : (Db.kvHead :: key).inits.tail = key.inits.map (Db.kvHead :: ·) := by simp
  rw [longest_findSome, Option.or_none, Db.encodeKvHead, firsts, ← List.map_reverse, List.findSome?_map]
  congr 1
  funext P
  simp [Db.encodeKvHead]

theorem findSome_rel {α β γ : Type} {R : β → γ → Prop} {f : α → Option β} {g : α → Option γ} (l : List α)
    (rel : ∀ a, Option.Rel R (f a) (g a)) : Option.Rel R (l.findSome? f) (l.findSome? g) := by
  induction l with
  | nil => exact .none
  | cons a l ih =>
    have here := rel a
    rw [List.findSome?_cons, List.findSome?_cons]
    revert here
    cases f a <;> cases g a <;> intro here <;> cases here
    · exact ih
    · rename_i pair
      exact .some pair

theorem kvMatchLongest_spec (holds : Holds db L S) (key : List UInt8) :
    db.kvMatchLongest key = some (S.longest key) := by
  have headed : ValueHeaded Db.kvHead typeKv := Or.inl ⟨rfl, rfl⟩
  refine bind_run (holds.stores.longest (Db.encodeKvHead key)) ?_
  have found := longest_entry L.entries key
  -- the walk and the store find the same prefix, and the entry there is its record
  have rel := findSome_rel (R := fun (x : Int × Nat) (y : Nat × List UInt8) => 0 ≤ x.1 ∧ x.2 = y.1 + 1 ∧
      ∃ node, db.heap x.1 = some (.value node) ∧ node.data.take node.size = y.2)
    (f := fun P => (L.entries (Db.encodeKvHead P)).map fun v => (v, P.length + 1))
    (g := fun P => (S.value (Db.encodeKvHead P)).map fun value => (P.length, value))
    key.inits.reverse (by
      intro P
      cases held : L.entries (Db.encodeKvHead P) with
      | none =>
        have missing := (holds.none_iff (headed.plain P).2).mp held
        rw [Store.value, Db.encodeKvHead, missing]
        exact .none
      | some v =>
        obtain ⟨node, stored, here, _⟩ := holds.value headed held
        rw [Store.value, Db.encodeKvHead, stored]
        exact .some ⟨holds.stores.nonneg _ v held, rfl, node, here, rfl⟩)
  rw [← found] at rel
  change Option.Rel _ _ (S.longest key) at rel
  revert rel
  cases L.entries.longest [] none (Db.encodeKvHead key) <;> cases S.longest key <;> intro rel <;>
    cases rel
  · rfl
  · rename_i x y facts
    obtain ⟨p, matchLen⟩ := x
    obtain ⟨n, bytes⟩ := y
    obtain ⟨nonneg, rfl, node, here, rfl⟩ := facts
    dsimp only at nonneg here
    refine (if_neg (by omega)).trans ?_
    rw [Db.valueAt, here]
    rfl

end
end EtdbDatabase
