import Mathlib.Tactic.Push
import Etdb.Trie.Erase

/- Sequences of etdb_trie_update and etdb_trie_erase, compared with a finite map.
   Block 0 takes a cell back only while its ring is not used up, so an erase is safe
   unless it takes the last key below one of 255 children of the root. -/
namespace EtdbTrie
open ByteTree Trie

inductive Call where
  | update (key : List UInt8) (value : Int)
  | erase (key : List UInt8)
  deriving DecidableEq, Repr

namespace Call

def key : Call → List UInt8
  | .update key _ => key
  | .erase key => key

def Valid : Call → Prop
  | .update key value => key ≠ [] ∧ 0 ≤ value
  | .erase key => key ≠ []

end Call

namespace Trie

def call (t : Trie) : Call → Option (Int × Trie)
  | .update key value => t.update key value
  | .erase key => t.erase key

def calls (t : Trie) : List Call → Option (List Int × Trie)
  | [] => some ([], t)
  | c :: rest => do
    let (a, t) ← t.call c
    let (l, t) ← t.calls rest
    some (a :: l, t)

end Trie

abbrev Entries := List UInt8 → Option Int

namespace Entries

def empty : Entries := fun _ => none

def answer (m : Entries) : Call → Int
  | .update key _ => (m key).getD 0
  | .erase key => (m key).getD (-1)

def apply (m : Entries) : Call → Entries
  | .update key value => Function.update m key (some value)
  | .erase key => Function.update m key none

def answers (m : Entries) : List Call → List Int
  | [] => []
  | c :: rest => m.answer c :: (m.apply c).answers rest

def after (m : Entries) : List Call → Entries
  | [] => m
  | c :: rest => (m.apply c).after rest

/-- The key of an erase is missing, or some label starts no stored key, or another
    stored key starts with the same label. -/
def Roomy (m : Entries) : Call → Prop
  | .update _ _ => True
  | .erase key => m key = none ∨ (∃ x : UInt8, x ≠ 0 ∧ ∀ k, m k ≠ none → (encode k).head? ≠ some x) ∨
      ∃ k, k ≠ key ∧ m k ≠ none ∧ (encode k).head? = (encode key).head?

def RoomyRun (m : Entries) : List Call → Prop
  | [] => True
  | c :: rest => m.Roomy c ∧ (m.apply c).RoomyRun rest

/-- etdb_trie_erase does not take a value for one when it equals a failure code. -/
def Refuses (m : Entries) : Call → Prop
  | .update _ _ => False
  | .erase key => m key = some noPath ∨ m key = some noValue

instance (m : Entries) : (c : Call) → Decidable (m.Refuses c)
  | .update _ _ => isFalse id
  | .erase _ => inferInstanceAs (Decidable (_ ∨ _))

def kept (m : Entries) (c : Call) : Entries := if m.Refuses c then m else m.apply c

def keptAfter (m : Entries) : List Call → Entries
  | [] => m
  | c :: rest => (m.kept c).keptAfter rest

end Entries

/-- From a new trie the calls run inside the arrays, answer as the map does, and leave
    what the map holds. -/
def ActsAsMap (calls : List Call) : Prop :=
  ∃ t, (init [] >>= fun t => t.calls calls) = some (Entries.empty.answers calls, t) ∧
    ∀ key, key ≠ [] → t.exactMatchSearch key = some ((Entries.empty.after calls key).getD noValue)

structure Models (T : ByteTree.Tree Int) (m : Entries) : Prop where
  stored : ∀ key, T.stored (pathOf key) = m key
  slots : ∀ p, T.Mem (0 :: p) → ∃ key, p = pathOf key

section
variable {t t' : Trie} {T : ByteTree.Tree Int} {m : Entries} {key : List UInt8} {p : Path} {x : Int}
    {a : UInt8}
variable {c : Call}

theorem Models.value (models : Models T m) (slot : T.Mem (0 :: p)) :
    ∃ key, p = pathOf key ∧ m key = some (T.val p) := by
  obtain ⟨key, rfl⟩ := models.slots p slot
  exact ⟨key, rfl, (models.stored key).symm.trans (if_pos slot)⟩

theorem Models.slot (models : Models T m) (held : m key ≠ none) : T.Mem (0 :: pathOf key) := by
  by_contra out
  exact held ((models.stored key).symm.trans (if_neg out))

theorem models_empty : Models (Tree.empty 0) Entries.empty :=
  ⟨fun _ => Tree.stored_eq_none.mpr (fun slot => List.not_mem_nil slot.2), fun _ slot =>
    absurd slot.2 List.not_mem_nil⟩

theorem Models.put (models : Models T m) (good : Good t T) (some : key ≠ []) (v : Int) :
    Models (T.put 0 (encode key) v) (m.apply (.update key v)) := by
  have put := Tree.put_spec (v := v) 0 good.shape good.live (zero_not_encode key)
    (encode_ne_nil some)
  have stored : ∀ q, (T.put 0 (encode key) v).stored q = if q = pathOf key then Option.some
    v else T.stored q := put.stored
  refine ⟨fun k => ?_, fun q slot => ?_⟩
  · rw [stored, models.stored]
    simp only [pathOf_inj, Entries.apply, Function.update_apply]
  · by_cases here : q = pathOf key
    · exact ⟨key, here⟩
    · have held := Tree.stored_eq_some.mpr ⟨slot, rfl⟩
      rw [stored, if_neg here] at held
      exact models.slots q (Tree.stored_eq_some.mp held).1

theorem Models.prune (models : Models T m) (good : Good t T) (slot : T.Mem (0 :: pathOf key)) :
    Models (T.prune (0 :: pathOf key)) (m.apply (.erase key)) := by
  refine ⟨fun k => ?_, fun q held => models.slots q (Tree.mem_prune held)⟩
  rw [Tree.stored_prune good.shape slot good.live, models.stored]
  simp only [pathOf_inj, Entries.apply, Function.update_apply]

theorem Trie.Good.deep (good : Good t T) : ∀ u, T.Mem u → u.length < t.size.toNat := by
  obtain ⟨loc, rep⟩ := good.rep
  intro u mem
  have := rep.depth mem
  omega

theorem Trie.Good.first_label (good : Good t T) (slot : T.Mem (0 :: pathOf key)) :
    ∃ a, (encode key).head? = some a ∧ (pathOf key).getLast? = some a ∧
      ∀ b, [b] <:+ 0 :: pathOf key ↔ b = a := by
  cases back : pathOf key with
  | nil =>
    rw [back] at slot
    exact absurd slot.2 good.shape.root
  | cons d w =>
    obtain ⟨a, last⟩ : ∃ a, (d :: w).getLast? = some a := ⟨_, List.getLast?_eq_some_getLast (by simp)⟩
    refine ⟨a, by rw [← path_last, back, last], last, fun b => ⟨?_, ?_⟩⟩
    · rintro ⟨front, split⟩
      have same := congrArg List.getLast? split
      rw [List.getLast?_cons_cons, last] at same
      simpa using same
    · rintro rfl
      obtain ⟨front, split⟩ := List.getLast?_eq_some_iff.mp last
      rw [split, ← List.cons_append]
      exact List.suffix_append _ _

theorem Models.root_kid (models : Models T m) (good : Good t T) :
    a ∈ T.kids [] ↔ ∃ key, m key ≠ none ∧ (encode key).head? = some a := by
  constructor
  · intro kid
    obtain ⟨q, slot, suffix⟩ := Tree.reach_slot (w := [a]) good.live good.deep ⟨trivial, kid⟩ (by simp)
    obtain ⟨key, rfl, value⟩ := models.value slot
    obtain ⟨b, head, _, only⟩ := good.first_label slot
    obtain rfl := (only a).mp suffix
    exact ⟨key, by simp [value], head⟩
  · rintro ⟨key, held, head⟩
    have slot := models.slot held
    obtain ⟨b, head', _, only⟩ := good.first_label slot
    obtain rfl := Option.some.inj (head.symm.trans head')
    exact (Tree.mem_of_suffix slot ((only a).mpr rfl)).2

theorem Models.roomy_iff (models : Models T m) (good : Good t T) (held : m key = some x) :
    m.Roomy (.erase key) ↔ Removable T (0 :: pathOf key) := by
  have slot := models.slot (show m key ≠ none by simp [held])
  obtain ⟨a, head, last, _⟩ := good.first_label slot
  constructor
  · rintro (none | ⟨b, proper, unused⟩ | ⟨k, other, heldK, same⟩)
    · rw [held] at none
      cases none
    · refine Or.inl ⟨b, proper, fun kid => ?_⟩
      obtain ⟨k, heldK, headK⟩ := (models.root_kid good).mp kid
      exact unused k heldK headK
    · refine Or.inr (Tree.prune_shared good.shape slot good.live (models.slot heldK)
        (fun h => other (pathOf_inj.mp h)) last ?_)
      rw [path_last, same, head]
  · rintro (⟨b, proper, unused⟩ | kept)
    · refine Or.inr (Or.inl ⟨b, proper, fun k heldK headK => unused ?_⟩)
      exact (models.root_kid good).mpr ⟨k, heldK, headK⟩
    · have kid : a ∈ (T.prune (0 :: pathOf key)).kids [] := by
        rw [kept]
        exact (models.root_kid good).mpr ⟨key, by simp [held], head⟩
      obtain ⟨q, other, slotQ, suffix⟩ := Tree.prune_keeps good.shape slot good.live good.deep kid
      obtain ⟨k, rfl, value⟩ := models.value slotQ
      obtain ⟨b, headK, _, only⟩ := good.first_label slotQ
      obtain rfl := (only a).mp suffix
      exact Or.inr (Or.inr ⟨k, fun same => other (by rw [same]), by simp [value], by rw [headK, head]⟩)


theorem call_spec (good : Good t T) (models : Models T m) (proper : c.key ≠ []) (roomy : m.Roomy c) :
    ∃ a t' T', t.call c = some (a, t') ∧ Good t' T' ∧ Models T' (m.kept c) ∧
      (¬ m.Refuses c → a = m.answer c) := by
  cases c with
  | update key v =>
    obtain ⟨t', run, good'⟩ := update_spec (v := v) good proper
    refine ⟨_, t', _, run, good', ?_, fun _ => ?_⟩
    · rw [Entries.kept, if_neg (show ¬ m.Refuses (.update key v) from id)]
      exact models.put good proper v
    · rw [models.stored]
      rfl
  | erase key =>
    have stored := models.stored key
    cases value : m key with
    | none =>
      rw [value] at stored
      have refuses : ¬ m.Refuses (.erase key) := by simp [Entries.Refuses, value]
      have same : m.kept (.erase key) = m := by
        rw [Entries.kept, if_neg refuses]
        exact Function.update_eq_self_iff.mpr value.symm
      refine ⟨-1, t, T, erase_missing good stored, good, by rw [same]; exact models, fun _ => ?_⟩
      simp [Entries.answer, value]
    | some x =>
      rw [value] at stored
      have slot := (Tree.stored_eq_some.mp stored).1
      by_cases codes : x = noPath ∨ x = noValue
      · have refuses : m.Refuses (.erase key) := by simpa [Entries.Refuses, value] using codes
        refine ⟨-1, t, T, erase_refused good stored codes, good, ?_, fun h => absurd refuses h⟩
        rw [Entries.kept, if_pos refuses]
        exact models
      · have refuses : ¬ m.Refuses (.erase key) := by simpa [Entries.Refuses, value] using codes
        obtain ⟨t', run, good'⟩ := erase_spec good stored codes ((models.roomy_iff good value).mp roomy)
        refine ⟨x, t', _, run, good', ?_, fun _ => ?_⟩
        · rw [Entries.kept, if_neg refuses]
          exact models.prune good slot
        · simp [Entries.answer, value]

theorem Models.search (models : Models T m) (good : Good t T) (nonneg : ∀ key x, m key = some x → 0 ≤ x)
    (key : List UInt8) : t.exactMatchSearch key = some ((m key).getD noValue) := by
  rw [exactMatchSearch_spec good ?_ key, models.stored]
  intro p x held
  obtain ⟨slot, rfl⟩ := Tree.stored_eq_some.mp held
  obtain ⟨k, _, value⟩ := models.value slot
  exact nonneg k _ value

theorem nonneg_apply (nonneg : ∀ key x, m key = some x → 0 ≤ x) (valid : c.Valid) (key : List UInt8)
    (x : Int) (held : m.apply c key = some x) : 0 ≤ x := by
  cases c with
  | update k v =>
    simp only [Entries.apply, Function.update_apply] at held
    split at held
    · obtain rfl := Option.some.inj held
      exact valid.2
    · exact nonneg key x held
  | erase k =>
    simp only [Entries.apply, Function.update_apply] at held
    split at held
    · cases held
    · exact nonneg key x held

theorem not_refused (nonneg : ∀ key x, m key = some x → 0 ≤ x) (c : Call) : ¬ m.Refuses c := by
  cases c with
  | update _ _ => exact id
  | erase key =>
    rintro (code | code) <;>
    · have := nonneg key _ code
      simp only [noPath, noValue] at this
      omega

theorem Call.Valid.proper (valid : c.Valid) : c.key ≠ [] := by
  cases c with
  | update _ _ => exact valid.1
  | erase _ => exact valid

theorem calls_spec (calls : List Call) (good : Good t T) (models : Models T m)
    (nonneg : ∀ key x, m key = some x → 0 ≤ x) (valid : ∀ c ∈ calls, c.Valid) (roomy : m.RoomyRun calls) :
    ∃ t' T', t.calls calls = some (m.answers calls, t') ∧ Good t' T' ∧ Models T' (m.after calls) ∧
      ∀ key x, m.after calls key = some x → 0 ≤ x := by
  induction calls generalizing t T m with
  | nil => exact ⟨t, T, rfl, good, models, nonneg⟩
  | cons c rest ih =>
    have first := valid c List.mem_cons_self
    have accepts := not_refused nonneg c
    obtain ⟨a, t1, T1, run, good1, models1, answer⟩ := call_spec good models first.proper roomy.1
    rw [Entries.kept, if_neg accepts] at models1
    obtain ⟨t2, T2, run2, good2, models2, nonneg2⟩ := ih good1 models1 (nonneg_apply nonneg first)
      (fun d hd => valid d (List.mem_cons_of_mem c hd)) roomy.2
    refine ⟨t2, T2, ?_, good2, models2, nonneg2⟩
    refine bind_run run ?_
    rw [answer accepts]
    exact bind_run run2 rfl

theorem call_stuck (good : Good t T) (models : Models T m) (nonneg : ∀ key x, m key = some x → 0 ≤ x)
    (stuck : ¬ m.Roomy c) :
    ∃ a t', t.call c = some (a, t') ∧ ∀ key, key ≠ [] → t'.exactMatchSearch key = none := by
  cases c with
  | update _ _ => exact absurd trivial stuck
  | erase key =>
    cases value : m key with
    | none => exact absurd (Or.inl value) stuck
    | some x =>
      have codes : ¬ (x = noPath ∨ x = noValue) := by
        have := nonneg key x value
        simp only [noPath, noValue]
        omega
      obtain ⟨t', run, base, inside⟩ := erase_stuck good ((models.stored key).trans value) codes
        (fun room => stuck ((models.roomy_iff good value).mpr room))
      exact ⟨x, t', run, fun _ some => search_trapped base inside some⟩

def Follows (t : Trie) (m : Entries) (calls : List Call) : Prop :=
  ∃ t', t.calls calls = some (m.answers calls, t') ∧
    ∀ key, key ≠ [] → t'.exactMatchSearch key = some ((m.after calls key).getD noValue)

theorem roomyRun_begins {calls l : List Call} (roomy : m.RoomyRun calls) (begins : l <+: calls) :
    m.RoomyRun l := by
  induction calls generalizing m l with
  | nil =>
    rw [List.prefix_nil.mp begins]
    trivial
  | cons c rest ih =>
    rcases List.prefix_cons_iff.mp begins with rfl | ⟨l', rfl, begins'⟩
    · trivial
    · exact ⟨roomy.1, ih roomy.2 begins'⟩

theorem follows_iff (calls : List Call) (good : Good t T) (models : Models T m)
    (nonneg : ∀ key x, m key = some x → 0 ≤ x) (valid : ∀ c ∈ calls, c.Valid) :
    (∀ l, l <+: calls → Follows t m l) ↔ m.RoomyRun calls := by
  constructor
  · intro follows
    induction calls generalizing t T m with
    | nil => trivial
    | cons c rest ih =>
      have first := valid c List.mem_cons_self
      have accepts := not_refused nonneg c
      have roomy : m.Roomy c := by
        by_contra stuck
        obtain ⟨a, t1, run, trapped⟩ := call_stuck good models nonneg stuck
        obtain ⟨t2, run2, search⟩ := follows [c] (by simp)
        have ran : t.calls [c] = some ([a], t1) := bind_run run rfl
        obtain ⟨_, rfl⟩ := Prod.ext_iff.mp (Option.some.inj (ran.symm.trans run2))
        have found := search [1] (by simp)
        rw [trapped [1] (by simp)] at found
        cases found
      obtain ⟨a, t1, T1, run, good1, models1, answer⟩ := call_spec good models first.proper roomy
      rw [Entries.kept, if_neg accepts] at models1
      refine ⟨roomy, ih good1 models1 (nonneg_apply nonneg first)
        (fun d hd => valid d (List.mem_cons_of_mem c hd)) ?_⟩
      intro l begins
      obtain ⟨t2, run2, search⟩ := follows (c :: l) (List.cons_prefix_cons.mpr ⟨rfl, begins⟩)
      refine ⟨t2, ?_, search⟩
      have ran : t.calls (c :: l) = (t1.calls l).bind fun r => some (a :: r.1, r.2) := bind_run run rfl
      rw [ran] at run2
      obtain ⟨⟨answers, t3⟩, run3, same⟩ := Option.bind_eq_some_iff.mp run2
      have pair := Prod.ext_iff.mp (Option.some.inj same)
      have tail : answers = (m.apply c).answers l := (List.cons.inj pair.1).2
      have last : t3 = t2 := pair.2
      rw [run3, tail, last]
  · intro roomy l begins
    obtain ⟨t', T', run, good', models', nonneg'⟩ := calls_spec l good models nonneg
      (fun c hc => valid c (begins.subset hc)) (roomyRun_begins roomy begins)
    exact ⟨t', run, fun key _ => models'.search good' nonneg' key⟩

theorem actsAsMap_iff : ∃ t, init [] = some t ∧ Good t (Tree.empty 0) ∧
    ∀ calls, ActsAsMap calls ↔ Follows t Entries.empty calls := by
  obtain ⟨t, run, good⟩ := init_good
  refine ⟨t, run, good, fun calls => ?_⟩
  simp only [ActsAsMap, Follows, run, Option.bind_eq_bind, Option.bind_some]

/-- Started from etdb_trie_init, a sequence of calls behaves as on a finite map, up to each
    of its calls, if and only if each erase finds room. -/
theorem trie_acts_as_map (calls : List Call) (valid : ∀ c ∈ calls, c.Valid) :
    (∀ l, l <+: calls → ActsAsMap l) ↔ Entries.empty.RoomyRun calls := by
  obtain ⟨t, _, good, acts⟩ := actsAsMap_iff
  simp only [acts]
  exact follows_iff calls good models_empty (fun _ _ held => by cases held) valid

theorem trie_acts_as_map_once :
    (∀ c ∈ [Call.update [37, 0] 7, Call.erase [37, 0]], c.Valid) ∧
      ((∀ l, l <+: [Call.update [37, 0] 7, Call.erase [37, 0]] → ActsAsMap l) ↔
        Entries.empty.RoomyRun [Call.update [37, 0] 7, Call.erase [37, 0]]) :=
  have valid : ∀ c ∈ [Call.update [37, 0] 7, Call.erase [37, 0]], c.Valid := by simp [Call.Valid]
  ⟨valid, trie_acts_as_map _ valid⟩

theorem roomyRun_append (m : Entries) (l l' : List Call) :
    m.RoomyRun (l ++ l') ↔ m.RoomyRun l ∧ (m.after l).RoomyRun l' := by
  induction l generalizing m with
  | nil => simp [Entries.RoomyRun, Entries.after]
  | cons c l ih => simp [Entries.RoomyRun, Entries.after, ih, and_assoc]

def storeAll (keys : List (List UInt8)) (v : Int) : List Call := keys.map fun key => .update key v

theorem storeAll_roomy (m : Entries) (keys : List (List UInt8)) (v : Int) :
    m.RoomyRun (storeAll keys v) := by
  induction keys generalizing m with
  | nil => trivial
  | cons key keys ih => exact ⟨trivial, ih _⟩

theorem storeAll_after (m : Entries) (keys : List (List UInt8)) (v : Int) (key : List UInt8) :
    m.after (storeAll keys v) key = if key ∈ keys then some v else m key := by
  induction keys generalizing m with
  | nil => simp [storeAll, Entries.after]
  | cons k keys ih =>
    show (m.apply (.update k v)).after (storeAll keys v) key = _
    rw [ih]
    by_cases later : key ∈ keys
    · rw [if_pos later, if_pos (List.mem_cons_of_mem k later)]
    · rw [if_neg later]
      by_cases here : key = k <;> simp [Entries.apply, here, later]

def insertAll (bytes : List UInt8) : List Call := bytes.map fun x => .update [x] 1

theorem insertAll_eq (bytes : List UInt8) : insertAll bytes = storeAll (bytes.map fun x => [x]) 1 := by
  rw [insertAll, storeAll, List.map_map]
  rfl

theorem insertAll_after (m : Entries) (bytes : List UInt8) (key : List UInt8) :
    m.after (insertAll bytes) key = if ∃ x ∈ bytes, key = [x] then some 1 else m key := by
  rw [insertAll_eq, storeAll_after]
  simp only [List.mem_map, eq_comm]

def nonzeroBytes : List UInt8 := (List.range 255).map fun n => UInt8.ofNat (n + 1)

theorem mem_nonzeroBytes (x : UInt8) : x ∈ nonzeroBytes ↔ x ≠ 0 := by
  have small := x.toNat_lt
  simp only [nonzeroBytes, List.mem_map, List.mem_range]
  constructor
  · rintro ⟨n, below, rfl⟩ zero
    have := congrArg UInt8.toNat zero
    rw [UInt8.toNat_ofNat_of_lt' (show n + 1 < UInt8.size by simp only [UInt8.size]; omega)] at this
    simp at this
  · intro proper
    have pos : x.toNat ≠ 0 := fun zero => proper (UInt8.toNat_inj.mp zero)
    refine ⟨x.toNat - 1, by omega, ?_⟩
    rw [show x.toNat - 1 + 1 = x.toNat by omega, UInt8.ofNat_toNat]

/-- All 255 one-byte keys without NUL, then an erase of the first of them: the last call
    answers but breaks the root. -/
theorem crowded_erase_breaks :
    (∀ c ∈ insertAll nonzeroBytes ++ [Call.erase [1]], c.Valid) ∧
      ¬ ActsAsMap (insertAll nonzeroBytes ++ [Call.erase [1]]) := by
  have valid : ∀ c ∈ insertAll nonzeroBytes ++ [Call.erase [1]], c.Valid := by
    intro c hc
    rcases List.mem_append.mp hc with filled | last
    · obtain ⟨x, _, rfl⟩ := List.mem_map.mp filled
      exact ⟨by simp, by decide⟩
    · rw [List.mem_singleton.mp last]
      exact List.cons_ne_nil 1 []
  refine ⟨valid, fun acts => ?_⟩
  have empty : ∀ key x, Entries.empty key = some x → 0 ≤ x := fun _ _ held => by cases held
  have filled : Entries.empty.RoomyRun (insertAll nonzeroBytes) := by
    rw [insertAll_eq]
    exact storeAll_roomy _ _ _
  obtain ⟨t, _, good, same⟩ := actsAsMap_iff
  have all := (follows_iff _ good models_empty empty valid).mp (fun l begins => by
    rcases List.prefix_concat_iff.mp begins with rfl | inside
    · exact (same _).mp acts
    · obtain ⟨t', T', run, good', models', nonneg'⟩ := calls_spec l good models_empty empty
        (fun c hc => valid c (begins.subset hc)) (roomyRun_begins filled inside)
      exact ⟨t', run, fun key _ => models'.search good' nonneg' key⟩)
  have stored := insertAll_after Entries.empty nonzeroBytes
  have single : ∀ x : UInt8, x ≠ 0 → (encode [x]).head? = some x := by
    intro x proper
    by_cases sign : x = percent
    · simp [sign, labelsOf_percent]
    · simp [labelsOf_plain proper sign]
  rcases ((roomyRun_append _ _ _).mp all).2.1 with none | ⟨x, proper, unused⟩ | ⟨k, other, held, head⟩
  · rw [stored, if_pos ⟨1, (mem_nonzeroBytes 1).mpr (by decide), rfl⟩] at none
    cases none
  · refine unused [x] ?_ (single x proper)
    rw [stored, if_pos ⟨x, (mem_nonzeroBytes x).mpr proper, rfl⟩]
    exact Option.some_ne_none 1
  · by_cases inside : ∃ x ∈ nonzeroBytes, k = [x]
    · obtain ⟨x, byte, rfl⟩ := inside
      rw [single x ((mem_nonzeroBytes x).mp byte), single 1 (by decide)] at head
      exact other (by rw [Option.some.inj head])
    · rw [stored, if_neg inside] at held
      exact held rfl

end
end EtdbTrie
