import Etdb.Trie.Structure

/- etdb_trie_num_keys. Nothing keeps a count: the scan takes a cell for a value slot when
   the base of its parent is the cell itself. -/
namespace EtdbTrie
open ByteXor ByteTree Trie
namespace Trie

def numKeysFrom (t : Trie) : Nat → Option Nat
  | 0 => some 0
  | n + 1 => do
    let i ← t.numKeysFrom n
    let c ← t.nodeAt n
    if 0 ≤ c.check then do
      let p ← t.nodeAt c.check
      some (if p.base = n then i + 1 else i)
    else some i

def numKeys (t : Trie) : Option Nat := t.numKeysFrom t.size.toNat

def Counted (t : Trie) (i : Int) : Prop := 0 ≤ (t.node i).check ∧ (t.node (t.node i).check).base = i

instance (t : Trie) (i : Int) : Decidable (t.Counted i) := inferInstanceAs (Decidable (_ ∧ _))

end Trie

def Entries.Size (m : Entries) (n : Nat) : Prop :=
  ∃ keys : List (List UInt8), keys.Nodup ∧ (∀ key, key ∈ keys ↔ m key ≠ none) ∧ keys.length = n

/-- A new key is one more, a removed one is one less; the rest makes no difference. -/
def Entries.Moves (m : Entries) (n : Nat) : Call → Int → Nat → Prop
  | .update key _, _, n' => n' = if m key = none then n + 1 else n
  | .erase _, answer, n' => if answer = -1 then n' = n else n = n' + 1

section
variable {t : Trie} {T : ByteTree.Tree Int} {m m' : Entries} {loc : Path → Int} {w : Path} {i : Int}
    {n n' : Nat}
variable {key : List UInt8} {c : Call} {a : Int}

theorem Entries.Size.unique (size : m.Size n) (size' : m.Size n') : n = n' := by
  obtain ⟨keys, nodup, member, rfl⟩ := size
  obtain ⟨keys', nodup', member', rfl⟩ := size'
  refine ((List.perm_ext_iff_of_nodup nodup nodup').mpr fun key => ?_).length_eq
  rw [member, member']

theorem Entries.Size.same (size : m.Size n) (alike : ∀ key, m' key = none ↔ m key = none) :
    m'.Size n := by
  obtain ⟨keys, nodup, member, length⟩ := size
  refine ⟨keys, nodup, fun key => ?_, length⟩
  rw [member, ne_eq, ne_eq, alike]

theorem Entries.Size.put (size : m.Size n) (key : List UInt8) (v : Int) :
    (m.apply (.update key v)).Size (if m key = none then n + 1 else n) := by
  split
  · rename_i absent
    obtain ⟨keys, nodup, member, length⟩ := size
    refine ⟨key :: keys, List.nodup_cons.mpr ⟨fun held => (member key).mp held absent, nodup⟩,
      fun other => ?_, ?_⟩
    · by_cases here : other = key
      · simp [Entries.apply, here]
      · simp [Entries.apply, here, member]
    · rw [List.length_cons, length]
  · rename_i held
    refine size.same fun other => ?_
    by_cases here : other = key
    · simp [Entries.apply, here, held]
    · simp [Entries.apply, here]

theorem Entries.Size.take (size : m.Size n) (held : m key ≠ none) : ∃ n',
    (m.apply (.erase key)).Size n' ∧ n = n' + 1 := by
  obtain ⟨keys, nodup, member, rfl⟩ := size
  have inside := (member key).mpr held
  refine ⟨(keys.erase key).length, ⟨keys.erase key, nodup.erase key, fun other => ?_, rfl⟩, ?_⟩
  · rw [nodup.mem_erase_iff, member]
    by_cases here : other = key
    · simp [Entries.apply, here]
    · simp [Entries.apply, here]
  · have := List.length_erase_of_mem inside
    have := List.length_pos_of_mem inside
    omega

theorem moves_kept (size : m.Size n) (size' : (m.kept c).Size n')
    (answer : ¬ m.Refuses c → a = m.answer c)
    (refusal : m.Refuses c → a = -1) : m.Moves n c a n' := by
  cases c with
  | update key v =>
    rw [Entries.kept, if_neg (show ¬ m.Refuses (.update key v) from id)] at size'
    exact size'.unique (size.put key v)
  | erase key =>
    rw [Entries.Moves]
    by_cases refuses : m.Refuses (.erase key)
    · rw [Entries.kept, if_pos refuses] at size'
      rw [if_pos (refusal refuses)]
      exact size'.unique size
    rw [Entries.kept, if_neg refuses] at size'
    rw [answer refuses, Entries.answer]
    cases value : m key with
    | none =>
      rw [Option.getD_none, if_pos rfl]
      have same : m.apply (.erase key) = m := Function.update_eq_self_iff.mpr value.symm
      rw [same] at size'
      exact size'.unique size
    | some x =>
      have proper : x ≠ -1 := fun code => refuses (Or.inl (by rw [value, code, noPath]))
      obtain ⟨less, size1, step⟩ := size.take (show m key ≠ none by simp [value])
      rw [Option.getD_some, if_neg proper, step, size'.unique size1]

theorem refused_answer (good : Good t T) (models : Models T m) {t' : Trie} (refuses : m.Refuses c)
    (run : t.call c = some (a, t')) : a = -1 := by
  cases c with
  | update _ _ => cases refuses
  | erase key =>
    obtain ⟨x, value, codes⟩ : ∃ x, m key = some x ∧ (x = noPath ∨ x = noValue) := by
      rcases refuses with code | code
      · exact ⟨_, code, Or.inl rfl⟩
      · exact ⟨_, code, Or.inr rfl⟩
    have run' := erase_refused good ((models.stored key).trans value) codes
    exact (Prod.mk.inj (Option.some.inj (run.symm.trans run'))).1

theorem Trie.Rep.counted_iff (rep : Rep t T loc Settled NoSpare) (free : Free t) (inside : t.InNode i) :
    t.Counted i ↔ ∃ w, T.Mem (0 :: w) ∧ loc (0 :: w) = i := by
  constructor
  · rintro ⟨taken, base⟩
    rcases empty_or_occ (free.sized.inNode.mp inside) with empty | occ
    · have := empty.2.2
      omega
    obtain ⟨u, mem, rfl⟩ := rep.node_of_occ occ
    cases u with
    | nil =>
      rw [rep.root, rep.rootNode] at taken
      cases taken
    | cons c w =>
      rw [rep.check c w mem] at base
      have place := rep.place c w mem id
      have zero : c = 0 := xorByte_injective _ _ _ (by rw [← place, xorByte_zero, base])
      exact ⟨w, zero ▸ mem, by rw [zero]⟩
  · rintro ⟨w, mem, rfl⟩
    have place := rep.place 0 w mem id
    rw [xorByte_zero] at place
    refine ⟨?_, ?_⟩
    · rw [rep.check 0 w mem]
      exact (rep.occ_node mem.1).1
    · rw [rep.check 0 w mem, place]

theorem Trie.Rep.numKeysFrom (rep : Rep t T loc Settled NoSpare) (free : Free t) (n : Nat)
    (inside : (n : Int) ≤ t.size) :
    t.numKeysFrom n = some ((List.range n).countP fun i : Nat => decide (t.Counted i)) := by
  induction n with
  | zero => rfl
  | succ n ih =>
    have here : t.InNode n := free.sized.inNode.mpr (by omega)
    rw [List.range_succ, List.countP_append, List.countP_singleton]
    refine bind_run (ih (by omega)) (bind_run (nodeAt_inside here) ?_)
    by_cases taken : 0 ≤ (t.node n).check
    · have parent : t.InNode (t.node n).check := by
        rcases empty_or_occ (free.sized.inNode.mp here) with empty | occ
        · have := empty.2.2
          omega
        obtain ⟨u, mem, cell⟩ := rep.node_of_occ occ
        cases u with
        | nil =>
          rw [← cell, rep.root, rep.rootNode] at taken
          cases taken
        | cons c w =>
          rw [← cell, rep.check c w mem]
          exact (rep.occ_node mem.1).inNode free.sized
      refine (if_pos taken).trans (bind_run (nodeAt_inside parent) ?_)
      by_cases base : (t.node (t.node n).check).base = n
      · rw [if_pos base, decide_eq_true (show t.Counted n from ⟨taken, base⟩)]
        rfl
      · rw [if_neg base, decide_eq_false (show ¬ t.Counted n from fun counted => base counted.2)]
        rfl
    · refine (if_neg taken).trans ?_
      rw [decide_eq_false (show ¬ t.Counted n from fun counted => taken counted.1)]
      rfl

theorem exists_partners {α β : Type} {R : α → β → Prop} (left : ∀ a a' b, R a b → R a' b → a = a')
    (right : ∀ a b b', R a b → R a b' → b = b') (l : List α) (nodup : l.Nodup)
    (total : ∀ a ∈ l, ∃ b, R a b) :
    ∃ partners : List β, partners.Nodup ∧ (∀ b, b ∈ partners ↔ ∃ a ∈ l, R a b) ∧
    partners.length = l.length := by
  induction l with
  | nil => exact ⟨[], List.nodup_nil, fun b => by simp, rfl⟩
  | cons a rest ih =>
    obtain ⟨fresh, nodup⟩ := List.nodup_cons.mp nodup
    obtain ⟨partners, apart, member, length⟩ := ih nodup fun a' inside =>
      total a' (List.mem_cons_of_mem a inside)
    obtain ⟨b, partner⟩ := total a List.mem_cons_self
    refine ⟨b :: partners, List.nodup_cons.mpr ⟨fun held => ?_, apart⟩, fun b' => ?_, by simp [length]⟩
    · obtain ⟨a', inside, partner'⟩ := (member b).mp held
      exact fresh (left a a' b partner partner' ▸ inside)
    · rw [List.mem_cons, member, List.exists_mem_cons_iff]
      refine or_congr_left ⟨?_, fun partner' => right a b' b partner' partner⟩
      rintro rfl
      exact partner

theorem numKeys_spec (good : Good t T) (models : Models T m) : ∃ n, t.numKeys = some n ∧ m.Size n := by
  obtain ⟨loc, rep⟩ := good.rep
  have pos := good.free.sized.pos
  have count := rep.numKeysFrom good.free t.size.toNat (by omega)
  refine ⟨_, count, ?_⟩
  rw [List.countP_eq_length_filter]
  have slot : ∀ i : Nat, i ∈ (List.range t.size.toNat).filter (fun i : Nat => decide (t.Counted i)) ↔
      ∃ w, T.Mem (0 :: w) ∧ loc (0 :: w) = i := by
    intro i
    rw [List.mem_filter, List.mem_range, decide_eq_true_iff]
    constructor
    · rintro ⟨below, counted⟩
      exact (rep.counted_iff good.free (good.free.sized.inNode.mpr (by omega))).mp counted
    · rintro ⟨w, mem, cell⟩
      have inside := (rep.occ_node mem).inNode good.free.sized
      rw [cell] at inside
      exact ⟨by have := inside.2.1; omega, (rep.counted_iff good.free inside).mpr ⟨w, mem, cell⟩⟩
  obtain ⟨keys, nodup, member, length⟩ := exists_partners
    (R := fun (i : Nat) (key : List UInt8) => T.Mem (0 :: pathOf key) ∧ loc (0 :: pathOf key) = i)
    (fun i i' key first second => by have := first.2.symm.trans second.2; omega)
    (fun i key key' first second => by
      have same := rep.inj _ _ first.1 second.1 (first.2.trans second.2.symm)
      exact pathOf_inj.mp (List.cons.inj same).2)
    _ (List.nodup_range.filter _)
    (fun i inside => by
      obtain ⟨w, mem, cell⟩ := (slot i).mp inside
      obtain ⟨key, rfl, _⟩ := models.value mem
      exact ⟨key, mem, cell⟩)
  refine ⟨keys, nodup, fun key => ?_, length⟩
  rw [member]
  constructor
  · rintro ⟨i, _, mem, _⟩
    obtain ⟨key', path, held⟩ := models.value mem
    rw [pathOf_inj.mp path, held]
    simp
  · intro held
    have mem := models.slot held
    have positive := (rep.occ_node mem).1
    refine ⟨(loc (0 :: pathOf key)).toNat, (slot _).mpr ⟨pathOf key, mem, by omega⟩, mem, by omega⟩

theorem keptAfter_typed {calls : List Call} (typed : ∀ key, m key ≠ none → Typed key)
    (own : ∀ c ∈ calls, Typed c.key) : ∀ key, m.keptAfter calls key ≠ none → Typed key := by
  induction calls generalizing m with
  | nil => exact typed
  | cons c rest ih =>
    exact ih (kept_typed typed (own c List.mem_cons_self)) fun d inside =>
      own d (List.mem_cons_of_mem c inside)

/-- Whatever calls on typed keys were made, the scan counts the stored keys, and the next
    call moves the count as its answer says. -/
theorem num_keys_counts (calls : List Call) (own : ∀ c ∈ calls, Typed c.key) :
    ∃ answers t n, (init [] >>= fun t => t.calls calls) = some (answers, t) ∧ t.numKeys = some n ∧
      (Entries.empty.keptAfter calls).Size n ∧
      ∀ c : Call, Typed c.key → ∃ a t' n', t.call c = some (a, t') ∧ t'.numKeys = some n' ∧
        (Entries.empty.keptAfter calls).Moves n c a n' := by
  obtain ⟨t0, start, good0⟩ := init_good
  obtain ⟨answers, t, T, run, good, models⟩ :=
    typed_calls calls good0 models_empty (fun _ held => absurd rfl held) own
  obtain ⟨n, count, size⟩ := numKeys_spec good models
  refine ⟨answers, t, n, bind_run start run, count, size, fun c type => ?_⟩
  have proper : c.key ≠ [] := by
    obtain ⟨head, tail, key, _⟩ := type
    simp [key]
  have typed := keptAfter_typed (m := Entries.empty) (fun _ held => absurd rfl held) own
  obtain ⟨a, t', T', run', good', models', answer⟩ := call_spec good models proper (typed_roomy typed c)
  obtain ⟨n', count', size'⟩ := numKeys_spec good' models'
  exact ⟨a, t', n', run', count', moves_kept size size' answer fun refuses =>
    refused_answer good models refuses run'⟩

theorem num_keys_counts_once : ∃ answers t n,
    (init [] >>= fun t => t.calls [.update [48, 0] 5, .update [97] 1, .erase [48, 0]]) =
      some (answers, t) ∧
      t.numKeys = some n ∧ (Entries.empty.keptAfter
      [.update [48, 0] 5, .update [97] 1, .erase [48, 0]]).Size n ∧
      ∀ c : Call, Typed c.key → ∃ a t' n', t.call c = some (a, t') ∧ t'.numKeys = some n' ∧
        (Entries.empty.keptAfter [.update [48, 0] 5, .update [97] 1, .erase [48, 0]]).Moves n c a n' :=
  num_keys_counts [.update [48, 0] 5, .update [97] 1, .erase [48, 0]] (by
    simp only [List.mem_cons, List.not_mem_nil, or_false, forall_eq_or_imp, forall_eq, Call.key]
    exact ⟨⟨48, [0], rfl, by decide⟩, ⟨97, [], rfl, by decide⟩, ⟨48, [0], rfl, by decide⟩⟩)

end
end EtdbTrie
