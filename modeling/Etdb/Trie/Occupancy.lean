import Etdb.Trie.Count

/- etdb_trie_nonzero_size. Updates take the nodes that a key lacks, moves give every node
   they copy back, and erases give back what no other key needs. So the nodes in use are
   those of the stored keys alone, whatever was stored and erased before. -/
namespace EtdbTrie
open ByteXor ByteTree Trie
namespace Trie

def nonzeroSizeFrom (t : Trie) : Nat → Option Nat
  | 0 => some 0
  | n + 1 => do
    let i ← t.nonzeroSizeFrom n
    let c ← t.nodeAt n
    some (if 0 ≤ c.check then i + 1 else i)

def nonzeroSize (t : Trie) : Option Nat := t.nonzeroSizeFrom t.size.toNat

end Trie

def Entries.Begins (m : Entries) (labels : List UInt8) : Prop :=
  labels ≠ [] ∧ ∃ key, m key ≠ none ∧ labels <+: encode key ++ [0]

/-- The number of ways that begin a stored key, those of several keys counted once. -/
def Entries.Spelled (m : Entries) (n : Nat) : Prop :=
  ∃ ways : List (List UInt8), ways.Nodup ∧ (∀ labels, labels ∈ ways ↔ m.Begins labels) ∧ ways.length = n

section
variable {t : Trie} {T : ByteTree.Tree Int} {m : Entries} {loc : Path → Int} {i : Int}

theorem Trie.nonzeroSizeFrom_inside (free : Free t) (n : Nat) (inside : (n : Int) ≤ t.size) :
    t.nonzeroSizeFrom n = some ((List.range n).countP fun i : Nat => decide (0 ≤ (t.node i).check)) := by
  induction n with
  | zero => rfl
  | succ n ih =>
    have here : t.InNode n := free.sized.inNode.mpr (by omega)
    rw [List.range_succ, List.countP_append, List.countP_singleton]
    refine bind_run (ih (by omega)) (bind_run (nodeAt_inside here) ?_)
    by_cases taken : 0 ≤ (t.node n).check
    · simp [taken]
    · simp [taken]

theorem Trie.Rep.taken_iff (rep : Rep t T loc Settled NoSpare) (free : Free t) (inside : t.InNode i) :
    0 ≤ (t.node i).check ↔ ∃ w, T.Mem w ∧ w ≠ [] ∧ loc w = i := by
  constructor
  · intro taken
    rcases empty_or_occ (free.sized.inNode.mp inside) with empty | occ
    · have := empty.2.2
      omega
    obtain ⟨w, mem, rfl⟩ := rep.node_of_occ occ
    refine ⟨w, mem, ?_, rfl⟩
    rintro rfl
    rw [rep.root, rep.rootNode] at taken
    cases taken
  · rintro ⟨w, mem, proper, rfl⟩
    cases w with
    | nil => exact absurd rfl proper
    | cons c w =>
      rw [rep.check c w mem]
      exact (rep.occ_node mem.1).1

theorem Models.begins_iff (good : Good t T) (models : Models T m) (labels : List UInt8) :
    m.Begins labels ↔ T.Mem labels.reverse ∧ labels.reverse ≠ [] := by
  constructor
  · rintro ⟨proper, key, held, begins⟩
    refine ⟨?_, by simpa using proper⟩
    have suffix := List.reverse_suffix.mpr begins
    rw [List.reverse_append, List.reverse_cons, List.reverse_nil, List.nil_append] at suffix
    exact Tree.mem_of_suffix (models.slot held) suffix
  · rintro ⟨mem, proper⟩
    obtain ⟨q, slot, suffix⟩ := Tree.reach_slot good.live good.deep mem proper
    obtain ⟨key, rfl, value⟩ := models.value slot
    refine ⟨by simpa using proper, key, by simp [value], ?_⟩
    have begins := List.reverse_prefix.mpr suffix
    rwa [List.reverse_reverse, List.reverse_cons, pathOf, List.reverse_reverse] at begins

theorem nonzeroSize_spec (good : Good t T) (models : Models T m) :
    ∃ n, t.nonzeroSize = some n ∧ m.Spelled n := by
  obtain ⟨loc, rep⟩ := good.rep
  have pos := good.free.sized.pos
  refine ⟨_, nonzeroSizeFrom_inside good.free t.size.toNat (by omega), ?_⟩
  rw [List.countP_eq_length_filter]
  have node : ∀ i : Nat, i ∈ (List.range t.size.toNat).filter
      (fun i : Nat => decide (0 ≤ (t.node i).check)) ↔ ∃ w, T.Mem w ∧ w ≠ [] ∧ loc w = i := by
    intro i
    rw [List.mem_filter, List.mem_range, decide_eq_true_iff]
    constructor
    · rintro ⟨below, taken⟩
      exact (rep.taken_iff good.free (good.free.sized.inNode.mpr (by omega))).mp taken
    · rintro ⟨w, mem, proper, cell⟩
      have inside := (rep.occ_node mem).inNode good.free.sized
      rw [cell] at inside
      have bounds := good.free.sized.inNode.mp inside
      exact ⟨by omega, (rep.taken_iff good.free inside).mpr ⟨w, mem, proper, cell⟩⟩
  obtain ⟨ways, nodup, member, length⟩ := exists_partners
    (R := fun (i : Nat) (labels : List UInt8) =>
      T.Mem labels.reverse ∧ labels.reverse ≠ [] ∧ loc labels.reverse = i)
    (fun i i' labels first second => by have := first.2.2.symm.trans second.2.2; omega)
    (fun i labels labels' first second =>
      List.reverse_injective (rep.inj _ _ first.1 second.1 (first.2.2.trans second.2.2.symm)))
    _ (List.nodup_range.filter _)
    (fun i inside => by
      obtain ⟨w, mem, proper, cell⟩ := (node i).mp inside
      exact ⟨w.reverse, by simpa using ⟨mem, proper, cell⟩⟩)
  refine ⟨ways, nodup, fun labels => ?_, length⟩
  rw [member, models.begins_iff good]
  constructor
  · rintro ⟨i, _, mem, proper, _⟩
    exact ⟨mem, proper⟩
  · rintro ⟨mem, proper⟩
    have positive := (rep.occ_node mem).1
    exact ⟨(loc labels.reverse).toNat, (node _).mpr ⟨_, mem, proper, by omega⟩, mem, proper, by omega⟩

theorem Entries.Spelled.unique {n n' : Nat} (spelled : m.Spelled n) (spelled' : m.Spelled n') :
    n = n' := by
  obtain ⟨ways, nodup, member, rfl⟩ := spelled
  obtain ⟨ways', nodup', member', rfl⟩ := spelled'
  refine ((List.perm_ext_iff_of_nodup nodup nodup').mpr fun labels => ?_).length_eq
  rw [member, member']

/-- Whatever calls on typed keys were made, the nodes in use are as many as the beginnings
    of the stored keys; so other calls that lead to the same entries need as many. -/
theorem nodes_are_reclaimed (calls : List Call) (own : ∀ c ∈ calls, Typed c.key) :
    ∃ answers t n, (init [] >>= fun t => t.calls calls) = some (answers, t) ∧ t.nonzeroSize = some n ∧
      (Entries.empty.keptAfter calls).Spelled n ∧
      ∀ others : List Call, (∀ c ∈ others, Typed c.key) →
        Entries.empty.keptAfter others = Entries.empty.keptAfter calls →
        ∃ answers' t', (init [] >>= fun t => t.calls others) = some (answers', t') ∧
          t'.nonzeroSize = some n := by
  obtain ⟨t0, start, good0⟩ := init_good
  have made (calls : List Call) (own : ∀ c ∈ calls, Typed c.key) : ∃ answers t n,
      (init [] >>= fun t => t.calls calls) = some (answers, t) ∧ t.nonzeroSize = some n ∧
        (Entries.empty.keptAfter calls).Spelled n := by
    obtain ⟨answers, t, T, run, good, models⟩ :=
      typed_calls calls good0 models_empty (fun _ held => absurd rfl held) own
    obtain ⟨n, count, spelled⟩ := nonzeroSize_spec good models
    exact ⟨answers, t, n, bind_run start run, count, spelled⟩
  obtain ⟨answers, t, n, run, count, spelled⟩ := made calls own
  refine ⟨answers, t, n, run, count, spelled, fun others own' same => ?_⟩
  obtain ⟨answers', t', n', run', count', spelled'⟩ := made others own'
  rw [same] at spelled'
  exact ⟨answers', t', run', by rw [count', spelled'.unique spelled]⟩

theorem nodes_are_reclaimed_once : ∃ answers t n,
    (init [] >>= fun t => t.calls [.update [48, 0] 5, .update [97] 1, .erase [48, 0]]) =
      some (answers, t) ∧ t.nonzeroSize = some n ∧
      (Entries.empty.keptAfter [.update [48, 0] 5, .update [97] 1, .erase [48, 0]]).Spelled n ∧
      ∀ others : List Call, (∀ c ∈ others, Typed c.key) →
        Entries.empty.keptAfter others =
          Entries.empty.keptAfter [.update [48, 0] 5, .update [97] 1, .erase [48, 0]] →
        ∃ answers' t', (init [] >>= fun t => t.calls others) = some (answers', t') ∧
          t'.nonzeroSize = some n :=
  nodes_are_reclaimed [.update [48, 0] 5, .update [97] 1, .erase [48, 0]] (by
    simp only [List.mem_cons, List.not_mem_nil, or_false, forall_eq_or_imp, forall_eq, Call.key]
    exact ⟨⟨48, [0], rfl, by decide⟩, ⟨97, [], rfl, by decide⟩, ⟨48, [0], rfl, by decide⟩⟩)

end
end EtdbTrie
