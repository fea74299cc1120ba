import Etdb.Trie.Count
import Etdb.Trie.Insertion

/- The climb of etdb_trie_erase_impl, in terms of walks in the arrays: which nodes it frees, and
   that it ends below the root. -/
namespace EtdbTrie
open ByteXor ByteChain ByteTree Trie
namespace Trie

/-- A node that one of the labels of the key leads to, the value slot included. -/
def Lies (t : Trie) (key : List UInt8) (i : Int) : Prop :=
  ∃ labels, labels ≠ [] ∧ labels <+: encode key ++ [0] ∧ t.Walk 0 labels i

def Only (t : Trie) (m : Entries) (key : List UInt8) (i : Int) : Prop :=
  t.Lies key i ∧ ∀ key', m key' ≠ none → key' ≠ key → ¬ t.Lies key' i

/-- The climb freed the key's own nodes. It did not step over the root, whose check is no index:
    a climb that goes on from there has no result. -/
structure Climbs (t t' : Trie) (m : Entries) (key : List UInt8) : Prop where
  above : ∀ u fuel e, eraseLoop fuel (t.node 0).check e u = none
  occ : ∀ i, t'.Occ i ↔ t.Occ i ∧ ¬ t.Only m key i
  empty : ∀ i, t'.Empty i ↔ t.Empty i ∨ t.Only m key i

section
variable {t t' : Trie} {T : ByteTree.Tree Int} {m : Entries} {loc : Path → Int} {w : Path} {i : Int}
    {key : List UInt8} {x : Int}

theorem eraseLoop_above {origin : Int} (above : origin < 0) (u : Trie) (fuel : Nat) (e : Int) :
    eraseLoop fuel origin e u = none := by
  cases fuel with
  | zero => rfl
  | succ fuel =>
    have out : u.nodeAt origin = none := if_neg fun inside => by
      have := inside.1
      omega
    rw [eraseLoop, out]
    rfl

theorem Rep.lies_iff (rep : Rep t T loc Settled NoSpare) :
    t.Lies key i ↔ ∃ w, w ≠ [] ∧ w <:+ 0 :: pathOf key ∧ T.Mem w ∧ loc w = i := by
  constructor
  · rintro ⟨labels, some, begins, walk⟩
    obtain ⟨mem, here⟩ := rep.walk_root.mp walk
    refine ⟨labels.reverse, by simpa using some, ?_, mem, here⟩
    have back := List.reverse_suffix.mpr begins
    rwa [List.reverse_append] at back
  · rintro ⟨w, some, suffix, mem, here⟩
    refine ⟨w.reverse, by simpa using some, ?_, rep.walk_root.mpr (by simpa using ⟨mem, here⟩)⟩
    have back := List.reverse_prefix.mpr suffix
    rwa [List.reverse_cons, pathOf, List.reverse_reverse] at back

theorem only_iff (good : Good t T) (models : Models T m) (rep : Rep t T loc Settled NoSpare)
    (slot : T.Mem (0 :: pathOf key)) (mem : T.Mem w) :
    t.Only m key (loc w) ↔ ¬ (T.prune (0 :: pathOf key)).Mem w := by
  have lies : ∀ key', t.Lies key' (loc w) ↔ w ≠ [] ∧ w <:+ 0 :: pathOf key' := fun key' => by
    rw [rep.lies_iff]
    constructor
    · rintro ⟨u, some, suffix, memU, same⟩
      obtain rfl := rep.inj u w memU mem same
      exact ⟨some, suffix⟩
    · rintro ⟨some, suffix⟩
      exact ⟨w, some, suffix, mem, rfl⟩
  rw [Tree.mem_prune_iff good.shape slot good.live good.deep, not_and_not_right]
  simp only [Only, lies]
  constructor
  · rintro ⟨⟨some, suffix⟩, alone⟩ _
    refine ⟨some, suffix, fun q slotQ other on => ?_⟩
    obtain ⟨key', rfl, held⟩ := models.value slotQ
    exact alone key' (by simp [held]) (fun same => other (by rw [same])) ⟨some, on⟩
  · intro gone
    obtain ⟨some, suffix, alone⟩ := gone mem
    refine ⟨⟨some, suffix⟩, fun key' held other on => ?_⟩
    exact alone _ (models.slot held) (fun same => other (pathOf_inj.mp same)) on.2

theorem climbs_of_prune (good : Good t T) (models : Models T m) (rep : Rep t T loc Settled NoSpare)
    (slot : T.Mem (0 :: pathOf key)) (rep' : Rep t' (T.prune (0 :: pathOf key)) loc Settled NoSpare)
    (size : t'.size = t.size) : t.Climbs t' m key := by
  have occ : ∀ i, t'.Occ i ↔ t.Occ i ∧ ¬ t.Only m key i := by
    intro i
    constructor
    · intro kept
      obtain ⟨w, mem, rfl⟩ := rep'.node_of_occ kept
      have old := Tree.mem_prune mem
      exact ⟨rep.occ_node old, fun only => (only_iff good models rep slot old).mp only mem⟩
    · rintro ⟨old, shared⟩
      obtain ⟨w, mem, rfl⟩ := rep.node_of_occ old
      refine rep'.occ_node ?_
      by_contra gone
      exact shared ((only_iff good models rep slot mem).mpr gone)
  have only_occ : ∀ i, t.Only m key i → t.Occ i ∧ i ≠ 0 := by
    rintro i ⟨lies, _⟩
    obtain ⟨w, some, _, mem, rfl⟩ := rep.lies_iff.mp lies
    exact ⟨rep.occ_node mem, fun zero => some ((rep.loc_zero mem).mp zero)⟩
  refine ⟨eraseLoop_above (by rw [← rep.root, rep.root, rep.rootNode]; decide), occ, fun i => ?_⟩
  constructor
  · intro empty
    by_cases own : t.Only m key i
    · exact Or.inr own
    · refine Or.inl (((empty_or_occ (t := t) (i := i)) ?_).resolve_right fun old => ?_)
      · have := empty.1; have := empty.2.1
        omega
      · exact empty.not_occ ((occ i).mpr ⟨old, own⟩)
  · rintro (empty | own)
    · exact empty.keep (Int.le_of_eq size.symm) fun kept => empty.not_occ ((occ i).mp kept).1
    · obtain ⟨old, proper⟩ := only_occ i own
      have inside : 0 ≤ i ∧ i < t'.size := ⟨old.1, by rw [size]; exact old.2.1⟩
      exact (empty_or_occ inside).resolve_right fun kept => ((occ i).mp kept).2 own

theorem eraseImpl_climbs (good : Good t T) (models : Models T m) (held : m key = some x)
    (room : m.Roomy (.erase key)) : ∃ origin t', t.find 0 key = some (x, origin) ∧
      t.Walk 0 (encode key) origin ∧ t.eraseImpl origin = some t' ∧ t.Climbs t' m key := by
  obtain ⟨loc, rep⟩ := good.rep
  have stored := (models.stored key).trans held
  obtain ⟨slot, value⟩ := Tree.stored_eq_some.mp stored
  obtain ⟨origin, run, place⟩ := find_root good key
  have short := rep.depth slot
  obtain ⟨t', climb, _, rep', size⟩ := eraseLoop_spec good.free good.shape (rep.repair _) slot
    (good.shape.leaf (pathOf key)) ((models.roomy_iff good held).mp room) rfl
    (show (0 :: pathOf key).length ≤ t.size.toNat by omega)
  obtain rfl := place loc rep slot.1
  refine ⟨loc (pathOf key), t', ?_, ?_, ?_, climbs_of_prune good models rep slot rep' size⟩
  · rw [run, answer_stored _ slot, value]
  · refine rep.walk_root.mpr ⟨?_, rfl⟩
    exact slot.1
  · refine bind_run (nodeAt_inside ((rep.occ_node slot.1).inNode good.free.sized)) ?_
    rw [← rep.place 0 (pathOf key) slot id]
    exact climb

end
end Trie

/-- Whatever calls on typed keys were made, the climb from a stored key frees the nodes that are
    on no other stored key's path, and no others. -/
theorem climb_frees_own (calls : List Call) (own : ∀ c ∈ calls, Typed c.key) (key : List UInt8)
    (x : Int) (held : Entries.empty.keptAfter calls key = some x) : ∃ answers t origin t',
    (init [] >>= fun t => t.calls calls) = some (answers, t) ∧ t.find 0 key = some (x, origin) ∧
    t.Walk 0 (encode key) origin ∧ t.eraseImpl origin = some t' ∧
    t.Climbs t' (Entries.empty.keptAfter calls) key := by
  obtain ⟨t0, run0, good0⟩ := init_good
  have none : ∀ k, Entries.empty k ≠ none → Typed k := fun _ held => absurd rfl held
  obtain ⟨answers, t, T, run, good, models⟩ := typed_calls calls good0 models_empty none own
  obtain ⟨origin, t', found, walk, climb, climbs⟩ :=
    eraseImpl_climbs good models held (typed_roomy (keptAfter_typed none own) (.erase key))
  exact ⟨answers, t, origin, t', bind_run run0 run, found, walk, climb, climbs⟩

/-- "0\x01" goes, with the node of its second label; "0" stays. -/
theorem climb_frees_own_once : ∃ answers t origin t',
    (init [] >>= fun t => t.calls [.update [48, 1] 5, .update [48] 6]) = some (answers, t) ∧
    t.find 0 [48, 1] = some (5, origin) ∧ t.Walk 0 (encode [48, 1]) origin ∧
    t.eraseImpl origin = some t' ∧
    t.Climbs t' (Entries.empty.keptAfter [.update [48, 1] 5, .update [48] 6]) [48, 1] :=
  climb_frees_own [.update [48, 1] 5, .update [48] 6] (by
    simp only [List.mem_cons, List.not_mem_nil, or_false, forall_eq_or_imp, forall_eq, Call.key]
    exact ⟨⟨48, [1], rfl, by decide⟩, ⟨48, [], rfl, by decide⟩⟩) [48, 1] 5 (by decide)

end EtdbTrie
