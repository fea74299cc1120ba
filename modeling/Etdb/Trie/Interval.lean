import Etdb.Trie.Structure

/- What etdb_trie_find_place_interval delivers on a trie reached by calls on typed keys: a cell
   from which a whole family of labels falls on free cells of one listed block. -/
namespace EtdbTrie
open ByteXor CircularRing Trie

namespace Trie

structure Hosts (t t' : Trie) (e : Int) (first : UInt8) (rest : List UInt8) : Prop where
  empty : ∀ c ∈ first :: rest, t'.Empty (xorByte (xorByte e first) c) ∧
    xorByte (xorByte e first) c / 256 = e / 256
  block : e / 256 ≠ 0
  opened : ∃ l, t'.ListLinked l ∧ t'.blockHeadOpen ∈ l ∧ e / 256 ∈ l
  roomy : ((first :: rest).length : Int) ≤ (t'.block (e / 256)).num
  node : ∀ i, i < t.size → t'.node i = t.node i
  free : t'.FreeExact

end Trie

section
variable {t t' : Trie} {T : ByteTree.Tree Int} {e b : Int} {first : UInt8} {rest : List UInt8}

theorem Trie.Fits.label (fits : t.Fits e first rest) : ∀ c ∈ first :: rest,
    t.Empty (xorByte (xorByte e first) c) ∧ xorByte (xorByte e first) c / 256 = e / 256 := by
  intro c member
  refine ⟨?_, (xorByte_block _ _).trans (xorByte_block _ _)⟩
  rcases List.mem_cons.mp member with rfl | later
  · rw [xorByte_cancel]
    exact fits.1
  · exact fits.2 c later

/-- Distinct labels fall on distinct cells of the block's ring. -/
theorem Trie.Fits.roomy (fits : t.Fits e first rest) (free : Free t)
    (nodup : (first :: rest).Nodup) (listed : e / 256 ≠ 0) :
    ((first :: rest).length : Int) ≤ (t.block (e / 256)).num := by
  obtain ⟨l, ring⟩ := free.ring _ (free.sized.block_of_node (fits.1.inNode free.sized))
  have cells : ((first :: rest).map (xorByte (xorByte e first))).Nodup :=
    nodup.map fun _ _ same => xorByte_injective _ _ _ same
  have inside : (first :: rest).map (xorByte (xorByte e first)) ⊆ l := by
    intro i member
    obtain ⟨c, label, rfl⟩ := List.mem_map.mp member
    exact (ring.mem _).mpr (fits.label c label)
  have short := (cells.subperm inside).length_le
  rw [List.length_map] at short
  rw [ring.num, if_neg listed]
  omega

theorem hosts_of_fits (free : Free t') (grown : Grown t t') (fits : t'.Fits e first rest)
    (on : On t' t'.kinds .opened (e / 256)) (nodup : (first :: rest).Nodup) :
    t.Hosts t' e first rest where
  empty := fits.label
  block := (Int.ne_of_lt on.1).symm
  opened := by
    obtain ⟨l, ok⟩ := free.lists .opened
    have member := (ok.mem _).mpr on
    refine ⟨l, ok.ring, (ok.head (by decide)).resolve_left ?_, member⟩
    rintro ⟨rfl, _⟩
    exact List.not_mem_nil member
  roomy := fits.roomy free nodup ((Int.ne_of_lt on.1).symm)
  node := grown.node
  free := free.exact

end

/-- For two labels or more, whatever calls on typed keys were made before. -/
theorem place_interval_hosts (calls : List Call) (own : ∀ c ∈ calls, Typed c.key)
    (first second : UInt8) (rest : List UInt8) (nodup : (first :: second :: rest).Nodup) :
    ∃ answers t e t', (init [] >>= fun t => t.calls calls) = some (answers, t) ∧
      t.findPlaceInterval first (second :: rest) = some (e, t') ∧
      t.Hosts t' e first (second :: rest) := by
  obtain ⟨t0, run0, good0⟩ := init_good
  obtain ⟨answers, t, T, run, good, _⟩ := typed_calls calls good0 models_empty
    (fun _ held => absurd rfl held) own
  obtain ⟨e, t', found, free, grown, fits, on⟩ := findPlaceInterval_spec first (second :: rest) good.free
  exact ⟨answers, t, e, t', bind_run run0 run, found, hosts_of_fits free grown fits on nodup⟩

theorem place_interval_hosts_once : ∃ answers t e t',
    (init [] >>= fun t => t.calls [.update [48, 1] 5, .update [48, 2] 6]) = some (answers, t) ∧
      t.findPlaceInterval 1 [2, 0] = some (e, t') ∧ t.Hosts t' e 1 [2, 0] :=
  place_interval_hosts [.update [48, 1] 5, .update [48, 2] 6] (by
    simp only [List.mem_cons, List.not_mem_nil, or_false, forall_eq_or_imp, forall_eq, Call.key]
    exact ⟨⟨48, [1], rfl, by decide⟩, ⟨48, [2], rfl, by decide⟩⟩) 1 2 [0] (by decide)

end EtdbTrie
