import Etdb.Trie.Structure

/- etdb_trie_common_prefix_path_search. The walk follows the labels of the tree but steps
   with etdb_trie_find, which spells the label as a key byte: '%' is entered through "%%",
   and what lies below "%0" is not entered at all. -/
namespace EtdbTrie
open ByteXor ByteChain ByteTree Trie
namespace Trie

def firstChild (t : Trie) (origin : Int) : Option (Int × UInt8) := do
  let i ← t.ninfoAt origin
  let n ← t.nodeAt origin
  if i.child = 0 then do
    let z ← t.ninfoAt (xorByte n.base i.child)
    some (n.base, z.sibling)
  else some (n.base, i.child)

/-- The loop of etdb_trie_common_prefix_path_search_dfs with the calls it makes; the
    stack is shared in the source and holds the labels on the way down. -/
def pathLoop (t : Trie) : Nat → Int → Int → UInt8 → List UInt8 → Option (List (List UInt8 × Int))
  | 0, _, _, _, _ => none
  | fuel + 1, origin, base, child, stack =>
    if child = 0 then some []
    else do
      let (b, next) ← t.find origin [child]
      let entered ← (if b = noPath then some [] else do
        let (base', first) ← t.firstChild next
        let below ← t.pathLoop fuel next base' first (stack ++ [child])
        some (if b ≠ noValue then (stack ++ [child], b) :: below else below))
      let i ← t.ninfoAt (xorByte base child)
      let rest ← t.pathLoop fuel origin base i.sibling stack
      some (entered ++ rest)

/-- The result and the entries appended. The result is unspecified (none) after the
    bare return for a missing path. -/
def commonPrefixPathSearch (t : Trie) (key : List UInt8) :
    Option (Option Int × List (List UInt8 × Int)) := do
  let (b, origin) ← t.find 0 key
  if b = noPath then some (none, [])
  else do
    let (base, first) ← t.firstChild origin
    let entries ← t.pathLoop (257 * (t.size.toNat + 1)) origin base first []
    some (some (if b ≠ noValue then 1 else 0), entries)

def named (T : ByteTree.Tree Int) (w : Path) : List UInt8 := (T.kids w).filter (· ≠ 0)

/-- The same walk over the tree: the entries found below `w` through the given labels. -/
inductive Walked (T : ByteTree.Tree Int) : Path → List UInt8 → List UInt8 → List (List UInt8 × Int) → Prop
  | done (w : Path) (stack : List UInt8) : Walked T w [] stack []
  | skip {w : Path} {c : UInt8} {rest stack : List UInt8} {out : List (List UInt8 × Int)}
      (missing : answer T (pathOf [c] ++ w) = noPath) (next : Walked T w rest stack out) :
      Walked T w (c :: rest) stack out
  | enter {w : Path} {c : UInt8} {rest stack : List UInt8} {below out : List (List UInt8 × Int)}
      (found : answer T (pathOf [c] ++ w) ≠ noPath)
      (inside : Walked T (pathOf [c] ++ w) (named T (pathOf [c] ++ w)) (stack ++ [c]) below)
      (next : Walked T w rest stack out) :
      Walked T w (c :: rest) stack ((if answer T (pathOf [c] ++ w) ≠ noValue
        then (stack ++ [c], answer T (pathOf [c] ++ w)) :: below else below) ++ out)

section
variable {t : Trie} {T : ByteTree.Tree Int} {loc : Path → Int} {w : Path} {c : UInt8} {base : Int}
variable {l stack key : List UInt8} {m : Entries}

theorem named_labels (shape : T.Shape) (list : labels T w = c :: l) :
    named T w = if c = 0 then l else c :: l := by
  have later := labels_zeroFirst shape w
  rw [list, List.tail_cons] at later
  have keep : l.filter (fun x => decide (x ≠ 0)) = l := List.filter_eq_self.mpr (by
    intro x hx
    have : x ≠ 0 := fun zero => later (zero ▸ hx)
    simpa using this)
  by_cases root : w = []
  · subst root
    obtain ⟨rfl, rfl⟩ := List.cons.inj (show 0 :: T.kids [] = c :: l from list)
    rw [named, if_pos rfl, keep]
  · rw [labels_proper root] at list
    rw [named, list]
    by_cases zero : c = 0
    · rw [if_pos zero, List.filter_cons_of_neg (by simpa using zero), keep]
    · rw [if_neg zero, List.filter_cons_of_pos (by simpa using zero), keep]

theorem labels_of_live (live : T.Live Settled) (mem : T.Mem w) (inner : ¬ Tree.Leaf w) :
    ∃ c l, labels T w = c :: l := by
  rcases settled_of_live live mem inner with rfl | some
  · exact ⟨0, T.kids [], rfl⟩
  · exact labels_some some

structure Pending (t : Trie) (base : Int) (pending : List UInt8) : Prop where
  proper : 0 ∉ pending
  family : ∀ c l, pending = c :: l → Family t base c l

theorem Pending.tail (p : Pending t base (c :: l)) : Pending t base l := by
  refine ⟨fun zero => p.proper (List.mem_cons_of_mem c zero), ?_⟩
  rintro d m rfl
  exact (p.family c (d :: m) rfl).tail

theorem firstChild_spec (good : Good t T) (rep : Rep t T loc Settled NoSpare) (mem : T.Mem w)
    (inner : ¬ Tree.Leaf w) :
    t.firstChild (loc w) = some ((t.node (loc w)).base, (named T w).headD 0) ∧
      Pending t (t.node (loc w)).base (named T w) := by
  obtain ⟨c, l, list⟩ := labels_of_live good.live mem inner
  obtain ⟨family, first⟩ := rep.family good.shape mem id list
  have occ := rep.occ_node mem
  have later := labels_zeroFirst good.shape w
  rw [list, List.tail_cons] at later
  rw [named_labels good.shape list]
  have readInfo := ninfoAt_inside (occ.inNinfo good.free.sized)
  have readNode := nodeAt_inside (occ.inNode good.free.sized)
  by_cases zero : c = 0
  · rw [if_pos zero]
    refine ⟨?_, later, ?_⟩
    · refine bind_run readInfo (bind_run readNode ?_)
      rw [first, if_pos zero]
      have next : (t.ninfo (xorByte (t.node (loc w)).base c)).sibling = l.headD 0 := family.next
      rw [← next]
      exact bind_run (family.readNinfo good.free List.mem_cons_self) rfl
    · rintro d m rfl
      exact family.tail
  · rw [if_neg zero]
    refine ⟨?_, ?_, ?_⟩
    · refine bind_run readInfo (bind_run readNode ?_)
      rw [first, if_neg zero]
      rfl
    · simp [later, Ne.symm zero]
    · intro d m same
      obtain ⟨rfl, rfl⟩ := List.cons.inj same
      exact family

theorem mem_of_answer {p : Path} (found : answer T p ≠ noPath) : T.Mem p := by
  by_contra out
  exact found (if_neg out)

theorem pathOf_inner (key : List UInt8) (inner : ¬ Tree.Leaf w) : ¬ Tree.Leaf (pathOf key ++ w) := by
  cases back : pathOf key with
  | nil => exact inner
  | cons a rest =>
    rintro rfl
    have : (0 : UInt8) ∈ pathOf key := by rw [back]; exact List.mem_cons_self
    exact zero_not_encode key (List.mem_reverse.mp this)

theorem named_short (shape : T.Shape) (w : Path) : (named T w).length ≤ 255 := by
  have nodup : (0 :: named T w).Nodup :=
    List.nodup_cons.mpr ⟨by simp [named], (shape.nodup w).filter _⟩
  have := distinct_bytes nodup
  simp only [List.length_cons] at this
  omega

theorem turns_below {left total rest short fuel : Nat} (level : left + 257 ≤ total) (few : short ≤ 255)
    (enough : total + (rest + 1) < fuel + 1) : left + short < fuel := by
  omega

theorem turns_left {bound depth depth' rest short fuel : Nat} (deep : depth' < bound)
    (longer : depth + 1 ≤ depth')
    (few : short ≤ 255) (enough : (bound - depth) * 257 + (rest + 1) < fuel + 1) :
    (bound - depth') * 257 + short < fuel := by
  refine turns_below ?_ few enough
  rw [← Nat.succ_mul]
  exact Nat.mul_le_mul_right 257 (by omega)

/-- A label takes a turn, and the node entered under it at most 256 turns more on each
    level down to the depth of the tree. -/
theorem pathLoop_spec {pending : List UInt8} {fuel : Nat} (stack : List UInt8) (good : Good t T)
    (rep : Rep t T loc Settled NoSpare)
    (mem : T.Mem w) (inner : ¬ Tree.Leaf w) (pends : Pending t (t.node (loc w)).base pending)
    (enough : (t.size.toNat - w.length) * 257 + pending.length < fuel) :
    ∃ out, t.pathLoop fuel (loc w) (t.node (loc w)).base (pending.headD 0) stack = some out ∧
      Walked T w pending stack out := by
  induction fuel generalizing w pending stack with
  | zero => omega
  | succ fuel ih =>
    cases pending with
    | nil => exact ⟨[], if_pos rfl, .done w stack⟩
    | cons c rest =>
      have proper : c ≠ 0 := fun zero => pends.proper (by simp [zero])
      have family := pends.family c rest rfl
      have next : (t.ninfo (xorByte (t.node (loc w)).base c)).sibling = rest.headD 0 := family.next
      simp only [List.length_cons] at enough
      obtain ⟨out, runRest, walked⟩ := ih stack mem inner pends.tail (by omega)
      obtain ⟨origin, run, place⟩ := find_spec [c] good.free good.live rep mem inner
      rw [List.headD_cons, pathLoop, if_neg proper]
      by_cases missing : answer T (pathOf [c] ++ w) = noPath
      · refine ⟨out, ?_, .skip missing walked⟩
        refine bind_run run ?_
        refine bind_run (if_pos missing) ?_
        refine bind_run (family.readNinfo good.free List.mem_cons_self) ?_
        rw [next]
        exact bind_run runRest rfl
      · have mem' := mem_of_answer missing
        have inner' := pathOf_inner [c] inner
        obtain ⟨first, pends'⟩ := firstChild_spec good rep mem' inner'
        have deep := good.deep _ mem'
        have longer : w.length + 1 ≤ (pathOf [c] ++ w).length := by
          have some : pathOf [c] ≠ [] := by simpa [pathOf] using encode_ne_nil (List.cons_ne_nil c [])
          have := List.length_pos_of_ne_nil some
          simp only [List.length_append]
          omega
        have short := named_short good.shape (pathOf [c] ++ w)
        obtain ⟨below, runBelow, inside⟩ := ih (stack ++ [c]) mem' inner' pends'
          (turns_left deep longer short enough)
        refine ⟨_, ?_, .enter missing inside walked⟩
        rw [← place mem'] at first runBelow
        refine bind_run run ?_
        refine bind_run ((if_neg missing).trans (bind_run first (bind_run runBelow rfl))) ?_
        refine bind_run (family.readNinfo good.free List.mem_cons_self) ?_
        rw [next]
        exact bind_run runRest rfl

theorem commonPrefixPathSearch_spec (good : Good t T) (key : List UInt8) :
    (answer T (pathOf key) = noPath → t.commonPrefixPathSearch key = some (none, [])) ∧
      (answer T (pathOf key) ≠ noPath → ∃ out,
        t.commonPrefixPathSearch key =
        some (some (if answer T (pathOf key) ≠ noValue then 1 else 0), out) ∧
          Walked T (pathOf key) (named T (pathOf key)) [] out) := by
  obtain ⟨origin, run, place⟩ := find_root good key
  obtain ⟨loc, rep⟩ := good.rep
  constructor
  · intro missing
    refine bind_run run ?_
    exact if_pos missing
  · intro found
    have mem := mem_of_answer found
    have inner : ¬ Tree.Leaf (pathOf key) := by
      have := pathOf_inner key (w := []) id
      rwa [List.append_nil] at this
    obtain ⟨first, pends⟩ := firstChild_spec good rep mem inner
    have short := named_short good.shape (pathOf key)
    obtain ⟨fuel, budget⟩ : ∃ n, 257 * (t.size.toNat + 1) = n := ⟨_, rfl⟩
    obtain ⟨out, runOut, walked⟩ := pathLoop_spec [] good rep mem inner pends
      (show (t.size.toNat - (pathOf key).length) * 257 + (named T (pathOf key)).length < fuel by omega)
    refine ⟨out, ?_, walked⟩
    rw [commonPrefixPathSearch, budget]
    refine bind_run run ?_
    rw [place loc rep mem]
    refine (if_neg found).trans ?_
    exact bind_run first (bind_run runOut rfl)

theorem path_step (c : UInt8) (rest : List UInt8) (w : Path) :
    pathOf (c :: rest) ++ w = pathOf rest ++ (pathOf [c] ++ w) := by
  rw [pathOf_cons]
  simp [pathOf]

theorem stored_of_answer {p : Path} (found : answer T p ≠ noPath) (value : answer T p ≠ noValue) :
    T.stored p = some (answer T p) := by
  have mem := mem_of_answer found
  by_cases kid : 0 ∈ T.kids p
  · rw [answer_stored p ⟨mem, kid⟩]
    exact if_pos ⟨mem, kid⟩
  · rw [answer, if_pos mem, if_neg kid] at value
    exact absurd rfl value

theorem answer_of_stored {p : Path} {v : Int} (stored : T.stored p = some v) : answer T p = v := by
  obtain ⟨slot, rfl⟩ := Tree.stored_eq_some.mp stored
  exact answer_stored p slot

theorem Walked.sound {pending : List UInt8} {out : List (List UInt8 × Int)}
    (walked : Walked T w pending stack out)
    (proper : 0 ∉ pending) {s : List UInt8} {v : Int} (entry : (s, v) ∈ out) :
    ∃ c S, c ∈ pending ∧ s = stack ++ c :: S ∧ 0 ∉ c :: S ∧ T.stored (pathOf (c :: S) ++ w) = some v ∧
      v ≠ noPath ∧ v ≠ noValue := by
  induction walked with
  | done => cases entry
  | @skip w c rest stack out missing next ih =>
    obtain ⟨d, S, inside, found⟩ := ih (fun zero => proper (List.mem_cons_of_mem c zero)) entry
    exact ⟨d, S, List.mem_cons_of_mem c inside, found⟩
  | @enter w c rest stack below out found inside next ihBelow ihNext =>
    have head : 0 ≠ c := fun zero => proper (by simp [zero])
    have fromBelow : (s, v) ∈ below → ∃ S, s = stack ++ c :: S ∧ 0 ∉ c :: S ∧
        T.stored (pathOf (c :: S) ++ w) = some v ∧ v ≠ noPath ∧ v ≠ noValue := by
      intro later
      obtain ⟨d, S, _, rfl, clean, stored, codes⟩ := ihBelow (by simp [named]) later
      refine ⟨d :: S, by simp, ?_, ?_, codes⟩
      · simpa [head] using clean
      · rw [path_step]
        exact stored
    rcases List.mem_append.mp entry with here | later
    · refine ⟨c, ?_⟩
      by_cases value : answer T (pathOf [c] ++ w) ≠ noValue
      · rw [if_pos value] at here
        rcases List.mem_cons.mp here with same | deeper
        · obtain ⟨rfl, rfl⟩ := Prod.ext_iff.mp same
          exact ⟨[], List.mem_cons_self,
            rfl, by simpa using head, stored_of_answer found value, found, value⟩
        · obtain ⟨S, rest⟩ := fromBelow deeper
          exact ⟨S, List.mem_cons_self, rest⟩
      · rw [if_neg value] at here
        obtain ⟨S, rest⟩ := fromBelow here
        exact ⟨S, List.mem_cons_self, rest⟩
    · obtain ⟨d, S, inside, rest⟩ := ihNext (fun zero => proper (List.mem_cons_of_mem c zero)) later
      exact ⟨d, S, List.mem_cons_of_mem c inside, rest⟩

theorem first_step {S : List UInt8} (proper : c ≠ 0) (slot : T.Mem (0 :: (pathOf (c :: S) ++ w))) :
    c ∈ named T w ∧ T.Mem (pathOf [c] ++ w) := by
  rw [path_step] at slot
  have mem : T.Mem (pathOf [c] ++ w) := Tree.mem_of_suffix slot.1 (List.suffix_append _ _)
  have kid : c ∈ T.kids w := by
    by_cases sign : c = percent
    · subst sign
      have below : T.Mem (percent :: percent :: w) := by simpa [pathOf, labelsOf_percent] using mem
      exact below.1.2
    · have below : T.Mem (c :: w) := by simpa [pathOf, labelsOf_plain proper sign] using mem
      exact below.2
  exact ⟨List.mem_filter.mpr ⟨kid, by simpa using proper⟩, mem⟩

theorem Walked.complete {pending : List UInt8} {out : List (List UInt8 × Int)}
    (walked : Walked T w pending stack out)
    (codes : ∀ S v, T.stored (pathOf S ++ w) = some v → S ≠ [] → v ≠ noPath ∧ v ≠ noValue)
    {S : List UInt8} {v : Int} (member : c ∈ pending) (clean : 0 ∉ c :: S)
    (stored : T.stored (pathOf (c :: S) ++ w) = some v) : (stack ++ c :: S, v) ∈ out := by
  induction walked generalizing c S with
  | done => cases member
  | @skip w d rest stack out missing next ih =>
    rcases List.mem_cons.mp member with rfl | later
    · have head : c ≠ 0 := fun zero => clean (by simp [zero])
      obtain ⟨_, mem⟩ := first_step head (Tree.stored_eq_some.mp stored).1
      have value : T.stored (pathOf [c] ++ w) = some noPath := by
        by_cases kid : 0 ∈ T.kids (pathOf [c] ++ w)
        · rw [answer_stored _ ⟨mem, kid⟩] at missing
          exact Tree.stored_eq_some.mpr ⟨⟨mem, kid⟩, missing⟩
        · rw [answer, if_pos mem, if_neg kid] at missing
          cases missing
      exact absurd rfl (codes [c] noPath value (by simp)).1
    · exact ih codes later clean stored
  | @enter w d rest stack below out found inside next ihBelow ihNext =>
    rcases List.mem_cons.mp member with rfl | later
    · refine List.mem_append_left _ ?_
      cases S with
      | nil =>
        have value := answer_of_stored stored
        obtain ⟨_, proper⟩ := codes [c] v stored (by simp)
        rw [if_pos (by rw [value]; exact proper), value]
        exact List.mem_cons_self
      | cons e S =>
        rw [path_step] at stored
        have rest : 0 ∉ e :: S := fun zero => clean (List.mem_cons_of_mem c zero)
        have step := (first_step (fun zero => rest (by simp [zero])) (Tree.stored_eq_some.mp stored).1).1
        have deeper := ihBelow (fun S' v' h some => by
          rw [← path_step] at h
          exact codes (c :: S') v' h (by simp)) step rest stored
        rw [List.append_assoc] at deeper
        split
        · exact List.mem_cons_of_mem _ deeper
        · exact deeper
    · exact List.mem_append_right _ (ihNext codes later clean stored)

theorem Walked.nodup {pending : List UInt8} {out : List (List UInt8 × Int)} (shape : T.Shape)
    (walked : Walked T w pending stack out) (proper : 0 ∉ pending) (distinct : pending.Nodup) :
    (out.map Prod.fst).Nodup := by
  induction walked with
  | done => exact List.nodup_nil
  | @skip w c rest stack out missing next ih =>
    exact ih (fun zero => proper (List.mem_cons_of_mem c zero)) (List.nodup_cons.mp distinct).2
  | @enter w c rest stack below out found inside next ihBelow ihNext =>
    have properRest : 0 ∉ rest := fun zero => proper (List.mem_cons_of_mem c zero)
    obtain ⟨fresh, distinctRest⟩ := List.nodup_cons.mp distinct
    have clean : 0 ∉ named T (pathOf [c] ++ w) := by simp [named]
    have nodupBelow := ihBelow clean ((shape.nodup _).filter _)
    have longer : ∀ s ∈ below.map Prod.fst, ∃ d S, s = stack ++ c :: d :: S := by
      intro s hs
      obtain ⟨⟨s, v⟩, entry, rfl⟩ := List.mem_map.mp hs
      obtain ⟨d, S, _, rfl, _⟩ := inside.sound clean entry
      exact ⟨d, S, by simp⟩
    have heads : ∀ s ∈ out.map Prod.fst, ∃ d S, d ∈ rest ∧ s = stack ++ d :: S := by
      intro s hs
      obtain ⟨⟨s, v⟩, entry, rfl⟩ := List.mem_map.mp hs
      obtain ⟨d, S, member, rfl, _⟩ := next.sound properRest entry
      exact ⟨d, S, member, rfl⟩
    have own : ((if answer T (pathOf [c] ++ w) ≠ noValue
        then (stack ++ [c], answer T (pathOf [c] ++ w)) :: below else below).map Prod.fst).Nodup := by
      split
      · rw [List.map_cons]
        refine List.nodup_cons.mpr ⟨fun member => ?_, nodupBelow⟩
        obtain ⟨d, S, same⟩ := longer _ member
        simp at same
      · exact nodupBelow
    rw [List.map_append, List.nodup_append]
    refine ⟨own, ihNext properRest distinctRest, ?_⟩
    rintro s hs s' hs' rfl
    obtain ⟨d, S, member, same⟩ := heads s hs'
    have split : ∃ S', s = stack ++ c :: S' := by
      split at hs
      · rcases List.mem_cons.mp hs with here | deeper
        · exact ⟨[], here⟩
        · obtain ⟨d, S, rfl⟩ := longer s deeper
          exact ⟨_, rfl⟩
      · obtain ⟨d, S, rfl⟩ := longer s hs
        exact ⟨_, rfl⟩
    obtain ⟨S', rfl⟩ := split
    obtain ⟨rfl, _⟩ := List.cons.inj (List.append_cancel_left same)
    exact fresh member

end
end Trie

/-- Tries made by calls that all found room. -/
inductive Reached : Trie → Entries → Prop
  | init {t : Trie} (run : init [] = some t) : Reached t Entries.empty
  | call {t t' : Trie} {m : Entries} {c : Call} {a : Int} (before : Reached t m) (proper : c.key ≠ [])
      (roomy : m.Roomy c) (run : t.call c = some (a, t')) : Reached t' (m.kept c)

/-- One entry for every stored key that properly extends the prefix, no other, and the
    result tells whether the prefix itself is stored. -/
def ListsExtensions (t : Trie) (m : Entries) (P : List UInt8) : Prop :=
  ∃ r out, t.commonPrefixPathSearch P = some (r, out) ∧ out.Nodup ∧
    (∀ S v, (S, v) ∈ out ↔ S ≠ [] ∧ m (P ++ S) = some v) ∧
    ((∃ S, m (P ++ S) ≠ none) → ∃ x, r = some x ∧ (x = 1 ↔ m P ≠ none))

section
variable {t : Trie} {T : ByteTree.Tree Int} {m : Entries} {P : List UInt8}

theorem reached_good (reached : Reached t m) : ∃ T, Good t T ∧ Models T m := by
  induction reached with
  | init run =>
    obtain ⟨t', run', good⟩ := init_good
    obtain rfl := Option.some.inj (run.symm.trans run')
    exact ⟨_, good, models_empty⟩
  | call before proper roomy run ih =>
    obtain ⟨T, good, models⟩ := ih
    obtain ⟨a', t'', T', run', good', models', _⟩ := call_spec good models proper roomy
    obtain rfl := (Prod.ext_iff.mp (Option.some.inj (run.symm.trans run'))).2
    exact ⟨T', good', models'⟩

theorem pathOf_append (P S : List UInt8) : pathOf (P ++ S) = pathOf S ++ pathOf P := by
  simp [pathOf, encode_append]

theorem Models.below (models : Models T m) (S : List UInt8) (v : Int) :
    T.stored (pathOf S ++ pathOf P) = some v ↔ m (P ++ S) = some v := by
  rw [← pathOf_append, models.stored]

theorem search_found (good : Good t T) (models : Models T m) (found : answer T (pathOf P) ≠ noPath) :
    ∃ out, t.commonPrefixPathSearch P =
      some (some (if answer T (pathOf P) ≠ noValue then 1 else 0), out) ∧
      (out.map Prod.fst).Nodup ∧
      (∀ S v, (S, v) ∈ out → S ≠ [] ∧ 0 ∉ S ∧ m (P ++ S) = some v ∧ v ≠ noPath ∧ v ≠ noValue) ∧
      ((∀ S v, m (P ++ S) = some v → v ≠ noPath ∧ v ≠ noValue) →
        ∀ S v, S ≠ [] → 0 ∉ S → m (P ++ S) = some v → (S, v) ∈ out) := by
  obtain ⟨out, run, walked⟩ := (commonPrefixPathSearch_spec good P).2 found
  have clean : 0 ∉ named T (pathOf P) := by simp [named]
  refine ⟨out, run, walked.nodup good.shape clean ((good.shape.nodup _).filter _), ?_, ?_⟩
  · intro S v entry
    obtain ⟨c, S', _, rfl, zero, stored, codes⟩ := walked.sound clean entry
    exact ⟨List.cons_ne_nil c S', zero, (models.below _ _).mp stored, codes⟩
  · intro codes S v some zero held
    obtain ⟨c, S', rfl⟩ := List.exists_cons_of_ne_nil some
    have stored := (models.below _ _).mpr held
    have step := (first_step (fun h => zero (by simp [h])) (Tree.stored_eq_some.mp stored).1).1
    exact walked.complete (fun S v h _ => codes S v ((models.below S v).mp h)) step zero stored

theorem extension_found (models : Models T m) (codes : ∀ v, m P = some v → v ≠ noPath)
    {S : List UInt8} (held : m (P ++ S) ≠ none) : answer T (pathOf P) ≠ noPath := by
  have slot := models.slot held
  rw [pathOf_append] at slot
  have mem : T.Mem (pathOf P) := Tree.mem_of_suffix slot.1 (List.suffix_append _ _)
  by_cases kid : 0 ∈ T.kids (pathOf P)
  · have stored : T.stored (pathOf P) = some (T.val (pathOf P)) := if_pos ⟨mem, kid⟩
    rw [answer_stored _ ⟨mem, kid⟩]
    exact codes _ ((models.stored P).symm.trans stored)
  · rw [answer, if_pos mem, if_neg kid]
    decide

theorem search_missing (good : Good t T) (models : Models T m) (codes : ∀ v, m P = some v → v ≠ noPath)
    (missing : answer T (pathOf P) = noPath) :
    t.commonPrefixPathSearch P = some (none, []) ∧ ∀ S, m (P ++ S) = none := by
  refine ⟨(commonPrefixPathSearch_spec good P).1 missing, fun S => ?_⟩
  by_contra held
  exact extension_found models codes held missing

theorem answer_value (models : Models T m) (found : answer T (pathOf P) ≠ noPath) :
    (answer T (pathOf P) ≠ noValue ↔ ∃ v, m P = some v ∧ v ≠ noValue) := by
  constructor
  · intro value
    exact ⟨_, (models.stored P).symm.trans (stored_of_answer found value), value⟩
  · rintro ⟨v, held, proper⟩
    rw [answer_of_stored ((models.stored P).trans held)]
    exact proper

theorem lists_iff (good : Good t T) (models : Models T m) (P : List UInt8) :
    ListsExtensions t m P ↔ ∀ S v, m (P ++ S) = some v → 0 ∉ S ∧ v ≠ noPath ∧ v ≠ noValue := by
  constructor
  · rintro ⟨r, out, run, _, entries, result⟩ S v held
    by_cases found : answer T (pathOf P) ≠ noPath
    · obtain ⟨out', run', _, sound, _⟩ := search_found good models found
      obtain ⟨rfl, rfl⟩ := Prod.mk.inj (Option.some.inj (run.symm.trans run'))
      by_cases some : S = []
      · subst some
        rw [List.append_nil] at held
        obtain ⟨x, same, one⟩ := result ⟨[], by rw [List.append_nil, held]; simp⟩
        have present := one.mpr (by rw [held]; simp)
        have value : answer T (pathOf P) ≠ noValue := by
          intro absent
          simp only [absent, ne_eq, not_true_eq_false, ↓reduceIte] at same
          rw [← Option.some.inj same] at present
          cases present
        have own := answer_of_stored ((models.stored P).trans held)
        rw [own] at found value
        exact ⟨List.not_mem_nil, found, value⟩
      · obtain ⟨_, zero, _, codes⟩ := sound S v ((entries S v).mpr ⟨some, held⟩)
        exact ⟨zero, codes⟩
    · have missing := (commonPrefixPathSearch_spec good P).1 (not_not.mp found)
      obtain ⟨rfl, rfl⟩ := Prod.mk.inj (Option.some.inj (run.symm.trans missing))
      obtain ⟨x, same, _⟩ := result ⟨S, by rw [held]; simp⟩
      cases same
  · intro clean
    have own : ∀ v, m P = some v → v ≠ noPath ∧ v ≠ noValue := fun v held =>
      (clean [] v (by rw [List.append_nil]; exact held)).2
    by_cases found : answer T (pathOf P) ≠ noPath
    · obtain ⟨out, run, nodup, sound, complete⟩ := search_found good models found
      refine ⟨_, out, run, nodup.of_map _, fun S v => ⟨fun entry => ?_, fun h => ?_⟩, fun _ =>
        ⟨_, rfl, ?_⟩⟩
      · exact ⟨(sound S v entry).1, (sound S v entry).2.2.1⟩
      · exact complete (fun S v held => (clean S v held).2) S v h.1 (clean S v h.2).1 h.2
      · have value : m P ≠ none ↔ answer T (pathOf P) ≠ noValue := by
          rw [answer_value models found]
          constructor
          · intro present
            obtain ⟨v, held⟩ := Option.ne_none_iff_exists'.mp present
            exact ⟨v, held, (own v held).2⟩
          · rintro ⟨v, held, _⟩
            simp [held]
        rw [value]
        split <;> simp [*]
    · obtain ⟨run, empty⟩ := search_missing good models (fun v held => (own v held).1) (not_not.mp found)
      refine ⟨none, [], run, List.nodup_nil, fun S v => ?_, fun ⟨S, held⟩ => absurd (empty S) held⟩
      simp [empty]

/-- On a trie whose calls found room the search lists the extensions of a prefix when
    and only when no suffix contains NUL and no value is a failure code. -/
theorem search_lists_extensions (reached : Reached t m) (P : List UInt8) :
    ListsExtensions t m P ↔ ∀ S v, m (P ++ S) = some v → 0 ∉ S ∧ v ≠ noPath ∧ v ≠ noValue := by
  obtain ⟨T, good, models⟩ := reached_good reached
  exact lists_iff good models P

theorem kept_update (m : Entries) (key : List UInt8) (v : Int) : m.kept (.update key v) key = some v := by
  rw [Entries.kept, if_neg (show ¬ m.Refuses (.update key v) from id)]
  simp [Entries.apply]

theorem reached_update (key : List UInt8) (v : Int) (proper : key ≠ []) :
    ∃ t, Reached t (Entries.empty.kept (.update key v)) := by
  obtain ⟨t, run, good⟩ := init_good
  obtain ⟨t', run', _⟩ := update_spec (v := v) good proper
  exact ⟨t', .call (c := .update key v) (.init run) proper trivial run'⟩

theorem search_lists_extensions_once : ∃ t, Reached t (Entries.empty.kept (.update [50, 37, 65] 1)) ∧
    (ListsExtensions t (Entries.empty.kept (.update [50, 37, 65] 1)) [50] ↔
      ∀ S v, Entries.empty.kept (.update [50, 37, 65] 1) ([50] ++ S) = some v →
        0 ∉ S ∧ v ≠ noPath ∧ v ≠ noValue) := by
  obtain ⟨t, reached⟩ := reached_update [50, 37, 65] 1 (by simp)
  exact ⟨t, reached, search_lists_extensions reached [50]⟩

theorem nul_suffix_is_lost : ∃ t, Reached t (Entries.empty.kept (.update [50, 1, 0] 1)) ∧
    ¬ ListsExtensions t (Entries.empty.kept (.update [50, 1, 0] 1)) [50, 1] := by
  obtain ⟨t, reached⟩ := reached_update [50, 1, 0] 1 (by simp)
  refine ⟨t, reached, fun lists => ?_⟩
  obtain ⟨T, good, models⟩ := reached_good reached
  have clean := (lists_iff good models [50, 1]).mp lists [0] 1 (kept_update _ [50, 1, 0] 1)
  exact clean.1 List.mem_cons_self

end
end EtdbTrie
