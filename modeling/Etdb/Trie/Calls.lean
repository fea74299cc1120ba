import Etdb.Trie.Follow
import Etdb.Trie.Keys

/- etdb_trie_update and etdb_trie_find on a trie that encodes a tree. -/
namespace EtdbTrie
open ByteXor ByteChain ByteTree
namespace Trie

/-- The free space is exact, and the rest of the arrays encodes `T`. -/
structure Good (t : Trie) (T : ByteTree.Tree Int) : Prop where
  free : Free t
  shape : T.Shape
  live : T.Live Settled
  rep : ∃ loc, Rep t T loc Settled NoSpare

section
variable {t t' : Trie} {T : ByteTree.Tree Int} {loc : Path → Int} {w : Path} {c : UInt8}
    {key : List UInt8} {v : Int}

theorem settled_of_live (live : T.Live Settled) (mem : T.Mem w) (inner : ¬ Tree.Leaf w) :
    w = [] ∨ T.kids w ≠ [] := by
  by_cases root : w = []
  · exact Or.inl root
  · exact Or.inr (live w mem root inner id)

theorem init_good : ∃ t, init [] = some t ∧ Good t (Tree.empty 0) := by
  obtain ⟨t, run, free, occ, node, ninfo⟩ := init_spec
  have single : ∀ w, (Tree.empty (0 : Int)).Mem w → w = [] := by
    intro w mem
    cases w with
    | nil => rfl
    | cons c w => cases mem.2
  have shape : (Tree.empty (0 : Int)).Shape :=
    ⟨fun _ => List.nodup_nil, fun _ => List.not_mem_nil, List.not_mem_nil, fun _ => rfl, fun _ _ => rfl⟩
  refine ⟨t, run, free, shape, fun w mem proper => absurd (single w mem) proper, fun _ => 0, ?_⟩
  refine ⟨rfl, node, ?_, ?_, fun _ _ => False.elim, ?_, ?_, ?_, ?_, ?_, ?_, ?_⟩
  · intro x y memX memY _
    rw [single x memX, single y memY]
  · intro i
    rw [occ, or_false]
    constructor
    · rintro rfl
      exact ⟨[], trivial, rfl⟩
    · rintro ⟨_, _, rfl⟩
      rfl
  · intro c w mem
    cases single _ mem
  · intro c w mem _
    cases single _ mem
  · intro w mem
    cases single _ mem
  · intro w mem proper
    exact absurd (single w mem) proper
  · intro c w mem
    cases single _ mem
  · intro w c l mem _ list
    obtain rfl := single w mem
    obtain ⟨rfl, rfl⟩ := List.cons.inj list
    rw [ninfo, node]
    exact ⟨rfl, show (t.ninfo (xorByte 0 0)).sibling = 0 by rw [xorByte_zero, ninfo]; rfl⟩
  · intro w mem _ list
    obtain rfl := single w mem
    cases list

theorem Rep.setVal (rep : Rep t T loc Settled NoSpare) (shape : T.Shape) (mem : T.Mem (0 :: w)) :
    Rep (t.setNode (loc (0 :: w)) ⟨v, (t.node (loc (0 :: w))).check⟩) (T.setVal w v) loc Settled NoSpare ∧
      (Free t → Free (t.setNode (loc (0 :: w)) ⟨v, (t.node (loc (0 :: w))).check⟩)) := by
  have occ := rep.occ_node mem
  have notZero : loc (0 :: w) ≠ 0 := fun zero => by
    have := (rep.loc_zero mem).mp zero
    cases this
  have taken : loc (0 :: w) = 0 ∨
      0 ≤ (Node.mk v (t.node (loc (0 :: w))).check).check := Or.inr (occ.check notZero)
  have other : ∀ u, T.Mem u → u ≠ 0 :: w →
      (t.setNode (loc (0 :: w)) ⟨v, (t.node (loc (0 :: w))).check⟩).node (loc u) = t.node (loc u) := by
    intro u memU hu
    have apart : loc u ≠ loc (0 :: w) := fun same => hu (rep.inj u _ memU mem same)
    simp [setNode, apart]
  have check : ∀ u, T.Mem u →
      ((t.setNode (loc (0 :: w)) ⟨v, (t.node (loc (0 :: w))).check⟩).node (loc u)).check =
        (t.node (loc u)).check := by
    intro u memU
    by_cases here : u = 0 :: w
    · simp [setNode, here]
    · rw [other u memU here]
  have emptyIff : ∀ i, (t.setNode (loc (0 :: w)) ⟨v, (t.node (loc (0 :: w))).check⟩).Empty i ↔
    t.Empty i := by
    intro i
    by_cases same : i = loc (0 :: w)
    · simp [Empty, setNode, same]
    · simp [Empty, setNode, same]
  have memIff : ∀ u, (T.setVal w v).Mem u ↔ T.Mem u := fun u => Tree.mem_setVal
  refine ⟨⟨rep.root, ?_, ?_, ?_, fun _ _ => False.elim, ?_, ?_, ?_, ?_, ?_, ?_, ?_⟩,
    fun free => (free.setNode occ taken).1⟩
  · have := other [] trivial (by simp)
    rw [rep.root] at this
    rw [this, rep.rootNode]
  · intro x y memX memY
    exact rep.inj x y ((memIff x).mp memX) ((memIff y).mp memY)
  · intro i
    simp only [Occ, emptyIff, memIff]
    exact rep.occ i
  · intro c u memU
    rw [check _ ((memIff _).mp memU)]
    exact rep.check c u ((memIff _).mp memU)
  · intro c u memU _
    have memU' := (memIff _).mp memU
    have here : u ≠ 0 :: w := fun same => by
      have kid := memU'.2
      rw [same, shape.leaf] at kid
      cases kid
    rw [other u memU'.1 here]
    exact rep.place c u memU' id
  · intro u memU
    by_cases here : u = w
    · subst here
      simp [setNode, Tree.setVal]
    · rw [other _ ((memIff _).mp memU) (fun same => here (List.cons.inj same).2),
        rep.value u ((memIff _).mp memU)]
      simp [Tree.setVal, here]
  · intro u memU proper some
    have here : u ≠ 0 :: w := fun same => some (by rw [same]; exact shape.leaf w)
    rw [other u ((memIff u).mp memU) here]
    exact rep.high u ((memIff u).mp memU) proper some
  · intro c u memU proper _ none
    rw [other _ ((memIff _).mp memU) (fun same => proper (List.cons.inj same).1)]
    exact rep.bare c u ((memIff _).mp memU) proper id none
  · intro u c l memU _ list
    have here : u ≠ 0 :: w := fun same => by
      rw [same, labels_cons] at list
      rw [show (T.setVal w v).kids (0 :: w) = [] from shape.leaf w] at list
      cases list
    rw [other u ((memIff u).mp memU) here]
    exact rep.chain u c l ((memIff u).mp memU) id list
  · intro u memU _ none
    exact rep.childless u ((memIff u).mp memU) id none

theorem follow_step (free : Free t) (shape : T.Shape) (live : T.Live (· = w))
    (rep : Rep t T loc Settled NoSpare) (mem : T.Mem w) (inner : ¬ Tree.Leaf w) (proper : c ≠ 0) :
    ∃ loc' t', t.follow (loc w) c = some (loc' (c :: w), loc' w, t') ∧ Free t' ∧
      Rep t' (T.grow w c 0) loc' Settled NoSpare ∧ (T.grow w c 0).Shape ∧
      (T.grow w c 0).Live (· = c :: w) ∧ (T.grow w c 0).Mem (c :: w) := by
  obtain ⟨loc', t', run, free', rep'⟩ := follow_spec free shape rep mem inner (fun _ => proper)
  exact ⟨loc', t', run, free', rep', Tree.shape_grow shape mem inner (fun _ => proper),
    Tree.live_grow shape mem live, Tree.mem_grow_self shape mem⟩

theorem follow_twice {a b : UInt8} (free : Free t) (shape : T.Shape) (live : T.Live (· = w))
    (rep : Rep t T loc Settled NoSpare) (mem : T.Mem w) (inner : ¬ Tree.Leaf w) (ha : a ≠ 0)
    (hb : b ≠ 0) : ∃ loc' t', (do
      let (dest, _, t) ← t.follow (loc w) a
      let (dest, _, t) ← t.follow dest b
      some (dest, t)) = some (loc' (b :: a :: w), t') ∧ Free t' ∧
        Rep t' (T.growAll 0 w [a, b]) loc' Settled NoSpare := by
  obtain ⟨loc1, t1, run1, free1, rep1, shape1, live1, mem1⟩ :=
    follow_step free shape live rep mem inner ha
  obtain ⟨loc2, t2, run2, free2, rep2, _⟩ := follow_step free1 shape1 live1 rep1 mem1 ha hb
  exact ⟨loc2, t2, bind_run run1 (bind_run run2 rfl), free2, rep2⟩

theorem updateEntry_spec (word : UInt8) (free : Free t) (shape : T.Shape) (live : T.Live (· = w))
    (rep : Rep t T loc Settled NoSpare) (mem : T.Mem w) (inner : ¬ Tree.Leaf w) :
    ∃ loc' t', t.updateEntry (loc w) word = some (loc' ((labelsOf word).reverse ++ w), t') ∧ Free t' ∧
      Rep t' (T.growAll 0 w (labelsOf word)) loc' Settled NoSpare := by
  by_cases zero : word = 0
  · subst zero
    obtain ⟨loc', t', run, free', rep'⟩ :=
      follow_twice (a := percent) (b := zeroDigit) free shape live rep mem inner (by decide) (by decide)
    exact ⟨loc', t', (if_pos rfl).trans run, free', rep'⟩
  · by_cases sign : word = percent
    · subst sign
      obtain ⟨loc', t', run, free', rep'⟩ :=
        follow_twice (a := percent) (b := percent) free shape live rep mem inner (by decide) (by decide)
      exact ⟨loc', t', ((if_neg zero).trans (if_pos rfl)).trans run, free', rep'⟩
    · obtain ⟨loc', t', run, free', rep', _⟩ := follow_step free shape live rep mem inner zero
      rw [labelsOf_plain zero sign]
      exact ⟨loc', t', ((if_neg zero).trans (if_neg sign)).trans (bind_run run rfl), free', rep'⟩

theorem updateEntries_spec (key : List UInt8) (free : Free t) (shape : T.Shape) (live : T.Live (· = w))
    (rep : Rep t T loc Settled NoSpare) (mem : T.Mem w) (inner : ¬ Tree.Leaf w) :
    ∃ loc' t', t.updateEntries (loc w) key = some (loc' (pathOf key ++ w), t') ∧ Free t' ∧
      Rep t' (T.growAll 0 w (encode key)) loc' Settled NoSpare := by
  induction key generalizing t T loc w with
  | nil => exact ⟨loc, t, rfl, free, rep⟩
  | cons word rest ih =>
    obtain ⟨loc1, t1, run1, free1, rep1⟩ := updateEntry_spec word free shape live rep mem inner
    have grew := Tree.growAll_grew (v := 0) shape mem inner live (zero_not_labelsOf word)
    have inner1 : ¬ Tree.Leaf ((labelsOf word).reverse ++ w) := by
      have proper := zero_not_labelsOf word
      cases back : (labelsOf word).reverse with
      | nil => simp [labelsOf] at back
      | cons a rest' =>
        rintro rfl
        have : (0 : UInt8) ∈ (labelsOf word).reverse := by rw [back]; exact List.mem_cons_self
        exact proper (List.mem_reverse.mp this)
    obtain ⟨loc2, t2, run2, free2, rep2⟩ := ih free1 grew.shape grew.live rep1 grew.mem inner1
    refine ⟨loc2, t2, ?_, free2, ?_⟩
    · rw [pathOf_cons]
      exact bind_run run1 run2
    · rw [encode_cons, Tree.growAll_append]
      exact rep2

theorem update_spec (good : Good t T) (some : key ≠ []) :
    ∃ t', t.update key v = Option.some ((T.stored (pathOf key)).getD 0, t') ∧
      Good t' (T.put 0 (encode key) v) := by
  obtain ⟨loc, rep⟩ := good.rep
  have live : T.Live (· = []) := good.live.mono (fun _ => False.elim)
  obtain ⟨loc1, t1, run1, free1, rep1⟩ := updateEntries_spec key good.free good.shape live rep trivial id
  have grew := Tree.growAll_grew (v := 0) (w := []) good.shape trivial id live (zero_not_encode key)
  have path : (encode key).reverse ++ [] = pathOf key := List.append_nil _
  rw [path] at grew
  rw [List.append_nil] at run1
  have nonempty : pathOf key ≠ [] := by simpa [pathOf] using encode_ne_nil some
  have inner : ¬ Tree.Leaf (pathOf key) := by
    cases back : pathOf key with
    | nil => exact id
    | cons a rest =>
      rintro rfl
      have : (0 : UInt8) ∈ pathOf key := by rw [back]; exact List.mem_cons_self
      exact zero_not_encode key (List.mem_reverse.mp this)
  obtain ⟨loc2, t2, run2, free2, rep2⟩ := follow_spec (c := 0) free1 grew.shape rep1 grew.mem inner
    (fun root => absurd root nonempty)
  have shape2 := Tree.shape_grow (c := 0) (v := 0) grew.shape grew.mem inner
    (fun root => absurd root nonempty)
  have mem2 := Tree.mem_grow_self (c := 0) (v := 0) grew.shape grew.mem
  obtain ⟨rep3, free3⟩ := rep2.setVal (v := v) shape2 mem2
  have put := Tree.put_spec (v := v) 0 good.shape good.live (zero_not_encode key) (encode_ne_nil some)
  have occ := rep2.occ_node mem2
  refine ⟨_, ?_, free3 free2, put.shape, put.live, loc2, rep3⟩
  refine (if_neg some).trans ?_
  rw [rep.root] at run1
  refine bind_run run1 ?_
  refine bind_run run2 ?_
  refine bind_run (nodeAt_inside (occ.inNode free2.sized)) ?_
  refine bind_run (writeBase_inside (occ.inNode free2.sized)) ?_
  rw [rep2.value _ mem2]
  exact congrArg (fun x => Option.some (x, _))
    (Tree.put_previous 0 good.shape good.live (zero_not_encode key))

/-- What etdb_trie_find answers about the node at the end of a path. -/
def answer (T : ByteTree.Tree Int) (p : Path) : Int :=
  if T.Mem p then if 0 ∈ T.kids p then T.val p else noValue else noPath

theorem findStep_spec (free : Free t) (rep : Rep t T loc Settled NoSpare) (mem : T.Mem w)
    (settled : w = [] ∨ T.kids w ≠ []) (c : UInt8) :
    t.findStep (loc w) c = some (if c ∈ T.kids w then some (loc (c :: w)) else none) := by
  have occ := rep.occ_node mem
  have inside := rep.label_inside free mem settled c
  have check := rep.child_check mem settled inside free
  refine bind_run (nodeAt_inside (occ.inNode free.sized)) ?_
  refine bind_run (nodeAt_inside inside) ?_
  by_cases kid : c ∈ T.kids w
  · rw [if_neg (fun h => h (check.mpr kid)), if_pos kid, rep.place c w ⟨mem, kid⟩ id]
  · rw [if_pos (fun h => kid (check.mp h)), if_neg kid]

theorem not_mem_beyond {T : ByteTree.Tree Int} {c : UInt8} {u w : Path} (fresh : c ∉ T.kids w) :
    ¬ T.Mem (u ++ c :: w) := by
  intro mem
  exact fresh (Tree.mem_of_suffix mem (List.suffix_append u (c :: w))).2

theorem find_spec (key : List UInt8) (free : Free t) (live : T.Live Settled)
    (rep : Rep t T loc Settled NoSpare) (mem : T.Mem w) (inner : ¬ Tree.Leaf w) :
    ∃ origin, t.find (loc w) key = some (answer T (pathOf key ++ w), origin) ∧
      (T.Mem (pathOf key ++ w) → origin = loc (pathOf key ++ w)) := by
  induction key generalizing w with
  | nil =>
    have settled := settled_of_live live mem inner
    have occ := rep.occ_node mem
    have inside := rep.label_inside free mem settled 0
    have check := rep.child_check mem settled inside free
    refine ⟨loc w, ?_, fun _ => rfl⟩
    refine bind_run (nodeAt_inside (occ.inNode free.sized)) ?_
    refine bind_run (nodeAt_inside inside) ?_
    rw [answer, if_pos (show T.Mem (pathOf [] ++ w) from mem)]
    by_cases kid : 0 ∈ T.kids w
    · rw [if_neg (fun h => h (check.mpr kid)), if_pos (show 0 ∈ T.kids (pathOf [] ++ w) from kid)]
      rw [← rep.place 0 w ⟨mem, kid⟩ id, rep.value w ⟨mem, kid⟩]
      rfl
    · rw [if_pos (fun h => kid (check.mp h)), if_neg (show 0 ∉ T.kids (pathOf [] ++ w) from kid)]
  | cons word rest ih =>
    obtain ⟨first, again⟩ := wordLabels_proper word
    have settled := settled_of_live live mem inner
    have step := findStep_spec free rep mem settled (wordLabels word).1
    rw [pathOf_cons]
    by_cases kid : (wordLabels word).1 ∈ T.kids w
    · rw [if_pos kid] at step
      have mem1 : T.Mem ((wordLabels word).1 :: w) := ⟨mem, kid⟩
      cases more : (wordLabels word).2 with
      | none =>
        have labels : (labelsOf word).reverse ++ w = (wordLabels word).1 :: w := by simp [labelsOf, more]
        rw [labels]
        obtain ⟨origin, run, place⟩ := ih mem1 first
        refine ⟨origin, ?_, place⟩
        refine bind_run step ?_
        rw [more]
        exact run
      | some label =>
        have proper : label ≠ 0 := again label (by simp [more])
        have labels : (labelsOf word).reverse ++ w = label :: (wordLabels word).1 :: w := by
          simp [labelsOf, more]
        rw [labels]
        have settled1 := settled_of_live live mem1 first
        have step1 := findStep_spec free rep mem1 settled1 label
        by_cases kid1 : label ∈ T.kids ((wordLabels word).1 :: w)
        · rw [if_pos kid1] at step1
          obtain ⟨origin, run, place⟩ := ih (w := label :: (wordLabels word).1 :: w) ⟨mem1, kid1⟩ proper
          refine ⟨origin, ?_, place⟩
          refine bind_run step ?_
          rw [more]
          exact bind_run step1 run
        · rw [if_neg kid1] at step1
          have out := not_mem_beyond (u := pathOf rest) kid1
          refine ⟨loc ((wordLabels word).1 :: w), ?_, fun h => absurd h out⟩
          rw [answer, if_neg out]
          refine bind_run step ?_
          rw [more]
          exact bind_run step1 rfl
    · rw [if_neg kid] at step
      have labels : (labelsOf word).reverse ++ w = (wordLabels word).2.toList ++
        (wordLabels word).1 :: w := by
        cases more : (wordLabels word).2 <;> simp [labelsOf, more]
      rw [labels]
      have out : ¬ T.Mem (pathOf rest ++ ((wordLabels word).2.toList ++ (wordLabels word).1 :: w)) := by
        rw [← List.append_assoc]
        exact not_mem_beyond kid
      refine ⟨loc w, ?_, fun h => absurd h out⟩
      rw [answer, if_neg out]
      exact bind_run step rfl

theorem find_root (good : Good t T) (key : List UInt8) :
    ∃ origin, t.find 0 key = some (answer T (pathOf key), origin) ∧
      ∀ loc, Rep t T loc Settled NoSpare → T.Mem (pathOf key) → origin = loc (pathOf key) := by
  obtain ⟨loc, rep⟩ := good.rep
  obtain ⟨origin, run, _⟩ := find_spec key good.free good.live rep (w := []) trivial id
  rw [rep.root, List.append_nil] at run
  refine ⟨origin, run, fun loc' rep' mem => ?_⟩
  obtain ⟨origin', run', place'⟩ := find_spec key good.free good.live rep' (w := []) trivial id
  rw [rep'.root, List.append_nil] at run'
  rw [List.append_nil] at place'
  have same := Option.some.inj (run.symm.trans run')
  exact (Prod.ext_iff.mp same).2.trans (place' mem)

theorem answer_stored {T : ByteTree.Tree Int} (p : Path) (some : T.Mem (0 :: p)) :
    answer T p = T.val p := by
  rw [answer, if_pos some.1, if_pos some.2]

theorem answer_missing {T : ByteTree.Tree Int} (p : Path) (none : ¬ T.Mem (0 :: p)) :
    answer T p = noValue ∨ answer T p = noPath := by
  rw [answer]
  by_cases mem : T.Mem p
  · rw [if_pos mem, if_neg (fun kid => none ⟨mem, kid⟩)]
    exact Or.inl rfl
  · rw [if_neg mem]
    exact Or.inr rfl

theorem exactMatchSearch_spec (good : Good t T) (nonneg : ∀ p x, T.stored p = some x → 0 ≤ x)
    (key : List UInt8) : t.exactMatchSearch key = some ((T.stored (pathOf key)).getD noValue) := by
  obtain ⟨origin, run, _⟩ := find_root good key
  refine bind_run run ?_
  by_cases some : T.Mem (0 :: pathOf key)
  · have stored : T.stored (pathOf key) = Option.some (T.val (pathOf key)) := if_pos some
    have := nonneg _ _ stored
    have code : T.val (pathOf key) ≠ noPath := by
      simp only [noPath]
      omega
    rw [answer_stored _ some, stored]
    exact congrArg Option.some (if_neg code)
  · have stored : T.stored (pathOf key) = none := if_neg some
    rw [stored]
    rcases answer_missing _ some with h | h <;> rw [h] <;> rfl

end
end Trie
end EtdbTrie
