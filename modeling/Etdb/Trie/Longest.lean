import Etdb.Trie.Prefix

/- etdb_trie_match_longest_search. It looks for a value after every label, also between
   the two labels of an escaped byte, where no key ends. -/
namespace EtdbTrie
open ByteXor ByteChain ByteTree Trie
namespace Trie

/-- The variable `ret` and `*match_len`; none while ret is ETDB_TRIE_NO_PATH. -/
abbrev Best := Option (Int × Nat)

/-- One label of the walk, for a byte at position `pos`: the child, if there is one, and
    the best match after it. -/
def longestStep (t : Trie) (origin : Int) (pos : Nat) (best : Best) (label : UInt8) :
    Option (Option Int × Best) := do
  let n ← t.nodeAt origin
  let m ← t.nodeAt (xorByte n.base label)
  if m.check ≠ origin then some (none, best)
  else do
    let z ← t.nodeAt (xorByte m.base 0)
    some (some (xorByte n.base label),
      if z.check = xorByte n.base label then some (z.base, pos + 1) else best)

def longestAgain (t : Trie) (origin : Int) (pos : Nat) (best : Best) : Option UInt8 →
    Option (Option Int × Best)
  | none => some (some origin, best)
  | some label => t.longestStep origin pos best label

def longestLoop (t : Trie) (origin : Int) (pos : Nat) (best : Best) : List UInt8 → Option Best
  | [] => some best
  | word :: rest => do
    let (dest, best) ← t.longestStep origin pos best (wordLabels word).1
    match dest with
    | none => some best
    | some dest =>
      let (dest, best) ← t.longestAgain dest pos best (wordLabels word).2
      match dest with
      | none => some best
      | some dest => t.longestLoop dest (pos + 1) best rest

def matchLongestSearch (t : Trie) (key : List UInt8) : Option Best := t.longestLoop 0 0 none key

end Trie

/-- The value under the longest stored prefix of `before ++ key` that is longer than
    `before`, else `best`. -/
def Entries.longest (m : Entries) (before : List UInt8) (best : Best) : List UInt8 → Best
  | [] => best
  | word :: rest =>
    m.longest (before ++ [word]) (match m (before ++ [word]) with
      | some v => some (v, before.length + 1)
      | none => best) rest

section
variable {t : Trie} {T : ByteTree.Tree Int} {m m' : Entries} {loc : Path → Int} {w : Path} {c : UInt8}
variable {before key : List UInt8} {best : Best} {pos : Nat}

theorem longest_none (none : ∀ P, P ≠ [] → P <+: key → m (before ++ P) = none) :
    m.longest before best key = best := by
  induction key generalizing before best with
  | nil => rfl
  | cons word rest ih =>
    have here := none [word] (by simp) (by simp)
    unfold Entries.longest
    rw [here]
    apply ih
    intro P _ begins
    have later := none (word :: P) (by simp) (by simpa using begins)
    simpa using later

theorem longestStep_spec (pos : Nat) (best : Best) (good : Good t T) (rep : Rep t T loc Settled NoSpare)
    (mem : T.Mem w) (inner : ¬ Tree.Leaf w) (proper : c ≠ 0) :
    t.longestStep (loc w) pos best c = some (if c ∈ T.kids w then
      (some (loc (c :: w)), if 0 ∈ T.kids (c :: w) then some (T.val (c :: w), pos + 1) else best)
      else (none, best)) := by
  have settled := settled_of_live good.live mem inner
  have inside := rep.label_inside good.free mem settled c
  have check := rep.child_check mem settled inside good.free
  refine bind_run (nodeAt_inside ((rep.occ_node mem).inNode good.free.sized)) ?_
  refine bind_run (nodeAt_inside inside) ?_
  by_cases kid : c ∈ T.kids w
  · have below : T.Mem (c :: w) := ⟨mem, kid⟩
    have place := rep.place c w below id
    have settled' := settled_of_live good.live below proper
    have inside' := rep.label_inside good.free below settled' 0
    have check' := rep.child_check below settled' inside' good.free
    rw [if_neg (fun h => h (check.mpr kid)), if_pos kid, ← place]
    refine bind_run (nodeAt_inside inside') ?_
    by_cases slot : 0 ∈ T.kids (c :: w)
    · have value := rep.value (c :: w) ⟨below, slot⟩
      rw [rep.place 0 (c :: w) ⟨below, slot⟩ id] at value
      rw [if_pos (check'.mpr slot), if_pos slot, value]
    · rw [if_neg (fun h => slot (check'.mp h)), if_neg slot]
  · rw [if_pos (fun h => kid (check.mp h)), if_neg kid]

/-- No key ends between the labels of an escaped byte. -/
theorem no_slot_between (models : Models T m) (before : List UInt8) :
    0 ∉ T.kids (percent :: pathOf before) ∨ ¬ T.Mem (percent :: pathOf before) := by
  by_contra both
  simp only [not_or, not_not] at both
  obtain ⟨key, same⟩ := models.slots (percent :: pathOf before) ⟨both.2, both.1⟩
  have labels : encode key = encode before ++ [percent] := by
    have := congrArg List.reverse same
    simpa [pathOf] using this.symm
  obtain ⟨rest, _, lone⟩ := encode_prefix labels
  cases rest with
  | nil => simp [encode] at lone
  | cons word rest =>
    by_cases zero : word = 0
    · simp [zero, labelsOf_zero] at lone
    · by_cases sign : word = percent
      · simp [sign, labelsOf_percent] at lone
      · rw [encode_cons, labelsOf_plain zero sign] at lone
        exact sign (List.cons.inj lone).1.symm

theorem nothing_below (models : Models T m) {u : Path} (missing : ¬ T.Mem u)
    (begins : u <:+ pathOf (before ++ [c])) (P : List UInt8) : m (before ++ c :: P) = none := by
  by_contra held
  have slot := models.slot held
  have longer : pathOf (before ++ [c]) <:+ pathOf (before ++ c :: P) := by
    have split : pathOf (before ++ c :: P) = pathOf P ++ pathOf (before ++ [c]) := by
      rw [← pathOf_append, List.append_assoc, List.singleton_append]
    rw [split]
    exact List.suffix_append _ _
  exact missing (Tree.mem_of_suffix slot.1 (begins.trans longer))

theorem longest_missing (models : Models T m) {u : Path} (missing : ¬ T.Mem u)
    (begins : u <:+ pathOf (before ++ [c])) : m.longest before best (c :: key) = best := by
  apply longest_none
  intro P some start
  cases P with
  | nil => exact absurd rfl some
  | cons d P =>
    obtain ⟨rfl, _⟩ := List.cons_prefix_cons.mp start
    exact nothing_below models missing begins P

theorem slot_value (models : Models T m) (mem : T.Mem (pathOf before)) :
    (if 0 ∈ T.kids (pathOf before) then some (T.val (pathOf before), pos) else best) =
      match m before with
      | some v => some (v, pos)
      | none => best := by
  rw [← models.stored]
  by_cases slot : 0 ∈ T.kids (pathOf before)
  · rw [if_pos slot, Tree.stored, if_pos ⟨mem, slot⟩]
  · rw [if_neg slot, Tree.stored, if_neg (fun h => slot h.2)]

/-- Only the escape byte is followed by a second label. -/
theorem escape_first {word label : UInt8} (more : (wordLabels word).2 = some label) :
    (wordLabels word).1 = percent := by
  unfold wordLabels at more ⊢
  split
  · rfl
  · rename_i zero
    rw [if_neg zero] at more
    split
    · rfl
    · rename_i sign
      rw [if_neg sign] at more
      cases more

theorem longestLoop_spec (good : Good t T) (rep : Rep t T loc Settled NoSpare) (models : Models T m)
    (before : List UInt8) (best : Best) (mem : T.Mem (pathOf before)) (key : List UInt8) :
    t.longestLoop (loc (pathOf before)) before.length best key = some (m.longest before best key) := by
  induction key generalizing before best with
  | nil => rfl
  | cons word rest ih =>
    have inner : ¬ Tree.Leaf (pathOf before) := by
      have := pathOf_inner before (w := []) id
      rwa [List.append_nil] at this
    obtain ⟨first, again⟩ := wordLabels_proper word
    have spelled : pathOf (before ++ [word]) = (labelsOf word).reverse ++ pathOf before := by
      rw [pathOf_append]
      simp [pathOf]
    have step := longestStep_spec before.length best good rep mem inner first
    unfold longestLoop
    by_cases kid : (wordLabels word).1 ∈ T.kids (pathOf before)
    · rw [if_pos kid] at step
      have mem1 : T.Mem ((wordLabels word).1 :: pathOf before) := ⟨mem, kid⟩
      refine bind_run step ?_
      dsimp only
      cases more : (wordLabels word).2 with
      | none =>
        have path : pathOf (before ++ [word]) = (wordLabels word).1 :: pathOf before := by
          rw [spelled]
          simp [labelsOf, more]
        rw [← path] at mem1 ⊢
        have rest' := ih (before ++ [word]) (match m (before ++ [word]) with
          | some v => some (v, before.length + 1)
          | none => best) mem1
        rw [List.length_append, List.length_singleton] at rest'
        rw [slot_value models mem1]
        exact rest'
      | some label =>
        have escape := escape_first more
        have empty : 0 ∉ T.kids (percent :: pathOf before) := by
          rw [escape] at mem1
          exact (no_slot_between models before).resolve_right (fun out => out mem1)
        rw [← escape] at empty
        have path : pathOf (before ++ [word]) = label :: (wordLabels word).1 :: pathOf before := by
          rw [spelled]
          simp [labelsOf, more]
        rw [if_neg empty]
        have step1 := longestStep_spec before.length best good rep mem1 first
          (again label (by simp [more]))
        refine bind_run (f := fun p => _) step1 ?_
        by_cases kid1 : label ∈ T.kids ((wordLabels word).1 :: pathOf before)
        · have mem2 : T.Mem (label :: (wordLabels word).1 :: pathOf before) := ⟨mem1, kid1⟩
          rw [if_pos kid1]
          rw [← path] at mem2 ⊢
          have rest' := ih (before ++ [word]) (match m (before ++ [word]) with
            | some v => some (v, before.length + 1)
            | none => best) mem2
          rw [List.length_append, List.length_singleton] at rest'
          rw [slot_value models mem2]
          exact rest'
        · rw [if_neg kid1]
          have missing : ¬ T.Mem (label :: (wordLabels word).1 :: pathOf before) := fun h => kid1 h.2
          exact congrArg some (longest_missing models missing (by rw [path])).symm
    · rw [if_neg kid] at step
      refine bind_run step ?_
      have missing : ¬ T.Mem ((wordLabels word).1 :: pathOf before) := fun h => kid h.2
      refine congrArg some (longest_missing models missing ?_).symm
      rw [spelled]
      cases more : (wordLabels word).2 <;> simp [labelsOf, more]

theorem matchLongestSearch_spec (good : Good t T) (models : Models T m) (key : List UInt8) :
    t.matchLongestSearch key = some (m.longest [] none key) := by
  obtain ⟨loc, rep⟩ := good.rep
  have run := longestLoop_spec good rep models [] none trivial key
  rw [show loc (pathOf []) = 0 from rep.root] at run
  exact run

end
end EtdbTrie
