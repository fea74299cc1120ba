import Etdb.Trie.Structure

/- A trie in the middle of an insertion: the labels of a key are followed one by one, and
   a label whose cell is another parent's has etdb_trie_resolve move one of the families.
   All is said in terms of walks in the arrays. -/
namespace EtdbTrie
open ByteXor ByteChain ByteTree Trie
namespace Trie

/-- etdb_trie_follow for one label after the other, from the node each one leads to. -/
def followAll (t : Trie) (origin : Int) : List UInt8 → Option (Int × Trie)
  | [] => some (origin, t)
  | label :: rest => do
    let (dest, _, t) ← t.follow origin label
    t.followAll dest rest

def Contested (t : Trie) (origin : Int) (label : UInt8) : Prop :=
  0 ≤ (t.node origin).base ∧ 0 ≤ (t.node (xorByte (t.node origin).base label)).check ∧
    (t.node (xorByte (t.node origin).base label)).check ≠ origin

instance (t : Trie) (origin : Int) (label : UInt8) : Decidable (t.Contested origin label) :=
  inferInstanceAs (Decidable (_ ∧ _ ∧ _))

def HasPath (t : Trie) (labels : List UInt8) : Prop := ∃ i, t.Walk 0 labels i

/-- The node at the end of `path`, which is at `origin` afterwards, has the new child
    `dest` under a label; every other path is there as before, with its value, and the
    chains list the children that there are. -/
structure ChildAdded (t t' : Trie) (path : List UInt8) (label : UInt8) (dest origin : Int) : Prop where
  parent : t'.Walk 0 path origin
  child : t'.Walk 0 (path ++ [label]) dest
  fresh : ¬ t.HasPath (path ++ [label])
  paths : ∀ labels, t'.HasPath labels ↔ t.HasPath labels ∨ labels = path ++ [label]
  childless : ∀ d, ¬ t'.HasPath (path ++ [label] ++ [d])
  values : ∀ labels i i', t.Walk 0 (labels ++ [0]) i → t'.Walk 0 (labels ++ [0]) i' →
    (t'.node i').base = (t.node i).base
  zero : label = 0 → (t'.node dest).base = 0
  chain : ∀ p, t'.Inner p → p ≠ dest → ∃ l, t'.SiblingChain p l ∧ l.Nodup ∧ 0 ∉ l.tail ∧
    ∀ label, label ∈ l ↔ t'.Child p label ∨ p = 0 ∧ label = 0

section
variable {t t' : Trie} {T : ByteTree.Tree Int} {loc loc' : Path → Int} {w : Path} {i j origin : Int}
    {c label : UInt8}
variable {key labels rest done : List UInt8} {v : Int}

theorem followAll_append (t : Trie) (origin : Int) (labels rest : List UInt8) :
    t.followAll origin (labels ++ rest) = t.followAll origin labels >>= fun (dest, t) =>
    t.followAll dest rest := by
  induction labels generalizing t origin with
  | nil => rfl
  | cons label labels ih =>
    simp only [List.cons_append, followAll, ih, bind_assoc]

theorem updateEntry_follows (t : Trie) (origin : Int) (word : UInt8) :
    t.updateEntry origin word = t.followAll origin (labelsOf word) := by
  by_cases zero : word = 0
  · subst zero
    rfl
  · by_cases sign : word = percent
    · subst sign
      rfl
    · rw [labelsOf_plain zero sign]
      exact (if_neg zero).trans (if_neg sign)

theorem update_follows (t : Trie) (key : List UInt8) (v : Int) (some : key ≠ []) :
    t.update key v = (do
      let (dest, t) ← t.followAll 0 (encode key ++ [0])
      let n ← t.nodeAt dest
      let t ← t.writeBase dest v
      Option.some (n.base, t)) := by
  have entries : ∀ (key : List UInt8) (t : Trie) (origin : Int),
      t.updateEntries origin key = t.followAll origin (encode key) := by
    intro key
    induction key with
    | nil => exact fun _ _ => rfl
    | cons word rest ih =>
      intro t origin
      rw [encode_cons, followAll_append, updateEntries, updateEntry_follows]
      simp only [ih]
  rw [followAll_append, ← entries, update, if_neg some]
  simp only [followAll, Option.bind_eq_bind, Option.bind_assoc, Option.bind_some]

theorem Rep.walk_iff (rep : Rep t T loc Settled NoSpare) (mem : T.Mem w) :
    t.Walk (loc w) labels i ↔ T.Mem (labels.reverse ++ w) ∧ loc (labels.reverse ++ w) = i := by
  induction labels generalizing w with
  | nil => exact (and_iff_right mem).symm
  | cons c rest ih =>
    have step : t.Occ (xorByte (t.node (loc w)).base c) ∧
        (t.node (xorByte (t.node (loc w)).base c)).check = loc w ↔ c ∈ T.kids w := by
      rw [← rep.child_iff mem, Child]
      refine ⟨fun cell => ⟨fun zero => ?_, cell.1, cell.2⟩, fun child => child.2⟩
      -- node 0 is nobody's child
      have check := cell.2
      rw [zero, rep.rootNode] at check
      have := (rep.occ_node mem).1
      dsimp only at check
      omega
    have path : (c :: rest).reverse ++ w = rest.reverse ++ c :: w := by simp
    rw [Walk, ← and_assoc, step, path]
    constructor
    · rintro ⟨kid, walk⟩
      have memC : T.Mem (c :: w) := ⟨mem, kid⟩
      rw [← rep.place c w memC id] at walk
      exact (ih memC).mp walk
    · rintro ⟨deep, here⟩
      have memC : T.Mem (c :: w) := Tree.mem_of_suffix deep (List.suffix_append rest.reverse (c :: w))
      refine ⟨memC.2, ?_⟩
      rw [← rep.place c w memC id]
      exact (ih memC).mpr ⟨deep, here⟩

theorem Rep.walk_root (rep : Rep t T loc Settled NoSpare) :
    t.Walk 0 labels i ↔ T.Mem labels.reverse ∧ loc labels.reverse = i := by
  have walk : t.Walk (loc []) labels i ↔ _ := rep.walk_iff trivial
  rwa [rep.root, List.append_nil] at walk

theorem Rep.hasPath (rep : Rep t T loc Settled NoSpare) : t.HasPath labels ↔ T.Mem labels.reverse := by
  simp only [HasPath, rep.walk_root, exists_and_left, exists_eq', and_true]

structure Inserting (t : Trie) (T : ByteTree.Tree Int) (loc : Path → Int) (w : Path) : Prop where
  free : Free t
  shape : T.Shape
  live : T.Live (· = w)
  rep : Rep t T loc Settled NoSpare
  mem : T.Mem w
  inner : ¬ Tree.Leaf w

theorem followAll_spec (inserting : Inserting t T loc w) (proper : 0 ∉ labels) :
    ∃ loc' t' T', t.followAll (loc w) labels = some (loc' (labels.reverse ++ w), t') ∧
      Inserting t' T' loc' (labels.reverse ++ w) := by
  induction labels generalizing t T loc w with
  | nil => exact ⟨loc, t, T, rfl, inserting⟩
  | cons c rest ih =>
    obtain ⟨first, later⟩ := not_or.mp (mt List.mem_cons.mpr proper)
    obtain ⟨loc1, t1, run1, free1, rep1, shape1, live1, mem1⟩ :=
      follow_step inserting.free inserting.shape
      inserting.live inserting.rep inserting.mem inserting.inner (Ne.symm first)
    obtain ⟨loc2, t2, T2, run2, inserting2⟩ := ih ⟨free1, shape1, live1, rep1, mem1, Ne.symm first⟩ later
    have path : (c :: rest).reverse ++ w = rest.reverse ++ c :: w := by simp
    rw [path]
    exact ⟨loc2, t2, T2, bind_run run1 run2, inserting2⟩

theorem Contested.occ (contested : t.Contested (loc w) c) (inserting : Inserting t T loc w)
    (proper : w = [] → c ≠ 0) :
    w ≠ [] ∧ T.kids w ≠ [] ∧ c ∉ T.kids w ∧ t.Occ (xorByte (t.node (loc w)).base c) := by
  obtain ⟨base, taken, other⟩ := contested
  obtain ⟨free, shape, live, rep, mem, inner⟩ := inserting
  have settled : w = [] ∨ T.kids w ≠ [] := by
    by_contra bare
    simp only [not_or, not_not] at bare
    cases w with
    | nil => exact bare.1 rfl
    | cons d u =>
      rw [rep.bare d u mem inner id bare.2] at base
      omega
  have inside := rep.label_inside free mem settled c
  have fresh : c ∉ T.kids w := fun kid => other ((rep.child_check mem settled inside free).mpr kid)
  rcases rep.missing mem settled fresh proper free with empty | ⟨root, occ⟩
  · have := empty.2.2
    omega
  · exact ⟨root, settled.resolve_left root, fresh, occ⟩

theorem Contested.follow (contested : t.Contested origin c) (own : t.InNode origin)
    (inside : t.InNode (xorByte (t.node origin).base c)) :
    t.follow origin c = t.resolve origin (t.node origin).base c := by
  obtain ⟨base, taken, other⟩ := contested
  refine bind_run (nodeAt_inside own) ((if_neg (by omega)).trans ?_)
  exact bind_run (nodeAt_inside inside) ((if_neg (by omega)).trans (if_pos other))

theorem childAdded_of_rep (inserting : Inserting t T loc w)
    (rep' : Rep t' (T.add w c 0) loc' Settled NoSpare)
    (fresh : c ∉ T.kids w) (proper : w = [] → c ≠ 0) :
    ChildAdded t t' w.reverse c (loc' (c :: w)) (loc' w) := by
  obtain ⟨free, shape, live, rep, mem, inner⟩ := inserting
  have added : ∀ u, (T.add w c 0).Mem u ↔ T.Mem u ∨ u = c :: w := fun u => Tree.mem_add shape mem fresh
  have shape' := Tree.shape_add (v := 0) shape mem inner fresh proper
  have out : ¬ T.Mem (c :: w) := fun held => fresh held.2
  have path : (w.reverse ++ [c]).reverse = c :: w := by simp
  have bare : (T.add w c 0).kids (c :: w) = [] := by
    rw [Tree.add_kids, if_neg (by simp)]
    exact shape.outside _ out
  refine ⟨?_, ?_, ?_, fun labels => ?_, fun d => ?_, fun labels i i' walk walk' => ?_, ?_,
    fun p node other => ?_⟩
  · exact rep'.walk_root.mpr ⟨by simpa using (added w).mpr (Or.inl mem), by simp⟩
  · exact rep'.walk_root.mpr ⟨by rw [path]; exact (added _).mpr (Or.inr rfl), by rw [path]⟩
  · rw [rep.hasPath, path]
    exact out
  · rw [rep'.hasPath, rep.hasPath, added, ← path, List.reverse_inj]
  · rw [rep'.hasPath, List.reverse_append, path]
    intro held
    have kid : d ∈ (T.add w c 0).kids (c :: w) := held.2
    rw [bare] at kid
    cases kid
  · obtain ⟨memS, here⟩ := rep.walk_root.mp walk
    obtain ⟨memS', here'⟩ := rep'.walk_root.mp walk'
    rw [List.reverse_append, List.reverse_singleton, List.singleton_append] at memS here memS' here'
    rw [← here, ← here', rep.value _ memS, rep'.value _ memS']
    by_cases slot : c = 0
    · have apart : labels.reverse ≠ w := by
        rintro rfl
        exact out (slot ▸ memS)
      simp [Tree.add, slot, apart]
    · simp [Tree.add, slot]
  · rintro rfl
    rw [rep'.value w ((added _).mpr (Or.inr rfl))]
    simp [Tree.add]
  · obtain ⟨u, memU, rfl⟩ := rep'.node_of_occ node.1
    have proper : ¬ Tree.Leaf u := fun leaf => node.2 ((rep'.slot_iff memU).mpr leaf)
    have settled : u = [] ∨ (T.add w c 0).kids u ≠ [] := by
      by_cases root : u = []
      · exact Or.inl root
      refine Or.inr ?_
      rw [Tree.add_kids]
      split
      · exact Tree.insertLabel_ne_nil
      · rename_i here
        have old := ((added u).mp memU).resolve_right fun same => other (by rw [same])
        exact live u old root proper here
    exact rep'.chained shape' memU settled

theorem contested_spec (inserting : Inserting t T loc w) (proper : w = [] → c ≠ 0)
    (contested : t.Contested (loc w) c) :
    ∃ dest origin t', t.follow (loc w) c = t.resolve (loc w) (t.node (loc w)).base c ∧
      t.resolve (loc w) (t.node (loc w)).base c = some (dest, origin, t') ∧
      ChildAdded t t' w.reverse c dest origin := by
  obtain ⟨root, kids, fresh, taken⟩ := contested.occ inserting proper
  obtain ⟨loc', t', run, _, rep'⟩ := resolve_spec inserting.free inserting.shape inserting.rep
    inserting.mem root inserting.inner kids fresh taken
  have own := (inserting.rep.occ_node inserting.mem).inNode inserting.free.sized
  exact ⟨_, _, t', contested.follow own (taken.inNode inserting.free.sized), run,
    childAdded_of_rep inserting rep' fresh proper⟩

end
end Trie

section
variable {calls : List Call} {key labels rest : List UInt8} {label : UInt8}

/-- In the middle of every update, after whatever calls on typed keys, a label whose slot is
    held by another parent gets its child, and no other path or value changes. -/
theorem resolve_adds_child (calls : List Call) (own : ∀ c ∈ calls, Typed c.key)
    (key labels rest : List UInt8)
    (label : UInt8) (typed : Typed key) (split : encode key ++ [0] = labels ++ label :: rest) :
    ∃ answers t origin t1, (init [] >>= fun t => t.calls calls) = some (answers, t) ∧
      t.followAll 0 labels = some (origin, t1) ∧ t1.Walk 0 labels origin ∧
      (t1.Contested origin label → ∃ dest origin' t2, t1.follow origin label =
          t1.resolve origin (t1.node origin).base label ∧
        t1.resolve origin (t1.node origin).base label = some (dest, origin', t2) ∧
        ChildAdded t1 t2 labels label dest origin') := by
  obtain ⟨t0, start, good0⟩ := init_good
  obtain ⟨answers, t, T, run, good, _⟩ :=
    typed_calls calls good0 models_empty (fun _ held => absurd rfl held) own
  obtain ⟨loc, rep⟩ := good.rep
  have begin : Inserting t T loc [] :=
    ⟨good.free, good.shape, good.live.mono (fun _ => False.elim), rep, trivial, id⟩
  have begins : labels <+: encode key := by
    have whole : labels <+: encode key ++ [0] := ⟨label :: rest, split.symm⟩
    refine List.prefix_of_prefix_length_le whole (List.prefix_append _ _) ?_
    have length := congrArg List.length split
    simp only [List.length_append, List.length_cons, List.length_nil] at length
    omega
  have proper : 0 ∉ labels := fun zero => zero_not_encode key (begins.subset zero)
  obtain ⟨loc1, t1, T1, run1, inserting⟩ := followAll_spec begin proper
  rw [rep.root, List.append_nil] at run1
  rw [List.append_nil] at inserting
  refine ⟨answers, t, _, t1, bind_run start run, run1, ?_, fun contested => ?_⟩
  · exact inserting.rep.walk_root.mpr ⟨inserting.mem, rfl⟩
  · have first : labels.reverse = [] → label ≠ 0 := by
      rintro none rfl
      obtain ⟨head, tail, rfl, type⟩ := typed
      rw [List.reverse_eq_nil_iff] at none
      rw [none, encode_cons, labelsOf_plain (head_plain type).1 (head_plain type).2] at split
      exact (head_plain type).1 (List.cons.inj split).1
    have added := contested_spec inserting first contested
    rwa [List.reverse_reverse] at added

/-- Inserting "0\x01" after "0" and "1": the slot is the value slot of "1". -/
theorem resolve_adds_child_once : ∃ t1 origin dest origin' t2, t1.Contested origin 1 ∧
    t1.resolve origin (t1.node origin).base 1 = some (dest, origin', t2) ∧
    ChildAdded t1 t2 [48] 1 dest origin' := by
  have own : ∀ c ∈ [Call.update [48] 1, .update [49] 1], Typed c.key := by
    simp only [List.mem_cons, List.not_mem_nil, or_false, forall_eq_or_imp, forall_eq, Call.key]
    exact ⟨⟨48, [], rfl, by decide⟩, ⟨49, [], rfl, by decide⟩⟩
  obtain ⟨answers, t, origin, t1, run, mid, _, resolved⟩ :=
    resolve_adds_child [.update [48] 1, .update [49] 1] own
    [48, 1] [48] [0] 1 ⟨48, [1], rfl, by decide⟩ rfl
  have contested : ((init [] >>= fun t => t.calls [.update [48] 1, .update [49] 1]).bind fun r =>
      r.2.followAll 0 [48]).map (fun r => decide (r.2.Contested r.1 1)) = some true := by decide +kernel
  simp only [run, Option.bind_some, mid, Option.map_some, Option.some.injEq] at contested
  have here : t1.Contested origin 1 := of_decide_eq_true contested
  obtain ⟨dest, origin', t2, _, run2, added⟩ := resolved here
  exact ⟨t1, origin, dest, origin', t2, here, run2, added⟩

end
end EtdbTrie
