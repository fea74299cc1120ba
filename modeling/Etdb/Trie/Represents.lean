import Etdb.Lib.ByteChain
import Etdb.Lib.ByteTree
import Etdb.Trie.Operations

/- The tree that the double array encodes. `loc` says where each node lies; it is not
   part of the state and changes when a family is relocated. Nodes in `X` are under
   repair: nothing is known of where their children lie or of their chain. Cells in
   `spare` are occupied without belonging to the tree. -/
namespace EtdbTrie
open ByteXor ByteChain ByteTree
namespace Trie

/-- The labels on a node's chain: node 0 poses as the root's child 0. -/
def labels (T : ByteTree.Tree Int) (w : Path) : List UInt8 := if w = [] then 0 :: T.kids [] else T.kids w

structure Rep (t : Trie) (T : ByteTree.Tree Int) (loc : Path → Int) (X : Path → Prop)
    (spare : Int → Prop) : Prop where
  root : loc [] = 0
  rootNode : t.node 0 = ⟨0, -1⟩
  inj : ∀ v w, T.Mem v → T.Mem w → loc v = loc w → v = w
  occ : ∀ i, t.Occ i ↔ (∃ w, T.Mem w ∧ loc w = i) ∨ spare i
  apart : ∀ i w, spare i → T.Mem w → loc w ≠ i
  check : ∀ c w, T.Mem (c :: w) → (t.node (loc (c :: w))).check = loc w
  place : ∀ c w, T.Mem (c :: w) → ¬ X w → loc (c :: w) = xorByte (t.node (loc w)).base c
  value : ∀ w, T.Mem (0 :: w) → (t.node (loc (0 :: w))).base = T.val w
  high : ∀ w, T.Mem w → w ≠ [] → T.kids w ≠ [] → 256 ≤ (t.node (loc w)).base
  bare : ∀ c w, T.Mem (c :: w) → c ≠ 0 → ¬ X (c :: w) → T.kids (c :: w) = [] →
    (t.node (loc (c :: w))).base = -1
  chain : ∀ w c l, T.Mem w → ¬ X w → labels T w = c :: l → (t.ninfo (loc w)).child = c ∧
    Chain (fun d => (t.ninfo (xorByte (t.node (loc w)).base d)).sibling) c l
  childless : ∀ w, T.Mem w → ¬ X w → labels T w = [] → (t.ninfo (loc w)).child = 0

abbrev Settled : Path → Prop := fun _ => False
abbrev NoSpare : Int → Prop := fun _ => False

section
variable {t t' : Trie} {T : ByteTree.Tree Int} {loc : Path → Int} {X X' : Path → Prop}
    {spare spare' : Int → Prop}
variable {u v w : Path} {c d p : UInt8} {e i : Int}

theorem labels_cons (T : ByteTree.Tree Int) (c : UInt8) (w : Path) :
    labels T (c :: w) = T.kids (c :: w) :=
  if_neg (by simp)

theorem labels_proper (proper : w ≠ []) : labels T w = T.kids w := if_neg proper

theorem kid_label (kid : c ∈ T.kids w) : c ∈ labels T w := by
  unfold labels
  split
  · rename_i root
    exact List.mem_cons_of_mem 0 (root ▸ kid)
  · exact kid

theorem labels_add (shape : T.Shape) (proper : w = [] → c ≠ 0) (v : Int) :
    labels (T.add w c v) u = if u = w then Tree.insertLabel c (labels T w) else labels T u := by
  by_cases here : u = w
  · subst here
    by_cases root : u = []
    · subst root
      have kids : Tree.insertLabel c (T.kids []) = c :: T.kids [] := by
        cases list : T.kids [] with
        | nil => rfl
        | cons d l =>
          have zero : d ≠ 0 := fun h => shape.root (by simp [list, h])
          simp [Tree.insertLabel, zero]
      have front : Tree.insertLabel c (0 :: T.kids []) = 0 :: c :: T.kids [] := by
        simp [Tree.insertLabel]
      simp only [labels, ↓reduceIte, Tree.add_kids, kids, front]
    · simp [labels, root, Tree.add_kids]
  · by_cases root : u = []
    · subst root
      simp [labels, Tree.add_kids, here]
    · simp [labels, root, Tree.add_kids, here]

theorem labels_remove (proper : w = [] → c ≠ 0) :
    labels (T.remove w c) u = if u = w then (labels T w).erase c else labels T u := by
  by_cases here : u = w
  · subst here
    by_cases root : u = []
    · subst root
      simp [labels, Tree.remove_kids, List.erase_cons_tail, (proper rfl).symm]
    · simp [labels, root, Tree.remove_kids]
  · by_cases root : u = []
    · subst root
      simp [labels, Tree.remove_kids, here]
    · simp [labels, root, Tree.remove_kids, here]

theorem labels_nodup (shape : T.Shape) (w : Path) : (labels T w).Nodup := by
  unfold labels
  split
  · exact List.nodup_cons.mpr ⟨shape.root, shape.nodup []⟩
  · exact shape.nodup w

theorem labels_zeroFirst (shape : T.Shape) (w : Path) : 0 ∉ (labels T w).tail := by
  unfold labels
  split
  · exact shape.root
  · exact shape.zeroFirst w

theorem Rep.occ_node (rep : Rep t T loc X spare) (mem : T.Mem w) : t.Occ (loc w) :=
  (rep.occ _).mpr (Or.inl ⟨w, mem, rfl⟩)

theorem Rep.loc_zero (rep : Rep t T loc X spare) (mem : T.Mem w) : loc w = 0 ↔ w = [] := by
  constructor
  · intro zero
    exact rep.inj w [] mem trivial (zero.trans rep.root.symm)
  · rintro rfl
    exact rep.root

theorem Rep.rootBase (rep : Rep t T loc X spare) : (t.node (loc [])).base = 0 := by
  rw [rep.root, rep.rootNode]

theorem Rep.label_cell (rep : Rep t T loc X spare) (mem : T.Mem w) (settled : ¬ X w)
    (label : d ∈ labels T w) : ∃ u, T.Mem u ∧ xorByte (t.node (loc w)).base d = loc u ∧
      (u = d :: w ∧ d ∈ T.kids w ∨ w = [] ∧ d = 0 ∧ u = []) := by
  by_cases kid : d ∈ T.kids w
  · exact ⟨d :: w, ⟨mem, kid⟩, (rep.place d w ⟨mem, kid⟩ settled).symm, Or.inl ⟨rfl, kid⟩⟩
  · by_cases root : w = []
    · subst root
      have zero : d = 0 := by
        simp only [labels, ↓reduceIte, List.mem_cons] at label
        exact label.resolve_right kid
      refine ⟨[], trivial, ?_, Or.inr ⟨rfl, zero, rfl⟩⟩
      rw [rep.rootBase, zero, xorByte_zero, rep.root]
    · rw [labels_proper root] at label
      exact absurd label kid

theorem Rep.reframe (rep : Rep t T loc X spare)
    (same : ∀ w, T.Mem w → t'.node (loc w) = t.node (loc w) ∧ t'.ninfo (loc w) = t.ninfo (loc w))
    (occ : ∀ i, t'.Occ i ↔ (∃ w, T.Mem w ∧ loc w = i) ∨ spare' i)
    (apart : ∀ i w, spare' i → T.Mem w → loc w ≠ i) : Rep t' T loc X spare' where
  root := rep.root
  rootNode := by
    have := (same [] trivial).1
    rw [rep.root] at this
    rw [this, rep.rootNode]
  inj := rep.inj
  occ := occ
  apart := apart
  check := fun c w mem => by rw [(same _ mem).1, rep.check c w mem]
  place := fun c w mem settled => by rw [(same _ mem.1).1]; exact rep.place c w mem settled
  value := fun w mem => by rw [(same _ mem).1, rep.value w mem]
  high := fun w mem proper some => by rw [(same _ mem).1]; exact rep.high w mem proper some
  bare := fun c w mem proper settled none => by
    rw [(same _ mem).1]; exact rep.bare c w mem proper settled none
  chain := by
    intro w c l mem settled list
    obtain ⟨child, chain⟩ := rep.chain w c l mem settled list
    refine ⟨by rw [(same _ mem).2, child], chain_congr chain ?_⟩
    intro d hd
    obtain ⟨u, memU, cell, _⟩ := rep.label_cell mem settled (list ▸ hd)
    rw [(same _ mem).1, cell, (same _ memU).2]
  childless := fun w mem settled none => by
    rw [(same _ mem).2]; exact rep.childless w mem settled none

theorem Rep.grown (rep : Rep t T loc X spare) (grown : Grown t t') : Rep t' T loc X spare := by
  refine rep.reframe (fun w mem => ?_) (fun i => (grown.occ i).trans (rep.occ i)) rep.apart
  have inside := (rep.occ_node mem).2.1
  exact ⟨grown.node _ inside, grown.ninfo _ inside⟩

theorem Rep.taken {n : Node} (rep : Rep t T loc X NoSpare) (taken : Taken t t' e n) :
    Rep t' T loc X (· = e) := by
  refine rep.reframe (fun w mem => ?_) (fun i => ?_) ?_
  · have occ := rep.occ_node mem
    exact ⟨taken.node _ occ, taken.ninfo _ occ⟩
  · rw [taken.occ, rep.occ, or_false]
  · rintro i w rfl mem same
    exact taken.fresh (same ▸ rep.occ_node mem)

theorem Rep.released (rep : Rep t T loc X (· = e)) (released : Released t t' e) :
    Rep t' T loc X NoSpare := by
  refine rep.reframe (fun w mem => ?_) (fun i => ?_) (fun _ _ => False.elim)
  · have other := rep.apart e w rfl mem
    exact ⟨released.node _ (rep.occ_node mem) other, released.ninfo _ other⟩
  · rw [released.occ, rep.occ, or_false]
    constructor
    · rintro ⟨inside | same, other⟩
      · exact inside
      · exact absurd same other
    · rintro ⟨w, mem, rfl⟩
      exact ⟨Or.inl ⟨w, mem, rfl⟩, rep.apart e w rfl mem⟩

/-- Only a chain of `w` runs over the cells of its family, so the others are as they were. -/
theorem Rep.chain_away {l : List UInt8} (rep : Rep t T loc X spare) (memU : T.Mem u) (settled : ¬ X u)
    (away : u ≠ w) (sibling : ∀ v, T.Mem v → (∀ d, v ≠ d :: w) → (w = [] → v ≠ []) →
      (t'.ninfo (loc v)).sibling = (t.ninfo (loc v)).sibling) (list : labels T u = d :: l) :
    Chain (fun d => (t'.ninfo (xorByte (t.node (loc u)).base d)).sibling) d l := by
  refine chain_congr (rep.chain u d l memU settled list).2 ?_
  intro x hx
  obtain ⟨y, memY, cell, which⟩ := rep.label_cell memU settled (list ▸ hx)
  rw [cell]
  refine sibling y memY ?_ ?_
  · rintro z rfl
    rcases which with ⟨same, _⟩ | ⟨_, _, empty⟩
    · exact away (List.cons.inj same).2.symm
    · cases empty
  · rintro root rfl
    rcases which with ⟨same, _⟩ | ⟨top, _, _⟩
    · cases same
    · exact away (top.trans root.symm)

/-- What attaching a spare cell as a new child has to leave alone, and what it has to set. -/
structure Attaching (t t' : Trie) (T : ByteTree.Tree Int) (loc : Path → Int) (X : Path → Prop) (w : Path)
    (c : UInt8) (e : Int) : Prop where
  occ : ∀ i, t'.Occ i ↔ t.Occ i
  here : t'.node e = ⟨bareBase c, loc w⟩
  blank : (t'.ninfo e).child = 0
  node : ∀ u, T.Mem u → u ≠ w → t'.node (loc u) = t.node (loc u)
  check : (t'.node (loc w)).check = (t.node (loc w)).check
  base : (t'.node (loc w)).base = (t.node (loc w)).base ∨ T.kids w = [] ∧ w ≠ []
  place : ¬ X w → e = xorByte (t'.node (loc w)).base c
  high : w ≠ [] → 256 ≤ (t'.node (loc w)).base
  child : ∀ u, T.Mem u → u ≠ w → (t'.ninfo (loc u)).child = (t.ninfo (loc u)).child
  sibling : ∀ u, T.Mem u → (∀ d, u ≠ d :: w) → (w = [] → u ≠ []) →
    (t'.ninfo (loc u)).sibling = (t.ninfo (loc u)).sibling
  chain : ¬ X w → ∀ d l, Tree.insertLabel c (labels T w) = d :: l → (t'.ninfo (loc w)).child = d ∧
    Chain (fun d => (t'.ninfo (xorByte (t'.node (loc w)).base d)).sibling) d l

section Attach
variable (rep : Rep t T loc X (· = e)) (shape : T.Shape) (mem : T.Mem w) (fresh : c ∉ T.kids w)
  (a : Attaching t t' T loc X w c e)

theorem attach_here (loc : Path → Int) (c : UInt8) (w : Path) (e : Int) :
    Function.update loc (c :: w) e (c :: w) = e := Function.update_self ..

include fresh in
theorem attach_old (memU : T.Mem u) : Function.update loc (c :: w) e u = loc u := by
  refine Function.update_of_ne ?_ ..
  rintro rfl
  exact fresh memU.2

include shape mem fresh in
theorem attach_mem : (T.add w c 0).Mem u ↔ T.Mem u ∨ u = c :: w := Tree.mem_add shape mem fresh

include shape fresh in
theorem attach_kids : (T.add w c 0).kids (c :: w) = [] := by
  have out : ¬ T.Mem (c :: w) := fun h => fresh h.2
  rw [Tree.add_kids, if_neg (by simp), shape.outside _ out]

theorem attach_away (T : ByteTree.Tree Int) (c : UInt8) (away : u ≠ w) :
    (T.add w c 0).kids u = T.kids u := by
  rw [Tree.add_kids, if_neg away]

include rep a in
theorem attach_root : t'.node 0 = ⟨0, -1⟩ := by
  by_cases root : w = []
  · subst root
    have base := a.base.resolve_right (fun h => h.2 rfl)
    have check := a.check
    rw [rep.root, rep.rootNode] at base check
    exact congrArg₂ Node.mk base check
  · have same := a.node [] trivial (fun h => root h.symm)
    rw [rep.root] at same
    rw [same, rep.rootNode]

include rep shape mem fresh in
theorem attach_inj (memU : (T.add w c 0).Mem u) (memV : (T.add w c 0).Mem v)
    (same : Function.update loc (c :: w) e u = Function.update loc (c :: w) e v) : u = v := by
  rcases (attach_mem shape mem fresh).mp memU with hu | rfl <;>
    rcases (attach_mem shape mem fresh).mp memV with hv | rfl
  · rw [attach_old fresh hu, attach_old fresh hv] at same
    exact rep.inj u v hu hv same
  · rw [attach_old fresh hu, attach_here] at same
    exact absurd same (rep.apart e u rfl hu)
  · rw [attach_old fresh hv, attach_here] at same
    exact absurd same.symm (rep.apart e v rfl hv)
  · rfl

include rep shape mem fresh a in
theorem attach_occ (i : Int) :
    t'.Occ i ↔ ∃ u, (T.add w c 0).Mem u ∧ Function.update loc (c :: w) e u = i := by
  rw [a.occ, rep.occ]
  constructor
  · rintro (⟨u, memU, rfl⟩ | rfl)
    · exact ⟨u, (attach_mem shape mem fresh).mpr (Or.inl memU), attach_old fresh memU⟩
    · exact ⟨c :: w, (attach_mem shape mem fresh).mpr (Or.inr rfl), attach_here loc c w _⟩
  · rintro ⟨u, memU, rfl⟩
    rcases (attach_mem shape mem fresh).mp memU with hu | rfl
    · exact Or.inl ⟨u, hu, (attach_old fresh hu).symm⟩
    · exact Or.inr (attach_here loc c w e)

include rep shape mem fresh a in
theorem attach_check (memU : (T.add w c 0).Mem (d :: u)) :
    (t'.node (Function.update loc (c :: w) e (d :: u))).check = Function.update loc (c :: w) e u := by
  rcases (attach_mem shape mem fresh).mp memU with hu | same
  · rw [attach_old fresh hu, attach_old fresh hu.1]
    by_cases atW : d :: u = w
    · rw [atW, a.check, ← atW]
      exact rep.check d u hu
    · rw [a.node _ hu atW]
      exact rep.check d u hu
  · obtain ⟨rfl, rfl⟩ := List.cons.inj same
    rw [attach_here, a.here, attach_old fresh mem]

include rep shape mem fresh a in
theorem attach_place (memU : (T.add w c 0).Mem (d :: u)) (settled : ¬ X u) :
    Function.update loc (c :: w) e (d :: u) =
      xorByte (t'.node (Function.update loc (c :: w) e u)).base d := by
  rcases (attach_mem shape mem fresh).mp memU with hu | same
  · rw [attach_old fresh hu, attach_old fresh hu.1]
    have place := rep.place d u hu settled
    by_cases atW : u = w
    · subst atW
      rcases a.base with base | ⟨none, _⟩
      · rw [base]
        exact place
      · have kid := hu.2
        rw [none] at kid
        cases kid
    · rw [a.node u hu.1 atW]
      exact place
  · obtain ⟨rfl, rfl⟩ := List.cons.inj same
    rw [attach_here, attach_old fresh mem]
    exact a.place settled

include rep shape mem fresh a in
theorem attach_value (inner : ¬ Tree.Leaf w) (memU : (T.add w c 0).Mem (0 :: u)) :
    (t'.node (Function.update loc (c :: w) e (0 :: u))).base = (T.add w c 0).val u := by
  rcases (attach_mem shape mem fresh).mp memU with hu | same
  · have other : 0 :: u ≠ w := by
      rintro rfl
      exact inner rfl
    rw [attach_old fresh hu, a.node _ hu other, rep.value u hu]
    simp only [Tree.add]
    split
    · rename_i zero
      have distinct : u ≠ w := by
        rintro rfl
        exact fresh (zero ▸ hu.2)
      rw [Function.update_of_ne distinct]
    · rfl
  · obtain ⟨rfl, rfl⟩ := List.cons.inj same
    rw [attach_here, a.here]
    simp [bareBase, Tree.add]

include rep shape mem fresh a in
theorem attach_bare (memU : (T.add w c 0).Mem (d :: u)) (proper : d ≠ 0) (settled : ¬ X (d :: u))
    (none : (T.add w c 0).kids (d :: u) = []) :
    (t'.node (Function.update loc (c :: w) e (d :: u))).base = -1 := by
  rcases (attach_mem shape mem fresh).mp memU with hu | same
  · have atW : d :: u ≠ w := by
      rintro rfl
      rw [Tree.add_kids, if_pos rfl] at none
      exact Tree.insertLabel_ne_nil none
    rw [attach_away T c atW] at none
    rw [attach_old fresh hu, a.node _ hu atW]
    exact rep.bare d u hu proper settled none
  · obtain ⟨rfl, rfl⟩ := List.cons.inj same
    rw [attach_here, a.here]
    simp [bareBase, proper]

include rep shape mem fresh a in
theorem attach_chain {l : List UInt8} (proper : w = [] → c ≠ 0) (memU : (T.add w c 0).Mem u)
    (settled : ¬ X u) (list : labels (T.add w c 0) u = d :: l) :
    (t'.ninfo (Function.update loc (c :: w) e u)).child = d ∧
      Chain (fun d => (t'.ninfo (xorByte
        (t'.node (Function.update loc (c :: w) e u)).base d)).sibling) d l := by
  rcases (attach_mem shape mem fresh).mp memU with hu | rfl
  · rw [labels_add shape proper] at list
    rw [attach_old fresh hu]
    by_cases atW : u = w
    · subst atW
      rw [if_pos rfl] at list
      exact a.chain settled d l list
    · rw [if_neg atW] at list
      rw [a.child u hu atW, a.node u hu atW]
      exact ⟨(rep.chain u d l hu settled list).1, rep.chain_away hu settled atW a.sibling list⟩
  · rw [labels_cons, attach_kids shape fresh] at list
    cases list

include rep shape mem fresh a in
theorem attach_childless (proper : w = [] → c ≠ 0) (memU : (T.add w c 0).Mem u) (settled : ¬ X u)
    (none : labels (T.add w c 0) u = []) :
    (t'.ninfo (Function.update loc (c :: w) e u)).child = 0 := by
  rw [labels_add shape proper] at none
  rcases (attach_mem shape mem fresh).mp memU with hu | rfl
  · have atW : u ≠ w := by
      rintro rfl
      rw [if_pos rfl] at none
      exact Tree.insertLabel_ne_nil none
    rw [if_neg atW] at none
    rw [attach_old fresh hu, a.child u hu atW]
    exact rep.childless u hu settled none
  · rw [attach_here]
    exact a.blank

end Attach

theorem Rep.attach (rep : Rep t T loc X (· = e)) (shape : T.Shape) (mem : T.Mem w) (inner : ¬ Tree.Leaf w)
    (fresh : c ∉ T.kids w) (proper : w = [] → c ≠ 0) (a : Attaching t t' T loc X w c e) :
    Rep t' (T.add w c 0) (Function.update loc (c :: w) e) X NoSpare where
  root := (attach_old (u := []) fresh trivial).trans rep.root
  rootNode := attach_root rep a
  inj := fun _ _ memU memV => attach_inj rep shape mem fresh memU memV
  occ := fun i => (attach_occ rep shape mem fresh a i).trans (or_false _).symm.to_iff
  apart := fun _ _ => False.elim
  check := fun _ _ => attach_check rep shape mem fresh a
  place := fun _ _ => attach_place rep shape mem fresh a
  value := fun _ => attach_value rep shape mem fresh a inner
  high := by
    intro u memU properU some
    rcases (attach_mem shape mem fresh).mp memU with hu | rfl
    · rw [attach_old fresh hu]
      by_cases atW : u = w
      · subst atW
        exact a.high properU
      · rw [attach_away T c atW] at some
        rw [a.node u hu atW]
        exact rep.high u hu properU some
    · exact absurd (attach_kids shape fresh) some
  bare := fun _ _ => attach_bare rep shape mem fresh a
  chain := fun _ _ _ => attach_chain rep shape mem fresh a proper
  childless := fun _ => attach_childless rep shape mem fresh a proper

structure Detaching (t t' : Trie) (T : ByteTree.Tree Int) (loc : Path → Int) (X' : Path → Prop) (w : Path)
    (c : UInt8) : Prop where
  occ : ∀ i, t'.Occ i ↔ t.Occ i ∧ i ≠ loc (c :: w)
  node : ∀ u, T.Mem u → u ≠ c :: w → t'.node (loc u) = t.node (loc u)
  child : ∀ u, T.Mem u → u ≠ c :: w → u ≠ w → (t'.ninfo (loc u)).child = (t.ninfo (loc u)).child
  sibling : ∀ u, T.Mem u → (∀ d, u ≠ d :: w) → (w = [] → u ≠ []) →
    (t'.ninfo (loc u)).sibling = (t.ninfo (loc u)).sibling
  chain : ¬ X' w → ∃ d l, (labels T w).erase c = d :: l ∧ (t'.ninfo (loc w)).child = d ∧
    Chain (fun d => (t'.ninfo (xorByte (t.node (loc w)).base d)).sibling) d l

theorem Rep.detach (rep : Rep t T loc X NoSpare) (shape : T.Shape) (mem : T.Mem (c :: w))
    (childless : T.kids (c :: w) = []) (proper : w = [] → c ≠ 0)
    (keep : ∀ u, u ≠ c :: w → ¬ X' u → ¬ X u) (a : Detaching t t' T loc X' w c) :
    Rep t' (T.remove w c) loc X' NoSpare := by
  have memIff : ∀ u, (T.remove w c).Mem u ↔ T.Mem u ∧ u ≠ c :: w := fun u =>
    Tree.mem_remove childless (shape.nodup w)
  have kids : ∀ u, u ≠ w → (T.remove w c).kids u = T.kids u := fun u hu => by
    rw [Tree.remove_kids, if_neg hu]
  refine ⟨rep.root, ?_, ?_, ?_, fun _ _ => False.elim, ?_, ?_, ?_, ?_, ?_, ?_, ?_⟩
  · have same := a.node [] trivial (by simp)
    rw [rep.root] at same
    rw [same, rep.rootNode]
  · intro x y memX memY same
    exact rep.inj x y ((memIff x).mp memX).1 ((memIff y).mp memY).1 same
  · intro i
    rw [a.occ, rep.occ, or_false, or_false]
    constructor
    · rintro ⟨⟨u, memU, rfl⟩, other⟩
      exact ⟨u, (memIff u).mpr ⟨memU, fun same => other (by rw [same])⟩, rfl⟩
    · rintro ⟨u, memU, rfl⟩
      obtain ⟨old, other⟩ := (memIff u).mp memU
      exact ⟨⟨u, old, rfl⟩, fun same => other (rep.inj _ _ old mem same)⟩
  · intro d u memU
    obtain ⟨old, other⟩ := (memIff _).mp memU
    rw [a.node _ old other]
    exact rep.check d u old
  · intro d u memU settled
    obtain ⟨old, other⟩ := (memIff _).mp memU
    have otherU := ((memIff _).mp memU.1).2
    rw [a.node u old.1 otherU]
    exact rep.place d u old (keep u otherU settled)
  · intro u memU
    obtain ⟨old, other⟩ := (memIff _).mp memU
    rw [a.node _ old other]
    exact rep.value u old
  · intro u memU properU some
    obtain ⟨old, other⟩ := (memIff _).mp memU
    rw [a.node u old other]
    refine rep.high u old properU (fun none => some ?_)
    rw [Tree.remove_kids]
    split
    · rename_i here
      rw [← here, none]
      rfl
    · exact none
  · intro d u memU properU settled none
    obtain ⟨old, other⟩ := (memIff _).mp memU
    rw [a.node _ old other]
    have atW : d :: u ≠ w := by
      rintro rfl
      obtain ⟨x, l, list, _⟩ := a.chain settled
      have empty := labels_remove (T := T) (u := d :: u) (w := d :: u) (c := c) (fun h => by cases h)
      rw [if_pos rfl, labels_cons, none, list] at empty
      cases empty
    rw [kids _ atW] at none
    exact rep.bare d u old properU (keep _ other settled) none
  · intro u d l memU settled list
    obtain ⟨old, other⟩ := (memIff u).mp memU
    rw [labels_remove proper] at list
    rw [a.node u old other]
    by_cases atW : u = w
    · subst atW
      rw [if_pos rfl] at list
      obtain ⟨x, m, list', child, chain⟩ := a.chain settled
      rw [list'] at list
      obtain ⟨rfl, rfl⟩ := List.cons.inj list
      exact ⟨child, chain⟩
    · rw [if_neg atW] at list
      rw [a.child u old other atW]
      exact ⟨(rep.chain u d l old (keep u other settled) list).1,
        rep.chain_away old (keep u other settled) atW a.sibling list⟩
  · intro u memU settled none
    obtain ⟨old, other⟩ := (memIff u).mp memU
    rw [labels_remove proper] at none
    have atW : u ≠ w := by
      rintro rfl
      rw [if_pos rfl] at none
      obtain ⟨x, l, list, _⟩ := a.chain settled
      rw [none] at list
      cases list
    rw [if_neg atW] at none
    rw [a.child u old other atW]
    exact rep.childless u old (keep u other settled) none

structure Moving (t t' : Trie) (T : ByteTree.Tree Int) (loc : Path → Int) (u : Path) (p : UInt8)
    (dest : Int) : Prop where
  fresh : ¬ t.Occ dest
  occ : ∀ i, t'.Occ i ↔ t.Occ i ∨ i = dest
  here : t'.node dest = ⟨(t.node (loc (p :: u))).base, loc u⟩
  child : (t'.ninfo dest).child = (t.ninfo (loc (p :: u))).child
  node : ∀ v, T.Mem v → v ≠ p :: u → (∀ d, v ≠ d :: p :: u) → t'.node (loc v) = t.node (loc v)
  below : ∀ d, T.Mem (d :: p :: u) → t'.node (loc (d :: p :: u)) =
  ⟨(t.node (loc (d :: p :: u))).base, dest⟩
  children : ∀ v, T.Mem v → v ≠ p :: u → (t'.ninfo (loc v)).child = (t.ninfo (loc v)).child
  sibling : ∀ v, T.Mem v → (∀ d, v ≠ d :: u) → (t'.ninfo (loc v)).sibling = (t.ninfo (loc v)).sibling

theorem Moving.base {dest : Int} (a : Moving t t' T loc u p dest) (v : Path) (mem : T.Mem v) :
    (t'.node (Function.update loc (p :: u) dest v)).base = (t.node (loc v)).base := by
  by_cases same : v = p :: u
  · rw [same, Function.update_self, a.here]
  · rw [Function.update_of_ne same]
    by_cases under : ∃ d, v = d :: p :: u
    · obtain ⟨d, rfl⟩ := under
      rw [a.below d mem]
    · rw [a.node v mem same (fun d here => under ⟨d, here⟩)]

theorem Rep.move {dest : Int} (rep : Rep t T loc X NoSpare) (mem : T.Mem (p :: u))
    (repair : X u) (a : Moving t t' T loc u p dest) :
    Rep t' T (Function.update loc (p :: u) dest) X (· = loc (p :: u)) := by
  have here : Function.update loc (p :: u) dest (p :: u) = dest := Function.update_self ..
  have old : ∀ v, v ≠ p :: u → Function.update loc (p :: u) dest v = loc v := fun v hv =>
    Function.update_of_ne hv ..
  have self : ∀ (d : UInt8) (v : Path), v ≠ d :: v := fun d v same => by simp at same
  have base := a.base
  have child : ∀ v, T.Mem v →
      (t'.ninfo (Function.update loc (p :: u) dest v)).child = (t.ninfo (loc v)).child := by
    intro v memV
    by_cases same : v = p :: u
    · rw [same, here, a.child]
    · rw [old v same, a.children v memV same]
  have freshLoc : ∀ v, T.Mem v → loc v ≠ dest := fun v memV same => a.fresh (same ▸ rep.occ_node memV)
  refine ⟨?_, ?_, ?_, ?_, ?_, ?_, ?_, ?_, ?_, ?_, ?_, ?_⟩
  · rw [old [] (by simp), rep.root]
  · have same := a.node [] trivial (by simp) (by simp)
    rw [rep.root] at same
    rw [same, rep.rootNode]
  · intro x y memX memY same
    by_cases hx : x = p :: u <;> by_cases hy : y = p :: u
    · rw [hx, hy]
    · rw [hx, here, old y hy] at same
      exact absurd same.symm (freshLoc y memY)
    · rw [hy, here, old x hx] at same
      exact absurd same (freshLoc x memX)
    · rw [old x hx, old y hy] at same
      exact rep.inj x y memX memY same
  · intro i
    rw [a.occ, rep.occ, or_false]
    constructor
    · rintro (⟨v, memV, rfl⟩ | rfl)
      · by_cases same : v = p :: u
        · exact Or.inr (by rw [same])
        · exact Or.inl ⟨v, memV, old v same⟩
      · exact Or.inl ⟨p :: u, mem, here⟩
    · rintro (⟨v, memV, rfl⟩ | rfl)
      · by_cases same : v = p :: u
        · rw [same, here]; exact Or.inr rfl
        · rw [old v same]; exact Or.inl ⟨v, memV, rfl⟩
      · exact Or.inl ⟨p :: u, mem, rfl⟩
  · rintro i v rfl memV same
    by_cases hv : v = p :: u
    · rw [hv, here] at same
      exact freshLoc _ mem same.symm
    · rw [old v hv] at same
      exact hv (rep.inj v _ memV mem same)
  · intro d v memV
    by_cases atP : d :: v = p :: u
    · obtain ⟨rfl, rfl⟩ := List.cons.inj atP
      rw [here, a.here, old v (self d v)]
    · rw [old _ atP]
      by_cases under : v = p :: u
      · subst under
        rw [a.below d memV, here]
      · rw [old v under, a.node _ memV atP, rep.check d v memV]
        intro e same
        exact under (List.cons.inj same).2
  · intro d v memV settled
    have properV : v ≠ u := fun same => settled (same ▸ repair)
    have atP : d :: v ≠ p :: u := fun same => properV (List.cons.inj same).2
    rw [old _ atP, base v memV.1]
    exact rep.place d v memV settled
  · intro v memV
    rw [base _ memV]
    exact rep.value v memV
  · intro v memV properV some
    rw [base v memV]
    exact rep.high v memV properV some
  · intro d v memV properV settled none
    rw [base _ memV]
    exact rep.bare d v memV properV settled none
  · intro v d l memV settled list
    have away : v ≠ u := fun same => settled (same ▸ repair)
    rw [child v memV, base v memV]
    exact ⟨(rep.chain v d l memV settled list).1,
      rep.chain_away memV settled away (fun y memY other _ => a.sibling y memY other) list⟩
  · intro v memV settled none
    rw [child v memV]
    exact rep.childless v memV settled none

end
end Trie
end EtdbTrie
