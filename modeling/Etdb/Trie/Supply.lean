import Mathlib.Data.Option.Basic
import Etdb.Trie.Longest
import Etdb.Trie.Count

/- What the operations do not look at. Away from etdb_trie_add_block nothing reads the
   capacity or the results of reallocations, and a run is the same whatever these are; the
   operations on cells and blocks do not look at the ninfo array either. -/
namespace EtdbTrie
open ByteXor
namespace Trie

/-- The same trie in front of other results of etdb_realloc, and with another capacity. -/
def arm (t : Trie) (rs : List Bool) (cap : Int) : Trie := { t with reallocs := rs, capacity := cap }

def supply (t : Trie) (rs : List Bool) : Trie := t.arm rs t.capacity

def cutNinfo (t : Trie) (len : Int) : Trie := { t with ninfoLen := len }

structure Transparent (g : Trie → Trie) : Prop where
  nodeAt : ∀ t i, (g t).nodeAt i = t.nodeAt i
  blockAt : ∀ t b, (g t).blockAt b = t.blockAt b
  rejectAt : ∀ t n, (g t).rejectAt n = t.rejectAt n
  head : ∀ t k, (g t).head k = t.head k
  size : ∀ t, (g t).size = t.size
  setNode : ∀ t i n, (g t).setNode i n = g (t.setNode i n)
  setBlock : ∀ t b v, (g t).setBlock b v = g (t.setBlock b v)
  setReject : ∀ t n v, (g t).setReject n v = g (t.setReject n v)
  setHead : ∀ t k v, (g t).setHead k v = g (t.setHead k v)

/-- Only etdb_trie_add_block sees what `g` changes. -/
structure Unseen (g : Trie → Trie) : Prop extends Transparent g where
  ninfoAt : ∀ t i, (g t).ninfoAt i = t.ninfoAt i
  setNinfo : ∀ t i n, (g t).setNinfo i n = g (t.setNinfo i n)

def onTrie (g : Trie → Trie) (x : Option (α × Trie)) : Option (α × Trie) := x.map fun r => (r.1, g r.2)

theorem unseen_arm (rs : List Bool) (cap : Int) : Unseen fun t => t.arm rs cap where
  nodeAt _ _ := rfl
  blockAt _ _ := rfl
  rejectAt _ _ := rfl
  head _ k := by cases k <;> rfl
  size _ := rfl
  setNode _ _ _ := rfl
  setBlock _ _ _ := rfl
  setReject _ _ _ := rfl
  setHead _ k _ := by cases k <;> rfl
  ninfoAt _ _ := rfl
  setNinfo _ _ _ := rfl

theorem transparent_cutNinfo (len : Int) : Transparent fun t => t.cutNinfo len where
  nodeAt _ _ := rfl
  blockAt _ _ := rfl
  rejectAt _ _ := rfl
  head _ k := by cases k <;> rfl
  size _ := rfl
  setNode _ _ _ := rfl
  setBlock _ _ _ := rfl
  setReject _ _ _ := rfl
  setHead _ k _ := by cases k <;> rfl

namespace Transparent
variable {g : Trie → Trie} (c : Transparent g) (t : Trie)
include c

theorem modifyNode (i : Int) (f : Node → Node) : (g t).modifyNode i f = (t.modifyNode i f).map g := by
  simp [Trie.modifyNode, c.nodeAt, c.setNode, Function.comp_def]

theorem modifyBlock (b : Int) (f : Block → Block) :
    (g t).modifyBlock b f = (t.modifyBlock b f).map g := by
  simp [Trie.modifyBlock, c.blockAt, c.setBlock, Function.comp_def]

theorem writeBase (i v : Int) : (g t).writeBase i v = (t.writeBase i v).map g := c.modifyNode t i _

theorem writeCheck (i v : Int) : (g t).writeCheck i v = (t.writeCheck i v).map g := c.modifyNode t i _

theorem popBlock (b : Int) (k : BlockList) (last : Bool) :
    (g t).popBlock b k last = (t.popBlock b k last).map g := by
  cases last <;> simp [Trie.popBlock, c.blockAt, c.setHead, c.modifyBlock, c.head,
    Option.map_bind, Option.bind_map, ← apply_ite g]

theorem pushBlock (b : Int) (k : BlockList) (empty : Bool) :
    (g t).pushBlock b k empty = (t.pushBlock b k empty).map g := by
  cases empty <;> simp [Trie.pushBlock, c.blockAt, c.setHead, c.modifyBlock, c.head,
    Option.map_bind, Option.bind_map]

theorem transferBlock (b : Int) (kIn kOut : BlockList) :
    (g t).transferBlock b kIn kOut = (t.transferBlock b kIn kOut).map g := by
  simp [Trie.transferBlock, c.blockAt, c.head, c.popBlock, c.pushBlock, Option.map_bind, Option.bind_map]

theorem unlinkEmpty (e : Int) : (g t).unlinkEmpty e = (t.unlinkEmpty e).map g := by
  simp [Trie.unlinkEmpty, c.nodeAt, c.blockAt, c.modifyBlock, c.writeBase, c.writeCheck, c.transferBlock,
    Option.map_bind, Option.bind_map, apply_ite (Option.map _)]

theorem takeEmpty (e : Int) (label : UInt8) (origin : Int) :
    (g t).takeEmpty e label origin = (t.takeEmpty e label origin).map g := by
  simp [Trie.takeEmpty, c.unlinkEmpty, c.writeBase, c.writeCheck, Option.map_bind, Option.bind_map]

theorem popEmptyNode {base : Int} (settled : 0 ≤ base) (label : UInt8) (origin : Int) :
    (g t).popEmptyNode base label origin = onTrie g (t.popEmptyNode base label origin) := by
  have notBare : ¬ base < 0 := by omega
  simp [Trie.popEmptyNode, onTrie, notBare, c.takeEmpty, Option.map_bind, Option.bind_map]

theorem probe (base : Int) (labels : List UInt8) : (g t).probe base labels = t.probe base labels := by
  induction labels with
  | nil => rfl
  | cons label rest ih => simp [Trie.probe, c.nodeAt, ih]

theorem searchRing (bi : Int) (first : UInt8) (rest : List UInt8) (fuel : Nat) (e : Int) :
    (g t).searchRing bi first rest fuel e = t.searchRing bi first rest fuel e := by
  induction fuel generalizing e with
  | zero => rfl
  | succ fuel ih => simp [Trie.searchRing, c.probe, c.nodeAt, c.blockAt, ih]

theorem searchBlock (bi : Int) (first : UInt8) (rest : List UInt8) :
    (g t).searchBlock bi first rest = t.searchBlock bi first rest := by
  simp [Trie.searchBlock, c.blockAt, c.searchRing]

theorem rejectBlock (bi nc : Int) : (g t).rejectBlock bi nc = onTrie g (t.rejectBlock bi nc) := by
  simp [Trie.rejectBlock, onTrie, c.blockAt, c.modifyBlock, c.rejectAt, c.setReject, c.transferBlock,
    Option.map_bind, Option.bind_map, apply_ite (Option.map _), ← apply_ite g]

theorem scanOpen (first : UInt8) (rest : List UInt8) (bz : Int) (fuel : Nat) (bi : Int) :
    scanOpen first rest bz fuel bi (g t) = onTrie g (Trie.scanOpen first rest bz fuel bi t) := by
  induction fuel generalizing bi t with
  | zero => rfl
  | succ fuel ih =>
    simp only [Trie.scanOpen, c.searchBlock, c.rejectBlock, c.modifyBlock, onTrie, Option.bind_eq_bind,
      Option.map_bind, Option.bind_map]
    congr 1
    funext found
    cases found with
    | none => simp [apply_ite (Option.map _), ih, onTrie]
    | some e => simp [Option.map_bind]

theorem linkEmpty (e : Int) (b : Block) : (g t).linkEmpty e b = (t.linkEmpty e b).map g := by
  simp [Trie.linkEmpty, c.nodeAt, c.modifyBlock, c.writeBase, c.writeCheck,
    c.transferBlock, Option.map_bind, Option.bind_map, apply_ite (Option.map _)]

end Transparent
namespace Unseen
variable {g : Trie → Trie} (c : Unseen g) (t : Trie)
include c

theorem modifyNinfo (i : Int) (f : Ninfo → Ninfo) :
    (g t).modifyNinfo i f = (t.modifyNinfo i f).map g := by
  simp [Trie.modifyNinfo, c.ninfoAt, c.setNinfo, Function.comp_def]

theorem writeSibling (i : Int) (d : UInt8) : (g t).writeSibling i d = (t.writeSibling i d).map g :=
  c.modifyNinfo t i _

theorem writeChild (i : Int) (d : UInt8) : (g t).writeChild i d = (t.writeChild i d).map g :=
    c.modifyNinfo t i _

theorem pushEmptyNode (e : Int) : (g t).pushEmptyNode e = (t.pushEmptyNode e).map g := by
  simp [Trie.pushEmptyNode, c.blockAt, c.modifyBlock, c.linkEmpty, c.rejectAt,
    c.writeSibling, c.writeChild, Option.map_bind, Option.bind_map, apply_ite (Option.map _)]

theorem pushSibling (origin base : Int) (label : UInt8) (flag : Bool) :
    (g t).pushSibling origin base label flag = (t.pushSibling origin base label flag).map g := by
  simp [Trie.pushSibling, c.ninfoAt, c.writeSibling, c.writeChild, Option.map_bind,
    Option.bind_map, apply_ite (Option.map _)]

theorem popLater (base : Int) (label : UInt8) (fuel : Nat) (d : UInt8) :
    (g t).popLater base label fuel d = (t.popLater base label fuel d).map g := by
  induction fuel generalizing d with
  | zero => rfl
  | succ fuel ih => simp [Trie.popLater, c.ninfoAt, c.writeSibling, Option.map_bind, apply_ite (Option.map _), ih]

theorem popSibling (origin base : Int) (label : UInt8) :
    (g t).popSibling origin base label = (t.popSibling origin base label).map g := by
  simp [Trie.popSibling, c.ninfoAt, c.writeChild, c.popLater, Option.map_bind, apply_ite (Option.map _)]

theorem consult (baseN baseP : Int) (fuel : Nat) (cN cP : UInt8) :
    (g t).consult baseN baseP fuel cN cP = t.consult baseN baseP fuel cN cP := by
  induction fuel generalizing cN cP with
  | zero => rfl
  | succ fuel ih => simp [Trie.consult, c.ninfoAt, ih]

theorem collect (base : Int) (fuel : Nat) (d : UInt8) :
    (g t).collect base fuel d = t.collect base fuel d := by
  induction fuel generalizing d with
  | zero => rfl
  | succ fuel ih => simp [Trie.collect, c.ninfoAt, ih]

theorem setChild (base : Int) (d : UInt8) (label : Option UInt8) :
    (g t).setChild base d label = t.setChild base d label := by
  simp [Trie.setChild, c.ninfoAt, c.collect]

theorem reparent (base dest : Int) (fuel : Nat) (d : UInt8) :
    (g t).reparent base dest fuel d = (t.reparent base dest fuel d).map g := by
  induction fuel generalizing d t with
  | zero => rfl
  | succ fuel ih => simp [Trie.reparent, c.ninfoAt, c.writeCheck, Option.map_bind,
      Option.bind_map, apply_ite (Option.map _), ih]

theorem moveNode (p : UInt8) (dest dest_ : Int) : (g t).moveNode p dest dest_ =
    (t.moveNode p dest dest_).map g := by
  simp [Trie.moveNode, c.nodeAt, c.ninfoAt, c.writeBase, c.writeChild, c.reparent, Option.map_bind,
    Option.bind_map, apply_ite (Option.map _)]

theorem takeOver (dest_ origin : Int) (labelN : UInt8) :
    (g t).takeOver dest_ origin labelN = (t.takeOver dest_ origin labelN).map g := by
  simp [Trie.takeOver, c.pushSibling, c.writeChild, c.writeBase, c.writeCheck,
    Option.map_bind, Option.bind_map]

section
variable {base : Int} (settled : 0 ≤ base)
include settled

theorem resolveRound (flag : Bool) (toPn origin base_ : Int) (labelN p next : UInt8) (fromN : Int) :
    resolveRound flag toPn origin base base_ labelN p next fromN (g t) =
      onTrie g (Trie.resolveRound flag toPn origin base base_ labelN p next fromN t) := by
  simp [Trie.resolveRound, c.popEmptyNode t settled, c.writeSibling, c.moveNode, c.takeOver,
    c.pushEmptyNode, onTrie, Option.map_bind, Option.bind_map, apply_ite (Option.map _)]

theorem resolveLoop (flag : Bool) (toPn origin base_ : Int) (labelN : UInt8) (labels : List UInt8)
    (fromN : Int) : resolveLoop flag toPn origin base base_ labelN labels fromN (g t) =
      onTrie g (Trie.resolveLoop flag toPn origin base base_ labelN labels fromN t) := by
  induction labels generalizing fromN t with
  | nil => rfl
  | cons p rest ih =>
    simp [Trie.resolveLoop, c.resolveRound t settled, ih, onTrie, Option.map_bind,
      Option.bind_map, Function.comp_def]

end

theorem findStep (origin : Int) (label : UInt8) :
    (g t).findStep origin label = t.findStep origin label := by
  simp [Trie.findStep, c.nodeAt]

theorem findAgain (origin : Int) (label : Option UInt8) :
    (g t).findAgain origin label = t.findAgain origin label := by
  cases label <;> simp [Trie.findAgain, c.findStep]

theorem find (origin : Int) (key : List UInt8) : (g t).find origin key = t.find origin key := by
  induction key generalizing origin with
  | nil => simp [Trie.find, c.nodeAt]
  | cons word rest ih => simp only [Trie.find, c.findStep, c.findAgain, ih]

theorem exactMatchSearch (key : List UInt8) : (g t).exactMatchSearch key = t.exactMatchSearch key := by
  simp only [Trie.exactMatchSearch, c.find]

theorem longestStep (origin : Int) (pos : Nat) (best : Best) (label : UInt8) :
    (g t).longestStep origin pos best label = t.longestStep origin pos best label := by
  simp only [Trie.longestStep, c.nodeAt]

theorem longestAgain (origin : Int) (pos : Nat) (best : Best) (label : Option UInt8) :
    (g t).longestAgain origin pos best label = t.longestAgain origin pos best label := by
  cases label <;> simp [Trie.longestAgain, c.longestStep]

theorem longestLoop (origin : Int) (pos : Nat) (best : Best) (key : List UInt8) :
    (g t).longestLoop origin pos best key = t.longestLoop origin pos best key := by
  induction key generalizing origin pos best with
  | nil => rfl
  | cons word rest ih => simp only [Trie.longestLoop, c.longestStep, c.longestAgain, ih]

theorem matchLongestSearch (key : List UInt8) : (g t).matchLongestSearch key = t.matchLongestSearch key :=
  c.longestLoop t 0 0 none key

theorem firstChild (origin : Int) : (g t).firstChild origin = t.firstChild origin := by
  simp only [Trie.firstChild, c.nodeAt, c.ninfoAt]

theorem pathLoop (fuel : Nat) (origin base : Int) (child : UInt8) (stack : List UInt8) :
    (g t).pathLoop fuel origin base child stack = t.pathLoop fuel origin base child stack := by
  induction fuel generalizing origin base child stack with
  | zero => rfl
  | succ fuel ih => simp only [Trie.pathLoop, c.find, c.firstChild, c.ninfoAt, ih]

theorem commonPrefixPathSearch (key : List UInt8) :
    (g t).commonPrefixPathSearch key = t.commonPrefixPathSearch key := by
  simp only [Trie.commonPrefixPathSearch, c.find, c.firstChild, c.pathLoop, c.size]

theorem numKeysFrom (n : Nat) : (g t).numKeysFrom n = t.numKeysFrom n := by
  induction n with
  | zero => rfl
  | succ n ih => simp only [Trie.numKeysFrom, c.nodeAt, ih]

theorem numKeys : (g t).numKeys = t.numKeys := by
  simp only [Trie.numKeys, c.numKeysFrom, c.size]

theorem eraseLoop (fuel : Nat) (origin e : Int) :
    eraseLoop fuel origin e (g t) = (Trie.eraseLoop fuel origin e t).map g := by
  induction fuel generalizing origin e t with
  | zero => rfl
  | succ fuel ih =>
    simp [Trie.eraseLoop, c.nodeAt, c.ninfoAt, c.popSibling, c.pushEmptyNode,
      Option.map_bind, Option.bind_map, apply_ite (Option.map _), ih]

theorem eraseImpl (origin : Int) : (g t).eraseImpl origin = (t.eraseImpl origin).map g := by
  simp [Trie.eraseImpl, c.nodeAt, c.size, c.eraseLoop, Option.map_bind]

theorem erase (key : List UInt8) : (g t).erase key = onTrie g (t.erase key) := by
  simp [Trie.erase, c.eraseImpl, onTrie, c.find, Option.map_bind, Option.bind_map, apply_ite (Option.map _)]

end Unseen
end Trie
end EtdbTrie
