import Mathlib.Logic.Function.Basic
import Etdb.Lib.ByteXor

/- The double-array trie of etdb_trie.h: three arrays, three block lists. An array
   is a function of the index together with the length really allocated for it;
   every access is checked and a bad one ends the run with none. etdb_id_t is
   unbounded here. The results of the coming reallocations are a field, so that
   a failing allocation is an input of the model. -/
namespace EtdbTrie

/-- In a free cell `base` is minus the previous and `check` minus the next free
    cell; under label 0 `base` is the union's `value`. -/
structure Node where
  base : Int
  check : Int
  deriving DecidableEq, Repr

structure Ninfo where
  sibling : UInt8
  child : UInt8
  deriving DecidableEq, Repr

structure Block where
  prev : Int
  next : Int
  num : Int
  reject : Int
  trial : Int
  ehead : Int
  deriving DecidableEq, Repr

structure Trie where
  node : Int → Node
  ninfo : Int → Ninfo
  block : Int → Block
  blockHeadFull : Int
  blockHeadClose : Int
  blockHeadOpen : Int
  capacity : Int
  size : Int
  reject : Int → Int
  nodeLen : Int
  ninfoLen : Int
  blockLen : Int
  /-- results of the coming calls of etdb_realloc; past its end they all succeed -/
  reallocs : List Bool

def noPath : Int := -1
def noValue : Int := -2
def maxTrial : Int := 1

def blankNinfo : Ninfo := ⟨0, 0⟩
def freshBlock : Block := ⟨0, 0, 256, 257, 0, 0⟩

namespace Trie

/- An index must lie below size and inside the allocation. -/
def InNode (t : Trie) (i : Int) : Prop := 0 ≤ i ∧ i < t.size ∧ i < t.nodeLen
def InNinfo (t : Trie) (i : Int) : Prop := 0 ≤ i ∧ i < t.size ∧ i < t.ninfoLen
def InBlock (t : Trie) (b : Int) : Prop := 0 ≤ b ∧ b < t.size / 256 ∧ b < t.blockLen

instance (t : Trie) (i : Int) : Decidable (t.InNode i) := inferInstanceAs (Decidable (_ ∧ _ ∧ _))
instance (t : Trie) (i : Int) : Decidable (t.InNinfo i) := inferInstanceAs (Decidable (_ ∧ _ ∧ _))
instance (t : Trie) (b : Int) : Decidable (t.InBlock b) := inferInstanceAs (Decidable (_ ∧ _ ∧ _))

def nodeAt (t : Trie) (i : Int) : Option Node := if t.InNode i then some (t.node i) else none
def ninfoAt (t : Trie) (i : Int) : Option Ninfo := if t.InNinfo i then some (t.ninfo i) else none
def blockAt (t : Trie) (b : Int) : Option Block := if t.InBlock b then some (t.block b) else none

def setNode (t : Trie) (i : Int) (n : Node) : Trie := { t with node := Function.update t.node i n }
def setNinfo (t : Trie) (i : Int) (n : Ninfo) : Trie :=
  { t with ninfo := Function.update t.ninfo i n }
def setBlock (t : Trie) (b : Int) (v : Block) : Trie :=
  { t with block := Function.update t.block b v }

def modifyNode (t : Trie) (i : Int) (f : Node → Node) : Option Trie :=
  (t.nodeAt i).map fun n => t.setNode i (f n)
def modifyNinfo (t : Trie) (i : Int) (f : Ninfo → Ninfo) : Option Trie :=
  (t.ninfoAt i).map fun n => t.setNinfo i (f n)
def modifyBlock (t : Trie) (b : Int) (f : Block → Block) : Option Trie :=
  (t.blockAt b).map fun v => t.setBlock b (f v)

def writeBase (t : Trie) (i v : Int) : Option Trie := t.modifyNode i fun n => { n with base := v }
def writeCheck (t : Trie) (i v : Int) : Option Trie := t.modifyNode i fun n => { n with check := v }
def writeSibling (t : Trie) (i : Int) (c : UInt8) : Option Trie :=
  t.modifyNinfo i fun n => { n with sibling := c }
def writeChild (t : Trie) (i : Int) (c : UInt8) : Option Trie :=
  t.modifyNinfo i fun n => { n with child := c }

/-- The table `reject[257]` of the trie itself, indexed by a count of free cells. -/
def rejectAt (t : Trie) (num : Int) : Option Int :=
  if 0 ≤ num ∧ num ≤ 256 then some (t.reject num) else none

def setReject (t : Trie) (num v : Int) : Trie :=
  { t with reject := Function.update t.reject num v }

def takeRealloc (t : Trie) : Bool × Trie :=
  match t.reallocs with
  | [] => (true, t)
  | r :: rest => (r, { t with reallocs := rest })

/- The three reallocations keep the old contents and clear the new tail; they
   answer 0 and leave the array alone when the allocator fails. -/
def nodeRealloc (t : Trie) (sizeN sizeP : Int) : Bool × Trie :=
  match t.takeRealloc with
  | (false, t) => (false, t)
  | (true, t) => (true, { t with
      node := fun i => if sizeP ≤ i ∧ i < sizeN then ⟨0, 0⟩ else t.node i
      nodeLen := sizeN })

def ninfoRealloc (t : Trie) (sizeN sizeP : Int) : Bool × Trie :=
  match t.takeRealloc with
  | (false, t) => (false, t)
  | (true, t) => (true, { t with
      ninfo := fun i => if sizeP ≤ i ∧ i < sizeN then blankNinfo else t.ninfo i
      ninfoLen := sizeN })

def blockRealloc (t : Trie) (sizeN sizeP : Int) : Bool × Trie :=
  match t.takeRealloc with
  | (false, t) => (false, t)
  | (true, t) => (true, { t with
      block := fun b => if sizeP ≤ b ∧ b < sizeN then freshBlock else t.block b
      blockLen := sizeN })

end Trie

def initNode (i : Int) : Node :=
  if i = 0 then ⟨0, -1⟩
  else if i = 1 then ⟨-255, -(i + 1)⟩
  else if i = 255 then ⟨-(i - 1), -1⟩
  else ⟨-(i - 1), -(i + 1)⟩

/-- etdb_trie_init; none where the source returns -1. -/
def init (reallocs : List Bool) : Option Trie := do
  let zero : Trie := {
    node := fun _ => ⟨0, 0⟩, ninfo := fun _ => blankNinfo, block := fun _ => ⟨0, 0, 0, 0, 0, 0⟩
    blockHeadFull := 0, blockHeadClose := 0, blockHeadOpen := 0, capacity := 0, size := 0
    reject := fun _ => 0, nodeLen := 0, ninfoLen := 0, blockLen := 0, reallocs := reallocs }
  let (ok, t) := zero.nodeRealloc 256 256
  if !ok then none else
  let (ok, t) := t.ninfoRealloc 256 0
  if !ok then none else
  let (ok, t) := t.blockRealloc 1 0
  if !ok then none else
  let t := { t with capacity := 256, size := 256 }
  let t := { t with node := fun i => if 0 ≤ i ∧ i < 256 then initNode i else t.node i }
  let t ← t.modifyBlock 0 fun b => { b with ehead := 1 }
  some { t with reject := fun i => if 0 ≤ i ∧ i ≤ 256 then i + 1 else t.reject i }

/-- One executed statement: the rest runs on its result. -/
theorem bind_run {α β : Type} {x : Option α} {f : α → Option β} {a : α} {r : Option β}
    (first : x = some a) (rest : f a = r) : (x >>= f) = r := by
  rw [first]
  exact rest

namespace Trie
variable {t : Trie} {i j b : Int}

@[simp] theorem nodeAt_inside (h : t.InNode i) : t.nodeAt i = some (t.node i) := if_pos h
@[simp] theorem ninfoAt_inside (h : t.InNinfo i) : t.ninfoAt i = some (t.ninfo i) := if_pos h
@[simp] theorem blockAt_inside (h : t.InBlock b) : t.blockAt b = some (t.block b) := if_pos h

theorem modifyNode_inside {f : Node → Node} (h : t.InNode i) :
    t.modifyNode i f = some (t.setNode i (f (t.node i))) := by simp [modifyNode, h]
theorem modifyNinfo_inside {f : Ninfo → Ninfo} (h : t.InNinfo i) :
    t.modifyNinfo i f = some (t.setNinfo i (f (t.ninfo i))) := by simp [modifyNinfo, h]
theorem modifyBlock_inside {f : Block → Block} (h : t.InBlock b) :
    t.modifyBlock b f = some (t.setBlock b (f (t.block b))) := by simp [modifyBlock, h]

@[simp] theorem writeBase_inside {v : Int} (h : t.InNode i) :
    t.writeBase i v = some (t.setNode i ⟨v, (t.node i).check⟩) := modifyNode_inside h
@[simp] theorem writeCheck_inside {v : Int} (h : t.InNode i) :
    t.writeCheck i v = some (t.setNode i ⟨(t.node i).base, v⟩) := modifyNode_inside h
@[simp] theorem writeSibling_inside {c : UInt8} (h : t.InNinfo i) :
    t.writeSibling i c = some (t.setNinfo i ⟨c, (t.ninfo i).child⟩) := modifyNinfo_inside h
@[simp] theorem writeChild_inside {c : UInt8} (h : t.InNinfo i) :
    t.writeChild i c = some (t.setNinfo i ⟨(t.ninfo i).sibling, c⟩) := modifyNinfo_inside h

end Trie
end EtdbTrie
