import Mathlib.Data.List.Perm.Subperm
import Etdb.Trie.Blocks

/- Free space: taking a cell out of its block's ring, putting one back, and adding
   a block. The free cells are those with a negative check, cell 0 excepted. -/
namespace EtdbTrie
open CircularRing ByteXor
namespace Trie

/-- The ring that etdb_trie_add_block ties through the cells `s .. s + 255`. -/
def ringNode (s i : Int) : Node :=
  if i = s then ⟨-(s + 255), -(s + 1)⟩
  else if i = s + 255 then ⟨-(s + 254), -s⟩
  else ⟨-(i - 1), -(i + 1)⟩

def linkNodes (t : Trie) (s : Int) : Option Trie :=
  if t.InNode s ∧ t.InNode (s + 255) then
    some { t with node := fun i => if s ≤ i ∧ i < s + 256 then ringNode s i else t.node i }
  else none

/-- The reallocations of etdb_trie_add_block; their answers are not looked at. -/
def growCapacity (t : Trie) : Trie :=
  if t.size = t.capacity then
    let oldCap := t.capacity
    let t := { t with capacity := 2 * t.capacity }
    let t := (t.nodeRealloc t.capacity oldCap).2
    let t := (t.ninfoRealloc t.capacity oldCap).2
    (t.blockRealloc (t.capacity / 256) (oldCap / 256)).2
  else t

/-- The new block of etdb_trie_add_block. The source raises size last; here it is raised
    before the new cells are written, so that they count as inside. -/
def openBlock (t : Trie) : Option (Int × Trie) := do
  let s := t.size
  let t := { t with size := s + 256 }
  let t ← t.modifyBlock (s / 256) fun b => { b with ehead := s }
  let t ← t.linkNodes s
  let t ← t.pushBlock (s / 256) .opened (t.blockHeadOpen = 0)
  some (t.size / 256 - 1, t)

def addBlock (t : Trie) : Option (Int × Trie) := t.growCapacity.openBlock

def findPlace (t : Trie) : Option (Int × Trie) :=
  if t.blockHeadClose ≠ 0 then do
    let b ← t.blockAt t.blockHeadClose
    some (b.ehead, t)
  else if t.blockHeadOpen ≠ 0 then do
    let b ← t.blockAt t.blockHeadOpen
    some (b.ehead, t)
  else do
    let (bi, t) ← t.addBlock
    some (bi * 256, t)

/-- The part of etdb_trie_pop_empty_node that unlinks the cell `e` and moves its
    block between lists. -/
def unlinkEmpty (t : Trie) (e : Int) : Option Trie := do
  let bi := e / 256
  let n ← t.nodeAt e
  let t ← t.modifyBlock bi fun b => { b with num := b.num - 1 }
  let b ← t.blockAt bi
  if b.num = 0 ∧ bi ≠ 0 then t.transferBlock bi .close .full
  else do
    let t ← t.writeCheck (-n.base) n.check
    let n ← t.nodeAt e
    let t ← t.writeBase (-n.check) n.base
    let n ← t.nodeAt e
    let t ← if e = b.ehead then t.modifyBlock bi fun b => { b with ehead := -n.check } else some t
    if bi ≠ 0 ∧ b.num = 1 ∧ b.trial ≠ maxTrial then t.transferBlock bi .opened .close else some t

def takeEmpty (t : Trie) (e : Int) (label : UInt8) (origin : Int) : Option Trie := do
  let t ← t.unlinkEmpty e
  let t ← t.writeBase e (if label ≠ 0 then -1 else 0)
  t.writeCheck e origin

/-- etdb_trie_pop_empty_node; a negative base stands for a parent without children. -/
def popEmptyNode (t : Trie) (base : Int) (label : UInt8) (origin : Int) : Option (Int × Trie) :=
  if base < 0 then do
    let (e, t) ← t.findPlace
    let t ← t.takeEmpty e label origin
    let t ← t.writeBase origin (xorByte e label)
    some (e, t)
  else do
    let t ← t.takeEmpty (xorByte base label) label origin
    some (xorByte base label, t)

/-- The ring half of etdb_trie_push_empty_node; `b` is the block after counting. -/
def linkEmpty (t : Trie) (e : Int) (b : Block) : Option Trie :=
  let bi := e / 256
  if b.num = 1 then do
    let t ← t.modifyBlock bi fun b => { b with ehead := e }
    let t ← t.writeBase e (-e)
    let t ← t.writeCheck e (-e)
    if bi ≠ 0 then t.transferBlock bi .full .close else some t
  else do
    let prev := b.ehead
    let head ← t.nodeAt prev
    let next := -head.check
    let t ← t.writeBase e (-prev)
    let t ← t.writeCheck e (-next)
    let t ← t.writeBase next (-e)
    let t ← t.writeCheck prev (-e)
    let t ← if (b.num = 2 ∨ b.trial = maxTrial) ∧ bi ≠ 0 then t.transferBlock bi .close .opened
      else some t
    t.modifyBlock bi fun b => { b with trial := 0 }

def pushEmptyNode (t : Trie) (e : Int) : Option Trie := do
  let bi := e / 256
  let t ← t.modifyBlock bi fun b => { b with num := b.num + 1 }
  let b ← t.blockAt bi
  let t ← t.linkEmpty e b
  let b ← t.blockAt bi
  let r ← t.rejectAt b.num
  let t ← if b.reject < r then t.modifyBlock bi fun b => { b with reject := r } else some t
  let t ← t.writeSibling e 0
  t.writeChild e 0

def Empty (t : Trie) (i : Int) : Prop := 0 < i ∧ i < t.size ∧ (t.node i).check < 0

abbrev nextFree (t : Trie) (i : Int) : Int := -(t.node i).check
abbrev prevFree (t : Trie) (i : Int) : Int := -(t.node i).base

def kindOf (b : Block) : BlockList :=
  if b.num = 0 then .full else if 2 ≤ b.num ∧ b.trial < maxTrial then .opened else .close

theorem kindOf_congr {b b' : Block} (full : b.num = 0 ↔ b'.num = 0)
    (opened : 2 ≤ b.num ∧ b.trial < maxTrial ↔ 2 ≤ b'.num ∧ b'.trial < maxTrial) :
    kindOf b = kindOf b' := by simp only [kindOf, full, opened]

structure BlockRing (t : Trie) (b : Int) (l : List Int) : Prop where
  ring : IsRing t.nextFree t.prevFree l
  mem : ∀ i, i ∈ l ↔ t.Empty i ∧ i / 256 = b
  ehead : l ≠ [] → (t.block b).ehead ∈ l
  num : (t.block b).num = l.length + (if b = 0 then 1 else 0)

structure Sized (t : Trie) : Prop where
  size : t.size % 256 = 0
  pos : 256 ≤ t.size
  le : t.size ≤ t.capacity
  capacity : t.capacity % 256 = 0
  nodeLen : t.nodeLen = t.capacity
  ninfoLen : t.ninfoLen = t.capacity
  blockLen : t.blockLen = t.capacity / 256
  reallocs : t.reallocs = []

/-- The free space is exact. Block 0 counts cell 0 as free, is on no list, and its
    ehead means nothing once its ring is used up. -/
structure Free (t : Trie) : Prop where
  sized : Sized t
  ring : ∀ b, t.InBlock b → ∃ l, BlockRing t b l
  ehead : ∀ b, t.InBlock b → (t.block b).ehead / 256 = b ∧ 0 < (t.block b).ehead
  trial : ∀ b, t.InBlock b → (t.block b).trial = 0 ∨ (t.block b).trial = 1
  lists : Lists t (fun b => some (kindOf (t.block b)))
  blank : ∀ i, t.Empty i → t.ninfo i = blankNinfo
  freshBlock : ∀ b, t.size / 256 ≤ b → b < t.capacity / 256 → t.block b = freshBlock
  freshNinfo : ∀ i, t.size ≤ i → i < t.capacity → t.ninfo i = blankNinfo

section
variable {t t' : Trie} {e i b : Int}

theorem Sized.inNode (s : Sized t) : t.InNode i ↔ 0 ≤ i ∧ i < t.size := by
  have := s.le; have := s.nodeLen
  simp only [InNode]; omega

theorem Sized.inNinfo (s : Sized t) : t.InNinfo i ↔ 0 ≤ i ∧ i < t.size := by
  have := s.le; have := s.ninfoLen
  simp only [InNinfo]; omega

theorem Sized.inBlock (s : Sized t) : t.InBlock b ↔ 0 ≤ b ∧ b < t.size / 256 := by
  have := s.le; have := s.blockLen
  simp only [InBlock]; omega

theorem Sized.blocks (s : Sized t) : t.size / 256 ≤ t.blockLen := by
  have := s.le; have := s.blockLen
  omega

theorem Sized.block_of_node (s : Sized t) (inside : t.InNode i) : t.InBlock (i / 256) := by
  have := s.inNode.mp inside; have := s.size
  exact s.inBlock.mpr (by omega)

theorem Empty.inNode (s : Sized t) (empty : t.Empty i) : t.InNode i :=
  s.inNode.mpr ⟨by have := empty.1; omega, empty.2.1⟩

theorem block_cells {l : List Int} (nodup : l.Nodup) (block : ∀ i ∈ l, i / 256 = b) :
    l.length ≤ 256 := by
  have images : (l.map fun i => (i % 256).toNat).Nodup := by
    refine List.Nodup.map_on ?_ nodup
    intro x hx y hy same
    have := block x hx; have := block y hy
    omega
  have inside : (l.map fun i => (i % 256).toNat) ⊆ List.range 256 := by
    intro n hn
    obtain ⟨i, _, rfl⟩ := List.mem_map.mp hn
    exact List.mem_range.mpr (by omega)
  simpa using (images.subperm inside).length_le

theorem BlockRing.num_bounds {l : List Int} (r : BlockRing t b l) :
    0 ≤ (t.block b).num ∧ (t.block b).num ≤ 256 := by
  have count := r.num
  split at count
  · rename_i zero
    have nodup : ((0 : Int) :: l).Nodup := by
      refine List.nodup_cons.mpr ⟨fun h => ?_, ring_nodup r.ring⟩
      have := ((r.mem 0).mp h).1.1
      omega
    have := block_cells (b := b) nodup (by
      intro i hi
      rcases List.mem_cons.mp hi with rfl | h
      · omega
      · exact ((r.mem i).mp h).2)
    simp only [List.length_cons] at this
    omega
  · have := block_cells (ring_nodup r.ring) (fun i hi => ((r.mem i).mp hi).2)
    omega

theorem lists_frame {kind kind' : Int → Option BlockList} (lists : Lists t kind)
    (links : ∀ b, t'.nextBlock b = t.nextBlock b ∧ t'.prevBlock b = t.prevBlock b)
    (heads : ∀ k, t'.head k = t.head k) (size : t'.size = t.size)
    (kinds : ∀ b, 0 < b → kind' b = kind b) : Lists t' kind' := by
  intro k
  obtain ⟨l, ok⟩ := lists k
  refine ⟨l, listOk_congr ok (fun b _ => links b) (heads k) ?_⟩
  intro b
  by_cases pos : 0 < b
  · simp [On, size, kinds b pos]
  · simp [On, pos]

theorem blockRing_frame {l : List Int} (r : BlockRing t b l) (size : t'.size = t.size)
    (nodes : ∀ i, i / 256 = b → t'.node i = t.node i) (ehead : (t'.block b).ehead = (t.block b).ehead)
    (num : (t'.block b).num = (t.block b).num) : BlockRing t' b l where
  ring := ring_congr r.ring
    (fun i hi => by rw [nextFree, nodes i ((r.mem i).mp hi).2])
    (fun i hi => by rw [prevFree, nodes i ((r.mem i).mp hi).2])
  mem := by
    intro i
    rw [r.mem i]
    constructor
    · rintro ⟨⟨h1, h2, h3⟩, h4⟩
      exact ⟨⟨h1, by omega, by rw [nodes i h4]; exact h3⟩, h4⟩
    · rintro ⟨⟨h1, h2, h3⟩, h4⟩
      exact ⟨⟨h1, by omega, by rw [← nodes i h4]; exact h3⟩, h4⟩
  ehead := fun h => by rw [ehead]; exact r.ehead h
  num := by rw [num]; exact r.num

/-- What two states of the arrays have in common when only one block changed. -/
structure OneBlock (t t' : Trie) (bi : Int) : Prop where
  size : t'.size = t.size
  capacity : t'.capacity = t.capacity
  nodeLen : t'.nodeLen = t.nodeLen
  ninfoLen : t'.ninfoLen = t.ninfoLen
  blockLen : t'.blockLen = t.blockLen
  reallocs : t'.reallocs = t.reallocs
  node : ∀ i, i / 256 ≠ bi → t'.node i = t.node i
  num : ∀ b, b ≠ bi → (t'.block b).num = (t.block b).num
  trial : ∀ b, b ≠ bi → (t'.block b).trial = (t.block b).trial
  ehead : ∀ b, b ≠ bi → (t'.block b).ehead = (t.block b).ehead
  outside : ∀ b, t.size / 256 ≤ b → t'.block b = t.block b

theorem OneBlock.sized {bi : Int} (c : OneBlock t t' bi) (s : Sized t) : Sized t' where
  size := by rw [c.size]; exact s.size
  pos := by rw [c.size]; exact s.pos
  le := by rw [c.size, c.capacity]; exact s.le
  capacity := by rw [c.capacity]; exact s.capacity
  nodeLen := by rw [c.nodeLen, c.capacity]; exact s.nodeLen
  ninfoLen := by rw [c.ninfoLen, c.capacity]; exact s.ninfoLen
  blockLen := by rw [c.blockLen, c.capacity]; exact s.blockLen
  reallocs := c.reallocs.trans s.reallocs

theorem Free.change {bi : Int} {l : List Int} (free : Free t) (c : OneBlock t t' bi)
    (ring : BlockRing t' bi l) (ehead : (t'.block bi).ehead / 256 = bi ∧ 0 < (t'.block bi).ehead)
    (trial : (t'.block bi).trial = 0 ∨ (t'.block bi).trial = 1)
    (lists : Lists t' (fun b => some (kindOf (t'.block b))))
    (blank : ∀ i, t'.Empty i → t'.ninfo i = blankNinfo)
    (ninfo : ∀ i, t.size ≤ i → t'.ninfo i = t.ninfo i) : Free t' where
  sized := c.sized free.sized
  ring := by
    intro b hb
    by_cases same : b = bi
    · subst same; exact ⟨l, ring⟩
    · have inside : t.InBlock b := by rw [InBlock, ← c.size, ← c.blockLen]; exact hb
      obtain ⟨m, r⟩ := free.ring b inside
      refine ⟨m, blockRing_frame r c.size ?_ (c.ehead b same) (c.num b same)⟩
      intro i hi
      exact c.node i (by omega)
  ehead := by
    intro b hb
    by_cases same : b = bi
    · subst same; exact ehead
    · rw [c.ehead b same]
      exact free.ehead b (by rw [InBlock, ← c.size, ← c.blockLen]; exact hb)
  trial := by
    intro b hb
    by_cases same : b = bi
    · subst same; exact trial
    · rw [c.trial b same]
      exact free.trial b (by rw [InBlock, ← c.size, ← c.blockLen]; exact hb)
  lists := lists
  blank := blank
  freshBlock := by
    intro b h1 h2
    rw [c.size] at h1; rw [c.capacity] at h2
    rw [c.outside b h1]
    exact free.freshBlock b h1 h2
  freshNinfo := by
    intro i h1 h2
    rw [c.size] at h1; rw [c.capacity] at h2
    rw [ninfo i h1]
    exact free.freshNinfo i h1 h2

theorem OneBlock.trans {t'' : Trie} {bi : Int} (h : OneBlock t t' bi) (h' : OneBlock t' t'' bi) :
    OneBlock t t'' bi where
  size := h'.size.trans h.size
  capacity := h'.capacity.trans h.capacity
  nodeLen := h'.nodeLen.trans h.nodeLen
  ninfoLen := h'.ninfoLen.trans h.ninfoLen
  blockLen := h'.blockLen.trans h.blockLen
  reallocs := h'.reallocs.trans h.reallocs
  node := fun i hi => (h'.node i hi).trans (h.node i hi)
  num := fun b hb => (h'.num b hb).trans (h.num b hb)
  trial := fun b hb => (h'.trial b hb).trans (h.trial b hb)
  ehead := fun b hb => (h'.ehead b hb).trans (h.ehead b hb)
  outside := fun b hb => (h'.outside b (by rw [h.size]; exact hb)).trans (h.outside b hb)

theorem oneBlock_node {n : Node} {bi : Int} (block : e / 256 = bi) : OneBlock t (t.setNode e n) bi where
  size := rfl
  capacity := rfl
  nodeLen := rfl
  ninfoLen := rfl
  blockLen := rfl
  reallocs := rfl
  node := by
    intro i hi
    have distinct : i ≠ e := by rintro rfl; exact hi block
    simp [setNode, distinct]
  num := fun _ _ => rfl
  trial := fun _ _ => rfl
  ehead := fun _ _ => rfl
  outside := fun _ _ => rfl

theorem oneBlock_block {v : Block} (inside : t.InBlock b) : OneBlock t (t.setBlock b v) b where
  size := rfl
  capacity := rfl
  nodeLen := rfl
  ninfoLen := rfl
  blockLen := rfl
  reallocs := rfl
  node := fun _ _ => rfl
  num := fun c hc => by simp [setBlock, hc]
  trial := fun c hc => by simp [setBlock, hc]
  ehead := fun c hc => by simp [setBlock, hc]
  outside := by
    intro c hc
    have distinct : c ≠ b := by have := inside.2.1; omega
    simp [setBlock, distinct]

theorem Relinked.oneBlock (h : Relinked t t') (bi : Int) : OneBlock t t' bi where
  size := h.size
  capacity := h.capacity
  nodeLen := h.nodeLen
  ninfoLen := h.ninfoLen
  blockLen := h.blockLen
  reallocs := h.reallocs
  node := fun i _ => by rw [h.node]
  num := fun b _ => h.num b
  trial := fun b _ => h.trial b
  ehead := fun b _ => h.ehead b
  outside := h.outside

theorem OneBlock.inNode {bi : Int} (c : OneBlock t t' bi) : t'.InNode i ↔ t.InNode i := by
  simp [InNode, c.size, c.nodeLen]

theorem OneBlock.inNinfo {bi : Int} (c : OneBlock t t' bi) : t'.InNinfo i ↔ t.InNinfo i := by
  simp [InNinfo, c.size, c.ninfoLen]

theorem OneBlock.inBlock {bi : Int} (c : OneBlock t t' bi) : t'.InBlock b ↔ t.InBlock b := by
  simp [InBlock, c.size, c.blockLen]

theorem lists_setBlock {kind : Int → Option BlockList} {v : Block} (lists : Lists t kind)
    (next : v.next = (t.block b).next) (prev : v.prev = (t.block b).prev) :
    Lists (t.setBlock b v) kind := by
  refine lists_frame lists ?_ (fun k => by simp) rfl (fun _ _ => rfl)
  intro c
  by_cases same : c = b <;> simp [nextBlock, prevBlock, setBlock, same, next, prev]

theorem lists_setNode {kind : Int → Option BlockList} {n : Node} (lists : Lists t kind) :
    Lists (t.setNode e n) kind :=
  lists_frame lists (fun _ => ⟨rfl, rfl⟩) (fun k => by cases k <;> rfl) rfl (fun _ _ => rfl)

/-- The kinds of the listed blocks after a transfer are those read off the blocks. -/
theorem lists_moved {bi : Int} {k : BlockList} {old : Int → Block}
    (lists : Lists t (Function.update (fun b => some (kindOf (old b))) bi (some k)))
    (here : kindOf (t.block bi) = k)
    (others : ∀ b, b ≠ bi → (t.block b).num = (old b).num ∧ (t.block b).trial = (old b).trial) :
    Lists t (fun b => some (kindOf (t.block b))) := by
  refine lists_frame lists (fun _ => ⟨rfl, rfl⟩) (fun _ => rfl) rfl ?_
  intro b _
  by_cases same : b = bi
  · subst same; simp [here]
  · simp [same, kindOf, others b same]

/-- What a cell holds after it was taken out of the ring is up to the caller. -/
structure Unlinked (t t' : Trie) (e : Int) : Prop where
  change : OneBlock t t' (e / 256)
  ninfo : t'.ninfo = t.ninfo
  occupied : ∀ i, ¬ t.Empty i → t'.node i = t.node i
  empty : ∀ i, t.Empty i → i ≠ e → (t'.node i).check < 0

theorem Unlinked.empty_iff {n : Node} (u : Unlinked t t' e) (taken : 0 ≤ n.check) :
    (t'.setNode e n).Empty i ↔ t.Empty i ∧ i ≠ e := by
  by_cases same : i = e
  · subst same
    have full : ¬ (t'.setNode i n).Empty i := by
      rintro ⟨_, _, h⟩
      simp only [setNode, Function.update_self] at h
      omega
    simp [full]
  · have cell : (t'.setNode e n).node i = t'.node i := by simp [setNode, same]
    have size : (t'.setNode e n).size = t.size := u.change.size
    constructor
    · rintro ⟨h1, h2, h3⟩
      refine ⟨?_, same⟩
      by_contra full
      rw [cell, u.occupied i full] at h3
      exact full ⟨h1, by omega, h3⟩
    · rintro ⟨h, _⟩
      exact ⟨h.1, by have := h.2.1; omega, by rw [cell]; exact u.empty i h same⟩

def bridged (t : Trie) (e : Int) : Trie :=
  let t1 := t.setNode (t.prevFree e) ⟨(t.node (t.prevFree e)).base, (t.node e).check⟩
  t1.setNode (t.nextFree e) ⟨(t.node e).base, (t1.node (t.nextFree e)).check⟩

theorem bridged_node (t : Trie) (e i : Int) : (t.bridged e).node i =
    ⟨if i = t.nextFree e then (t.node e).base else (t.node i).base,
      if i = t.prevFree e then (t.node e).check else (t.node i).check⟩ := by
  simp only [bridged, setNode, Function.update_apply]
  split_ifs <;> simp_all

theorem bridged_ring {l : List Int} {n : Node} (ring : IsRing t.nextFree t.prevFree l)
    (member : e ∈ l) : ∃ m, IsRing ((t.bridged e).setNode e n).nextFree
      ((t.bridged e).setNode e n).prevFree m ∧ (e :: m).Perm l := by
  by_cases single : t.nextFree e = e
  · have alone := (alone_iff ring member).mp single
    exact ⟨[], trivial, by rw [alone]⟩
  · have others : ∀ u, u ≠ e → ((t.bridged e).setNode e n).node u = (t.bridged e).node u :=
      fun u hu => by simp [setNode, hu]
    have prevOther : t.prevFree e ≠ e := by
      intro same
      have back := next_prev ring member
      rw [same] at back
      exact single back
    apply unlink _ _ ring member single
    · rw [nextFree, others _ prevOther, bridged_node, if_pos rfl]
    · rw [prevFree, others _ single, bridged_node, if_pos rfl]
    · intro u _ hu hp
      rw [nextFree, others u hu, bridged_node, if_neg hp]
    · intro u _ hu hn
      rw [prevFree, others u hu, bridged_node, if_neg hn]

/-- A block on its last free cell is on Close; the cell goes and the block is Full. -/
theorem unlink_last (free : Free t) (empty : t.Empty e) (last : (t.block (e / 256)).num = 1)
    (listed : e / 256 ≠ 0) :
    ∃ t', t.unlinkEmpty e = some t' ∧ Unlinked t t' e ∧
      ∀ n : Node, 0 ≤ n.check → Free (t'.setNode e n) := by
  have hn := empty.inNode free.sized
  have hb := free.sized.block_of_node hn
  have pos : 0 < e / 256 := by have := empty.1; omega
  obtain ⟨l, r⟩ := free.ring _ hb
  let b1 : Block := { t.block (e / 256) with num := (t.block (e / 256)).num - 1 }
  let t1 := t.setBlock (e / 256) b1
  have read1 : t1.block (e / 256) = b1 := by simp [t1, setBlock]
  have zero : b1.num = 0 := by simp [b1, last]
  have c1 : OneBlock t t1 (e / 256) := oneBlock_block hb
  have lists1 : Lists t1 (fun b => some (kindOf (t.block b))) := lists_setBlock free.lists rfl rfl
  have on : On t1 (fun b => some (kindOf (t.block b))) .close (e / 256) :=
    ⟨pos, (free.sized.inBlock.mp hb).2, by simp [kindOf, last]⟩
  obtain ⟨t2, run, relinked, lists2⟩ := transferBlock_lists .full (c1.sized free.sized).blocks
    lists1 on (by rw [read1]; simp [zero])
  have change : OneBlock t t2 (e / 256) := c1.trans (relinked.oneBlock _)
  have unlinked : Unlinked t t2 e := by
    refine ⟨change, relinked.ninfo, fun i _ => by rw [relinked.node]; rfl, ?_⟩
    intro i h _
    rw [relinked.node]; exact h.2.2
  refine ⟨t2, ?_, unlinked, ?_⟩
  · refine bind_run (nodeAt_inside hn) ?_
    refine bind_run (a := t1) (modifyBlock_inside hb) ?_
    refine bind_run (blockAt_inside (c1.inBlock.mpr hb)) ?_
    rw [read1, if_pos ⟨zero, listed⟩]
    exact run
  · intro n taken
    have lone : l.length = 1 := by
      have := r.num
      rw [last, if_neg listed] at this
      omega
    have full2 : (t2.block (e / 256)).num = 0 := by rw [relinked.num, read1, zero]
    refine free.change (l := []) (change.trans (oneBlock_node rfl)) ?_ ?_ ?_ ?_ ?_ ?_
    · refine ⟨trivial, ?_, fun h => absurd rfl h, by simp [setNode, full2, listed]⟩
      intro i
      rw [unlinked.empty_iff taken]
      simp only [List.not_mem_nil, false_iff, not_and]
      rintro ⟨h, other⟩ same
      have h1 := (r.mem i).mpr ⟨h, same⟩
      have h2 := (r.mem e).mpr ⟨empty, rfl⟩
      obtain ⟨x, rfl⟩ := List.length_eq_one_iff.mp lone
      simp only [List.mem_singleton] at h1 h2
      exact other (h1.trans h2.symm)
    · have := free.ehead _ hb
      rw [← c1.inBlock] at hb
      simpa [setNode, relinked.ehead, t1, setBlock] using this
    · have := free.trial _ hb
      simpa [setNode, relinked.trial, t1, setBlock] using this
    · refine lists_setNode (lists_moved lists2 (by simp [kindOf, full2]) ?_)
      intro b hb'
      exact ⟨change.num b hb', change.trial b hb'⟩
    · intro i h
      rw [setNode, relinked.ninfo]
      exact free.blank i ((unlinked.empty_iff taken).mp h).1
    · intro i _
      rw [setNode, relinked.ninfo]; rfl

/-- The block of `e` with one cell less, entered elsewhere where it was entered at `e`. -/
def lessBlock (t : Trie) (e : Int) : Block :=
  let b := { t.block (e / 256) with num := (t.block (e / 256)).num - 1 }
  if e = b.ehead then { b with ehead := t.nextFree e } else b

/-- The trie before the block may change its list. -/
def joined (t : Trie) (e : Int) : Trie :=
  ((t.setBlock (e / 256) { t.block (e / 256) with num := (t.block (e / 256)).num - 1 }).bridged
    e).setBlock (e / 256) (t.lessBlock e)

theorem lessBlock_num (t : Trie) (e : Int) :
    (t.lessBlock e).num = (t.block (e / 256)).num - 1 := by
  simp only [lessBlock]
  split <;> rfl

theorem lessBlock_trial (t : Trie) (e : Int) :
    (t.lessBlock e).trial = (t.block (e / 256)).trial := by
  simp only [lessBlock]
  split <;> rfl

theorem joined_block (t : Trie) (e : Int) : (t.joined e).block (e / 256) = t.lessBlock e := by
  simp [joined, setBlock]

theorem joined_node (t : Trie) (e i : Int) : (t.joined e).node i = (t.bridged e).node i :=
  (bridged_node (t.setBlock (e / 256) _) e i).trans (bridged_node t e i).symm

theorem Free.neighbours (free : Free t) (empty : t.Empty e) :
    (t.Empty (t.nextFree e) ∧ t.nextFree e / 256 = e / 256) ∧
      t.Empty (t.prevFree e) ∧ t.prevFree e / 256 = e / 256 := by
  obtain ⟨l, r⟩ := free.ring _ (free.sized.block_of_node (empty.inNode free.sized))
  have member : e ∈ l := (r.mem e).mpr ⟨empty, rfl⟩
  exact ⟨(r.mem _).mp (next_member r.ring member), (r.mem _).mp (prev_member r.ring member)⟩

theorem joined_oneBlock (free : Free t) (empty : t.Empty e) :
    OneBlock t (t.joined e) (e / 256) := by
  have hb := free.sized.block_of_node (empty.inNode free.sized)
  obtain ⟨next, prev⟩ := free.neighbours empty
  have counted : OneBlock t (t.setBlock (e / 256) { t.block (e / 256) with
      num := (t.block (e / 256)).num - 1 }) (e / 256) := oneBlock_block hb
  have bridged : OneBlock t ((t.setBlock (e / 256) { t.block (e / 256) with
      num := (t.block (e / 256)).num - 1 }).bridged e) (e / 256) :=
    (counted.trans (oneBlock_node prev.2)).trans (oneBlock_node next.2)
  exact bridged.trans (oneBlock_block (bridged.inBlock.mpr hb))

theorem joined_lists (free : Free t) (e : Int) :
    Lists (t.joined e) (fun b => some (kindOf (t.block b))) := by
  have read : ((t.setBlock (e / 256) { t.block (e / 256) with
      num := (t.block (e / 256)).num - 1 }).bridged e).block (e / 256) =
      { t.block (e / 256) with num := (t.block (e / 256)).num - 1 } := by
    simp [bridged, setNode, setBlock]
  apply lists_setBlock
  · exact lists_setNode (lists_setNode (lists_setBlock free.lists rfl rfl))
  · rw [read]
    simp only [lessBlock]
    split <;> rfl
  · rw [read]
    simp only [lessBlock]
    split <;> rfl

theorem joined_run (free : Free t) (empty : t.Empty e)
    (more : ¬ ((t.block (e / 256)).num = 1 ∧ e / 256 ≠ 0)) :
    t.unlinkEmpty e = if e / 256 ≠ 0 ∧ (t.block (e / 256)).num - 1 = 1 ∧
        (t.block (e / 256)).trial ≠ maxTrial
      then (t.joined e).transferBlock (e / 256) .opened .close else some (t.joined e) := by
  have hn := empty.inNode free.sized
  have hb := free.sized.block_of_node hn
  obtain ⟨l, r⟩ := free.ring _ hb
  have member : e ∈ l := (r.mem e).mpr ⟨empty, rfl⟩
  obtain ⟨nextEmpty, prevEmpty⟩ := free.neighbours empty
  have nextOther : t.nextFree e ≠ e → t.prevFree e ≠ e := by
    intro h same
    have back := next_prev r.ring member
    rw [same] at back
    exact h back
  let b1 : Block := { t.block (e / 256) with num := (t.block (e / 256)).num - 1 }
  let t1 := t.setBlock (e / 256) b1
  let t2 := t1.setNode (t.prevFree e) ⟨(t.node (t.prevFree e)).base, (t.node e).check⟩
  let t3 := t1.bridged e
  have c1 : OneBlock t t1 (e / 256) := oneBlock_block hb
  have c2 : OneBlock t t2 (e / 256) := c1.trans (oneBlock_node prevEmpty.2)
  have c3 : OneBlock t t3 (e / 256) := c2.trans (oneBlock_node nextEmpty.2)
  have read1 : t1.block (e / 256) = b1 := by simp [t1, setBlock]
  have read3 : t3.block (e / 256) = b1 := by simp [t3, bridged, setNode, t1, setBlock]
  have cell2 : t2.node e = t.node e := by
    by_cases single : t.prevFree e = e
    · simp [t2, setNode, single]
    · simp [t2, setNode, Ne.symm single, t1, setBlock]
  have cell3 : t3.node e = t.node e := by
    simp only [t3, bridged_node, t1, setBlock]
    by_cases single : t.nextFree e = e
    · simp [single]
    · simp [Ne.symm single, Ne.symm (nextOther single)]
  have go : ¬ (b1.num = 0 ∧ e / 256 ≠ 0) := by
    rintro ⟨h1, h2⟩
    exact more ⟨by simp only [b1] at h1; omega, h2⟩
  refine bind_run (nodeAt_inside hn) ?_
  refine bind_run (a := t1) (modifyBlock_inside hb) ?_
  refine bind_run (blockAt_inside (c1.inBlock.mpr hb)) ?_
  rw [read1, if_neg go]
  refine bind_run (a := t2) (writeCheck_inside (c1.inNode.mpr (prevEmpty.1.inNode free.sized))) ?_
  refine bind_run (nodeAt_inside (c2.inNode.mpr hn)) ?_
  rw [cell2]
  refine bind_run (a := t3) (writeBase_inside (c2.inNode.mpr (nextEmpty.1.inNode free.sized))) ?_
  refine bind_run (nodeAt_inside (c3.inNode.mpr hn)) ?_
  rw [cell3]
  by_cases first : e = b1.ehead
  · rw [if_pos first]
    refine bind_run (a := t.joined e) ?_ rfl
    rw [modifyBlock_inside (c3.inBlock.mpr hb), read3]
    simp only [joined, lessBlock]
    rw [if_pos first]
  · rw [if_neg first]
    have same : t.joined e = t3 := by
      simp only [joined, lessBlock]
      rw [if_neg first]
      change t3.setBlock (e / 256) b1 = t3
      rw [← read3]
      simp [setBlock]
    rw [same]
    rfl

theorem joined_unlinked {t5 : Trie} (free : Free t) (empty : t.Empty e)
    (relinked : Relinked (t.joined e) t5) : Unlinked t t5 e := by
  obtain ⟨nextEmpty, prevEmpty⟩ := free.neighbours empty
  have cells : ∀ i, t5.node i = (t.bridged e).node i := by
    intro i
    rw [relinked.node]
    exact joined_node t e i
  refine ⟨(joined_oneBlock free empty).trans (relinked.oneBlock _), relinked.ninfo, ?_, ?_⟩
  · intro i full
    have h1 : i ≠ t.nextFree e := fun h => full (h ▸ nextEmpty.1)
    have h2 : i ≠ t.prevFree e := fun h => full (h ▸ prevEmpty.1)
    rw [cells, bridged_node, if_neg h1, if_neg h2]
  · intro i h _
    rw [cells, bridged_node]
    dsimp only
    split
    · exact empty.2.2
    · exact h.2.2

theorem joined_ring {t5 : Trie} {n : Node} (free : Free t) (empty : t.Empty e)
    (relinked : Relinked (t.joined e) t5) (taken : 0 ≤ n.check) :
    ∃ m, BlockRing (t5.setNode e n) (e / 256) m := by
  obtain ⟨l, r⟩ := free.ring _ (free.sized.block_of_node (empty.inNode free.sized))
  have member : e ∈ l := (r.mem e).mpr ⟨empty, rfl⟩
  have cells : ∀ i, t5.node i = (t.bridged e).node i := by
    intro i
    rw [relinked.node]
    exact joined_node t e i
  obtain ⟨m, ring, perm⟩ := bridged_ring (n := n) r.ring member
  have eOut : e ∉ m := (List.nodup_cons.mp (perm.nodup_iff.mpr (ring_nodup r.ring))).1
  have members : ∀ i, i ∈ m ↔ i ∈ l ∧ i ≠ e := by
    intro i
    rw [← perm.mem_iff]
    by_cases same : i = e <;> simp [same, eOut]
  refine ⟨m, ?_, ?_, ?_, ?_⟩
  · refine ring_congr ring (fun i _ => ?_) (fun i _ => ?_) <;>
      simp only [nextFree, prevFree, setNode, Function.update_apply, cells]
  · intro i
    rw [(joined_unlinked free empty relinked).empty_iff taken, members, r.mem i]
    tauto
  · intro some
    rw [setNode, relinked.ehead, joined_block]
    simp only [lessBlock]
    by_cases first : e = (t.block (e / 256)).ehead
    · rw [if_pos first]
      refine (members _).mpr ⟨next_member r.ring member, fun single => some ?_⟩
      have alone := (alone_iff r.ring member).mp single
      apply List.eq_nil_iff_forall_not_mem.mpr
      intro i hi
      have := (members i).mp hi
      rw [alone] at this
      exact this.2 (by simpa using this.1)
    · rw [if_neg first]
      exact (members _).mpr ⟨r.ehead (List.ne_nil_of_mem member), fun h => first h.symm⟩
  · have count := r.num
    have length : m.length + 1 = l.length := by simpa using perm.length_eq
    rw [setNode, relinked.num, joined_block, lessBlock_num]
    omega

theorem joined_free {t5 : Trie} {n : Node} (free : Free t) (empty : t.Empty e)
    (relinked : Relinked (t.joined e) t5) (lists : Lists t5 (fun b => some (kindOf (t5.block b))))
    (taken : 0 ≤ n.check) : Free (t5.setNode e n) := by
  have hb := free.sized.block_of_node (empty.inNode free.sized)
  have unlinked := joined_unlinked free empty relinked
  obtain ⟨m, ring⟩ := joined_ring free empty relinked taken
  refine free.change (l := m) (unlinked.change.trans (oneBlock_node rfl)) ring ?_ ?_ ?_ ?_ ?_
  · rw [setNode, relinked.ehead, joined_block]
    simp only [lessBlock]
    split
    · have next := (free.neighbours empty).1
      exact ⟨next.2, next.1.1⟩
    · exact free.ehead _ hb
  · rw [setNode, relinked.trial, joined_block, lessBlock_trial]
    exact free.trial _ hb
  · exact lists_setNode lists
  · intro i h
    rw [setNode, relinked.ninfo]
    exact free.blank i ((unlinked.empty_iff taken).mp h).1
  · intro i _
    rw [setNode, relinked.ninfo]
    rfl

theorem unlink_more (free : Free t) (empty : t.Empty e)
    (more : ¬ ((t.block (e / 256)).num = 1 ∧ e / 256 ≠ 0)) :
    ∃ t', t.unlinkEmpty e = some t' ∧ Unlinked t t' e ∧
      ∀ n : Node, 0 ≤ n.check → Free (t'.setNode e n) := by
  have hb := free.sized.block_of_node (empty.inNode free.sized)
  obtain ⟨l, r⟩ := free.ring _ hb
  have member : e ∈ l := (r.mem e).mpr ⟨empty, rfl⟩
  have change := joined_oneBlock free empty
  have others : ∀ b, b ≠ e / 256 → ((t.joined e).block b).num = (t.block b).num ∧
      ((t.joined e).block b).trial = (t.block b).trial :=
    fun b hb' => ⟨change.num b hb', change.trial b hb'⟩
  have block4 := joined_block t e
  have num4 := lessBlock_num t e
  have trial4 := lessBlock_trial t e
  have trials := free.trial _ hb
  rw [joined_run free empty more]
  by_cases move : e / 256 ≠ 0 ∧ (t.block (e / 256)).num - 1 = 1 ∧
      (t.block (e / 256)).trial ≠ maxTrial
  · rw [if_pos move]
    have two : (t.block (e / 256)).num = 2 := by have := move.2.1; omega
    have fresh : (t.block (e / 256)).trial = 0 := trials.resolve_right move.2.2
    have on : On (t.joined e) (fun b => some (kindOf (t.block b))) .opened (e / 256) := by
      refine ⟨by have := empty.1; omega, ?_, by simp [kindOf, two, fresh, maxTrial]⟩
      rw [change.size]
      exact (free.sized.inBlock.mp hb).2
    obtain ⟨t5, run, relinked, lists5⟩ := transferBlock_lists .close (change.sized free.sized).blocks
      (joined_lists free e) on (by rw [block4, num4, two]; simp)
    have lists := lists_moved lists5
      (by simp [kindOf, relinked.num, relinked.trial, block4, num4, two]) (fun b hb' => by
        rw [relinked.num, relinked.trial]; exact others b hb')
    exact ⟨t5, run, joined_unlinked free empty relinked,
      fun n => joined_free free empty relinked lists⟩
  · rw [if_neg move]
    refine ⟨_, rfl, joined_unlinked free empty (Relinked.refl _),
      fun n => joined_free free empty (Relinked.refl _) ?_⟩
    refine lists_frame (joined_lists free e) (fun _ => ⟨rfl, rfl⟩) (fun _ => rfl) rfl ?_
    intro b pos
    by_cases same : b = e / 256
    · subst same
      have listed : e / 256 ≠ 0 := by omega
      have notLast : (t.block (e / 256)).num ≠ 1 := fun h => more ⟨h, listed⟩
      have zero : (t.block (e / 256)).num ≠ 0 := by
        have := r.num
        have := List.length_pos_of_mem member
        omega
      rw [block4]
      refine congrArg some (kindOf_congr ?_ ?_)
      · rw [num4]; omega
      · simp only [maxTrial, ne_eq, not_and, not_not] at move
        simp only [num4, trial4, maxTrial]
        have := move listed
        omega
    · rw [kindOf, kindOf, (others b same).1, (others b same).2]

theorem unlinkEmpty_spec (free : Free t) (empty : t.Empty e) :
    ∃ t', t.unlinkEmpty e = some t' ∧ Unlinked t t' e ∧
      ∀ n : Node, 0 ≤ n.check → Free (t'.setNode e n) := by
  by_cases last : (t.block (e / 256)).num = 1 ∧ e / 256 ≠ 0
  · exact unlink_last free empty last.1 last.2
  · exact unlink_more free empty last

structure Freed (t t' : Trie) (e : Int) : Prop where
  change : OneBlock t t' (e / 256)
  ninfo : t'.ninfo = Function.update t.ninfo e blankNinfo
  occupied : ∀ i, ¬ t.Empty i → i ≠ e → t'.node i = t.node i
  empty_iff : ∀ i, t'.Empty i ↔ t.Empty i ∨ i = e

/-- The state between linking the cell and clearing its ninfo. -/
structure Linking (t t' : Trie) (e : Int) : Prop where
  change : OneBlock t t' (e / 256)
  ninfo : t'.ninfo = t.ninfo
  occupied : ∀ i, ¬ t.Empty i → i ≠ e → t'.node i = t.node i
  empty_iff : ∀ i, t'.Empty i ↔ t.Empty i ∨ i = e
  ring : ∃ l, BlockRing t' (e / 256) l
  ehead : (t'.block (e / 256)).ehead / 256 = e / 256 ∧ 0 < (t'.block (e / 256)).ehead
  trial : (t'.block (e / 256)).trial = 0 ∨ (t'.block (e / 256)).trial = 1
  lists : Lists t' (fun b => some (kindOf (t'.block b)))

theorem link_first (free : Free t) (inside : 0 < e ∧ e < t.size)
    (full : (t.block (e / 256)).num = 0) :
    ∃ t', (t.setBlock (e / 256) { t.block (e / 256) with num := (t.block (e / 256)).num + 1 }).linkEmpty
      e { t.block (e / 256) with num := (t.block (e / 256)).num + 1 } = some t' ∧ Linking t t' e := by
  have hn : t.InNode e := free.sized.inNode.mpr ⟨by omega, inside.2⟩
  have hb := free.sized.block_of_node hn
  obtain ⟨l, r⟩ := free.ring _ hb
  have listed : e / 256 ≠ 0 := by
    intro zero
    have := r.num
    rw [full, if_pos zero] at this
    omega
  have none : l = [] := by
    have := r.num
    rw [full, if_neg listed] at this
    exact List.eq_nil_of_length_eq_zero (by omega)
  let b1 : Block := { t.block (e / 256) with num := (t.block (e / 256)).num + 1 }
  let t1 := t.setBlock (e / 256) b1
  let t2 := t1.setBlock (e / 256) { b1 with ehead := e }
  let t3 := t2.setNode e ⟨-e, (t2.node e).check⟩
  let t4 := t3.setNode e ⟨-e, -e⟩
  have c1 : OneBlock t t1 (e / 256) := oneBlock_block hb
  have c2 := c1.trans (oneBlock_block (v := { b1 with ehead := e }) (c1.inBlock.mpr hb))
  have c3 : OneBlock t t3 (e / 256) := c2.trans (oneBlock_node rfl)
  have c4 : OneBlock t t4 (e / 256) := c3.trans (oneBlock_node rfl)
  have block4 : t4.block (e / 256) = { b1 with ehead := e } := by simp [t4, t3, t2, setNode, setBlock]
  have lists4 : Lists t4 (fun b => some (kindOf (t.block b))) := by
    refine lists_setNode (lists_setNode (lists_setBlock (lists_setBlock free.lists rfl rfl) ?_ ?_)) <;>
      simp [t1, b1, setBlock]
  have on : On t4 (fun b => some (kindOf (t.block b))) .full (e / 256) := by
    refine ⟨by omega, ?_, by simp [kindOf, full]⟩
    rw [c4.size]
    exact (free.sized.inBlock.mp hb).2
  obtain ⟨t5, run, relinked, lists5⟩ := transferBlock_lists .close (c4.sized free.sized).blocks
    lists4 on (by rw [block4]; simp [b1, full])
  have change : OneBlock t t5 (e / 256) := c4.trans (relinked.oneBlock _)
  have cell : t5.node e = ⟨-e, -e⟩ := by rw [relinked.node]; simp [t4, setNode]
  have cells : ∀ i, i ≠ e → t5.node i = t.node i := by
    intro i hi
    rw [relinked.node]
    simp [t4, t3, t2, t1, setNode, setBlock, hi]
  have emptyIff : ∀ i, t5.Empty i ↔ t.Empty i ∨ i = e := by
    intro i
    by_cases same : i = e
    · subst same
      simp only [Empty, change.size, cell, or_true, iff_true]
      omega
    · simp only [Empty, change.size, cells i same, same, or_false]
  refine ⟨t5, ?_, change, relinked.ninfo, fun i _ hi => cells i hi, emptyIff, ⟨[e], ?_⟩, ?_, ?_, ?_⟩
  · simp only [linkEmpty]
    rw [if_pos (by simp [full])]
    refine bind_run (a := t2) ?_ ?_
    · rw [modifyBlock_inside (c1.inBlock.mpr hb)]
      simp [t2, t1, b1, setBlock]
    refine bind_run (a := t3) (writeBase_inside (c2.inNode.mpr hn)) ?_
    refine bind_run (a := t4) (writeCheck_inside (c3.inNode.mpr hn) |>.trans ?_) ?_
    · simp [t4, t3, setNode]
    rw [if_pos listed]
    exact run
  · refine ⟨ring_single.mpr (by simp [nextFree, prevFree, cell]), ?_, ?_, ?_⟩
    · intro i
      rw [emptyIff, List.mem_singleton]
      constructor
      · rintro rfl; exact ⟨Or.inr rfl, rfl⟩
      · rintro ⟨h | h, block⟩
        · have := (r.mem i).mpr ⟨h, block⟩
          rw [none] at this
          cases this
        · exact h
    · intro _; rw [relinked.ehead, block4]; simp
    · rw [relinked.num, block4]; simp [b1, full, listed]
  · rw [relinked.ehead, block4]; exact ⟨rfl, inside.1⟩
  · rw [relinked.trial, block4]; exact free.trial _ hb
  · refine lists_moved lists5 (by simp [kindOf, relinked.num, block4, b1, full]) ?_
    intro b hb'
    exact ⟨change.num b hb', change.trial b hb'⟩

def moreBlock (t : Trie) (e : Int) : Block :=
  { t.block (e / 256) with num := (t.block (e / 256)).num + 1 }

/-- The trie with `e` linked behind the entry of its block, before the block may change its list. -/
def inserted (t : Trie) (e : Int) : Trie :=
  let prev := (t.block (e / 256)).ehead
  let next := t.nextFree prev
  let t3 := (t.setBlock (e / 256) (t.moreBlock e)).setNode e ⟨-prev, -next⟩
  let t4 := t3.setNode next ⟨-e, (t3.node next).check⟩
  t4.setNode prev ⟨(t4.node prev).base, -e⟩

/-- The cell `e` is taken and the ring of its block is entered at `prev`, before `next`. -/
structure Entry (t : Trie) (e prev next : Int) : Prop where
  prev_eq : (t.block (e / 256)).ehead = prev
  next_eq : t.nextFree prev = next
  prevEmpty : t.Empty prev ∧ prev / 256 = e / 256
  nextEmpty : t.Empty next ∧ next / 256 = e / 256
  prevOther : prev ≠ e
  nextOther : next ≠ e

theorem BlockRing.entry {l : List Int} (r : BlockRing t (e / 256) l) (more : l ≠ [])
    (taken : 0 ≤ (t.node e).check) :
    Entry t e (t.block (e / 256)).ehead (t.nextFree (t.block (e / 256)).ehead) := by
  have eOut : e ∉ l := by
    intro h
    have := ((r.mem e).mp h).1.2.2
    omega
  have prevIn := r.ehead more
  have nextIn := next_member r.ring prevIn
  exact ⟨rfl, rfl, (r.mem _).mp prevIn, (r.mem _).mp nextIn, fun h => eOut (h ▸ prevIn),
    fun h => eOut (h ▸ nextIn)⟩

section Inserted
variable {prev next : Int} (entry : Entry t e prev next)
include entry

theorem inserted_node (i : Int) : (t.inserted e).node i = if i = e then ⟨-prev, -next⟩ else
    ⟨if i = next then -e else (t.node i).base, if i = prev then -e else (t.node i).check⟩ := by
  have prevOther := entry.prevOther
  have nextOther := entry.nextOther
  simp only [inserted, entry.prev_eq, entry.next_eq, setNode, setBlock, Function.update_apply]
  by_cases here : i = e
  · simp [here, prevOther.symm, nextOther.symm]
  · by_cases hp : i = prev <;> by_cases hx : i = next <;> by_cases px : prev = next <;>
      simp_all

theorem inserted_oneBlock (hb : t.InBlock (e / 256)) : OneBlock t (t.inserted e) (e / 256) := by
  have counted : OneBlock t (t.setBlock (e / 256) (t.moreBlock e)) (e / 256) := oneBlock_block hb
  simp only [inserted, entry.prev_eq, entry.next_eq]
  exact ((counted.trans (oneBlock_node rfl)).trans (oneBlock_node entry.nextEmpty.2)).trans
    (oneBlock_node entry.prevEmpty.2)

theorem inserted_run (sized : Sized t) (hn : t.InNode e) (more : (t.moreBlock e).num ≠ 1) :
    (t.setBlock (e / 256) (t.moreBlock e)).linkEmpty e (t.moreBlock e) =
      (if ((t.moreBlock e).num = 2 ∨ (t.moreBlock e).trial = maxTrial) ∧ e / 256 ≠ 0
        then (t.inserted e).transferBlock (e / 256) .close .opened else some (t.inserted e)) >>=
      fun t => t.modifyBlock (e / 256) fun b => { b with trial := 0 } := by
  have prevIn := entry.prevEmpty.1.inNode sized
  have nextIn := entry.nextEmpty.1.inNode sized
  let t1 := t.setBlock (e / 256) (t.moreBlock e)
  let t2 := t1.setNode e ⟨-prev, (t1.node e).check⟩
  let t3 := t1.setNode e ⟨-prev, -next⟩
  let t4 := t3.setNode next ⟨-e, (t3.node next).check⟩
  have c1 : OneBlock t t1 (e / 256) := oneBlock_block (sized.block_of_node hn)
  have c2 : OneBlock t t2 (e / 256) := c1.trans (oneBlock_node rfl)
  have c3 : OneBlock t t3 (e / 256) := c1.trans (oneBlock_node rfl)
  have c4 : OneBlock t t4 (e / 256) := c3.trans (oneBlock_node entry.nextEmpty.2)
  have head : -(t1.node prev).check = next := entry.next_eq
  simp only [linkEmpty]
  rw [if_neg more]
  have ehead : (t.moreBlock e).ehead = prev := entry.prev_eq
  rw [ehead]
  refine bind_run (nodeAt_inside (c1.inNode.mpr prevIn)) ?_
  rw [head]
  refine bind_run (a := t2) (writeBase_inside (c1.inNode.mpr hn)) ?_
  refine bind_run (a := t3) ((writeCheck_inside (c2.inNode.mpr hn)).trans ?_) ?_
  · simp [t3, t2, setNode]
  refine bind_run (a := t4) (writeBase_inside (c3.inNode.mpr nextIn)) ?_
  refine bind_run (a := t.inserted e) ((writeCheck_inside (c4.inNode.mpr prevIn)).trans ?_) ?_
  · simp only [inserted, entry.prev_eq, entry.next_eq]
    rfl
  · split <;> rfl

end Inserted

theorem inserted_block (t : Trie) (e : Int) : (t.inserted e).block (e / 256) = t.moreBlock e := by
  simp [inserted, setNode, setBlock]

theorem inserted_lists (free : Free t) (e : Int) :
    Lists (t.inserted e) (fun b => some (kindOf (t.block b))) :=
  lists_setNode (lists_setNode (lists_setNode (lists_setBlock free.lists rfl rfl)))

/-- `t` after `inserted`, a change of lists and the reset of the block's trials. -/
structure Spliced (t t' : Trie) (e : Int) : Prop where
  node : t'.node = (t.inserted e).node
  ninfo : t'.ninfo = t.ninfo
  change : OneBlock t t' (e / 256)
  num : (t'.block (e / 256)).num = (t.block (e / 256)).num + 1
  ehead : (t'.block (e / 256)).ehead = (t.block (e / 256)).ehead
  trial : (t'.block (e / 256)).trial = 0

theorem Relinked.spliced {prev next : Int} {t6 : Trie} (relinked : Relinked (t.inserted e) t6)
    (entry : Entry t e prev next) (hb : t.InBlock (e / 256)) :
    Spliced t (t6.setBlock (e / 256) { t6.block (e / 256) with trial := 0 }) e := by
  have c6 : OneBlock t t6 (e / 256) := (inserted_oneBlock entry hb).trans (relinked.oneBlock _)
  have num := relinked.num (e / 256)
  have ehead := relinked.ehead (e / 256)
  rw [inserted_block] at num ehead
  refine ⟨relinked.node, relinked.ninfo, c6.trans (oneBlock_block (c6.inBlock.mpr hb)), ?_, ?_, ?_⟩
  · simpa [setBlock, moreBlock] using num
  · simpa [setBlock, moreBlock] using ehead
  · simp [setBlock]

section Spliced
variable {t7 : Trie} {prev next : Int} (spliced : Spliced t t7 e) (entry : Entry t e prev next)
include spliced entry

theorem spliced_node (i : Int) : t7.node i = if i = e then ⟨-prev, -next⟩ else
    ⟨if i = next then -e else (t.node i).base, if i = prev then -e else (t.node i).check⟩ := by
  rw [spliced.node]
  exact inserted_node entry i

theorem spliced_empty (inside : 0 < e ∧ e < t.size) (i : Int) : t7.Empty i ↔ t.Empty i ∨ i = e := by
  simp only [Empty, spliced.change.size, spliced_node spliced entry]
  by_cases same : i = e
  · have proper : 0 < next := entry.nextEmpty.1.1
    simp only [same, ↓reduceIte, or_true, iff_true]
    exact ⟨inside.1, inside.2, by omega⟩
  · simp only [same, ↓reduceIte, or_false]
    by_cases hp : i = prev
    · have := entry.prevEmpty.1
      subst hp
      simp only [↓reduceIte]
      exact ⟨fun _ => this, fun h => ⟨h.1, h.2.1, by omega⟩⟩
    · simp [hp]

theorem spliced_ring {l : List Int} (inside : 0 < e ∧ e < t.size) (taken : 0 ≤ (t.node e).check)
    (r : BlockRing t (e / 256) l) (more : l ≠ []) : ∃ m, BlockRing t7 (e / 256) m := by
  have cell := spliced_node spliced entry
  have prevOther := entry.prevOther
  have nextOther := entry.nextOther
  have prevIn : prev ∈ l := entry.prev_eq ▸ r.ehead more
  have other : ∀ u ∈ l, u ≠ e := by
    intro u hu same
    have := ((r.mem u).mp hu).1.2.2
    rw [same] at this
    omega
  have next7 : ∀ i, t7.nextFree i = -(t7.node i).check := fun _ => rfl
  have prev7 : ∀ i, t7.prevFree i = -(t7.node i).base := fun _ => rfl
  obtain ⟨m, ring, perm⟩ : ∃ m, IsRing t7.nextFree t7.prevFree m ∧ m.Perm (e :: l) := by
    apply insert_behind t7.nextFree t7.prevFree r.ring prevIn fun h => other e h rfl
    · rw [next7, cell, if_neg prevOther]; simp
    · rw [next7, cell, if_pos rfl]; simp [entry.next_eq]
    · rw [prev7, cell, if_pos rfl]; simp
    · rw [entry.next_eq, prev7, cell, if_neg nextOther]; simp
    · intro u hu h
      rw [next7, cell, if_neg (other u hu)]
      simp [h]
    · intro u hu h
      rw [entry.next_eq] at h
      rw [prev7, cell, if_neg (other u hu)]
      simp [h]
  refine ⟨m, ring, ?_, ?_, ?_⟩
  · intro i
    rw [perm.mem_iff, List.mem_cons, r.mem i, spliced_empty spliced entry inside]
    constructor
    · rintro (rfl | h)
      · exact ⟨Or.inr rfl, rfl⟩
      · exact ⟨Or.inl h.1, h.2⟩
    · rintro ⟨h | h, block⟩
      · exact Or.inr ⟨h, block⟩
      · exact Or.inl h
  · intro _
    rw [spliced.ehead]
    exact perm.mem_iff.mpr (List.mem_cons_of_mem e (r.ehead more))
  · have count := r.num
    rw [spliced.num, perm.length_eq, List.length_cons]
    omega

theorem spliced_linking {l : List Int} (free : Free t) (inside : 0 < e ∧ e < t.size)
    (taken : 0 ≤ (t.node e).check) (r : BlockRing t (e / 256) l) (more : l ≠ [])
    (lists : Lists t7 (fun b => some (kindOf (t7.block b)))) : Linking t t7 e := by
  have hn : t.InNode e := free.sized.inNode.mpr ⟨by omega, inside.2⟩
  refine ⟨spliced.change, spliced.ninfo, ?_, spliced_empty spliced entry inside,
    spliced_ring spliced entry inside taken r more, ?_, Or.inl spliced.trial, lists⟩
  · intro i full other
    have hp : i ≠ prev := fun h => full (h ▸ entry.prevEmpty.1)
    have hx : i ≠ next := fun h => full (h ▸ entry.nextEmpty.1)
    rw [spliced_node spliced entry, if_neg other, if_neg hp, if_neg hx]
  · rw [spliced.ehead]
    exact free.ehead _ (free.sized.block_of_node hn)

end Spliced

/-- The block stands open after the call: its trials are cleared and it has two free cells. -/
theorem Spliced.kind {t7 : Trie} (spliced : Spliced t t7 e) (some : 1 ≤ (t.block (e / 256)).num) :
    kindOf (t7.block (e / 256)) = .opened := by
  have num := spliced.num
  have notFull : (t7.block (e / 256)).num ≠ 0 := by omega
  have two : 2 ≤ (t7.block (e / 256)).num ∧ (t7.block (e / 256)).trial < maxTrial := by
    rw [spliced.trial]
    simp only [maxTrial]
    omega
  exact (if_neg notFull).trans (if_pos two)

theorem link_later (free : Free t) (inside : 0 < e ∧ e < t.size) (taken : 0 ≤ (t.node e).check)
    {l : List Int} (r : BlockRing t (e / 256) l) (more : l ≠ []) :
    ∃ t', (t.setBlock (e / 256) { t.block (e / 256) with num := (t.block (e / 256)).num + 1 }).linkEmpty
      e { t.block (e / 256) with num := (t.block (e / 256)).num + 1 } = some t' ∧ Linking t t' e := by
  have hn : t.InNode e := free.sized.inNode.mpr ⟨by omega, inside.2⟩
  have hb := free.sized.block_of_node hn
  have length := List.length_pos_of_ne_nil more
  have entry := r.entry more taken
  have c5 := inserted_oneBlock entry hb
  have lists5 := inserted_lists free e
  have trials := free.trial _ hb
  have count := r.num
  have num : (t.moreBlock e).num = (t.block (e / 256)).num + 1 := rfl
  have trial : (t.moreBlock e).trial = (t.block (e / 256)).trial := rfl
  have notFirst : (t.moreBlock e).num ≠ 1 := by
    rw [num]
    split at count <;> omega
  have ran := inserted_run entry free.sized hn notFirst
  change ∃ t', (t.setBlock (e / 256) (t.moreBlock e)).linkEmpty e (t.moreBlock e) = some t' ∧ _
  rw [ran]
  by_cases move : ((t.moreBlock e).num = 2 ∨ (t.moreBlock e).trial = maxTrial) ∧ e / 256 ≠ 0
  · rw [if_pos move]
    rw [if_neg move.2] at count
    have on : On (t.inserted e) (fun b => some (kindOf (t.block b))) .close (e / 256) := by
      refine ⟨by omega, by rw [c5.size]; exact (free.sized.inBlock.mp hb).2, ?_⟩
      have cond := move.1
      simp only [num, trial, maxTrial] at cond
      have notFull : (t.block (e / 256)).num ≠ 0 := by omega
      have notOpen : ¬ (2 ≤ (t.block (e / 256)).num ∧ (t.block (e / 256)).trial < maxTrial) := by
        simp only [maxTrial]; omega
      exact congrArg some ((if_neg notFull).trans (if_neg notOpen))
    obtain ⟨t6, run, relinked, lists6⟩ := transferBlock_lists .opened (c5.sized free.sized).blocks
      lists5 on (by
        rw [inserted_block, num]
        constructor
        · intro h; cases h
        · intro h; omega)
    have spliced := relinked.spliced entry hb
    refine ⟨_, bind_run run (modifyBlock_inside ((c5.trans (relinked.oneBlock _)).inBlock.mpr hb)),
      spliced_linking spliced entry free inside taken r more ?_⟩
    refine lists_moved (lists_setBlock lists6 rfl rfl) (spliced.kind (by omega)) ?_
    intro b other
    exact ⟨spliced.change.num b other, spliced.change.trial b other⟩
  · rw [if_neg move]
    let t7 := (t.inserted e).setBlock (e / 256) { (t.inserted e).block (e / 256) with trial := 0 }
    have spliced : Spliced t t7 e := (Relinked.refl (t.inserted e)).spliced entry hb
    have lists7 : Lists t7 (fun b => some (kindOf (t.block b))) := lists_setBlock lists5 rfl rfl
    refine ⟨t7, modifyBlock_inside (c5.inBlock.mpr hb),
      spliced_linking spliced entry free inside taken r more ?_⟩
    refine lists_frame lists7 (fun _ => ⟨rfl, rfl⟩) (fun _ => rfl) rfl ?_
    intro b pos
    by_cases same : b = e / 256
    · -- a listed block that stays where it is was open already
      subst same
      have listed : e / 256 ≠ 0 := by omega
      rw [if_neg listed] at count
      simp only [num, trial, listed, ne_eq, not_false_eq_true, and_true, not_or] at move
      have notFull : (t.block (e / 256)).num ≠ 0 := by omega
      have two : 2 ≤ (t.block (e / 256)).num ∧ (t.block (e / 256)).trial < maxTrial := by
        simp only [maxTrial] at move ⊢
        omega
      have kind : kindOf (t.block (e / 256)) = .opened := (if_neg notFull).trans (if_pos two)
      rw [kind, spliced.kind (by omega)]
    · rw [kindOf, kindOf, spliced.change.num b same, spliced.change.trial b same]

theorem link_spec (free : Free t) (inside : 0 < e ∧ e < t.size) (taken : 0 ≤ (t.node e).check)
    (room : e / 256 ≠ 0 ∨ ∃ i, t.Empty i ∧ i / 256 = 0) :
    ∃ t', (t.setBlock (e / 256) { t.block (e / 256) with num := (t.block (e / 256)).num + 1 }).linkEmpty
      e { t.block (e / 256) with num := (t.block (e / 256)).num + 1 } = some t' ∧ Linking t t' e := by
  obtain ⟨l, r⟩ := free.ring _ (free.sized.block_of_node (free.sized.inNode.mpr ⟨by omega, inside.2⟩))
  by_cases full : (t.block (e / 256)).num = 0
  · exact link_first free inside full
  · refine link_later free inside taken r ?_
    rintro rfl
    have count := r.num
    rcases room with listed | ⟨i, h, zero⟩
    · rw [if_neg listed] at count
      exact full (by simpa using count)
    · by_cases listed : e / 256 = 0
      · have := (r.mem i).mpr ⟨h, by omega⟩
        cases this
      · rw [if_neg listed] at count
        exact full (by simpa using count)

theorem pushEmptyNode_spec (free : Free t) (inside : 0 < e ∧ e < t.size)
    (taken : 0 ≤ (t.node e).check) (room : e / 256 ≠ 0 ∨ ∃ i, t.Empty i ∧ i / 256 = 0) :
    ∃ t', t.pushEmptyNode e = some t' ∧ Free t' ∧ Freed t t' e := by
  have hn : t.InNode e := free.sized.inNode.mpr ⟨by omega, inside.2⟩
  have hb := free.sized.block_of_node hn
  have hi : t.InNinfo e := free.sized.inNinfo.mpr ⟨by omega, inside.2⟩
  let b1 : Block := { t.block (e / 256) with num := (t.block (e / 256)).num + 1 }
  let t1 := t.setBlock (e / 256) b1
  have c1 : OneBlock t t1 (e / 256) := oneBlock_block hb
  have read1 : t1.block (e / 256) = b1 := by simp [t1, setBlock]
  obtain ⟨t2, run2, link⟩ := link_spec free inside taken room
  obtain ⟨m, r2⟩ := link.ring
  have bounds := r2.num_bounds
  let v := t2.block (e / 256)
  let b3 : Block := if v.reject < t2.reject v.num then { v with reject := t2.reject v.num } else v
  let t3 := t2.setBlock (e / 256) b3
  let t4 := t3.setNinfo e ⟨0, (t3.ninfo e).child⟩
  let t5 := t4.setNinfo e ⟨0, 0⟩
  have hb2 := link.change.inBlock.mpr hb
  have keep : b3.num = v.num ∧ b3.trial = v.trial ∧ b3.ehead = v.ehead ∧ b3.next = v.next ∧
      b3.prev = v.prev := by
    simp only [b3]; split <;> exact ⟨rfl, rfl, rfl, rfl, rfl⟩
  have c3 : OneBlock t t3 (e / 256) := link.change.trans (oneBlock_block hb2)
  have c5 : OneBlock t t5 (e / 256) := ⟨c3.size, c3.capacity, c3.nodeLen, c3.ninfoLen, c3.blockLen,
    c3.reallocs, c3.node, c3.num, c3.trial, c3.ehead, c3.outside⟩
  have block5 : t5.block (e / 256) = b3 := by simp [t5, t4, t3, setNinfo, setBlock]
  have ninfo5 : t5.ninfo = Function.update t.ninfo e blankNinfo := by
    simp only [t5, t4, t3, setNinfo, setBlock, Function.update_idem, link.ninfo, blankNinfo]
  have empty5 : ∀ i, t5.Empty i ↔ t.Empty i ∨ i = e := link.empty_iff
  refine ⟨t5, ?_, ?_, c5, ninfo5, link.occupied, empty5⟩
  · refine bind_run (a := t1) (modifyBlock_inside hb) ?_
    refine bind_run (blockAt_inside (c1.inBlock.mpr hb)) ?_
    rw [read1]
    refine bind_run run2 ?_
    refine bind_run (blockAt_inside hb2) ?_
    refine bind_run (a := t2.reject v.num) (if_pos bounds) ?_
    have ninfoRun : (t3.writeSibling e 0 >>= fun t => t.writeChild e 0) = some t5 := by
      refine bind_run (a := t4) (writeSibling_inside (c3.inNinfo.mpr hi)) ?_
      rw [writeChild_inside (t := t4) (c3.inNinfo.mpr hi)]
      simp [t5, t4, setNinfo]
    by_cases lower : v.reject < t2.reject v.num
    · rw [if_pos lower]
      refine bind_run (a := t3) ?_ ninfoRun
      rw [modifyBlock_inside hb2]
      simp only [t3, b3, if_pos lower, v]
    · rw [if_neg lower]
      have same : t3 = t2 := by simp [t3, b3, if_neg lower, v, setBlock]
      rw [← same]
      exact ninfoRun
  · refine free.change (l := m) c5 ?_ ?_ ?_ ?_ ?_ ?_
    · refine ⟨r2.ring, r2.mem, ?_, ?_⟩
      · intro h; rw [block5, keep.2.2.1]; exact r2.ehead h
      · rw [block5, keep.1]; exact r2.num
    · rw [block5, keep.2.2.1]; exact link.ehead
    · rw [block5, keep.2.1]; exact link.trial
    · have lists3 : Lists t3 (fun b => some (kindOf (t2.block b))) :=
        lists_setBlock link.lists keep.2.2.2.1 keep.2.2.2.2
      refine lists_frame lists3 (fun _ => ⟨rfl, rfl⟩) (fun k => by cases k <;> rfl) rfl ?_
      intro b _
      by_cases same : b = e / 256
      · rw [same, block5]
        exact congrArg some (by rw [kindOf, kindOf, keep.1, keep.2.1])
      · have other : t5.block b = t2.block b := by simp [t5, t4, t3, setNinfo, setBlock, same]
        rw [other]
    · intro i h
      rw [ninfo5]
      by_cases same : i = e
      · simp [same]
      · rw [Function.update_of_ne same]
        exact free.blank i (((empty5 i).mp h).resolve_right same)
    · intro i hi'
      have other : i ≠ e := by omega
      rw [ninfo5, Function.update_of_ne other]

end
end Trie
end EtdbTrie
