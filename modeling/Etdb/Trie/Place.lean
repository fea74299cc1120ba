import Etdb.Trie.Free

/- Finding room: etdb_trie_find_place and etdb_trie_find_place_interval, and the
   cell that etdb_trie_pop_empty_node delivers. From here on a state is seen
   through its occupied cells; the free space is only ever known to be exact. -/
namespace EtdbTrie
open CircularRing ByteXor
namespace Trie

def probe (t : Trie) (base : Int) : List UInt8 → Option Bool
  | [] => some true
  | c :: rest => do
    let n ← t.nodeAt (xorByte base c)
    if n.check < 0 then t.probe base rest else some false

def searchRing (t : Trie) (bi : Int) (first : UInt8) (rest : List UInt8) :
    Nat → Int → Option (Option Int)
  | 0, _ => none
  | fuel + 1, e => do
    if ← t.probe (xorByte e first) rest then some (some e)
    else
      let n ← t.nodeAt e
      let b ← t.blockAt bi
      if -n.check = b.ehead then some none else t.searchRing bi first rest fuel (-n.check)

/-- The ring of block `bi` is only searched when the counts promise room. -/
def searchBlock (t : Trie) (bi : Int) (first : UInt8) (rest : List UInt8) : Option (Option Int) := do
  let nc : Int := (first :: rest).length
  let b ← t.blockAt bi
  if nc ≤ b.num ∧ nc ≤ b.reject then t.searchRing bi first rest 256 b.ehead else some none

/-- What etdb_trie_find_place_interval does to a block without room for `nc` labels;
    the second component is the next block to look at. -/
def rejectBlock (t : Trie) (bi nc : Int) : Option (Int × Trie) := do
  let t ← t.modifyBlock bi fun b => { b with reject := nc }
  let b ← t.blockAt bi
  let r ← t.rejectAt b.num
  let t := if b.reject < r then t.setReject b.num b.reject else t
  let t ← t.modifyBlock bi fun b => { b with trial := b.trial + 1 }
  let t ← if b.trial + 1 = maxTrial then t.transferBlock bi .opened .close else some t
  some (b.next, t)

/-- The loop over the Open list, from `bi` to the list's last block `bz`. -/
def scanOpen (first : UInt8) (rest : List UInt8) (bz : Int) :
    Nat → Int → Trie → Option (Option Int × Trie)
  | 0, _, _ => none
  | fuel + 1, bi, t => do
    match ← t.searchBlock bi first rest with
    | some e => do
      let t ← t.modifyBlock bi fun b => { b with ehead := e }
      some (some e, t)
    | none => do
      let (next, t) ← t.rejectBlock bi (first :: rest).length
      if bi = bz then some (none, t) else scanOpen first rest bz fuel next t

/-- etdb_trie_find_place_interval for at least two labels -/
def findPlaceInterval (t : Trie) (first : UInt8) (rest : List UInt8) : Option (Int × Trie) := do
  let bi := t.blockHeadOpen
  let (found, t) ← if bi ≠ 0 then do
      let b ← t.blockAt bi
      scanOpen first rest b.prev (t.size / 256).toNat bi t
    else some (none, t)
  match found with
  | some e => some (e, t)
  | none => do
    let (bi, t) ← t.addBlock
    some (bi * 256, t)

/-- An occupied cell; cell 0 always is. -/
def Occ (t : Trie) (i : Int) : Prop := 0 ≤ i ∧ i < t.size ∧ ¬ t.Empty i

/-- Occupied cells are untouched; there may be new free ones. -/
structure Grown (t t' : Trie) : Prop where
  size : t.size ≤ t'.size
  node : ∀ i, i < t.size → t'.node i = t.node i
  ninfo : ∀ i, i < t.size → t'.ninfo i = t.ninfo i
  empty : ∀ i, t.size ≤ i → i < t'.size → t'.Empty i

structure Taken (t t' : Trie) (e : Int) (n : Node) : Prop where
  size : t.size ≤ t'.size
  fresh : ¬ t.Occ e
  occ : ∀ i, t'.Occ i ↔ t.Occ i ∨ i = e
  here : t'.node e = n
  blank : t'.ninfo e = blankNinfo
  node : ∀ i, t.Occ i → t'.node i = t.node i
  ninfo : ∀ i, t.Occ i → t'.ninfo i = t.ninfo i

section
variable {t t' t'' : Trie} {e i b : Int}

theorem Grown.refl (t : Trie) : Grown t t :=
  ⟨Int.le_refl _, fun _ _ => rfl, fun _ _ => rfl, fun _ _ _ => by omega⟩

theorem Grown.trans (g : Grown t t') (g' : Grown t' t'') : Grown t t'' where
  size := Int.le_trans g.size g'.size
  node := fun i hi => (g'.node i (by have := g.size; omega)).trans (g.node i hi)
  ninfo := fun i hi => (g'.ninfo i (by have := g.size; omega)).trans (g.ninfo i hi)
  empty := by
    intro i lower upper
    by_cases old : i < t'.size
    · have empty := g.empty i lower old
      exact ⟨empty.1, upper, by rw [g'.node i old]; exact empty.2.2⟩
    · exact g'.empty i (by omega) upper

theorem Grown.empty_old (g : Grown t t') (old : i < t.size) : t'.Empty i ↔ t.Empty i := by
  have := g.size
  constructor
  · rintro ⟨pos, _, check⟩
    exact ⟨pos, old, by rw [← g.node i old]; exact check⟩
  · rintro ⟨pos, _, check⟩
    exact ⟨pos, by omega, by rw [g.node i old]; exact check⟩

theorem Grown.occ (g : Grown t t') (i : Int) : t'.Occ i ↔ t.Occ i := by
  by_cases old : i < t.size
  · have := g.size
    simp only [Occ, g.empty_old old, old, true_and]
    constructor
    · rintro ⟨pos, _, full⟩; exact ⟨pos, full⟩
    · rintro ⟨pos, full⟩; exact ⟨pos, by omega, full⟩
  · constructor
    · rintro ⟨_, upper, full⟩
      exact absurd (g.empty i (by omega) upper) full
    · rintro ⟨_, upper, _⟩
      omega

theorem Occ.not_empty (occ : t.Occ i) : ¬ t.Empty i := occ.2.2
theorem Empty.not_occ (empty : t.Empty i) : ¬ t.Occ i := fun occ => occ.2.2 empty
theorem Occ.inNode (s : Sized t) (occ : t.Occ i) : t.InNode i := s.inNode.mpr ⟨occ.1, occ.2.1⟩
theorem Occ.inNinfo (s : Sized t) (occ : t.Occ i) : t.InNinfo i := s.inNinfo.mpr ⟨occ.1, occ.2.1⟩

theorem Occ.check (occ : t.Occ i) (proper : i ≠ 0) : 0 ≤ (t.node i).check := by
  by_contra neg
  exact occ.2.2 ⟨by have := occ.1; omega, occ.2.1, by omega⟩

theorem Empty.keep (empty : t.Empty i) (size : t.size ≤ t'.size) (out : ¬ t'.Occ i) : t'.Empty i := by
  by_contra full
  exact out ⟨by have := empty.1; omega, by have := empty.2.1; omega, full⟩

theorem empty_or_occ (inside : 0 ≤ i ∧ i < t.size) : t.Empty i ∨ t.Occ i := by
  by_cases empty : t.Empty i
  · exact Or.inl empty
  · exact Or.inr ⟨inside.1, inside.2, empty⟩

theorem growCapacity_shape (s : Sized t) (full : t.size = t.capacity) : t.growCapacity = { t with
      capacity := 2 * t.capacity
      node := fun i => if t.capacity ≤ i ∧ i < 2 * t.capacity then ⟨0, 0⟩ else t.node i
      nodeLen := 2 * t.capacity
      ninfo := fun i => if t.capacity ≤ i ∧ i < 2 * t.capacity then blankNinfo else t.ninfo i
      ninfoLen := 2 * t.capacity
      block := fun b => if t.capacity / 256 ≤ b ∧ b < 2 * t.capacity / 256
        then EtdbTrie.freshBlock else t.block b
      blockLen := 2 * t.capacity / 256 } := by
  simp only [growCapacity, if_pos full, nodeRealloc, ninfoRealloc, blockRealloc, takeRealloc, s.reallocs]

structure Doubled (t t' : Trie) : Prop where
  sized : Sized t'
  size : t'.size = t.size
  capacity : t'.capacity = 2 * t.capacity
  node : ∀ i, i < t.size → t'.node i = t.node i
  ninfo : ∀ i, i < t.size → t'.ninfo i = t.ninfo i
  block : ∀ b, b < t.size / 256 → t'.block b = t.block b

theorem growCapacity_doubled (s : Sized t) (full : t.size = t.capacity) : Doubled t t.growCapacity := by
  have sizeMod := s.size
  have positive := s.pos
  rw [growCapacity_shape s full]
  refine ⟨⟨s.size, s.pos, by dsimp only; omega, by dsimp only; omega, rfl, rfl, rfl, s.reallocs⟩, rfl,
    rfl, fun i hi => ?_, fun i hi => ?_, fun b hb => ?_⟩
  · exact if_neg (by omega)
  · exact if_neg (by omega)
  · exact if_neg (by omega)

theorem Doubled.empty (doubled : Doubled t t') (i : Int) : t'.Empty i ↔ t.Empty i := by
  by_cases old : i < t.size
  · simp only [Empty, doubled.size, doubled.node i old]
  · simp [Empty, doubled.size, old]

theorem growCapacity_free (free : Free t) : Free t.growCapacity ∧ t.growCapacity.size = t.size ∧
    t.size < t.growCapacity.capacity ∧ Grown t t.growCapacity := by
  have s := free.sized
  by_cases full : t.size = t.capacity
  · have shape := growCapacity_shape s full
    have doubled := growCapacity_doubled s full
    have size := doubled.size
    have capacity := doubled.capacity
    have positive := s.pos
    have inBlock : ∀ b, t.growCapacity.InBlock b ↔ t.InBlock b := by
      intro b
      rw [doubled.sized.inBlock, s.inBlock, size]
    have read : ∀ b, t.InBlock b → t.growCapacity.block b = t.block b := fun b hb =>
      doubled.block b (s.inBlock.mp hb).2
    refine ⟨⟨doubled.sized, ?_, ?_, ?_, ?_, ?_, ?_, ?_⟩, size, by omega,
      ⟨by omega, doubled.node, doubled.ninfo, ?_⟩⟩
    · intro b hb
      have hb' := (inBlock b).mp hb
      obtain ⟨l, r⟩ := free.ring b hb'
      have cells : ∀ i ∈ l, t.growCapacity.node i = t.node i := fun i hi =>
        doubled.node i ((r.mem i).mp hi).1.2.1
      refine ⟨l, ring_congr r.ring (fun i hi => ?_) (fun i hi => ?_), ?_, ?_, ?_⟩
      · rw [nextFree, cells i hi]
      · rw [prevFree, cells i hi]
      · intro i
        rw [doubled.empty]
        exact r.mem i
      · rw [read b hb']; exact r.ehead
      · rw [read b hb']; exact r.num
    · intro b hb
      have hb' := (inBlock b).mp hb
      rw [read b hb']
      exact free.ehead b hb'
    · intro b hb
      have hb' := (inBlock b).mp hb
      rw [read b hb']
      exact free.trial b hb'
    · intro k
      obtain ⟨l, ok⟩ := free.lists k
      refine ⟨l, listOk_congr ok ?_ (by rw [shape]; cases k <;> rfl) ?_⟩
      · intro b hb
        have inside := ring_inBlock s.blocks s.pos ok hb
        simp only [nextBlock, prevBlock, read b inside, and_self]
      · intro b
        constructor
        · rintro ⟨pos, bound, kind⟩
          exact ⟨pos, by rw [size]; exact bound, by dsimp only at kind ⊢; rw [doubled.block b bound]; exact kind⟩
        · rintro ⟨pos, bound, kind⟩
          rw [size] at bound
          exact ⟨pos, bound, by dsimp only at kind ⊢; rw [← doubled.block b bound]; exact kind⟩
    · intro i empty
      have old := (doubled.empty i).mp empty
      rw [doubled.ninfo i old.2.1]
      exact free.blank i old
    · intro b lower upper
      rw [shape] at lower upper ⊢
      dsimp only at lower upper ⊢
      exact if_pos (by omega)
    · intro i lower upper
      rw [shape] at lower upper ⊢
      dsimp only at lower upper ⊢
      exact if_pos (by omega)
    · intro i lower upper
      omega
  · have same : t.growCapacity = t := if_neg full
    have := s.le
    rw [same]
    exact ⟨free, rfl, by omega, Grown.refl t⟩

theorem ringNode_check (s i : Int) (lower : s ≤ i) (pos : 0 < s) : (ringNode s i).check < 0 := by
  simp only [ringNode]
  split_ifs <;> dsimp only <;> omega

/-- The trie with a block of free cells behind its end that stands on no list yet. -/
def extended (t : Trie) : Trie :=
  let v : Block := { EtdbTrie.freshBlock with ehead := t.size }
  let t3 := { t with size := t.size + 256 }.setBlock (t.size / 256) v
  { t3 with node := fun i => if t.size ≤ i ∧ i < t.size + 256 then ringNode t.size i else t3.node i }

theorem extended_block (t : Trie) :
    t.extended.block (t.size / 256) = { EtdbTrie.freshBlock with ehead := t.size } := by
  simp [extended, setBlock]

theorem extended_others (t : Trie) {b : Int} (other : b ≠ t.size / 256) :
    t.extended.block b = t.block b := by
  simp [extended, setBlock, other]

theorem extended_lists (free : Free t) : Lists t.extended
    (Function.update (fun b => some (kindOf (t.block b))) (t.size / 256) none) := by
  intro k
  obtain ⟨l, ok⟩ := free.lists k
  have apart : ∀ b ∈ ringOf k l, b ≠ t.size / 256 := by
    intro b hb'
    have := (ring_inBlock free.sized.blocks free.sized.pos ok hb').2.1
    omega
  refine ⟨l, listOk_congr ok ?_ (by cases k <;> rfl) ?_⟩
  · intro b hb'
    simp only [nextBlock, prevBlock, extended_others t (apart b hb'), and_self]
  · intro b
    have size4 : t.extended.size = t.size + 256 := rfl
    have sizeMod := free.sized.size
    by_cases same : b = t.size / 256
    · subst same
      simp [On]
    · simp only [On, size4, Function.update_of_ne same]
      constructor
      · rintro ⟨pos, bound, kind⟩; exact ⟨pos, by omega, kind⟩
      · rintro ⟨pos, bound, kind⟩; exact ⟨pos, by omega, kind⟩

theorem extended_run {t5 : Trie} (free : Free t) (room : t.size < t.capacity)
    (run : t.extended.pushBlock (t.size / 256) .opened (t.blockHeadOpen = 0) = some t5)
    (size : t5.size = t.size + 256) : t.openBlock = some (t.size / 256, t5) := by
  have sized := free.sized
  have sizeMod := sized.size; have positive := sized.pos; have capMod := sized.capacity
  have blockLen := sized.blockLen; have nodeLen := sized.nodeLen
  let v : Block := { EtdbTrie.freshBlock with ehead := t.size }
  let t2 : Trie := { t with size := t.size + 256 }
  let t3 := t2.setBlock (t.size / 256) v
  have fresh : t.block (t.size / 256) = EtdbTrie.freshBlock :=
    free.freshBlock _ (by omega) (by omega)
  have hb : t2.InBlock (t.size / 256) := by
    simp only [InBlock, t2]
    omega
  refine bind_run (a := t3) ?_ ?_
  · rw [modifyBlock_inside hb]
    simp only [t3, v, ← fresh, t2]
  refine bind_run (a := t.extended) ?_ ?_
  · refine if_pos ⟨?_, ?_⟩ <;> simp only [InNode, t3, t2, setBlock] <;> omega
  refine bind_run (a := t5) run ?_
  rw [size]
  congr 2
  omega

section Extended
variable {t5 : Trie} (free : Free t) (room : t.size < t.capacity) (relinked : Relinked t.extended t5)
include free room relinked

theorem extended_sized : Sized t5 := by
  have sized := free.sized
  have sizeMod := sized.size; have capMod := sized.capacity; have positive := sized.pos
  have size5 : t5.size = t.size + 256 := relinked.size
  have cap5 : t5.capacity = t.capacity := relinked.capacity
  refine ⟨by omega, by omega, by omega, by omega, ?_, ?_, ?_, relinked.reallocs.trans sized.reallocs⟩
  · rw [cap5]; exact relinked.nodeLen.trans sized.nodeLen
  · rw [cap5]; exact relinked.ninfoLen.trans sized.ninfoLen
  · rw [cap5]; exact relinked.blockLen.trans sized.blockLen

omit room in
theorem extended_new {i : Int} (lower : t.size ≤ i) (upper : i < t.size + 256) :
    t5.node i = ringNode t.size i ∧ t5.Empty i := by
  have cell : t5.node i = ringNode t.size i := by
    rw [relinked.node]
    exact if_pos ⟨lower, upper⟩
  have positive := free.sized.pos
  have size5 : t5.size = t.size + 256 := relinked.size
  refine ⟨cell, by omega, by omega, ?_⟩
  rw [cell]
  exact ringNode_check _ i lower (by omega)

omit free room in
theorem extended_old {i : Int} (old : i < t.size) : t5.node i = t.node i := by
  rw [relinked.node]
  exact if_neg (by omega)

omit room in
theorem extended_grown : Grown t t5 := by
  have size5 : t5.size = t.size + 256 := relinked.size
  refine ⟨by omega, fun i old => extended_old relinked old, fun i _ => by rw [relinked.ninfo]; rfl, ?_⟩
  intro i lower upper
  exact (extended_new free relinked lower (by omega)).2

theorem extended_inBlock {b : Int} (hb : t5.InBlock b) :
    b = t.size / 256 ∨ b ≠ t.size / 256 ∧ t.InBlock b := by
  have bound := (extended_sized free room relinked).inBlock.mp hb
  have size5 : t5.size = t.size + 256 := relinked.size
  by_cases same : b = t.size / 256
  · exact Or.inl same
  · exact Or.inr ⟨same, free.sized.inBlock.mpr (by omega)⟩

omit room in
theorem extended_newRing : BlockRing t5 (t.size / 256) (runFrom t.size 256) := by
  have cell : ∀ i, t.size ≤ i → i < t.size + 256 → t5.node i = ringNode t.size i :=
    fun i lower upper => (extended_new free relinked lower upper).1
  have sizeMod := free.sized.size; have positive := free.sized.pos
  have block5 := extended_block t
  refine ⟨run_ring (n := 255) ?_ ?_ ?_ ?_, ?_, ?_, ?_⟩
  · intro i lower upper
    rw [nextFree, cell i lower (by omega), ringNode]
    split_ifs <;> dsimp only <;> omega
  · intro i lower upper
    rw [prevFree, cell (i + 1) (by omega) (by omega), ringNode]
    split_ifs <;> dsimp only <;> omega
  · rw [nextFree, cell _ (by omega) (by omega), ringNode]
    split_ifs <;> dsimp only <;> omega
  · rw [prevFree, cell _ (by omega) (by omega), ringNode]
    split_ifs <;> dsimp only <;> omega
  · intro i
    rw [mem_runFrom]
    constructor
    · rintro ⟨lower, upper⟩
      exact ⟨(extended_new free relinked lower (by omega)).2, by omega⟩
    · rintro ⟨_, block⟩
      omega
  · intro _
    rw [relinked.ehead, block5, mem_runFrom]
    dsimp only
    omega
  · rw [relinked.num, block5, if_neg (by omega), runFrom_length]
    rfl

omit room in
theorem extended_oldRing {b : Int} (other : b ≠ t.size / 256) (old : t.InBlock b) :
    ∃ l, BlockRing t5 b l := by
  obtain ⟨l, r⟩ := free.ring b old
  have bound := (free.sized.inBlock.mp old).2
  have sizeMod := free.sized.size
  have grown := extended_grown free relinked
  have cells : ∀ i, i / 256 = b → t5.node i = t.node i :=
    fun i hi => extended_old relinked (by omega)
  refine ⟨l, ring_congr r.ring (fun i hi => ?_) (fun i hi => ?_), ?_, ?_, ?_⟩
  · rw [nextFree, cells i ((r.mem i).mp hi).2]
  · rw [prevFree, cells i ((r.mem i).mp hi).2]
  · intro i
    rw [r.mem i]
    constructor
    · rintro ⟨h, block⟩; exact ⟨(grown.empty_old h.2.1).mpr h, block⟩
    · rintro ⟨h, block⟩; exact ⟨(grown.empty_old (by omega)).mp h, block⟩
  · rw [relinked.ehead, extended_others t other]; exact r.ehead
  · rw [relinked.num, extended_others t other]; exact r.num

theorem extended_free (lists : Lists t5 (fun b => some (kindOf (t5.block b)))) : Free t5 := by
  have size5 : t5.size = t.size + 256 := relinked.size
  have cap5 : t5.capacity = t.capacity := relinked.capacity
  have ninfo5 : t5.ninfo = t.ninfo := relinked.ninfo
  have block5 := extended_block t
  have sizeMod := free.sized.size; have positive := free.sized.pos
  have capMod := free.sized.capacity
  refine ⟨extended_sized free room relinked, ?_, ?_, ?_, lists, ?_, ?_, ?_⟩
  · intro b hb
    rcases extended_inBlock free room relinked hb with rfl | ⟨other, old⟩
    · exact ⟨_, extended_newRing free relinked⟩
    · exact extended_oldRing free relinked other old
  · intro b hb
    rcases extended_inBlock free room relinked hb with rfl | ⟨other, old⟩
    · rw [relinked.ehead, block5]
      exact ⟨rfl, by dsimp only; omega⟩
    · rw [relinked.ehead, extended_others t other]
      exact free.ehead b old
  · intro b hb
    rcases extended_inBlock free room relinked hb with rfl | ⟨other, old⟩
    · rw [relinked.trial, block5]
      exact Or.inl rfl
    · rw [relinked.trial, extended_others t other]
      exact free.trial b old
  · intro i empty
    rw [ninfo5]
    by_cases old : i < t.size
    · exact free.blank i (((extended_grown free relinked).empty_old old).mp empty)
    · have := empty.2.1
      exact free.freshNinfo i (by omega) (by omega)
  · intro b lower upper
    rw [relinked.outside b (show (t.size + 256) / 256 ≤ b by omega), extended_others t (by omega)]
    exact free.freshBlock b (by omega) (by omega)
  · intro i lower upper
    rw [ninfo5]
    exact free.freshNinfo i (by omega) (by omega)

end Extended

theorem openBlock_spec (free : Free t) (room : t.size < t.capacity) :
    ∃ t', t.openBlock = some (t.size / 256, t') ∧ Free t' ∧ Grown t t' ∧ t'.size = t.size + 256 ∧
      kindOf (t'.block (t.size / 256)) = .opened := by
  have sizeMod := free.sized.size; have positive := free.sized.pos
  have capMod := free.sized.capacity; have blockLen := free.sized.blockLen
  have block4 := extended_block t
  obtain ⟨t5, run, relinked, lists5⟩ := pushBlock_lists (t := t.extended) (t.size / 256) .opened
    (show (t.size + 256) / 256 ≤ t.blockLen by omega) (extended_lists free) (by omega)
    (show t.size / 256 < (t.size + 256) / 256 by omega) (by simp)
    (by rw [block4]; simp [EtdbTrie.freshBlock])
  have pushed : t.extended.pushBlock (t.size / 256) .opened (t.blockHeadOpen = 0) = some t5 := by
    rw [block4] at run
    rw [← run]
    congr 1
    have many : decide (EtdbTrie.freshBlock.num ≠ 0) = true := rfl
    rw [many, Bool.and_true]
    rfl
  have kind5 : kindOf (t5.block (t.size / 256)) = .opened := by
    simp [kindOf, relinked.num, relinked.trial, block4, EtdbTrie.freshBlock, maxTrial]
  refine ⟨t5, extended_run free room pushed relinked.size, extended_free free room relinked ?_,
    extended_grown free relinked, relinked.size, kind5⟩
  refine lists_frame lists5 (fun _ => ⟨rfl, rfl⟩) (fun _ => rfl) rfl ?_
  intro b _
  by_cases same : b = t.size / 256
  · subst same
    simp [kind5]
  · simp [kindOf, relinked.num, relinked.trial, extended_others t same, same]

theorem addBlock_spec (free : Free t) : ∃ t', t.addBlock = some (t.size / 256, t') ∧ Free t' ∧
    Grown t t' ∧ t'.size = t.size + 256 ∧ kindOf (t'.block (t.size / 256)) = .opened := by
  obtain ⟨free1, size1, room, grown1⟩ := growCapacity_free free
  obtain ⟨t2, run, free2, grown2, size2, kind⟩ := openBlock_spec free1 (by omega)
  rw [size1] at kind
  refine ⟨t2, ?_, free2, grown1.trans grown2, by omega, kind⟩
  rw [addBlock, run, size1]

abbrev kinds (t : Trie) (b : Int) : Option BlockList := some (kindOf (t.block b))

theorem listed_num {k : BlockList} (on : On t t.kinds k b) (some : k ≠ .full) : (t.block b).num ≠ 0 := by
  intro zero
  have kind := on.2.2
  simp only [kinds, kindOf, zero, ↓reduceIte, Option.some.injEq] at kind
  exact some kind.symm

theorem listed_ehead {k : BlockList} (free : Free t) (on : On t t.kinds k b) (some : k ≠ .full) :
    t.Empty (t.block b).ehead ∧ (t.block b).ehead / 256 = b := by
  have hb := on_inBlock free.sized.blocks on
  obtain ⟨l, r⟩ := free.ring b hb
  refine (r.mem _).mp (r.ehead ?_)
  rintro rfl
  have count := r.num
  rw [if_neg (by have := on.1; omega)] at count
  exact listed_num on some (by simpa using count)

theorem head_listed {k : BlockList} (free : Free t) (some : k ≠ .full) (head : t.head k ≠ 0) :
    On t t.kinds k (t.head k) := by
  obtain ⟨l, ok⟩ := free.lists k
  rcases ok.head some with ⟨_, none⟩ | inside
  · exact absurd none head
  · exact (ok.mem _).mp inside

theorem findPlace_spec (free : Free t) : ∃ e t', t.findPlace = some (e, t') ∧ Free t' ∧ Grown t t' ∧
    t'.Empty e ∧ e / 256 ≠ 0 := by
  have fromHead : ∀ k, k ≠ .full → t.head k ≠ 0 →
      t.InBlock (t.head k) ∧ t.Empty (t.block (t.head k)).ehead ∧
        (t.block (t.head k)).ehead / 256 ≠ 0 := by
    intro k some head
    have on := head_listed free some head
    have place := listed_ehead free on some
    exact ⟨on_inBlock free.sized.blocks on, place.1, by rw [place.2]; exact head⟩
  unfold findPlace
  by_cases close : t.blockHeadClose ≠ 0
  · obtain ⟨hb, empty, block⟩ := fromHead .close (by decide) close
    rw [if_pos close]
    exact ⟨_, t, bind_run (blockAt_inside hb) rfl, free, Grown.refl t, empty, block⟩
  rw [if_neg close]
  by_cases opened : t.blockHeadOpen ≠ 0
  · obtain ⟨hb, empty, block⟩ := fromHead .opened (by decide) opened
    rw [if_pos opened]
    exact ⟨_, t, bind_run (blockAt_inside hb) rfl, free, Grown.refl t, empty, block⟩
  rw [if_neg opened]
  obtain ⟨t', run, free', grown, size, _⟩ := addBlock_spec free
  have sizeMod := free.sized.size; have positive := free.sized.pos
  have start : t.size / 256 * 256 = t.size := by omega
  refine ⟨_, t', bind_run run rfl, free', grown, ?_, ?_⟩
  · rw [start]; exact grown.empty _ (by omega) (by omega)
  · rw [start]; omega

theorem probe_spec (base : Int) (labels : List UInt8) (inside : t.InNode base) (sized : Sized t) :
    t.probe base labels = some (labels.all fun c => decide ((t.node (xorByte base c)).check < 0)) := by
  induction labels with
  | nil => simp [probe]
  | cons c rest ih =>
    have cell : t.InNode (xorByte base c) := by
      have := sized.inNode.mp inside
      have := sized.size
      have := xorByte_block base c
      exact sized.inNode.mpr (by omega)
    rw [probe]
    refine bind_run (nodeAt_inside cell) ?_
    by_cases free : (t.node (xorByte base c)).check < 0
    · rw [if_pos free, ih]
      simp [free]
    · rw [if_neg free]
      simp [free]

def Fits (t : Trie) (e : Int) (first : UInt8) (rest : List UInt8) : Prop :=
  t.Empty e ∧ ∀ c ∈ rest, t.Empty (xorByte (xorByte e first) c)

theorem fits_of_probe {first : UInt8} {rest : List UInt8} (sized : Sized t) (empty : t.Empty e)
    (listed : e / 256 ≠ 0) (free : ∀ c ∈ rest, (t.node (xorByte (xorByte e first) c)).check < 0) :
    t.Fits e first rest := by
  refine ⟨empty, fun c hc => ?_⟩
  have block : xorByte (xorByte e first) c / 256 = e / 256 :=
    (xorByte_block _ _).trans (xorByte_block _ _)
  have := empty.1; have := empty.2.1; have := sized.size
  exact ⟨by omega, by omega, free c hc⟩

/-- The turn around a ring, `ahead` being the cells still to come. -/
theorem searchRing_spec {first : UInt8} {rest : List UInt8} {start : Int} {l before ahead : List Int}
    (sized : Sized t) (inside : t.InBlock b) (listed : b ≠ 0) (head : (t.block b).ehead = start)
    (ring : IsRing t.nextFree t.prevFree (start :: l)) (empty : ∀ i ∈ start :: l, t.Empty i ∧ i / 256 = b)
    (split : start :: l = before ++ e :: ahead) {fuel : Nat} (enough : ahead.length < fuel) :
    ∃ found, t.searchRing b first rest fuel e = some found ∧
      ∀ i, found = some i → t.Fits i first rest ∧ i / 256 = b := by
  induction fuel generalizing before e ahead with
  | zero => omega
  | succ fuel ih =>
    have here := empty e (by simp [split])
    have inNode : t.InNode (xorByte e first) := by
      have := sized.size; have := here.1.1; have := here.1.2.1
      have := xorByte_block e first
      exact sized.inNode.mpr (by omega)
    by_cases free : ∀ c ∈ rest, (t.node (xorByte (xorByte e first) c)).check < 0
    · refine ⟨some e, ?_, ?_⟩
      · refine bind_run (probe_spec _ _ inNode sized) ?_
        rw [if_pos (by simpa using free)]
      · rintro i ⟨⟩
        exact ⟨fits_of_probe sized here.1 (by omega) free, here.2⟩
    · have ran : t.searchRing b first rest (fuel + 1) e = if t.nextFree e = start then some none
          else t.searchRing b first rest fuel (t.nextFree e) := by
        refine bind_run (probe_spec _ _ inNode sized) ?_
        rw [if_neg (by simpa using free)]
        refine bind_run (nodeAt_inside (here.1.inNode sized)) ?_
        exact bind_run (blockAt_inside inside) (by rw [head])
      have turned : IsRing t.nextFree t.prevFree (e :: ahead ++ before) := by
        rw [split] at ring
        exact ring_rotate ring
      rw [ran]
      cases ahead with
      | nil =>
        have close : t.nextFree e = start := by
          cases before with
          | nil =>
            have same : start = e := by simpa using congrArg List.head? split
            rw [same]
            exact (ring_single.mp turned).1
          | cons x xs =>
            have same : start = x := by simpa using congrArg List.head? split
            rw [same]
            exact (ring_first turned).1
        exact ⟨none, if_pos close, by simp⟩
      | cons y ys =>
        have step : t.nextFree e = y := (ring_first turned).1
        have other : y ≠ start := by
          rintro rfl
          have nodup := ring_nodup ring
          cases before with
          | nil =>
            have same : y = e := by simpa using congrArg List.head? split
            rw [split] at nodup
            simp [same] at nodup
          | cons x xs =>
            have same : y = x := by simpa using congrArg List.head? split
            rw [split] at nodup
            simp [same] at nodup
        rw [step, if_neg other]
        simp only [List.length_cons] at enough
        exact ih (show start :: l = (before ++ [e]) ++ _ by simpa using split) (by omega)

structure Rejected (t t' : Trie) (b : Int) : Prop where
  free : Free t'
  grown : Grown t t'
  size : t'.size = t.size
  opened : ∀ c, On t' t'.kinds .opened c ↔ On t t.kinds .opened c ∧ c ≠ b

theorem rejectBlock_spec (nc : Int) (free : Free t) (on : On t t.kinds .opened b) :
    ∃ t', t.rejectBlock b nc = some (t.nextBlock b, t') ∧ Rejected t t' b := by
  have hb := on_inBlock free.sized.blocks on
  obtain ⟨l, r⟩ := free.ring b hb
  have two : 2 ≤ (t.block b).num ∧ (t.block b).trial < maxTrial := by
    have kind := Option.some.inj on.2.2
    simp only [kindOf] at kind
    split_ifs at kind with _ h
    exact h
  have untried : (t.block b).trial = 0 := by
    have := free.trial b hb
    simp only [maxTrial] at two
    omega
  let b1 : Block := { t.block b with reject := nc }
  let t1 := t.setBlock b b1
  let t2 := if nc < t.reject (t.block b).num then t1.setReject (t.block b).num nc else t1
  let t3 := t2.setBlock b { b1 with trial := b1.trial + 1 }
  have c1 : OneBlock t t1 b := oneBlock_block hb
  have c2 : OneBlock t t2 b ∧ t2.block b = b1 ∧ t2.node = t.node ∧ t2.ninfo = t.ninfo ∧
      Lists t2 t.kinds := by
    have lists1 : Lists t1 t.kinds := lists_setBlock free.lists rfl rfl
    by_cases lower : nc < t.reject (t.block b).num
    · simp only [t2, if_pos lower]
      refine ⟨c1.trans ⟨rfl, rfl, rfl, rfl, rfl, rfl, ?_, ?_, ?_, ?_, ?_⟩, ?_, rfl, rfl, ?_⟩
      any_goals intros; rfl
      · simp [setReject, t1, setBlock]
      · exact lists_frame lists1 (fun _ => ⟨rfl, rfl⟩) (fun k => by cases k <;> rfl) rfl (fun _ _ => rfl)
    · simp only [t2, if_neg lower]
      exact ⟨c1, by simp [t1, setBlock], rfl, rfl, lists1⟩
  obtain ⟨c2, block2, node2, ninfo2, lists2⟩ := c2
  have c3 : OneBlock t t3 b := c2.trans (oneBlock_block (c2.inBlock.mpr hb))
  have block3 : t3.block b = { b1 with trial := b1.trial + 1 } := by simp [t3, setBlock]
  have lists3 : Lists t3 t.kinds := lists_setBlock lists2 (by rw [block2]) (by rw [block2])
  obtain ⟨t4, run, relinked, lists4⟩ := transferBlock_lists .close (c3.sized free.sized).blocks lists3
    ⟨on.1, by rw [c3.size]; exact on.2.1, on.2.2⟩
    (by rw [block3]; simp only [b1, reduceCtorEq, false_iff]; omega)
  have c4 : OneBlock t t4 b := c3.trans (relinked.oneBlock b)
  have num4 : (t4.block b).num = (t.block b).num := by rw [relinked.num, block3]
  have trial4 : (t4.block b).trial = 1 := by rw [relinked.trial, block3]; simp [b1, untried]
  have ehead4 : (t4.block b).ehead = (t.block b).ehead := by rw [relinked.ehead, block3]
  have node4 : t4.node = t.node := relinked.node.trans node2
  have ninfo4 : t4.ninfo = t.ninfo := relinked.ninfo.trans ninfo2
  have kind4 : kindOf (t4.block b) = .close := by
    have notFull : (t4.block b).num ≠ 0 := by omega
    have notOpen : ¬ (2 ≤ (t4.block b).num ∧ (t4.block b).trial < maxTrial) := by
      rw [trial4]
      simp [maxTrial]
    exact (if_neg notFull).trans (if_neg notOpen)
  have emptyIff : ∀ i, t4.Empty i ↔ t.Empty i := fun i => by simp only [Empty, c4.size, node4]
  refine ⟨t4, ?_, ?_, ?_, c4.size, ?_⟩
  · refine bind_run (a := t1) (modifyBlock_inside hb) ?_
    refine bind_run (a := b1) ?_ ?_
    · rw [blockAt_inside (c1.inBlock.mpr hb)]
      simp [t1, setBlock]
    refine bind_run (a := t.reject (t.block b).num) (if_pos r.num_bounds) ?_
    refine bind_run (a := t3) ?_ ?_
    · refine (modifyBlock_inside (t := t2) (c2.inBlock.mpr hb)).trans ?_
      rw [block2]
    have last : b1.trial + 1 = maxTrial := by simp [b1, untried, maxTrial]
    exact (if_pos last).trans (bind_run run rfl)
  · refine free.change (l := l) c4 ?_ ?_ ?_ ?_ ?_ ?_
    · exact blockRing_frame r c4.size (fun i _ => by rw [node4]) ehead4 num4
    · rw [ehead4]; exact free.ehead b hb
    · exact Or.inr trial4
    · exact lists_moved lists4 kind4 (fun c hc => ⟨c4.num c hc, c4.trial c hc⟩)
    · intro i empty
      rw [ninfo4]
      exact free.blank i ((emptyIff i).mp empty)
    · intro i _
      rw [ninfo4]
  · refine ⟨by have := c4.size; omega, fun i _ => by rw [node4], fun i _ => by rw [ninfo4], ?_⟩
    intro i lower upper
    rw [c4.size] at upper
    omega
  · intro c
    by_cases same : c = b
    · subst same
      simp [On, kinds, kind4]
    · simp only [On, kinds, kindOf, c4.size, c4.num c same, c4.trial c same, same, ne_eq,
        not_false_eq_true, and_true]

theorem searchBlock_spec (first : UInt8) (rest : List UInt8) {bi : Int} (free : Free t)
    (on : On t t.kinds .opened bi) : ∃ found, t.searchBlock bi first rest = some found ∧
      ∀ i, found = some i → t.Fits i first rest ∧ i / 256 = bi := by
  have hb := on_inBlock free.sized.blocks on
  have listed : bi ≠ 0 := by
    have := on.1
    omega
  obtain ⟨m, r⟩ := free.ring bi hb
  have place := listed_ehead free on (by decide)
  obtain ⟨ring, turned, perm⟩ := ring_from r.ring ((r.mem _).mpr place)
  have read : t.searchBlock bi first rest = _ := bind_run (blockAt_inside hb) rfl
  rw [read]
  split
  · have members : ∀ i ∈ (t.block bi).ehead :: ring, t.Empty i ∧ i / 256 = bi := fun i hi =>
      (r.mem i).mp (perm.subset hi)
    have short := block_cells turned.1 (fun i hi => (members i hi).2)
    simp only [List.length_cons] at short
    exact searchRing_spec free.sized hb listed rfl turned members (List.nil_append _).symm (by omega)
  · exact ⟨none, rfl, by simp⟩

theorem found_spec {first : UInt8} {rest : List UInt8} {bi : Int} (free : Free t)
    (on : On t t.kinds .opened bi) (fit : t.Fits e first rest) (block : e / 256 = bi) :
    ∃ t', t.modifyBlock bi (fun b => { b with ehead := e }) = some t' ∧ Free t' ∧ Grown t t' ∧
      t'.Fits e first rest ∧ On t' t'.kinds .opened (e / 256) := by
  have hb := on_inBlock free.sized.blocks on
  obtain ⟨m, r⟩ := free.ring bi hb
  let t' := t.setBlock bi { t.block bi with ehead := e }
  have change : OneBlock t t' bi := oneBlock_block hb
  have here : t'.block bi = { t.block bi with ehead := e } := by simp [t', setBlock]
  refine ⟨t', modifyBlock_inside hb, ?_, ?_, fit, ?_⟩
  · refine free.change (l := m) change ?_ ?_ ?_ ?_ (fun i h => free.blank i h) (fun _ _ => rfl)
    · refine ⟨r.ring, r.mem, fun _ => ?_, ?_⟩
      · rw [here]; exact (r.mem e).mpr ⟨fit.1, block⟩
      · rw [here]; exact r.num
    · rw [here]; exact ⟨block, fit.1.1⟩
    · rw [here]; exact free.trial bi hb
    · refine lists_frame (lists_setBlock (v := { t.block bi with ehead := e }) free.lists rfl rfl)
        (fun _ => ⟨rfl, rfl⟩) (fun _ => rfl) rfl ?_
      intro b _
      by_cases same : b = bi
      · subst same; rw [here]; rfl
      · simp [setBlock, t', same]
  · exact ⟨Int.le_refl _, fun _ _ => rfl, fun _ _ => rfl, fun i h h' => absurd h' (by
      have : t'.size = t.size := rfl
      omega)⟩
  · rw [block]
    refine ⟨on.1, on.2.1, ?_⟩
    rw [← on.2.2, kinds, kinds, here]
    rfl

/-- The scan: `l` holds the blocks still on Open, among them `bi` and the last `bz`. -/
theorem scanOpen_spec (first : UInt8) (rest : List UInt8) {bi bz : Int} {l : List Int} {fuel : Nat}
    (free : Free t) (ok : ListOk t .opened (On t t.kinds .opened) l) (start : bi ∈ l) (stop : bz ∈ l)
    (enough : l.length ≤ fuel) :
    ∃ found t', scanOpen first rest bz fuel bi t = some (found, t') ∧ Free t' ∧ Grown t t' ∧
      ∀ e, found = some e → t'.Fits e first rest ∧ On t' t'.kinds .opened (e / 256) := by
  induction fuel generalizing t bi l with
  | zero =>
    have := List.length_pos_of_mem start
    omega
  | succ fuel ih =>
    have on := (ok.mem bi).mp start
    obtain ⟨found, ran, fits⟩ := searchBlock_spec first rest free on
    cases found with
    | some e =>
      obtain ⟨fit, block⟩ := fits e rfl
      obtain ⟨t', run, free', grown, fit', on'⟩ := found_spec free on fit block
      refine ⟨some e, t', ?_, free', grown, ?_⟩
      · refine bind_run ran ?_
        exact bind_run run rfl
      · rintro i ⟨⟩
        exact ⟨fit', on'⟩
    | none =>
      obtain ⟨t1, run1, rejected⟩ := rejectBlock_spec (first :: rest).length free on
      have ran1 : scanOpen first rest bz (fuel + 1) bi t =
          if bi = bz then some (none, t1) else scanOpen first rest bz fuel (t.nextBlock bi) t1 := by
        refine bind_run ran ?_
        exact bind_run run1 rfl
      rw [ran1]
      by_cases last : bi = bz
      · exact ⟨none, t1, if_pos last, rejected.free, rejected.grown, by simp⟩
      · rw [if_neg last]
        obtain ⟨l1, ok1⟩ := rejected.free.lists .opened
        have members : ∀ b, b ∈ l1 ↔ b ∈ l ∧ b ≠ bi := fun b => by
          rw [ok1.mem, ok.mem]
          exact rejected.opened b
        have nextOther : t.nextBlock bi ≠ bi := by
          intro single
          have alone := (alone_iff ok.ring start).mp single
          rw [show l = [bi] from alone] at stop
          simp only [List.mem_singleton] at stop
          exact last stop.symm
        have shorter : l1.length < l.length := by
          have nodup : (bi :: l1).Nodup := by
            refine List.nodup_cons.mpr ⟨fun h => ((members bi).mp h).2 rfl, ring_nodup ok1.ring⟩
          have sub : bi :: l1 ⊆ l := by
            intro b hb'
            rcases List.mem_cons.mp hb' with rfl | h
            · exact start
            · exact ((members b).mp h).1
          exact (nodup.subperm sub).length_le
        obtain ⟨found, t2, run2, free2, grown2, fits2⟩ := ih rejected.free ok1
          ((members _).mpr ⟨next_member ok.ring start, nextOther⟩)
          ((members _).mpr ⟨stop, fun h => last h.symm⟩) (by omega)
        exact ⟨found, t2, run2, free2, rejected.grown.trans grown2, fits2⟩

theorem scanOpen_head (first : UInt8) (rest : List UInt8) (free : Free t) (opened : t.blockHeadOpen ≠ 0) :
    t.InBlock t.blockHeadOpen ∧ ∃ found t',
      scanOpen first rest (t.prevBlock t.blockHeadOpen) (t.size / 256).toNat t.blockHeadOpen t =
      some (found, t') ∧ Free t' ∧ Grown t t' ∧
        ∀ e, found = some e → t'.Fits e first rest ∧ On t' t'.kinds .opened (e / 256) := by
  have on : On t t.kinds .opened t.blockHeadOpen := head_listed free (by decide) opened
  obtain ⟨l, ok⟩ := free.lists .opened
  have start := (ok.mem _).mpr on
  have short : l.length ≤ (t.size / 256).toNat := by
    have inside : l.map Int.toNat ⊆ List.range (t.size / 256).toNat := by
      intro n hn
      obtain ⟨b, hb, rfl⟩ := List.mem_map.mp hn
      have := ((ok.mem b).mp hb).1; have := ((ok.mem b).mp hb).2.1
      exact List.mem_range.mpr (by omega)
    have nodup : (l.map Int.toNat).Nodup := by
      refine List.Nodup.map_on ?_ (ring_nodup ok.ring)
      intro x hx y hy same
      have := ((ok.mem x).mp hx).1; have := ((ok.mem y).mp hy).1
      omega
    simpa using (nodup.subperm inside).length_le
  exact ⟨on_inBlock free.sized.blocks on, scanOpen_spec first rest free ok start
    (prev_member ok.ring start) short⟩

theorem findPlaceInterval_spec (first : UInt8) (rest : List UInt8) (free : Free t) :
    ∃ e t', t.findPlaceInterval first rest = some (e, t') ∧ Free t' ∧ Grown t t' ∧
      t'.Fits e first rest ∧ On t' t'.kinds .opened (e / 256) := by
  have addNew : ∀ t1, Free t1 → Grown t t1 → ∃ e t', (do
      let (bi, t) ← t1.addBlock
      some (bi * 256, t)) = some (e, t') ∧ Free t' ∧ Grown t t' ∧ t'.Fits e first rest ∧
        On t' t'.kinds .opened (e / 256) := by
    intro t1 free1 grown1
    obtain ⟨t', run, free', grown', size', kind⟩ := addBlock_spec free1
    have sizeMod := free1.sized.size; have positive := free1.sized.pos
    have start : t1.size / 256 * 256 = t1.size := by omega
    refine ⟨_, t', bind_run run rfl, free', grown1.trans grown', ?_, ?_⟩
    all_goals rw [start]
    · refine ⟨grown'.empty _ (by omega) (by omega), fun c _ => ?_⟩
      have block : xorByte (xorByte t1.size first) c / 256 = t1.size / 256 :=
        (xorByte_block _ _).trans (xorByte_block _ _)
      exact grown'.empty _ (by omega) (by omega)
    · exact ⟨by omega, by omega, congrArg some kind⟩
  by_cases opened : t.blockHeadOpen ≠ 0
  · obtain ⟨inside, found, t1, run, free1, grown1, fits⟩ := scanOpen_head first rest free opened
    cases found with
    | some e =>
      refine ⟨e, t1, ?_, free1, grown1, fits e rfl⟩
      refine (if_pos opened).trans ?_
      refine bind_run (blockAt_inside inside) ?_
      exact bind_run run rfl
    | none =>
      obtain ⟨e, t2, run2, rest2⟩ := addNew t1 free1 grown1
      refine ⟨e, t2, ?_, rest2⟩
      refine (if_pos opened).trans ?_
      refine bind_run (blockAt_inside inside) ?_
      exact bind_run run run2
  · obtain ⟨e, t', run, rest'⟩ := addNew t free (Grown.refl t)
    refine ⟨e, t', ?_, rest'⟩
    exact (if_neg opened).trans (bind_run rfl run)

/-- What etdb_trie_pop_empty_node writes into the base of a delivered cell. -/
def bareBase (label : UInt8) : Int := if label ≠ 0 then -1 else 0

theorem unlinked_taken {n : Node} (free : Free t) (u : Unlinked t t' e) (empty : t.Empty e)
    (taken : 0 ≤ n.check) : Taken t (t'.setNode e n) e n := by
  have emptyIff := fun i => u.empty_iff (i := i) taken
  have size : (t'.setNode e n).size = t.size := u.change.size
  refine ⟨by omega, empty.not_occ, ?_, by simp [setNode], ?_, ?_, ?_⟩
  · intro i
    simp only [Occ, emptyIff, size]
    by_cases same : i = e
    · subst same
      have := empty.1
      have := empty.2.1
      simp only [ne_eq, not_true_eq_false, and_false, not_false_eq_true, and_true, or_true, iff_true]
      omega
    · simp [same]
  · rw [setNode, u.ninfo]
    exact free.blank e empty
  · intro i occ
    have other : i ≠ e := fun same => occ.2.2 (same ▸ empty)
    simp only [setNode, Function.update_of_ne other]
    exact u.occupied i occ.2.2
  · intro i _
    rw [setNode, u.ninfo]

theorem Grown.taken {n : Node} (g : Grown t t') (taken : Taken t' t'' e n) : Taken t t'' e n where
  size := Int.le_trans g.size taken.size
  fresh := fun occ => taken.fresh ((g.occ e).mpr occ)
  occ := fun i => by rw [taken.occ, g.occ]
  here := taken.here
  blank := taken.blank
  node := fun i occ => (taken.node i ((g.occ i).mpr occ)).trans (g.node i occ.2.1)
  ninfo := fun i occ => (taken.ninfo i ((g.occ i).mpr occ)).trans (g.ninfo i occ.2.1)

theorem takeEmpty_spec (label : UInt8) {origin : Int} (free : Free t) (empty : t.Empty e)
    (parent : 0 ≤ origin) : ∃ t', t.takeEmpty e label origin = some t' ∧ Free t' ∧
      Taken t t' e ⟨bareBase label, origin⟩ := by
  obtain ⟨t1, run, u, free1⟩ := unlinkEmpty_spec free empty
  let n : Node := ⟨bareBase label, origin⟩
  let t2 := t1.setNode e ⟨bareBase label, (t1.node e).check⟩
  have hn : t1.InNode e := by
    rw [u.change.inNode]
    exact empty.inNode free.sized
  refine ⟨t1.setNode e n, ?_, free1 n parent, unlinked_taken free u empty parent⟩
  refine bind_run run ?_
  refine bind_run (a := t2) (writeBase_inside hn) ?_
  rw [writeCheck_inside (show t2.InNode e from hn)]
  simp [t2, setNode, n]

theorem Free.setNode {n : Node} (free : Free t) (occ : t.Occ i) (taken : i = 0 ∨ 0 ≤ n.check) :
    Free (t.setNode i n) ∧ ∀ j, (t.setNode i n).Occ j ↔ t.Occ j := by
  have emptyIff : ∀ j, (t.setNode i n).Empty j ↔ t.Empty j := by
    intro j
    by_cases same : j = i
    · subst same
      have full := occ.not_empty
      refine iff_of_false ?_ full
      rintro ⟨pos, _, check⟩
      simp only [Trie.setNode, Function.update_self] at check
      omega
    · simp [Empty, Trie.setNode, same]
  have hb := free.sized.block_of_node (occ.inNode free.sized)
  obtain ⟨l, r⟩ := free.ring _ hb
  have cells : ∀ j ∈ l, (t.setNode i n).node j = t.node j := by
    intro j hj
    have other : j ≠ i := fun same => occ.not_empty (same ▸ ((r.mem j).mp hj).1)
    simp [Trie.setNode, other]
  refine ⟨free.change (l := l) (oneBlock_node rfl) ?_ (free.ehead _ hb) (free.trial _ hb)
    (lists_setNode free.lists) (fun j h => free.blank j ((emptyIff j).mp h)) (fun _ _ => rfl), ?_⟩
  · refine ⟨ring_congr r.ring (fun j hj => ?_) (fun j hj => ?_), ?_, r.ehead, r.num⟩
    · rw [nextFree, cells j hj]
    · rw [prevFree, cells j hj]
    · intro j
      rw [emptyIff]
      exact r.mem j
  · intro j
    simp only [Occ, emptyIff]
    rfl

theorem Free.setNinfo {v : Ninfo} (free : Free t) (occ : t.Occ i) : Free (t.setNinfo i v) where
  sized := ⟨free.sized.1, free.sized.2, free.sized.3, free.sized.4, free.sized.5, free.sized.6,
    free.sized.7, free.sized.8⟩
  ring := fun b hb => by
    obtain ⟨l, r⟩ := free.ring b hb
    exact ⟨l, r.ring, r.mem, r.ehead, r.num⟩
  ehead := free.ehead
  trial := free.trial
  lists := lists_frame free.lists (fun _ => ⟨rfl, rfl⟩) (fun k => by cases k <;> rfl) rfl (fun _ _ => rfl)
  blank := by
    intro j empty
    have other : j ≠ i := fun same => occ.not_empty (same ▸ empty)
    simp only [Trie.setNinfo, Function.update_of_ne other]
    exact free.blank j empty
  freshBlock := free.freshBlock
  freshNinfo := by
    intro j lower upper
    have other : j ≠ i := by
      have := occ.2.1
      have : (t.setNinfo i v).size = t.size := rfl
      omega
    simp only [Trie.setNinfo, Function.update_of_ne other]
    exact free.freshNinfo j lower upper

theorem pop_at (label : UInt8) {base origin : Int} (free : Free t) (settled : 0 ≤ base)
    (empty : t.Empty (xorByte base label)) (parent : 0 ≤ origin) :
    ∃ t', t.popEmptyNode base label origin = some (xorByte base label, t') ∧ Free t' ∧
      Taken t t' (xorByte base label) ⟨bareBase label, origin⟩ := by
  obtain ⟨t', run, free', taken⟩ := takeEmpty_spec label free empty parent
  refine ⟨t', ?_, free', taken⟩
  exact (if_neg (by omega)).trans (bind_run run rfl)

theorem pop_anywhere (label : UInt8) {base origin : Int} (free : Free t) (bare : base < 0)
    (parent : t.Occ origin) (proper : origin ≠ 0) :
    ∃ e t1 t', t.popEmptyNode base label origin = some (e, t') ∧ e / 256 ≠ 0 ∧ Free t' ∧
      Taken t t1 e ⟨bareBase label, origin⟩ ∧ (∀ i, t'.Occ i ↔ t1.Occ i) ∧
      t' = t1.setNode origin ⟨xorByte e label, (t.node origin).check⟩ := by
  obtain ⟨e, t0, run0, free0, grown, empty, block⟩ := findPlace_spec free
  obtain ⟨t1, run1, free1, taken1⟩ := takeEmpty_spec label free0 empty parent.1
  have taken := grown.taken taken1
  have occ1 : t1.Occ origin := (taken.occ origin).mpr (Or.inl parent)
  have check1 : (t1.node origin).check = (t.node origin).check := by rw [taken.node origin parent]
  have settled := free1.setNode (n := ⟨xorByte e label, (t1.node origin).check⟩) occ1
    (Or.inr (occ1.check proper))
  refine ⟨e, t1, _, ?_, block, settled.1, taken, settled.2, by rw [check1]⟩
  refine (if_pos bare).trans ?_
  refine bind_run run0 ?_
  refine bind_run run1 ?_
  exact bind_run (writeBase_inside (occ1.inNode free1.sized)) rfl

structure Released (t t' : Trie) (e : Int) : Prop where
  size : t.size ≤ t'.size
  occ : ∀ i, t'.Occ i ↔ t.Occ i ∧ i ≠ e
  node : ∀ i, t.Occ i → i ≠ e → t'.node i = t.node i
  ninfo : ∀ i, i ≠ e → t'.ninfo i = t.ninfo i

theorem push_released (free : Free t) (occ : t.Occ e) (proper : e ≠ 0)
    (room : e / 256 ≠ 0 ∨ ∃ i, t.Empty i ∧ i / 256 = 0) :
    ∃ t', t.pushEmptyNode e = some t' ∧ Free t' ∧ Released t t' e ∧ t'.size = t.size := by
  have pos : 0 < e := by have := occ.1; omega
  obtain ⟨t', run, free', freed⟩ := pushEmptyNode_spec free ⟨pos, occ.2.1⟩ (occ.check proper) room
  refine ⟨t', run, free', ⟨by have := freed.change.size; omega, ?_,
    fun i h other => freed.occupied i h.2.2 other, ?_⟩, freed.change.size⟩
  · intro i
    simp only [Occ, freed.empty_iff, freed.change.size]
    tauto
  · intro i other
    rw [freed.ninfo, Function.update_of_ne other]

theorem init_spec : ∃ t, init [] = some t ∧ Free t ∧ (∀ i, t.Occ i ↔ i = 0) ∧ t.node 0 = ⟨0, -1⟩ ∧
    t.ninfo 0 = blankNinfo := by
  let t : Trie := {
    node := fun i => if 0 ≤ i ∧ i < 256 then initNode i
      else if 256 ≤ i ∧ i < 256 then ⟨0, 0⟩ else ⟨0, 0⟩
    ninfo := fun i => if 0 ≤ i ∧ i < 256 then blankNinfo else blankNinfo
    block := Function.update (fun b => if 0 ≤ b ∧ b < 1 then EtdbTrie.freshBlock else ⟨0, 0, 0, 0, 0, 0⟩)
      0 { EtdbTrie.freshBlock with ehead := 1 }
    blockHeadFull := 0, blockHeadClose := 0, blockHeadOpen := 0, capacity := 256, size := 256
    reject := fun i => if 0 ≤ i ∧ i ≤ 256 then i + 1 else 0
    nodeLen := 256, ninfoLen := 256, blockLen := 1, reallocs := [] }
  have node : ∀ i, 0 ≤ i → i < 256 → t.node i = initNode i := fun i lower upper => if_pos ⟨lower, upper⟩
  have ninfo : ∀ i, t.ninfo i = blankNinfo := fun i => by simp [t]
  have block : t.block 0 = { EtdbTrie.freshBlock with ehead := 1 } := by simp [t]
  have emptyIff : ∀ i, t.Empty i ↔ 1 ≤ i ∧ i < 256 := by
    intro i
    constructor
    · rintro ⟨pos, upper, _⟩
      exact ⟨pos, upper⟩
    · rintro ⟨lower, upper⟩
      refine ⟨by omega, upper, ?_⟩
      rw [node i (by omega) upper, initNode]
      split_ifs <;> dsimp only <;> omega
  have single : ∀ b, t.InBlock b → b = 0 := by
    rintro b ⟨lower, upper, _⟩
    simp only [t] at upper
    omega
  refine ⟨t, rfl, ⟨⟨rfl, ?_, Int.le_refl _, rfl, rfl, rfl, rfl, rfl⟩, ?_, ?_, ?_, ?_,
    fun i _ => ninfo i, ?_, fun i _ _ => ninfo i⟩, ?_, rfl, ninfo 0⟩
  · exact Int.le_refl _
  · intro b hb
    obtain rfl := single b hb
    refine ⟨runFrom 1 255, run_ring (n := 254) ?_ ?_ ?_ ?_, ?_, ?_, ?_⟩
    · intro i lower upper
      rw [nextFree, node i (by omega) (by omega), initNode]
      split_ifs <;> dsimp only <;> omega
    · intro i lower upper
      rw [prevFree, node (i + 1) (by omega) (by omega), initNode]
      split_ifs <;> dsimp only <;> omega
    · rfl
    · rfl
    · intro i
      rw [mem_runFrom, emptyIff]
      omega
    · intro _
      rw [block, mem_runFrom]
      simp
    · rw [block, runFrom_length]
      rfl
  · intro b hb
    obtain rfl := single b hb
    rw [block]
    simp
  · intro b hb
    obtain rfl := single b hb
    rw [block]
    exact Or.inl rfl
  · have none : ∀ k b, ¬ On t t.kinds k b := by
      rintro k b ⟨pos, upper, _⟩
      simp only [t] at upper
      omega
    intro k
    refine ⟨[], ?_, fun b => iff_of_false (by simp) (none k b), ?_, ?_⟩
    · cases k
      · exact ring_single.mpr (by simp [nextBlock, prevBlock, block, EtdbTrie.freshBlock])
      · trivial
      · trivial
    · rintro rfl
      simp only [nextBlock, block]
      rfl
    · intro _
      exact Or.inl ⟨rfl, by cases k <;> rfl⟩
  · intro b lower upper
    simp only [t] at lower upper
    omega
  · intro i
    simp only [Occ, emptyIff]
    have size : t.size = 256 := rfl
    omega

end
end Trie
end EtdbTrie
