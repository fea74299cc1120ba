import Etdb.Lib.Ring
import Etdb.Trie.State

/- The three circular block lists. Close and Open are plain rings with a head;
   Full always contains block 0, which only serves as its sentinel. Which list a
   block is on is a function `kind`, so the lists are disjoint by definition. -/
namespace EtdbTrie
open CircularRing

inductive BlockList where
  | full
  | close
  | opened
  deriving DecidableEq, Repr

namespace Trie

def head (t : Trie) : BlockList → Int
  | .full => t.blockHeadFull
  | .close => t.blockHeadClose
  | .opened => t.blockHeadOpen

def setHead (t : Trie) : BlockList → Int → Trie
  | .full, v => { t with blockHeadFull := v }
  | .close, v => { t with blockHeadClose := v }
  | .opened, v => { t with blockHeadOpen := v }

/-- etdb_trie_pop_block; `headIn` names the head the source passes by address. -/
def popBlock (t : Trie) (bi : Int) (headIn : BlockList) (last : Bool) : Option Trie :=
  if last then some (t.setHead headIn 0)
  else do
    let b ← t.blockAt bi
    let t ← t.modifyBlock b.prev fun v => { v with next := b.next }
    let b ← t.blockAt bi
    let t ← t.modifyBlock b.next fun v => { v with prev := b.prev }
    let b ← t.blockAt bi
    some (if bi = t.head headIn then t.setHead headIn b.next else t)

/-- etdb_trie_push_block; `*tail_out` is read again after the block is written. -/
def pushBlock (t : Trie) (bi : Int) (headOut : BlockList) (empty : Bool) : Option Trie :=
  if empty then do
    let t ← t.modifyBlock bi fun v => { v with prev := bi, next := bi }
    some (t.setHead headOut bi)
  else do
    let head := t.head headOut
    let tail ← t.blockAt head
    let t ← t.modifyBlock bi fun v => { v with prev := tail.prev, next := head }
    let tail ← t.blockAt head
    let t ← t.modifyBlock tail.prev fun v => { v with next := bi }
    let t ← t.modifyBlock head fun v => { v with prev := bi }
    some (t.setHead headOut bi)

def transferBlock (t : Trie) (bi : Int) (headIn headOut : BlockList) : Option Trie := do
  let b ← t.blockAt bi
  let t ← t.popBlock bi headIn (bi = b.next)
  let b ← t.blockAt bi
  t.pushBlock bi headOut (t.head headOut = 0 && b.num ≠ 0)

abbrev nextBlock (t : Trie) (b : Int) : Int := (t.block b).next
abbrev prevBlock (t : Trie) (b : Int) : Int := (t.block b).prev

structure Relinked (t t' : Trie) : Prop where
  node : t'.node = t.node
  ninfo : t'.ninfo = t.ninfo
  size : t'.size = t.size
  capacity : t'.capacity = t.capacity
  reject : t'.reject = t.reject
  nodeLen : t'.nodeLen = t.nodeLen
  ninfoLen : t'.ninfoLen = t.ninfoLen
  blockLen : t'.blockLen = t.blockLen
  reallocs : t'.reallocs = t.reallocs
  num : ∀ b, (t'.block b).num = (t.block b).num
  bound : ∀ b, (t'.block b).reject = (t.block b).reject
  trial : ∀ b, (t'.block b).trial = (t.block b).trial
  ehead : ∀ b, (t'.block b).ehead = (t.block b).ehead
  outside : ∀ b, t.size / 256 ≤ b → t'.block b = t.block b

theorem Relinked.refl (t : Trie) : Relinked t t :=
  ⟨rfl, rfl, rfl, rfl, rfl, rfl, rfl, rfl, rfl, fun _ => rfl, fun _ => rfl, fun _ => rfl, fun _ => rfl,
    fun _ _ => rfl⟩

theorem Relinked.trans {t t' t'' : Trie} (h : Relinked t t') (h' : Relinked t' t'') :
    Relinked t t'' where
  node := h'.node.trans h.node
  ninfo := h'.ninfo.trans h.ninfo
  size := h'.size.trans h.size
  capacity := h'.capacity.trans h.capacity
  reject := h'.reject.trans h.reject
  nodeLen := h'.nodeLen.trans h.nodeLen
  ninfoLen := h'.ninfoLen.trans h.ninfoLen
  blockLen := h'.blockLen.trans h.blockLen
  reallocs := h'.reallocs.trans h.reallocs
  num := fun b => (h'.num b).trans (h.num b)
  bound := fun b => (h'.bound b).trans (h.bound b)
  trial := fun b => (h'.trial b).trans (h.trial b)
  ehead := fun b => (h'.ehead b).trans (h.ehead b)
  outside := fun b hb => (h'.outside b (by rw [h.size]; exact hb)).trans (h.outside b hb)

theorem relinked_head (t : Trie) (k : BlockList) (v : Int) : Relinked t (t.setHead k v) := by
  cases k <;> constructor <;> intros <;> rfl

theorem relinked_block {t : Trie} {b p n : Int} (inside : t.InBlock b) :
    Relinked t (t.setBlock b { t.block b with prev := p, next := n }) where
  node := rfl
  ninfo := rfl
  size := rfl
  capacity := rfl
  reject := rfl
  nodeLen := rfl
  ninfoLen := rfl
  blockLen := rfl
  reallocs := rfl
  num := by intro c; by_cases h : c = b <;> simp [setBlock, h]
  bound := by intro c; by_cases h : c = b <;> simp [setBlock, h]
  trial := by intro c; by_cases h : c = b <;> simp [setBlock, h]
  ehead := by intro c; by_cases h : c = b <;> simp [setBlock, h]
  outside := by
    intro c hc
    have distinct : c ≠ b := by have := inside.2.1; omega
    simp [setBlock, distinct]

theorem Relinked.inBlock {t t' : Trie} (h : Relinked t t') (b : Int) : t'.InBlock b ↔ t.InBlock b := by
  simp [InBlock, h.size, h.blockLen]

@[simp] theorem setHead_block (t : Trie) (k : BlockList) (v : Int) : (t.setHead k v).block = t.block := by
  cases k <;> rfl
@[simp] theorem setHead_size (t : Trie) (k : BlockList) (v : Int) : (t.setHead k v).size = t.size := by
  cases k <;> rfl
@[simp] theorem head_setBlock (t : Trie) (b : Int) (v : Block) (k : BlockList) :
    (t.setBlock b v).head k = t.head k := by cases k <;> rfl
@[simp] theorem head_setHead (t : Trie) (k k' : BlockList) (v : Int) :
    (t.setHead k v).head k' = if k' = k then v else t.head k' := by
  cases k <;> cases k' <;> rfl

/-- The cells on a list's ring: the Full list is closed by block 0. -/
def ringOf : BlockList → List Int → List Int
  | .full, l => 0 :: l
  | .close, l => l
  | .opened, l => l

structure ListOk (t : Trie) (k : BlockList) (member : Int → Prop) (l : List Int) : Prop where
  ring : IsRing t.nextBlock t.prevBlock (ringOf k l)
  mem : ∀ b, b ∈ l ↔ member b
  full : k = .full → t.head .full = t.nextBlock 0
  head : k ≠ .full → (l = [] ∧ t.head k = 0) ∨ t.head k ∈ l

def On (t : Trie) (kind : Int → Option BlockList) (k : BlockList) (b : Int) : Prop :=
  0 < b ∧ b < t.size / 256 ∧ kind b = some k

def Lists (t : Trie) (kind : Int → Option BlockList) : Prop := ∀ k, ∃ l, ListOk t k (On t kind k) l

theorem ringOf_subset (k : BlockList) (l : List Int) : l ⊆ ringOf k l := by
  cases k <;> simp [ringOf]

theorem mem_ringOf {k : BlockList} {l : List Int} {b : Int} :
    b ∈ ringOf k l ↔ b ∈ l ∨ (k = .full ∧ b = 0) := by
  cases k <;> simp [ringOf, or_comm]

theorem rings_disjoint {t : Trie} {kind : Int → Option BlockList} {k k' : BlockList}
    {l l' : List Int} {b : Int} (ok : ListOk t k (On t kind k) l)
    (ok' : ListOk t k' (On t kind k') l') (hb : b ∈ ringOf k l) (hb' : b ∈ ringOf k' l') :
    k = k' := by
  rcases mem_ringOf.mp hb with h | ⟨hk, h⟩ <;> rcases mem_ringOf.mp hb' with h' | ⟨hk', h'⟩
  · have on := ((ok.mem b).mp h).2.2
    have on' := ((ok'.mem b).mp h').2.2
    exact Option.some.inj (on.symm.trans on')
  · have := ((ok.mem b).mp h).1; omega
  · have := ((ok'.mem b).mp h').1; omega
  · exact hk.trans hk'.symm

theorem listOk_congr {t t' : Trie} {k : BlockList} {member member' : Int → Prop} {l : List Int}
    (ok : ListOk t k member l) (same : ∀ b ∈ ringOf k l, t'.nextBlock b = t.nextBlock b ∧
      t'.prevBlock b = t.prevBlock b) (head : t'.head k = t.head k)
    (members : ∀ b, member b ↔ member' b) : ListOk t' k member' l where
  ring := ring_congr ok.ring (fun b hb => (same b hb).1) (fun b hb => (same b hb).2)
  mem := fun b => (ok.mem b).trans (members b)
  full := by
    rintro rfl
    have zero := (same 0 (by simp [ringOf])).1
    rw [head, zero]
    exact ok.full rfl
  head := fun hk => by rw [head]; exact ok.head hk

/-- A ring of the members, and of block 0 for Full, is a list: Full is turned to start at block 0. -/
theorem listOk_of_ring {t : Trie} {k : BlockList} {member : Int → Prop} {m : List Int}
    (ring : IsRing t.nextBlock t.prevBlock m) (mem : ∀ b, b ∈ m ↔ member b ∨ k = .full ∧ b = 0)
    (proper : ¬ member 0) (full : k = .full → t.head .full = t.nextBlock 0)
    (head : k ≠ .full → t.head k ∈ m) : ∃ l, ListOk t k member l := by
  cases k with
  | full =>
    have zero : (0 : Int) ∈ m := (mem 0).mpr (Or.inr ⟨rfl, rfl⟩)
    obtain ⟨l, turned, perm⟩ := ring_from ring zero
    have zeroOut := (List.nodup_cons.mp turned.1).1
    refine ⟨l, turned, ?_, full, fun h => absurd rfl h⟩
    intro b
    have both : b ∈ (0 : Int) :: l ↔ b ∈ m := perm.mem_iff
    rw [mem b, List.mem_cons] at both
    by_cases hz : b = 0
    · subst hz
      simp [zeroOut, proper]
    · simpa [hz] using both
  | close =>
    refine ⟨m, ring, fun b => ?_, (fun h => by cases h), fun h => Or.inr (head h)⟩
    simpa using mem b
  | opened =>
    refine ⟨m, ring, fun b => ?_, (fun h => by cases h), fun h => Or.inr (head h)⟩
    simpa using mem b

theorem on_inBlock {t : Trie} {kind : Int → Option BlockList} {k : BlockList} {b : Int}
    (len : t.size / 256 ≤ t.blockLen) (on : On t kind k b) : t.InBlock b := by
  obtain ⟨h1, h2, _⟩ := on
  exact ⟨by omega, h2, by omega⟩

theorem ring_inBlock {t : Trie} {kind : Int → Option BlockList} {k : BlockList} {l : List Int}
    {b : Int} (len : t.size / 256 ≤ t.blockLen) (pos : 256 ≤ t.size)
    (ok : ListOk t k (On t kind k) l) (hb : b ∈ ringOf k l) : t.InBlock b := by
  rcases mem_ringOf.mp hb with h | ⟨_, rfl⟩
  · exact on_inBlock len ((ok.mem b).mp h)
  · exact ⟨by omega, by omega, by omega⟩

structure Popped (t t' : Trie) (bi : Int) (k : BlockList) : Prop where
  relinked : Relinked t t'
  nexts : ∀ u, t'.nextBlock u = if u = t.prevBlock bi then t.nextBlock bi else t.nextBlock u
  prevs : ∀ u, t'.prevBlock u = if u = t.nextBlock bi then t.prevBlock bi else t.prevBlock u
  heads : ∀ k', t'.head k' = if k' = k ∧ bi = t.head k then t.nextBlock bi else t.head k'

theorem popBlock_joined {t : Trie} {bi : Int} (k : BlockList) {l : List Int}
    (ring : IsRing t.nextBlock t.prevBlock l) (member : bi ∈ l) (others : t.nextBlock bi ≠ bi)
    (inside : ∀ b ∈ l, t.InBlock b) :
    ∃ t', t.popBlock bi k false = some t' ∧ Popped t t' bi k := by
  have hb := inside bi member
  have hp : t.InBlock (t.prevBlock bi) := inside _ (prev_member ring member)
  have hn : t.InBlock (t.nextBlock bi) := inside _ (next_member ring member)
  have prevOther : t.prevBlock bi ≠ bi := by
    intro same
    have back := next_prev ring member
    rw [same] at back
    exact others back
  let t1 := t.setBlock (t.prevBlock bi) { t.block (t.prevBlock bi) with next := t.nextBlock bi }
  let t2 := t1.setBlock (t.nextBlock bi) { t1.block (t.nextBlock bi) with prev := t.prevBlock bi }
  have r1 : Relinked t t1 := relinked_block hp
  have r2 : Relinked t1 t2 := relinked_block ((r1.inBlock _).mpr hn)
  have b1 : t1.block bi = t.block bi := by simp [t1, setBlock, prevOther.symm]
  have b2 : t2.block bi = t.block bi := by
    have distinct : bi ≠ (t.block bi).next := fun h => others h.symm
    simp [t2, setBlock, distinct, b1]
  have h1 : t1.InBlock bi := (r1.inBlock _).mpr hb
  have h2 : t2.InBlock bi := (r2.inBlock _).mpr h1
  refine ⟨if bi = t.head k then t2.setHead k (t.nextBlock bi) else t2, ?_, ?_, ?_, ?_, ?_⟩
  · simp only [popBlock, Bool.false_eq_true, ↓reduceIte]
    refine bind_run (blockAt_inside hb) ?_
    refine bind_run (a := t1) (modifyBlock_inside hp) ?_
    refine bind_run (blockAt_inside h1) ?_
    rw [b1]
    refine bind_run (a := t2) (modifyBlock_inside ((r1.inBlock _).mpr hn)) ?_
    refine bind_run (blockAt_inside h2) ?_
    rw [b2]
    simp [t1, t2]
  · split
    · exact (r1.trans r2).trans (relinked_head t2 k _)
    · exact r1.trans r2
  · intro u
    have links : (t2.block u).next = if u = t.prevBlock bi then t.nextBlock bi else t.nextBlock u := by
      simp only [t2, t1, setBlock, Function.update_apply]
      split_ifs <;> simp_all
    split
    · rw [nextBlock, setHead_block]; exact links
    · exact links
  · intro u
    have links : (t2.block u).prev = if u = t.nextBlock bi then t.prevBlock bi else t.prevBlock u := by
      simp only [t2, t1, setBlock, Function.update_apply]
      split_ifs <;> simp_all
    split
    · rw [prevBlock, setHead_block]; exact links
    · exact links
  · intro k'
    split
    · rename_i same
      by_cases hk : k' = k <;> simp [hk, same, t2, t1]
    · rename_i other
      simp [other, t2, t1]

theorem kind_none {t t' : Trie} {kind : Int → Option BlockList} {bi : Int} {k k' : BlockList}
    (on : On t kind k bi) (different : k' ≠ k) (size : t'.size = t.size) (b : Int) :
    On t kind k' b ↔ On t' (Function.update kind bi none) k' b := by
  by_cases hb : b = bi
  · subst hb
    simp [On, on.2.2, different.symm]
  · simp [On, hb, size]

theorem kind_some {t t' : Trie} {kind : Int → Option BlockList} {bi : Int} {k k' : BlockList}
    (off : kind bi = none) (different : k' ≠ k) (size : t'.size = t.size) (b : Int) :
    On t kind k' b ↔ On t' (Function.update kind bi (some k)) k' b := by
  by_cases hb : b = bi
  · subst hb
    simp [On, off, different.symm]
  · simp [On, hb, size]

section Pop
variable {t t' : Trie} {kind : Int → Option BlockList} {bi : Int} {k : BlockList} {l : List Int}

theorem popBlock_alone (ok : ListOk t k (On t kind k) l) (on : On t kind k bi)
    (last : t.nextBlock bi = bi) :
    ListOk (t.setHead k 0) k (On (t.setHead k 0) (Function.update kind bi none) k) [] := by
  have onRing := ringOf_subset k l ((ok.mem bi).mpr on)
  have single := (alone_iff ok.ring onRing).mp last
  have notFull : k ≠ .full := by
    rintro rfl
    have := on.1
    simp only [ringOf, List.cons.injEq] at single
    omega
  refine ⟨?_, ?_, fun h => absurd h notFull, fun _ => Or.inl ⟨rfl, by simp⟩⟩
  · cases k with
    | full => exact absurd rfl notFull
    | close => trivial
    | opened => trivial
  · intro b
    simp only [List.not_mem_nil, false_iff]
    rintro ⟨h1, h2, h3⟩
    by_cases hb : b = bi
    · simp [hb] at h3
    · have inL : b ∈ l := (ok.mem b).mpr ⟨h1, by simpa using h2, by simpa [hb] using h3⟩
      have member := ringOf_subset k l inL
      rw [single] at member
      exact hb (by simpa using member)

theorem Popped.own (popped : Popped t t' bi k) (ok : ListOk t k (On t kind k) l)
    (on : On t kind k bi) (last : t.nextBlock bi ≠ bi) :
    ∃ m, ListOk t' k (On t' (Function.update kind bi none) k) m := by
  have member := (ok.mem bi).mpr on
  have onRing := ringOf_subset k l member
  obtain ⟨m, ring, perm⟩ := unlink t'.nextBlock t'.prevBlock ok.ring onRing last
    (by simp [popped.nexts]) (by simp [popped.prevs])
    (fun u _ _ hu => by simp [popped.nexts, hu]) (fun u _ _ hu => by simp [popped.prevs, hu])
  have biOut := (List.nodup_cons.mp (perm.nodup_iff.mpr (ring_nodup ok.ring))).1
  have members : ∀ b, b ∈ m ↔ b ∈ ringOf k l ∧ b ≠ bi := by
    intro b
    rw [← perm.mem_iff]
    by_cases hb : b = bi <;> simp [hb, biOut]
  refine listOk_of_ring ring ?_ (fun h => by have := h.1; omega) ?_ ?_
  · intro b
    rw [members b, mem_ringOf, ok.mem b]
    have pos := on.1
    by_cases hb : b = bi
    · have listed : bi ≠ 0 := by omega
      simp [On, hb, listed]
    · simp [On, hb, popped.relinked.size]
  · rintro rfl
    have headIs := ok.full rfl
    rw [popped.heads, popped.nexts]
    by_cases first : bi = t.nextBlock 0
    · have back : t.prevBlock bi = 0 := by
        rw [first]; exact prev_next ok.ring (by simp [ringOf])
      rw [if_pos ⟨rfl, by rw [headIs]; exact first⟩, if_pos back.symm]
    · have back : ¬ 0 = t.prevBlock bi := by
        intro h
        have := next_prev ok.ring onRing
        rw [← h] at this
        exact first this.symm
      rw [if_neg (fun h => first (by rw [h.2, headIs])), if_neg back]
      exact headIs
  · intro notFull
    rcases ok.head notFull with ⟨empty, _⟩ | headIn
    · rw [empty] at member
      cases member
    · rw [popped.heads]
      split
      · exact (members _).mpr ⟨next_member ok.ring onRing, last⟩
      · rename_i other
        exact (members _).mpr ⟨ringOf_subset k l headIn, fun h => other ⟨rfl, h.symm⟩⟩

theorem popBlock_lists (len : t.size / 256 ≤ t.blockLen) (lists : Lists t kind) (on : On t kind k bi) :
    ∃ t', t.popBlock bi k (decide (bi = (t.block bi).next)) = some t' ∧ Relinked t t' ∧
      Lists t' (Function.update kind bi none) := by
  obtain ⟨l, ok⟩ := lists k
  have pos : 256 ≤ t.size := by have := on.1; have := on.2.1; omega
  have onRing := ringOf_subset k l ((ok.mem bi).mpr on)
  by_cases last : t.nextBlock bi = bi
  · refine ⟨t.setHead k 0, by simp [popBlock, last], relinked_head t k 0, ?_⟩
    intro k'
    by_cases hk : k' = k
    · subst hk
      exact ⟨[], popBlock_alone ok on last⟩
    · obtain ⟨l', ok'⟩ := lists k'
      refine ⟨l', listOk_congr ok' ?_ (by simp [hk]) (kind_none on hk (by simp))⟩
      intro b _
      simp [nextBlock, prevBlock]
  · obtain ⟨t', run, popped⟩ := popBlock_joined k ok.ring onRing last
      (fun b hb => ring_inBlock len pos ok hb)
    refine ⟨t', by rw [decide_eq_false (fun h => last h.symm)]; exact run, popped.relinked, ?_⟩
    intro k'
    by_cases hk : k' = k
    · subst hk
      exact popped.own ok on last
    · obtain ⟨l', ok'⟩ := lists k'
      refine ⟨l', listOk_congr ok' ?_ (by simp [popped.heads, hk])
        (kind_none on hk popped.relinked.size)⟩
      intro b hb
      -- no cell of another list is a neighbour of `bi`
      have out : b ∉ ringOf k l := fun hb' => hk (rings_disjoint ok' ok hb hb')
      have h1 : b ≠ t.prevBlock bi := fun h => out (h ▸ prev_member ok.ring onRing)
      have h2 : b ≠ t.nextBlock bi := fun h => out (h ▸ next_member ok.ring onRing)
      exact ⟨by simp [popped.nexts, h1], by simp [popped.prevs, h2]⟩

end Pop

structure Pushed (t t' : Trie) (bi : Int) (k : BlockList) : Prop where
  relinked : Relinked t t'
  nexts : ∀ u, t'.nextBlock u = if u = t.prevBlock (t.head k) then bi
    else if u = bi then t.head k else t.nextBlock u
  prevs : ∀ u, t'.prevBlock u = if u = t.head k then bi
    else if u = bi then t.prevBlock (t.head k) else t.prevBlock u
  heads : ∀ k', t'.head k' = if k' = k then bi else t.head k'

theorem pushBlock_joined {t : Trie} {bi : Int} (k : BlockList) {l : List Int}
    (ring : IsRing t.nextBlock t.prevBlock l) (member : t.head k ∈ l) (fresh : bi ∉ l)
    (inside : ∀ b ∈ bi :: l, t.InBlock b) :
    ∃ t', t.pushBlock bi k false = some t' ∧ Pushed t t' bi k := by
  have prevIn := prev_member ring member
  have hb := inside bi (by simp)
  have hh := inside _ (List.mem_cons_of_mem bi member)
  have hp := inside _ (List.mem_cons_of_mem bi prevIn)
  have headOther : t.head k ≠ bi := fun h => fresh (h ▸ member)
  have prevOther : t.prevBlock (t.head k) ≠ bi := fun h => fresh (h ▸ prevIn)
  let h := t.head k
  let p := t.prevBlock h
  let t1 := t.setBlock bi { t.block bi with prev := p, next := h }
  let t2 := t1.setBlock p { t1.block p with next := bi }
  let t3 := t2.setBlock h { t2.block h with prev := bi }
  have r1 : Relinked t t1 := relinked_block hb
  have r2 : Relinked t1 t2 := relinked_block ((r1.inBlock _).mpr hp)
  have r12 := r1.trans r2
  have r3 : Relinked t2 t3 := relinked_block ((r12.inBlock _).mpr hh)
  have b1 : t1.block (t.head k) = t.block (t.head k) := by simp [t1, setBlock, headOther]
  refine ⟨t3.setHead k bi, ?_, (r12.trans r3).trans (relinked_head t3 k bi), ?_, ?_, ?_⟩
  · simp only [pushBlock, Bool.false_eq_true, ↓reduceIte]
    refine bind_run (blockAt_inside hh) ?_
    refine bind_run (a := t1) (modifyBlock_inside hb) ?_
    refine bind_run (blockAt_inside ((r1.inBlock _).mpr hh)) ?_
    rw [b1]
    refine bind_run (a := t2) (modifyBlock_inside ((r1.inBlock _).mpr hp)) ?_
    exact bind_run (a := t3) (modifyBlock_inside ((r12.inBlock _).mpr hh)) rfl
  · intro u
    rw [nextBlock, setHead_block]
    simp only [t3, t2, t1, setBlock, Function.update_apply]
    grind
  · intro u
    rw [prevBlock, setHead_block]
    simp only [t3, t2, t1, setBlock, Function.update_apply]
    grind
  · intro k'
    simp [t3, t2, t1]

section Push
variable {t t' : Trie} {kind : Int → Option BlockList} {bi : Int} {k : BlockList} {l : List Int}

theorem off_ring (ok : ListOk t k (On t kind k) l) (pos : 0 < bi) (off : kind bi = none) :
    bi ∉ ringOf k l := by
  intro h
  rcases mem_ringOf.mp h with h | ⟨_, h⟩
  · have on := ((ok.mem bi).mp h).2.2
    rw [off] at on
    cases on
  · omega

theorem on_pushed (pos : 0 < bi) (bound : bi < t.size / 256) (size : t'.size = t.size) (b : Int) :
    On t' (Function.update kind bi (some k)) k b ↔ b = bi ∨ On t kind k b := by
  by_cases h : b = bi
  · subst h
    simp [On, size, pos, bound]
  · simp [On, h, size]

theorem pushBlock_first (ok : ListOk t k (On t kind k) l) (pos : 0 < bi) (bound : bi < t.size / 256)
    (notFull : k ≠ .full) (empty : t.head k = 0) :
    let t' := (t.setBlock bi { t.block bi with prev := bi, next := bi }).setHead k bi
    ListOk t' k (On t' (Function.update kind bi (some k)) k) [bi] := by
  intro t'
  have lEmpty : l = [] := by
    rcases ok.head notFull with ⟨h, _⟩ | h
    · exact h
    · have := ((ok.mem _).mp h).1
      omega
  have single : IsRing t'.nextBlock t'.prevBlock [bi] := by
    rw [ring_single]
    simp [nextBlock, prevBlock, t', setBlock]
  refine ⟨?_, ?_, fun h => absurd h notFull, fun _ => Or.inr (by simp [t'])⟩
  · cases k with
    | full => exact absurd rfl notFull
    | close => exact single
    | opened => exact single
  · intro b
    rw [on_pushed pos bound (by simp [t', setBlock]), ← ok.mem b, lEmpty]
    simp

theorem Pushed.own (pushed : Pushed t t' bi k) (ok : ListOk t k (On t kind k) l) (pos : 0 < bi)
    (bound : bi < t.size / 256) (off : kind bi = none) (headIn : t.head k ∈ ringOf k l) :
    ∃ m, ListOk t' k (On t' (Function.update kind bi (some k)) k) m := by
  have fresh := off_ring ok pos off
  have prevIn := prev_member ok.ring headIn
  have back : t.nextBlock (t.prevBlock (t.head k)) = t.head k := next_prev ok.ring headIn
  have headOther : bi ≠ t.head k := fun h => fresh (h ▸ headIn)
  have prevOther : bi ≠ t.prevBlock (t.head k) := fun h => fresh (h ▸ prevIn)
  have other : ∀ u ∈ ringOf k l, u ≠ bi := fun u hu h => fresh (h ▸ hu)
  obtain ⟨m, ring, perm⟩ : ∃ m, IsRing t'.nextBlock t'.prevBlock m ∧ m.Perm (bi :: ringOf k l) := by
    apply insert_behind t'.nextBlock t'.prevBlock ok.ring prevIn fresh
    · rw [pushed.nexts, if_pos rfl]
    · rw [pushed.nexts, if_neg prevOther, if_pos rfl, back]
    · rw [pushed.prevs, if_neg headOther, if_pos rfl]
    · rw [pushed.prevs, back, if_pos rfl]
    · intro u hu h
      simp [pushed.nexts, h, other u hu]
    · intro u hu h
      rw [back] at h
      simp [pushed.prevs, h, other u hu]
  have members : ∀ b, b ∈ m ↔ b = bi ∨ b ∈ ringOf k l := by
    intro b
    rw [perm.mem_iff, List.mem_cons]
  refine listOk_of_ring ring ?_ (fun h => by have := h.1; omega) ?_ ?_
  · intro b
    rw [members b, mem_ringOf, on_pushed pos bound pushed.relinked.size, ok.mem b, or_assoc]
  · rintro rfl
    have zeroPrev : t.prevBlock (t.head .full) = 0 := by
      rw [ok.full rfl]
      exact prev_next ok.ring (by simp [ringOf])
    rw [pushed.heads, pushed.nexts, if_pos rfl, if_pos zeroPrev.symm]
  · intro _
    rw [pushed.heads, if_pos rfl]
    exact (members bi).mpr (Or.inl rfl)

theorem pushBlock_lists (bi : Int) (k : BlockList) (len : t.size / 256 ≤ t.blockLen)
    (lists : Lists t kind) (pos : 0 < bi) (bound : bi < t.size / 256) (off : kind bi = none)
    (num : k = .full ↔ (t.block bi).num = 0) :
    ∃ t', t.pushBlock bi k (t.head k = 0 && (t.block bi).num ≠ 0) = some t' ∧ Relinked t t' ∧
      Lists t' (Function.update kind bi (some k)) := by
  obtain ⟨l, ok⟩ := lists k
  have hb : t.InBlock bi := ⟨by omega, bound, by omega⟩
  have apart : ∀ k' l' b, ListOk t k' (On t kind k') l' → b ∈ ringOf k' l' → b ≠ bi :=
    fun k' l' b ok' hb' h => off_ring ok' pos off (h ▸ hb')
  by_cases empty : t.head k = 0 ∧ (t.block bi).num ≠ 0
  · have notFull : k ≠ .full := fun h => empty.2 (num.mp h)
    let t1 := t.setBlock bi { t.block bi with prev := bi, next := bi }
    have r1 : Relinked t t1 := relinked_block hb
    refine ⟨t1.setHead k bi, ?_, r1.trans (relinked_head t1 k bi), ?_⟩
    · have flag : (decide (t.head k = 0) && decide ((t.block bi).num ≠ 0)) = true := by
        simp [empty.1, empty.2]
      rw [flag]
      simp only [pushBlock, ↓reduceIte]
      exact bind_run (a := t1) (modifyBlock_inside hb) rfl
    · intro k'
      by_cases hk : k' = k
      · subst hk
        exact ⟨[bi], pushBlock_first ok pos bound notFull empty.1⟩
      · obtain ⟨l', ok'⟩ := lists k'
        refine ⟨l', listOk_congr ok' ?_ (by simp [hk, t1])
          (kind_some off hk (by simp [t1, setBlock]))⟩
        intro b hb'
        simp [nextBlock, prevBlock, t1, setBlock, apart k' l' b ok' hb']
  · have headIn : t.head k ∈ ringOf k l := by
      by_cases full : k = .full
      · subst full
        rw [ok.full rfl]
        exact next_member ok.ring (by simp [ringOf])
      · rcases ok.head full with ⟨_, h⟩ | h
        · exact absurd ⟨h, fun zero => full (num.mpr zero)⟩ empty
        · exact ringOf_subset k l h
    obtain ⟨t', run, pushed⟩ := pushBlock_joined k ok.ring headIn (off_ring ok pos off) (by
      intro b hb'
      rcases List.mem_cons.mp hb' with rfl | h
      · exact hb
      · exact ring_inBlock len (by omega) ok h)
    have flag : (decide (t.head k = 0) && decide ((t.block bi).num ≠ 0)) = false := by
      rw [← Bool.not_eq_true]
      simpa using empty
    refine ⟨t', by rw [flag]; exact run, pushed.relinked, ?_⟩
    intro k'
    by_cases hk : k' = k
    · subst hk
      exact pushed.own ok pos bound off headIn
    · obtain ⟨l', ok'⟩ := lists k'
      refine ⟨l', listOk_congr ok' ?_ (by simp [pushed.heads, hk])
        (kind_some off hk pushed.relinked.size)⟩
      intro b hb'
      have distinct := apart k' l' b ok' hb'
      have out : b ∉ ringOf k l := fun own => hk (rings_disjoint ok' ok hb' own)
      have h1 : b ≠ t.head k := fun h => out (h ▸ headIn)
      have h2 : b ≠ t.prevBlock (t.head k) := fun h => out (h ▸ prev_member ok.ring headIn)
      exact ⟨by simp [pushed.nexts, h2, distinct], by simp [pushed.prevs, h1, distinct]⟩

end Push

theorem transferBlock_lists {t : Trie} {kind : Int → Option BlockList} {bi : Int}
    {kIn : BlockList} (kOut : BlockList) (len : t.size / 256 ≤ t.blockLen) (lists : Lists t kind)
    (on : On t kind kIn bi) (num : kOut = .full ↔ (t.block bi).num = 0) :
    ∃ t', t.transferBlock bi kIn kOut = some t' ∧ Relinked t t' ∧
      Lists t' (Function.update kind bi (some kOut)) := by
  obtain ⟨t1, run1, r1, lists1⟩ := popBlock_lists len lists on
  have len1 : t1.size / 256 ≤ t1.blockLen := by rw [r1.size, r1.blockLen]; exact len
  obtain ⟨t2, run2, r2, lists2⟩ := pushBlock_lists _ kOut len1 lists1 on.1
    (by rw [r1.size]; exact on.2.1) (by simp) (by rw [r1.num]; exact num)
  refine ⟨t2, ?_, r1.trans r2, by simpa using lists2⟩
  have hb := on_inBlock len on
  refine bind_run (blockAt_inside hb) ?_
  refine bind_run run1 ?_
  exact bind_run (blockAt_inside ((r1.inBlock _).mpr hb)) run2

end Trie
end EtdbTrie
