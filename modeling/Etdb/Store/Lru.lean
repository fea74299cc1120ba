import Etdb.Lib.Queue
import Mathlib.Data.List.Dedup
import Mathlib.Algebra.Group.Nat.Defs
import Mathlib.Algebra.Ring.Int.Defs

/- etdb_lru.c. Every node lies in two queues at once, the recency list and the chain of its
   hash head; a link is addressed by the cell it lies in and by which of the two it is.
   Pages are of any type, and the file is the list of its pages. -/
namespace EtdbStore
open LinkedQueue

/-- What holds an etdb_lru_node_t. -/
inductive Cell where
  | hashHead (pos : Nat)
  | lruHead
  | node (at' : Nat)
  deriving DecidableEq

inductive Link where
  | hash (cell : Cell)
  | lru (cell : Cell)
  deriving DecidableEq

/-- (etdb_lru_node_t*)next: hash_link is the first field. -/
def Link.hashOwner : Link → Option Cell
  | .hash cell => some cell
  | .lru _ => none

/-- (etdb_lru_node_t*)((uint8_t*)top - offset) -/
def Link.lruOwner : Link → Option Cell
  | .hash _ => none
  | .lru cell => some cell

/-- etdb_lru_t with the memory behind it; `pool` counts what has been taken from the pool,
    and is the address of what is taken next. -/
structure Lru (Page : Type) where
  links : Links Link
  pageId : Cell → Int
  pageValue : Cell → Nat
  buffer : Nat → Page
  file : List Page
  capacity : Nat
  size : Nat
  hashHeadSize : Nat
  pool : Nat

namespace Lru
variable {Page : Type}

def initHeads (links : Links Link) : Nat → Links Link
  | 0 => links
  | pos + 1 => ((initHeads links pos).init (.hash (.hashHead pos))).init (.lru (.hashHead pos))

/-- etdb_init_lru over memory with any contents -/
def initLru (links : Links Link) (pageId : Cell → Int) (pageValue : Cell → Nat) (buffer : Nat → Page)
    (file : List Page) (capacity : Nat) : Lru Page where
  links := (initHeads links (capacity / 3)).init (.lru .lruHead)
  pageId := pageId
  pageValue := pageValue
  buffer := buffer
  file := file
  capacity := capacity
  size := 0
  hashHeadSize := capacity / 3
  pool := 0

def chainOf (lru : Lru Page) (pageId : Int) : Option Link :=
  if lru.hashHeadSize = 0 then none
  else some (.hash (.hashHead (pageId.tmod lru.hashHeadSize % 2 ^ 32).toNat))

/-- The loop over a chain, for at most `turns` of its links. -/
def search (lru : Lru Page) (pageId : Int) (head : Link) : Nat → Link → Option (Option Cell)
  | 0, _ => none
  | turns + 1, next =>
    if next = head then some none
    else
      match next.hashOwner with
      | none => none
      | some n => if lru.pageId n = pageId then some (some n) else lru.search pageId head turns
          (lru.links.next next)

/-- The least recent node when the cache is full, and a new one from the pool otherwise. -/
def obtain (lru : Lru Page) : Option (Cell × Lru Page) :=
  if lru.size = lru.capacity then
    let top := lru.links.prev (.lru .lruHead)
    match top.lruOwner with
    | none => none
    | some n => some (n, { lru with links := (lru.links.remove top).remove (.hash n) })
  else
    let n := Cell.node lru.pool
    some (n, { lru with
      pageValue := fun c => if c = n then lru.pool + 1 else lru.pageValue c
      size := lru.size + 1
      pool := lru.pool + 2 })

def setPageId (lru : Lru Page) (n : Cell) (pageId : Int) : Lru Page :=
  { lru with pageId := fun c => if c = n then pageId else lru.pageId c }

/-- lseek and read; what is read behind the end of the file leaves the buffer alone. -/
def readPage (lru : Lru Page) (n : Cell) : Lru Page :=
  match if 0 ≤ lru.pageId n then lru.file[(lru.pageId n).toNat]? else none with
  | none => lru
  | some page => { lru with buffer := fun a => if a = lru.pageValue n then page else lru.buffer a }

def insert (lru : Lru Page) (head : Link) (n : Cell) : Lru Page :=
  { lru with links := (lru.links.insertHead (.lru .lruHead) (.lru n)).insertHead head (.hash n) }

def touch (lru : Lru Page) (n : Cell) : Lru Page :=
  { lru with links := (lru.links.remove (.lru n)).insertHead (.lru .lruHead) (.lru n) }

/-- etdb_lru_fetch; the result is the address of the page. -/
def fetch (lru : Lru Page) (pageId : Int) : Option (Nat × Lru Page) := do
  let head ← lru.chainOf pageId
  match ← lru.search pageId head (lru.size + 1) (lru.links.next head) with
  | some n => some (lru.pageValue n, lru.touch n)
  | none =>
    let (n, lru) ← lru.obtain
    let lru := ((lru.setPageId n pageId).readPage n).insert head n
    some (lru.pageValue n, lru)

def allocEntry (lru : Lru Page) (pageId : Int) : Option (Nat × Lru Page) := do
  let head ← lru.chainOf pageId
  let (n, lru) ← lru.obtain
  let lru := (lru.setPageId n pageId).insert head n
  some (lru.pageValue n, lru)

def Chained (lru : Lru Page) (nodes : List Cell) (pos : Nat) (chain : List Cell) : Prop :=
  lru.links.Ring (.hash (.hashHead pos) :: chain.map .hash) ∧
    ∀ c, c ∈ chain ↔ c ∈ nodes ∧ lru.pageId c % lru.hashHeadSize = pos

/-- The nodes of the recency list, most recent first, lie in the two kinds of queues and
    nowhere else, each with a page and a buffer of its own. -/
structure Queues (lru : Lru Page) (nodes : List Cell) : Prop where
  heads : 0 < lru.hashHeadSize ∧ lru.hashHeadSize < 2 ^ 32
  recency : lru.links.Ring (.lru .lruHead :: nodes.map .lru)
  chains : ∀ pos, pos < lru.hashHeadSize → ∃ chain, lru.Chained nodes pos chain
  ids : (nodes.map lru.pageId).Nodup
  buffers : (nodes.map lru.pageValue).Nodup
  positive : ∀ c ∈ nodes, 0 ≤ lru.pageId c
  taken : ∀ c ∈ nodes, (∃ at', c = .node at' ∧ at' < lru.pool) ∧ lru.pageValue c < lru.pool

structure Keeps (lru : Lru Page) (nodes : List Cell) : Prop where
  queues : lru.Queues nodes
  size : lru.size = nodes.length
  fits : lru.size ≤ lru.capacity
  room : 0 < lru.capacity

end Lru

section
variable {Page : Type} {lru : Lru Page} {nodes before after : List Cell} {n : Cell} {id : Int}

open Lru

theorem Lru.Queues.head (queues : lru.Queues nodes) (positive : 0 ≤ id) : ∃ pos, pos < lru.hashHeadSize ∧
    lru.chainOf id = some (.hash (.hashHead pos)) ∧ id % lru.hashHeadSize = pos := by
  obtain ⟨some, small⟩ := queues.heads
  have low : 0 ≤ id % lru.hashHeadSize := Int.emod_nonneg id (by omega)
  have high : id % lru.hashHeadSize < lru.hashHeadSize := Int.emod_lt_of_pos id (by omega)
  refine ⟨(id % lru.hashHeadSize).toNat, by omega, ?_, by omega⟩
  rw [chainOf, if_neg (by omega), Int.tmod_eq_emod_of_nonneg positive]
  congr 4
  omega

theorem Lru.search_spec (id : Int) (pos turns : Nat) (cell : Link) (chain : List Cell)
    (linked : CircularRing.Linked lru.links.next lru.links.prev cell (chain.map Link.hash)
    (.hash (.hashHead pos)))
    (apart : ∀ c ∈ chain, c ≠ .hashHead pos) (enough : chain.length < turns) :
    lru.search id (.hash (.hashHead pos)) turns (lru.links.next cell) =
    some (chain.find? fun c => lru.pageId c = id) := by
  induction chain generalizing cell turns with
  | nil =>
    obtain ⟨turns, rfl⟩ : ∃ t, turns = t + 1 := ⟨turns - 1, by omega⟩
    rw [search, if_pos linked.1]
    rfl
  | cons c chain ih =>
    obtain ⟨turns, rfl⟩ : ∃ t, turns = t + 1 := ⟨turns - 1, by omega⟩
    obtain ⟨step, _, rest⟩ := linked
    have other : Link.hash c ≠ .hash (.hashHead pos) := fun same =>
      apart c List.mem_cons_self (Link.hash.inj same)
    rw [List.length_cons] at enough
    rw [search, step, if_neg other, List.find?_cons]
    dsimp only [Link.hashOwner]
    by_cases hit : lru.pageId c = id
    · rw [if_pos hit, decide_eq_true hit]
    · rw [if_neg hit, decide_eq_false hit]
      exact ih turns (.hash c) rest (fun c member => apart c (List.mem_cons_of_mem _ member)) (by omega)

theorem Lru.Queues.not_head (queues : lru.Queues nodes) {pos : Nat} (member : n ∈ nodes) :
    n ≠ .hashHead pos := by
  obtain ⟨⟨at', rfl, _⟩, _⟩ := queues.taken n member
  exact Cell.noConfusion

theorem Lru.Queues.nodup (queues : lru.Queues nodes) : nodes.Nodup := List.Nodup.of_map _ queues.ids

theorem Lru.Queues.chains_apart (queues : lru.Queues nodes) {pos pos' : Nat} {chain chain' : List Cell}
    (chained : lru.Chained nodes pos chain) (chained' : lru.Chained nodes pos' chain')
    (other : pos ≠ pos') {u : Link}
    (member : u ∈ Link.hash (.hashHead pos) :: chain.map Link.hash) :
    u ∉ Link.hash (.hashHead pos') :: chain'.map Link.hash := by
  intro member'
  rcases List.mem_cons.mp member with rfl | inside
  · rcases List.mem_cons.mp member' with same | inside'
    · exact other (Cell.hashHead.inj (Link.hash.inj same))
    · obtain ⟨c, there, same⟩ := List.mem_map.mp inside'
      exact queues.not_head ((chained'.2 c).mp there).1 (Link.hash.inj same)
  · obtain ⟨c, here, rfl⟩ := List.mem_map.mp inside
    rcases List.mem_cons.mp member' with same | inside'
    · exact queues.not_head ((chained.2 c).mp here).1 (Link.hash.inj same)
    · obtain ⟨c', there, same⟩ := List.mem_map.mp inside'
      obtain rfl := Link.hash.inj same
      have first := ((chained.2 c').mp here).2
      have second := ((chained'.2 c').mp there).2
      omega

theorem hash_not_recent (c : Cell) (l : List Cell) : Link.hash c ∉ Link.lru .lruHead :: l.map Link.lru := by
  simp

theorem lru_not_chained (c : Cell) (pos : Nat) (l : List Cell) :
    Link.lru c ∉ Link.hash (.hashHead pos) :: l.map Link.hash := by
  simp

theorem Lru.Queues.touch (queues : lru.Queues (before ++ n :: after)) :
    (lru.touch n).Queues (n :: (before ++ after)) := by
  have perm : (before ++ n :: after).Perm (n :: (before ++ after)) := List.perm_middle
  have nodup := queues.nodup
  have recency := queues.recency
  rw [List.map_append, List.map_cons] at recency
  have rest : (lru.links.remove (.lru n)).Ring (.lru .lruHead :: ((before ++ after).map .lru)) := by
    rw [List.map_append]
    exact Links.remove_ring recency
  have fresh : Link.lru n ∉ Link.lru .lruHead :: ((before ++ after).map Link.lru) := by
    intro member
    rcases List.mem_cons.mp member with same | inside
    · obtain ⟨⟨at', node, _⟩, _⟩ := queues.taken n (by simp)
      rw [node] at same
      cases same
    · obtain ⟨c, there, same⟩ := List.mem_map.mp inside
      obtain rfl := Link.lru.inj same
      exact (List.nodup_cons.mp (perm.nodup_iff.mp nodup)).1 there
  have agree : ∀ cell, lru.links.Agree (lru.touch n).links (.hash cell) := by
    intro cell
    refine (Links.remove_other recency (by simp) ?_).trans
      (Links.insertHead_other rest (hash_not_recent cell _) Link.noConfusion)
    have out := hash_not_recent cell (before ++ n :: after)
    rwa [List.map_append, List.map_cons] at out
  refine ⟨queues.heads, Links.insertHead_ring rest fresh, fun pos small => ?_, ?_, ?_, ?_, ?_⟩
  · obtain ⟨chain, ring, members⟩ := queues.chains pos small
    exact ⟨chain, ring.frame_map Link.hash agree, fun c => (members c).trans (and_congr_left' perm.mem_iff)⟩
  · exact (perm.map _).nodup_iff.mp queues.ids
  · exact (perm.map _).nodup_iff.mp queues.buffers
  · exact fun c member => queues.positive c (perm.mem_iff.mpr member)
  · exact fun c member => queues.taken c (perm.mem_iff.mpr member)

theorem Lru.Chained.nodup {pos : Nat} {chain : List Cell} (chained : lru.Chained nodes pos chain) :
    chain.Nodup :=
  List.Nodup.of_map _ (List.nodup_cons.mp (CircularRing.ring_nodup chained.1)).2

theorem Lru.Chained.mem_leave {pos : Nat} (chained : lru.Chained (nodes ++ [n]) pos (before ++ n :: after))
    (out : n ∉ nodes) (c : Cell) :
    c ∈ before ++ after ↔ c ∈ nodes ∧ lru.pageId c % lru.hashHeadSize = pos := by
  have perm : (before ++ n :: after).Perm (n :: (before ++ after)) := List.perm_middle
  have apart := (List.nodup_cons.mp (perm.nodup_iff.mp chained.nodup)).1
  have all := chained.2 c
  rw [perm.mem_iff.trans List.mem_cons, List.mem_append (s := nodes), List.mem_singleton] at all
  constructor
  · intro left
    have other : c ≠ n := fun same => apart (same ▸ left)
    obtain ⟨some, home⟩ := all.mp (Or.inr left)
    exact ⟨some.resolve_right other, home⟩
  · rintro ⟨left, home⟩
    have other : c ≠ n := fun same => out (same ▸ left)
    exact (all.mpr ⟨Or.inl left, home⟩).resolve_left other

/-- A node of one chain does not count for another. -/
theorem Lru.mem_elsewhere {pos pos' : Nat} {more : List Cell} (all : ∀ c, c ∈ more ↔ c = n ∨ c ∈ nodes)
    (home : lru.pageId n % lru.hashHeadSize = pos) (other : pos' ≠ pos) (c : Cell) :
    c ∈ more ∧ lru.pageId c % lru.hashHeadSize = pos' ↔
      c ∈ nodes ∧ lru.pageId c % lru.hashHeadSize = pos' := by
  rw [all]
  refine ⟨fun ⟨old, here⟩ => ⟨old.resolve_left ?_, here⟩, fun ⟨old, here⟩ => ⟨Or.inr old, here⟩⟩
  rintro rfl
  omega

theorem Lru.Queues.evict (queues : lru.Queues (nodes ++ [n])) :
    ({ lru with links := (lru.links.remove (.lru n)).remove (.hash n) } : Lru Page).Queues nodes := by
  have inside : n ∈ nodes ++ [n] := by simp
  have all : ∀ c, c ∈ nodes ++ [n] ↔ c = n ∨ c ∈ nodes := fun c => by simp [or_comm]
  have out : n ∉ nodes := fun member => by
    have := List.nodup_append.mp queues.nodup
    exact this.2.2 n member n (by simp) rfl
  have recency := queues.recency
  rw [List.map_append, List.map_cons, List.map_nil] at recency
  have rest : (lru.links.remove (.lru n)).Ring (.lru .lruHead :: (nodes.map .lru)) := by
    have := Links.remove_ring recency
    rwa [List.append_nil] at this
  have first : ∀ cell, lru.links.Agree (lru.links.remove (.lru n)) (.hash cell) := by
    intro cell
    refine Links.remove_other recency (by simp) fun member => ?_
    simp at member
  obtain ⟨own, small, _, home⟩ := queues.head (queues.positive n inside)
  obtain ⟨chain, here⟩ := queues.chains own small
  obtain ⟨before, after, rfl⟩ := List.append_of_mem ((here.2 n).mpr ⟨inside, home⟩)
  have ring := here.1.frame_map Link.hash first
  rw [List.map_append, List.map_cons] at ring
  refine ⟨queues.heads, ?_, fun pos small => ?_, ?_, ?_, ?_, ?_⟩
  · refine rest.frame_map Link.lru fun c => Links.remove_other ring (by simp) ?_
    have out := lru_not_chained c own (before ++ n :: after)
    rwa [List.map_append, List.map_cons] at out
  · by_cases same : pos = own
    · subst same
      refine ⟨before ++ after, ?_, here.mem_leave out⟩
      rw [List.map_append]
      exact Links.remove_ring ring
    · obtain ⟨chain, there⟩ := queues.chains pos small
      refine ⟨chain, ?_, fun c => (there.2 c).trans (mem_elsewhere all home same c)⟩
      refine (there.1.frame_map Link.hash first).frame fun u member => Links.remove_other ring (by simp) ?_
      have apart := queues.chains_apart there here same member
      rwa [List.map_append, List.map_cons] at apart
  · have ids := queues.ids
    rw [List.map_append] at ids
    exact (List.nodup_append.mp ids).1
  · have buffers := queues.buffers
    rw [List.map_append] at buffers
    exact (List.nodup_append.mp buffers).1
  · exact fun c member => queues.positive c (List.mem_append_left _ member)
  · exact fun c member => queues.taken c (List.mem_append_left _ member)

structure Lru.Spare (lru : Lru Page) (nodes : List Cell) (n : Cell) : Prop where
  out : n ∉ nodes
  taken : (∃ at', n = .node at' ∧ at' < lru.pool) ∧ lru.pageValue n < lru.pool
  buffer : lru.pageValue n ∉ nodes.map lru.pageValue

theorem Lru.Spare.not_recent (spare : lru.Spare nodes n) :
    Link.lru n ∉ Link.lru .lruHead :: nodes.map Link.lru := by
  obtain ⟨out, ⟨⟨at', rfl, _⟩, _⟩, _⟩ := spare
  intro member
  rcases List.mem_cons.mp member with same | inside
  · cases same
  · obtain ⟨c, there, same⟩ := List.mem_map.mp inside
    exact out (Link.lru.inj same ▸ there)

theorem Lru.Spare.not_chained (spare : lru.Spare nodes n) {pos : Nat} {chain : List Cell}
    (chained : lru.Chained nodes pos chain) :
    Link.hash n ∉ Link.hash (.hashHead pos) :: chain.map Link.hash := by
  obtain ⟨out, ⟨⟨at', rfl, _⟩, _⟩, _⟩ := spare
  intro member
  rcases List.mem_cons.mp member with same | inside
  · cases same
  · obtain ⟨c, here, same⟩ := List.mem_map.mp inside
    exact out (Link.hash.inj same ▸ ((chained.2 c).mp here).1)

theorem Lru.Chained.mem_enter {pos : Nat} {chain : List Cell} (chained : lru.Chained nodes pos chain)
    (home : lru.pageId n % lru.hashHeadSize = pos) (c : Cell) :
    c ∈ n :: chain ↔ c ∈ n :: nodes ∧ lru.pageId c % lru.hashHeadSize = pos := by
  rw [List.mem_cons, List.mem_cons, chained.2 c]
  constructor
  · rintro (rfl | ⟨old, there⟩)
    · exact ⟨Or.inl rfl, home⟩
    · exact ⟨Or.inr old, there⟩
  · rintro ⟨rfl | old, there⟩
    · exact Or.inl rfl
    · exact Or.inr ⟨old, there⟩

theorem Lru.Queues.insert (queues : lru.Queues nodes) (spare : lru.Spare nodes n) {pos : Nat}
    (small : pos < lru.hashHeadSize) (home : lru.pageId n % lru.hashHeadSize = pos)
    (positive : 0 ≤ lru.pageId n)
    (fresh : lru.pageId n ∉ nodes.map lru.pageId) : (lru.insert (.hash (.hashHead pos)) n).Queues
    (n :: nodes) := by
  obtain ⟨chain, here⟩ := queues.chains pos small
  have recency := Links.insertHead_ring queues.recency spare.not_recent
  have first : ∀ c, lru.links.Agree (lru.links.insertHead (.lru .lruHead) (.lru n)) (.hash c) := fun c =>
    Links.insertHead_other queues.recency (hash_not_recent c nodes) Link.noConfusion
  have ring := here.1.frame_map Link.hash first
  refine ⟨queues.heads, ?_, fun pos' small' => ?_, ?_, ?_, ?_, ?_⟩
  · exact Links.Ring.frame_map (l := n :: nodes) Link.lru recency fun c =>
      Links.insertHead_other ring (lru_not_chained c pos chain) Link.noConfusion
  · by_cases same : pos' = pos
    · subst same
      exact ⟨n :: chain, Links.insertHead_ring ring (spare.not_chained here), here.mem_enter home⟩
    · obtain ⟨chain', there⟩ := queues.chains pos' small'
      refine ⟨chain', ?_, fun c => (there.2 c).trans (mem_elsewhere (fun _ => List.mem_cons) home same c).symm⟩
      exact (there.1.frame_map Link.hash first).frame fun u member =>
        Links.insertHead_other ring (queues.chains_apart there here same member)
          fun equal => spare.not_chained there (equal ▸ member)
  · exact List.nodup_cons.mpr ⟨fresh, queues.ids⟩
  · exact List.nodup_cons.mpr ⟨spare.buffer, queues.buffers⟩
  · intro c member
    rcases List.mem_cons.mp member with rfl | old
    · exact positive
    · exact queues.positive c old
  · intro c member
    rcases List.mem_cons.mp member with rfl | old
    · exact spare.taken
    · exact queues.taken c old

theorem Lru.Queues.setPageId (queues : lru.Queues nodes) (out : n ∉ nodes) (id : Int) :
    (lru.setPageId n id).Queues nodes := by
  have same : ∀ c ∈ nodes, (lru.setPageId n id).pageId c = lru.pageId c :=
    fun c member => if_neg fun equal : c = n => out (equal ▸ member)
  refine ⟨queues.heads, queues.recency, fun pos small => ?_, ?_, queues.buffers, ?_, queues.taken⟩
  · obtain ⟨chain, ring, members⟩ := queues.chains pos small
    refine ⟨chain, ring, fun c => (members c).trans (and_congr_right fun member => ?_)⟩
    rw [same c member]
    rfl
  · rw [List.map_congr_left same]
    exact queues.ids
  · intro c member
    rw [same c member]
    exact queues.positive c member

theorem Lru.Queues.withBuffer (queues : lru.Queues nodes) (buffer : Nat → Page) :
    ({ lru with buffer := buffer } : Lru Page).Queues nodes :=
  ⟨queues.heads, queues.recency, queues.chains, queues.ids, queues.buffers, queues.positive, queues.taken⟩

theorem Lru.Keeps.obtain (keeps : lru.Keeps nodes) : ∃ n lru', lru.obtain = some (n, lru') ∧
    lru'.Queues (nodes.take (lru.capacity - 1)) ∧ lru'.Spare (nodes.take (lru.capacity - 1)) n ∧
    lru'.size = (nodes.take (lru.capacity - 1)).length + 1 ∧ lru'.capacity = lru.capacity ∧
    lru'.hashHeadSize = lru.hashHeadSize ∧ lru'.pageId = lru.pageId ∧ lru'.file = lru.file ∧
    lru'.buffer = lru.buffer ∧
    ∀ c ∈ nodes.take (lru.capacity - 1), lru'.pageValue c = lru.pageValue c := by
  obtain ⟨queues, size, fits, room⟩ := keeps
  unfold Lru.obtain
  by_cases full : lru.size = lru.capacity
  · rw [if_pos full]
    have filled : nodes ≠ [] := List.length_pos_iff.mp (by omega)
    obtain ⟨front, n, rfl⟩ := (List.eq_nil_or_concat' nodes).resolve_left filled
    rw [List.length_append, List.length_singleton] at size
    have front' : (front ++ [n]).take (lru.capacity - 1) = front := List.take_left' (by omega)
    have recency := queues.recency
    rw [List.map_append, List.map_cons, List.map_nil] at recency
    have top : lru.links.prev (.lru .lruHead) = .lru n := (CircularRing.ring_last recency).2
    have ids := queues.nodup
    have buffers := queues.buffers
    rw [List.map_append] at buffers
    rw [front', top]
    refine ⟨n, _, rfl, queues.evict, ⟨fun member => ?_, queues.taken n (by simp), fun member => ?_⟩,
      ?_, rfl, rfl, rfl, rfl, rfl, fun c _ => rfl⟩
    · exact (List.nodup_append.mp ids).2.2 n member n (by simp) rfl
    · exact (List.nodup_append.mp buffers).2.2 _ member _ (by simp) rfl
    · dsimp only
      omega
  · rw [if_neg full]
    have front' : nodes.take (lru.capacity - 1) = nodes := List.take_of_length_le (by omega)
    have out : Cell.node lru.pool ∉ nodes := fun member => by
      obtain ⟨⟨at', same, below⟩, _⟩ := queues.taken _ member
      have := Cell.node.inj same
      omega
    have same : ∀ c ∈ nodes, (if c = Cell.node lru.pool then lru.pool + 1 else lru.pageValue c) =
      lru.pageValue c :=
      fun c member => if_neg fun equal : c = Cell.node lru.pool => out (equal ▸ member)
    rw [front']
    refine ⟨_, _, rfl, ⟨queues.heads, queues.recency, queues.chains, queues.ids, ?_,
      queues.positive, fun c member => ?_⟩,
      ⟨out, ⟨⟨lru.pool, rfl, by dsimp only; omega⟩, ?_⟩, ?_⟩, by
      dsimp only; omega, rfl, rfl, rfl, rfl, rfl, same⟩
    · dsimp only
      rw [List.map_congr_left same]
      exact queues.buffers
    · obtain ⟨⟨at', node, below⟩, value⟩ := queues.taken c member
      dsimp only
      rw [same c member]
      exact ⟨⟨at', node, by omega⟩, by omega⟩
    · dsimp only
      rw [if_pos rfl]
      omega
    · dsimp only
      rw [if_pos rfl, List.map_congr_left same]
      intro member
      obtain ⟨c, there, equal⟩ := List.mem_map.mp member
      have := (queues.taken c there).2
      omega

theorem Lru.Keeps.search (keeps : lru.Keeps nodes) (positive : 0 ≤ id) : ∃ pos found,
    pos < lru.hashHeadSize ∧
    id % lru.hashHeadSize = pos ∧ lru.chainOf id = some (.hash (.hashHead pos)) ∧
    lru.search id (.hash (.hashHead pos)) (lru.size + 1) (lru.links.next (.hash (.hashHead pos))) =
      some found ∧
    (∀ n, found = some n → n ∈ nodes ∧ lru.pageId n = id) ∧
    (found = none → ∀ n ∈ nodes, lru.pageId n ≠ id) := by
  obtain ⟨pos, small, head, home⟩ := keeps.queues.head positive
  obtain ⟨chain, chained⟩ := keeps.queues.chains pos small
  have within : chain ⊆ nodes := fun c member => ((chained.2 c).mp member).1
  have length := chained.nodup.length_le_of_subset within
  have size := keeps.size
  have run := lru.search_spec id pos (lru.size + 1) (.hash (.hashHead pos)) chain chained.1.2
    (fun c member => keeps.queues.not_head (within member)) (by omega)
  refine ⟨pos, _, small, home, head, run, fun n found => ?_, fun found n member same => ?_⟩
  · exact ⟨within (List.mem_of_find?_eq_some found), by simpa using List.find?_some found⟩
  · have here := (chained.2 n).mpr ⟨member, by rw [same, home]⟩
    have := List.find?_eq_none.mp found n here
    simp [same] at this

/-- A page that was not resident has come in at the front, into a buffer of its own. -/
structure Lru.Entered (lru lru' : Lru Page) (nodes : List Cell) (n : Cell) (id : Int) : Prop where
  absent : ∀ c ∈ nodes, lru.pageId c ≠ id
  id : lru'.pageId n = id
  kept : ∀ c ∈ nodes.take (lru.capacity - 1), lru'.pageId c = lru.pageId c ∧
  lru'.pageValue c = lru.pageValue c
  buffer : ∀ a, a ≠ lru'.pageValue n → lru'.buffer a = lru.buffer a
  capacity : lru'.capacity = lru.capacity
  file : lru'.file = lru.file

theorem Lru.readPage_spec (lru : Lru Page) (n : Cell) (file : 0 ≤ lru.pageId n) :
    lru.readPage n = { lru with buffer := fun a => if a = lru.pageValue n then
      lru.file[(lru.pageId n).toNat]?.getD (lru.buffer a) else lru.buffer a } := by
  unfold readPage
  rw [if_pos file]
  cases lru.file[(lru.pageId n).toNat]? with
  | none => simp
  | some page => rfl

theorem Lru.Keeps.enter (keeps : lru.Keeps nodes) (positive : 0 ≤ id)
    (absent : ∀ c ∈ nodes, lru.pageId c ≠ id) {pos : Nat}
    (small : pos < lru.hashHeadSize) (home : id % lru.hashHeadSize = pos) : ∃ n lru1,
    lru.obtain = some (n, lru1) ∧
      lru1.file = lru.file ∧ lru1.buffer = lru.buffer ∧
      ∀ buffer, (∀ a, a ≠ lru1.pageValue n → buffer a = lru.buffer a) →
        ∃ lru', lru' = ({ lru1.setPageId n id with buffer := buffer } : Lru Page).insert
        (.hash (.hashHead pos)) n ∧
          lru'.Keeps (n :: nodes.take (lru.capacity - 1)) ∧ lru.Entered lru' nodes n id := by
  obtain ⟨n, lru1, run, queues, spare, size, capacity, heads, ids, file, buffer, values⟩ := keeps.obtain
  have room := keeps.room
  refine ⟨n, lru1, run, file, buffer, fun buffer same => ⟨_, rfl, ?_, ?_⟩⟩
  · have shorter : (nodes.take (lru.capacity - 1)).length ≤ lru.capacity - 1 := List.length_take_le _ _
    have set := queues.setPageId spare.out id
    refine ⟨?_, size, ?_, by rw [← capacity] at room; exact room⟩
    · have here : (lru1.setPageId n id).pageId n = id := if_pos rfl
      have others : ∀ c ∈ nodes.take (lru.capacity - 1),
          (lru1.setPageId n id).pageId c = lru.pageId c := by
        intro c member
        rw [← ids]
        exact if_neg fun equal : c = n => spare.out (equal ▸ member)
      refine (set.withBuffer buffer).insert ⟨spare.out, spare.taken, spare.buffer⟩
        (by rw [← heads] at small; exact small) ?_ ?_ ?_
      · change (lru1.setPageId n id).pageId n % lru1.hashHeadSize = pos
        rw [here, heads, home]
      · change 0 ≤ (lru1.setPageId n id).pageId n
        rw [here]
        exact positive
      · change (lru1.setPageId n id).pageId n ∉ (nodes.take (lru.capacity - 1)).map
          (lru1.setPageId n id).pageId
        rw [here]
        intro member
        obtain ⟨c, there, same⟩ := List.mem_map.mp member
        rw [others c there] at same
        exact absent c (List.mem_of_mem_take there) same
    · change lru1.size ≤ lru1.capacity
      omega
  · refine ⟨absent, if_pos rfl, fun c member => ?_, same, capacity, file⟩
    have other : c ≠ n := fun equal => spare.out (equal ▸ member)
    refine ⟨?_, values c member⟩
    rw [← ids]
    exact if_neg other

theorem Lru.fetch_hit {head : Link} (chain : lru.chainOf id = some head)
    (search : lru.search id head (lru.size + 1) (lru.links.next head) = some (some n)) :
    lru.fetch id = some (lru.pageValue n, lru.touch n) := by
  simp only [Lru.fetch, chain, search, Option.bind_eq_bind, Option.bind_some]

theorem Lru.fetch_miss {head : Link} {lru1 : Lru Page} (chain : lru.chainOf id = some head)
    (search : lru.search id head (lru.size + 1) (lru.links.next head) = some none)
    (obtain' : lru.obtain = some (n, lru1)) : lru.fetch id = some
      ((((lru1.setPageId n id).readPage n).insert head n).pageValue n,
      ((lru1.setPageId n id).readPage n).insert head n) := by
  simp only [Lru.fetch, chain, search, obtain', Option.bind_eq_bind, Option.bind_some]

theorem Lru.Keeps.fetch (keeps : lru.Keeps nodes) (positive : 0 ≤ id) :
    ∃ n lru', lru.fetch id = some (lru'.pageValue n, lru') ∧
      ((∃ before after, nodes = before ++ n :: after ∧ lru.pageId n = id ∧ lru' = lru.touch n ∧
          lru'.Keeps (n :: (before ++ after))) ∨
        lru.Entered lru' nodes n id ∧ lru'.Keeps (n :: nodes.take (lru.capacity - 1)) ∧
          ∀ page, lru.file[id.toNat]? = some page → lru'.buffer (lru'.pageValue n) = page) := by
  obtain ⟨pos, found, small, home, head, search, hit, miss⟩ := keeps.search positive
  cases found with
  | some n =>
    obtain ⟨member, same⟩ := hit n rfl
    obtain ⟨before, after, rfl⟩ := List.append_of_mem member
    have length : (before ++ n :: after).length = (n :: (before ++ after)).length :=
      List.perm_middle.length_eq
    exact ⟨n, lru.touch n, lru.fetch_hit head search,
      Or.inl ⟨before, after, rfl, same, rfl, keeps.queues.touch,
      keeps.size.trans length, keeps.fits, keeps.room⟩⟩
  | none =>
    obtain ⟨n, lru1, run, file, buffer, enter⟩ := keeps.enter positive (miss rfl) small home
    have here : (lru1.setPageId n id).pageId n = id := if_pos rfl
    have read := (lru1.setPageId n id).readPage_spec n (by rw [here]; exact positive)
    rw [here] at read
    obtain ⟨lru', shape, keeps', entered⟩ := enter (fun a => if a = lru1.pageValue n then
      lru1.file[id.toNat]?.getD (lru1.buffer a) else lru1.buffer a)
        fun a other => by rw [if_neg other, buffer]
    have result : lru' = ((lru1.setPageId n id).readPage n).insert (.hash (.hashHead pos)) n := by
      rw [shape, read]; rfl
    refine ⟨n, lru', ?_, Or.inr ⟨entered, keeps', fun page stored => ?_⟩⟩
    · rw [result]
      exact lru.fetch_miss head search run
    · rw [shape]
      change (if lru1.pageValue n = lru1.pageValue n then lru1.file[id.toNat]?.getD _ else _) = page
      rw [if_pos rfl, file, stored]
      rfl

theorem Lru.Keeps.allocEntry (keeps : lru.Keeps nodes) (positive : 0 ≤ id)
    (absent : ∀ c ∈ nodes, lru.pageId c ≠ id) :
    ∃ n lru', lru.allocEntry id = some (lru'.pageValue n, lru') ∧ lru.Entered lru' nodes n id ∧
      lru'.Keeps (n :: nodes.take (lru.capacity - 1)) := by
  obtain ⟨pos, small, head, home⟩ := keeps.queues.head positive
  obtain ⟨n, lru1, run, _, buffer, enter⟩ := keeps.enter positive absent small home
  obtain ⟨lru', shape, keeps', entered⟩ := enter lru1.buffer fun a _ => by rw [buffer]
  refine ⟨n, lru', ?_, entered, keeps'⟩
  rw [shape]
  simp only [Lru.allocEntry, head, run, Option.bind_eq_bind, Option.bind_some]
  rfl

end
end EtdbStore
