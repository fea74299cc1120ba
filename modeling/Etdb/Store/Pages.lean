import Etdb.Store.Recency
import Etdb.Trie.State

/- etdb_store_index_node_at, etdb_store_index_ninfo_at and etdb_store_index_block_at. Each
   gives a pointer into a cached page, and callers read and write through the pointers
   they got last. A page that has been written is not written back, so that the store
   behaves as plain arrays as long as no such page has to be read from its file again. -/
namespace EtdbStore
open LinkedQueue EtdbTrie

/-- ETDB_PAGE_SIZE/sizeof(etdb_index_node_t) -/
def nodeSizePerPage : Nat := 512

/-- ETDB_PAGE_SIZE/sizeof(etdb_index_ninfo_t) -/
def ninfoSizePerPage : Nat := 4096

/-- ETDB_PAGE_SIZE/sizeof(etdb_index_block_t) -/
def blockSizePerPage : Nat := 256

/-- One of the three files behind its cache, with the pointers that were handed out, most
    recent first: the address of a page and the place in it. -/
structure Index (Entry : Type) where
  lru : Lru (List Entry)
  pointers : List (Nat × Nat)

/-- What a caller does: get a pointer, or use the one it got `i` calls before the last. -/
inductive Access (Entry : Type) where
  | seek (id : Int)
  | get (i : Nat)
  | put (i : Nat) (entry : Entry)

namespace Index
variable {Entry : Type}

/-- The functions etdb_store_index_*_at; the division is one of unsigned longs. -/
def indexAt (perPage : Nat) (ix : Index Entry) (id : Int) : Option (Index Entry) :=
  let pageId := id % 2 ^ 64 / perPage
  let offset := (id % 2 ^ 64 % perPage).toNat
  match ix.lru.fetch pageId with
  | none => none
  | some (page, lru) => some ⟨lru, (page, offset) :: ix.pointers⟩

def get (ix : Index Entry) (i : Nat) : Option Entry :=
  match ix.pointers[i]? with
  | none => none
  | some (page, offset) => (ix.lru.buffer page)[offset]?

def put (ix : Index Entry) (i : Nat) (entry : Entry) : Option (Index Entry) :=
  match ix.pointers[i]? with
  | none => none
  | some (page, offset) =>
    if offset < (ix.lru.buffer page).length then
      some { ix with lru := { ix.lru with
        buffer := fun a => if a = page then (ix.lru.buffer a).set offset entry else ix.lru.buffer a } }
    else none

end Index

def indexNodeAt : Index Node → Int → Option (Index Node) := Index.indexAt nodeSizePerPage

def indexNinfoAt : Index Ninfo → Int → Option (Index Ninfo) := Index.indexAt ninfoSizePerPage

def indexBlockAt : Index Block → Int → Option (Index Block) := Index.indexAt blockSizePerPage

structure Store where
  node : Index Node
  ninfo : Index Ninfo
  block : Index Block

def pageOf (perPage : Nat) (id : Int) : Int := id / perPage

/-- A plain array, with the entries accessed so far, most recent first. -/
structure Plain (Entry : Type) where
  cell : Int → Entry
  ids : List Int

namespace Plain
variable {Entry : Type}

def step (plain : Plain Entry) : Access Entry → Plain Entry
  | .seek id => { plain with ids := id :: plain.ids }
  | .get _ => plain
  | .put i entry =>
    match plain.ids[i]? with
    | none => plain
    | some id => { plain with cell := fun j => if j = id then entry else plain.cell j }

def history (perPage : Nat) (plain : Plain Entry) : List Int := (plain.ids.map (pageOf perPage)).reverse

/-- Callers access entries of the file, and use a pointer as long as no more than three
    pages have been accessed from it on. -/
def Proper (perPage pages : Nat) (plain : Plain Entry) : Access Entry → Prop
  | .seek id => 0 ≤ id ∧ id < 2 ^ 63 ∧ pageOf perPage id < pages
  | .get i => i < plain.ids.length ∧ ((plain.ids.take (i + 1)).map (pageOf perPage)).dedup.length ≤ 3
  | .put i _ => i < plain.ids.length ∧ ((plain.ids.take (i + 1)).map (pageOf perPage)).dedup.length ≤ 3

/-- A page that is not among the last `capacity` distinct ones is as the file has it. -/
def Retained (perPage capacity : Nat) (file : List (List Entry)) (plain : Plain Entry) :
    Access Entry → Prop
  | .seek id => pageOf perPage id ∈ resident capacity (plain.history perPage) ∨
      ∀ page, file[(pageOf perPage id).toNat]? = some page → ∀ j, j < perPage →
        page[j]? = some (plain.cell (pageOf perPage id * perPage + j))
  | _ => True

def Loads (perPage : Nat) (file : List (List Entry)) (plain : Plain Entry) : Prop :=
  plain.ids = [] ∧ ∀ (i : Nat) (page : List Entry), file[i]? = some page → page.length = perPage ∧
    ∀ j, j < perPage → page[j]? = some (plain.cell (i * perPage + j))

end Plain

namespace Index
variable {Entry : Type}

/-- The cache does an access, and reads what the array holds. -/
def Answers (pointerAt : Index Entry → Int → Option (Index Entry)) (ix : Index Entry)
    (plain : Plain Entry) (access : Access Entry) (ix' : Index Entry) : Prop :=
  match access with
  | .seek id => pointerAt ix id = some ix'
  | .get i => ix' = ix ∧ ∃ id, plain.ids[i]? = some id ∧ ix.get i = some (plain.cell id)
  | .put i entry => ix.put i entry = some ix'

/-- What ties a cache to the array: every resident page holds the entries of the array,
    and a pointer that may still be used leads to the page of its entry. -/
structure Mirrors (perPage : Nat) (file : List (List Entry)) (ix : Index Entry) (plain : Plain Entry)
    (nodes : List Cell) : Prop where
  keeps : ix.lru.Keeps nodes
  large : 3 ≤ ix.lru.capacity
  backing : ix.lru.file = file
  pages : nodes.map ix.lru.pageId = resident ix.lru.capacity (plain.history perPage)
  whole : ∀ page : List Entry, page ∈ file → page.length = perPage
  entries : ∀ n ∈ nodes, (ix.lru.buffer (ix.lru.pageValue n)).length = perPage ∧
    ∀ j, j < perPage → (ix.lru.buffer (ix.lru.pageValue n))[j]? =
    some (plain.cell (ix.lru.pageId n * perPage + j))
  pointers : ∀ i id, plain.ids[i]? = some id →
    ((plain.ids.take (i + 1)).map (pageOf perPage)).dedup.length ≤ 3 → 0 ≤ id ∧
      ∃ n ∈ nodes, ix.lru.pageId n = pageOf perPage id ∧
      ix.pointers[i]? = some (ix.lru.pageValue n, (id % perPage).toNat)

def Opened (file : List (List Entry)) (ix : Index Entry) : Prop :=
  ix.pointers = [] ∧ ∃ links pageId pageValue buffer capacity, 3 ≤ capacity ∧ capacity < 2 ^ 32 ∧
    ix.lru = Lru.initLru links pageId pageValue buffer file capacity

end Index

inductive Step where
  | node (access : Access Node)
  | ninfo (access : Access Ninfo)
  | block (access : Access Block)

structure Files where
  node : List (List Node)
  ninfo : List (List Ninfo)
  block : List (List Block)

structure Arrays where
  node : Plain Node
  ninfo : Plain Ninfo
  block : Plain Block

namespace Arrays

def step (arrays : Arrays) : Step → Arrays
  | .node access => { arrays with node := arrays.node.step access }
  | .ninfo access => { arrays with ninfo := arrays.ninfo.step access }
  | .block access => { arrays with block := arrays.block.step access }

def Loads (files : Files) (arrays : Arrays) : Prop :=
  arrays.node.Loads nodeSizePerPage files.node ∧ arrays.ninfo.Loads ninfoSizePerPage files.ninfo ∧
    arrays.block.Loads blockSizePerPage files.block

def Proper (files : Files) (arrays : Arrays) : Step → Prop
  | .node access => arrays.node.Proper nodeSizePerPage files.node.length access
  | .ninfo access => arrays.ninfo.Proper ninfoSizePerPage files.ninfo.length access
  | .block access => arrays.block.Proper blockSizePerPage files.block.length access

def Retained (files : Files) (store : Store) (arrays : Arrays) : Step → Prop
  | .node access => arrays.node.Retained nodeSizePerPage store.node.lru.capacity files.node access
  | .ninfo access => arrays.ninfo.Retained ninfoSizePerPage store.ninfo.lru.capacity files.ninfo access
  | .block access => arrays.block.Retained blockSizePerPage store.block.lru.capacity files.block access

def ProperRun (files : Files) : Arrays → List Step → Prop
  | _, [] => True
  | arrays, step :: rest => arrays.Proper files step ∧ (arrays.step step).ProperRun files rest

/-- The capacities of the caches do not change, so those at the start are meant. -/
def RetainedRun (files : Files) (store : Store) : Arrays → List Step → Prop
  | _, [] => True
  | arrays, step :: rest => arrays.Retained files store step ∧
      (arrays.step step).RetainedRun files store rest

end Arrays

namespace Store

def Opened (files : Files) (store : Store) : Prop :=
  store.node.Opened files.node ∧ store.ninfo.Opened files.ninfo ∧ store.block.Opened files.block

def Behaves : Store → Arrays → List Step → Prop
  | _, _, [] => True
  | store, arrays, .node access :: rest => ∃ node,
      store.node.Answers indexNodeAt arrays.node access node ∧
        Behaves { store with node := node } (arrays.step (.node access)) rest
  | store, arrays, .ninfo access :: rest => ∃ ninfo,
      store.ninfo.Answers indexNinfoAt arrays.ninfo access ninfo ∧
        Behaves { store with ninfo := ninfo } (arrays.step (.ninfo access)) rest
  | store, arrays, .block access :: rest => ∃ block,
      store.block.Answers indexBlockAt arrays.block access block ∧
        Behaves { store with block := block } (arrays.step (.block access)) rest

end Store

section
variable {Entry : Type} {perPage : Nat} {file : List (List Entry)} {ix : Index Entry}
    {plain : Plain Entry}
variable {nodes : List Cell} {access : Access Entry} {id : Int} {capacity : Nat}

theorem resident_window {window : List Int} (history : List Int) (few : window.dedup.length ≤ capacity)
    (member : id ∈ window) : id ∈ resident capacity (history ++ window) := by
  obtain ⟨older, tail⟩ : window.dedup <:+ (history ++ window).dedup := by
    rw [List.dedup_append]
    exact List.suffix_union_right _ _
  rw [resident, ← tail, List.reverse_append]
  have short : window.dedup.reverse.length ≤ capacity := by rwa [List.length_reverse]
  rw [List.take_append, List.take_of_length_le short]
  exact List.mem_append_left _ (List.mem_reverse.mpr (List.mem_dedup.mpr member))

theorem dedup_tail_length (a : Int) (l : List Int) : l.dedup.length ≤ (a :: l).dedup.length := by
  by_cases again : a ∈ l
  · rw [List.dedup_cons_of_mem again]
  · rw [List.dedup_cons_of_notMem again, List.length_cons]
    omega

theorem dedup_reverse_length (l : List Int) : l.reverse.dedup.length = l.dedup.length :=
  (l.reverse_perm.dedup).length_eq

theorem indexAt_eq (low : 0 ≤ id) (high : id < 2 ^ 63) (ix : Index Entry) : ix.indexAt perPage id =
    (ix.lru.fetch (pageOf perPage id)).map fun r =>
    ⟨r.2, (r.1, (id % perPage).toNat) :: ix.pointers⟩ := by
  have same : id % 2 ^ 64 = id := Int.emod_eq_of_lt low (by omega)
  unfold Index.indexAt
  simp only [same]
  change (match ix.lru.fetch (pageOf perPage id) with | none => none | some (page, lru) => _) = _
  cases ix.lru.fetch (pageOf perPage id) <;> rfl

theorem Plain.history_seek (plain : Plain Entry) (id : Int) :
    (plain.step (.seek id)).history perPage = plain.history perPage ++ [pageOf perPage id] := by
  rw [Plain.history, Plain.step, List.map_cons, List.reverse_cons, Plain.history]

theorem Plain.still_resident (plain : Plain Entry) {other : Int} {i : Nat} (large : 3 ≤ capacity)
    (found : (id :: plain.ids)[i]? = some other)
    (few : (((id :: plain.ids).take (i + 1)).map (pageOf perPage)).dedup.length ≤ 3) :
    pageOf perPage other ∈ resident capacity ((plain.step (.seek id)).history perPage) := by
  have window : (plain.step (.seek id)).history perPage =
      ((id :: plain.ids).drop (i + 1) |>.map (pageOf perPage)).reverse ++
        ((id :: plain.ids).take (i + 1) |>.map (pageOf perPage)).reverse := by
    rw [← List.reverse_append, ← List.map_append, List.take_append_drop]
    rfl
  have recent : other ∈ (id :: plain.ids).take (i + 1) := by
    refine List.mem_iff_getElem?.mpr ⟨i, ?_⟩
    rw [List.getElem?_take_of_lt (Nat.lt_succ_self i)]
    exact found
  rw [window]
  refine resident_window _ ?_ (List.mem_reverse.mpr (List.mem_map_of_mem recent))
  rw [dedup_reverse_length]
  exact le_trans few large

theorem Index.Mirrors.hit {n : Cell} {before after : List Cell}
    (mirrors : ix.Mirrors perPage file plain (before ++ n :: after)) (low : 0 ≤ id)
    (here : ix.lru.pageId n = pageOf perPage id) (keeps : (ix.lru.touch n).Keeps (n :: (before ++ after))) :
    Index.Mirrors perPage file
      ⟨ix.lru.touch n, (ix.lru.pageValue n, (id % perPage).toNat) :: ix.pointers⟩
      (plain.step (.seek id)) (n :: (before ++ after)) := by
  have perm : (before ++ n :: after).Perm (n :: (before ++ after)) := List.perm_middle
  refine ⟨keeps, mirrors.large, mirrors.backing, ?_, mirrors.whole, fun c member => ?_,
    fun i other found few => ?_⟩
  · have pages := mirrors.pages
    rw [List.map_append, List.map_cons, here] at pages
    rw [Plain.history_seek]
    change ix.lru.pageId n :: (before ++ after).map ix.lru.pageId = _
    rw [here, List.map_append]
    exact (resident_again pages.symm).symm
  · exact mirrors.entries c (perm.mem_iff.mpr member)
  · cases i with
    | zero =>
      obtain rfl : id = other := Option.some.inj found
      exact ⟨low, n, List.mem_cons_self, here, rfl⟩
    | succ i =>
      obtain ⟨low', c, member, at', pointer⟩ :=
        mirrors.pointers i other found ((dedup_tail_length _ _).trans few)
      exact ⟨low', c, perm.mem_iff.mp member, at', pointer⟩

section
variable {n : Cell} {lru' : Lru (List Entry)}

theorem Index.Mirrors.entered_pages (mirrors : ix.Mirrors perPage file plain nodes)
    (entered : ix.lru.Entered lru' nodes n (pageOf perPage id)) :
    pageOf perPage id ∉ resident ix.lru.capacity (plain.history perPage) ∧
    (n :: nodes.take (ix.lru.capacity - 1)).map lru'.pageId =
      resident ix.lru.capacity ((plain.step (.seek id)).history perPage) := by
  have out : pageOf perPage id ∉ resident ix.lru.capacity (plain.history perPage) := by
    rw [← mirrors.pages]
    intro member
    obtain ⟨c, there, same⟩ := List.mem_map.mp member
    exact entered.absent c there same
  have rest : (nodes.take (ix.lru.capacity - 1)).map lru'.pageId =
      (nodes.take (ix.lru.capacity - 1)).map ix.lru.pageId :=
    List.map_congr_left fun c member => (entered.kept c member).1
  refine ⟨out, ?_⟩
  rw [Plain.history_seek, List.map_cons, rest, entered.id, resident_new out mirrors.keeps.room,
    ← mirrors.pages, List.map_take]

theorem Index.Mirrors.entered_entries (mirrors : ix.Mirrors perPage file plain nodes)
    (entered : ix.lru.Entered lru' nodes n (pageOf perPage id))
    (keeps : lru'.Keeps (n :: nodes.take (ix.lru.capacity - 1)))
    (read : ∀ page, ix.lru.file[(pageOf perPage id).toNat]? = some page →
      lru'.buffer (lru'.pageValue n) = page)
    (proper : plain.Proper perPage file.length (.seek id))
    (retained : plain.Retained perPage ix.lru.capacity file (.seek id)) :
    ∀ c ∈ n :: nodes.take (ix.lru.capacity - 1), (lru'.buffer (lru'.pageValue c)).length = perPage ∧
      ∀ j, j < perPage → (lru'.buffer (lru'.pageValue c))[j]? =
        some (plain.cell (lru'.pageId c * perPage + j)) := by
  intro c member
  rcases List.mem_cons.mp member with same | old
  · subst same
    obtain ⟨low, _, inside⟩ := proper
    have positive : 0 ≤ pageOf perPage id := Int.ediv_nonneg low (Int.natCast_nonneg perPage)
    have bound : (pageOf perPage id).toNat < file.length := by omega
    have stored : file[(pageOf perPage id).toNat]? = some file[(pageOf perPage id).toNat] :=
      List.getElem?_eq_getElem bound
    rw [read _ (by rw [mirrors.backing]; exact stored)]
    refine ⟨mirrors.whole _ (List.getElem_mem bound), fun j small => ?_⟩
    rw [entered.id]
    exact retained.resolve_left (mirrors.entered_pages entered).1 _ stored j small
  · obtain ⟨sameId, sameValue⟩ := entered.kept c old
    have apart : lru'.pageValue c ≠ lru'.pageValue n := fun same =>
      (List.nodup_cons.mp keeps.queues.buffers).1 (List.mem_map.mpr ⟨c, old, same⟩)
    rw [entered.buffer _ apart, sameId, sameValue]
    exact mirrors.entries c (List.mem_of_mem_take old)

theorem Index.Mirrors.entered_pointer (mirrors : ix.Mirrors perPage file plain nodes)
    (entered : ix.lru.Entered lru' nodes n (pageOf perPage id)) {i : Nat} {other : Int}
    (found : plain.ids[i]? = some other)
    (few : (((id :: plain.ids).take (i + 1 + 1)).map (pageOf perPage)).dedup.length ≤ 3) :
    0 ≤ other ∧ ∃ c ∈ n :: nodes.take (ix.lru.capacity - 1), lru'.pageId c = pageOf perPage other ∧
      ix.pointers[i]? = some (lru'.pageValue c, (other % perPage).toNat) := by
  obtain ⟨low, c, member, at', pointer⟩ :=
    mirrors.pointers i other found ((dedup_tail_length _ _).trans few)
  have still := plain.still_resident mirrors.large found few
  rw [← (mirrors.entered_pages entered).2, List.map_cons, List.mem_cons] at still
  rcases still with fresh | old
  · exact absurd (at'.trans (fresh.trans entered.id)) (entered.absent c member)
  · obtain ⟨c', there, same⟩ := List.mem_map.mp old
    have equal : c' = c := List.inj_on_of_nodup_map mirrors.keeps.queues.ids
      (List.mem_of_mem_take there) member (by rw [← (entered.kept c' there).1, same, at'])
    subst equal
    refine ⟨low, c', List.mem_cons_of_mem _ there, same, ?_⟩
    rw [(entered.kept c' there).2]
    exact pointer

theorem Index.Mirrors.miss (mirrors : ix.Mirrors perPage file plain nodes)
    (entered : ix.lru.Entered lru' nodes n (pageOf perPage id))
    (keeps : lru'.Keeps (n :: nodes.take (ix.lru.capacity - 1)))
    (read : ∀ page, ix.lru.file[(pageOf perPage id).toNat]? = some page →
      lru'.buffer (lru'.pageValue n) = page)
    (proper : plain.Proper perPage file.length (.seek id))
    (retained : plain.Retained perPage ix.lru.capacity file (.seek id)) :
    Index.Mirrors perPage file ⟨lru', (lru'.pageValue n, (id % perPage).toNat) :: ix.pointers⟩
      (plain.step (.seek id)) (n :: nodes.take (ix.lru.capacity - 1)) := by
  refine ⟨keeps, ?_, entered.file.trans mirrors.backing, ?_, mirrors.whole,
    mirrors.entered_entries entered keeps read proper retained, fun i other found few => ?_⟩
  · rw [entered.capacity]
    exact mirrors.large
  · rw [entered.capacity]
    exact (mirrors.entered_pages entered).2
  · cases i with
    | zero =>
      obtain rfl : id = other := Option.some.inj found
      exact ⟨proper.1, n, List.mem_cons_self, entered.id, rfl⟩
    | succ i => exact mirrors.entered_pointer entered found few

end

theorem Index.Mirrors.seek (mirrors : ix.Mirrors perPage file plain nodes)
    (proper : plain.Proper perPage file.length (.seek id))
    (retained : plain.Retained perPage ix.lru.capacity file (.seek id)) :
    ∃ ix' nodes', ix.indexAt perPage id = Option.some ix' ∧ ix'.lru.capacity = ix.lru.capacity ∧
      ix'.Mirrors perPage file (plain.step (.seek id)) nodes' := by
  have positive : 0 ≤ pageOf perPage id := Int.ediv_nonneg proper.1 (Int.natCast_nonneg perPage)
  rw [indexAt_eq proper.1 proper.2.1]
  obtain ⟨n, lru', run, hit | ⟨entered, keeps, read⟩⟩ := mirrors.keeps.fetch positive
  · obtain ⟨before, after, rfl, here, rfl, keeps⟩ := hit
    rw [run]
    exact ⟨_, n :: (before ++ after), rfl, rfl, mirrors.hit proper.1 here keeps⟩
  · rw [run]
    exact ⟨_, n :: nodes.take (ix.lru.capacity - 1), rfl, entered.capacity,
      mirrors.miss entered keeps read proper retained⟩

theorem Index.Mirrors.pointer (mirrors : ix.Mirrors perPage file plain nodes) {i : Nat}
    (here : i < plain.ids.length)
    (few : ((plain.ids.take (i + 1)).map (pageOf perPage)).dedup.length ≤ 3) : ∃ id,
    plain.ids[i]? = some id ∧ 0 ≤ id ∧
      ∃ n ∈ nodes, ix.lru.pageId n = pageOf perPage id ∧
      ix.pointers[i]? = some (ix.lru.pageValue n, (id % perPage).toNat) := by
  have found : plain.ids[i]? = some plain.ids[i] := List.getElem?_eq_getElem here
  obtain ⟨low, n, member, at', pointer⟩ := mirrors.pointers i _ found few
  exact ⟨_, found, low, n, member, at', pointer⟩

theorem Index.Mirrors.get (mirrors : ix.Mirrors perPage file plain nodes) (some : 0 < perPage) {i : Nat}
    (proper : plain.Proper perPage file.length (.get i)) :
    ∃ id, plain.ids[i]? = Option.some id ∧ ix.get i = Option.some (plain.cell id) := by
  obtain ⟨id, found, low, n, member, at', pointer⟩ := mirrors.pointer proper.1 proper.2
  have split := Int.ediv_mul_add_emod id perPage
  have offset := Int.emod_lt_of_pos id (show (0 : Int) < perPage by omega)
  have positive := Int.emod_nonneg id (show (perPage : Int) ≠ 0 by omega)
  refine ⟨id, found, ?_⟩
  rw [Index.get, pointer]
  dsimp only
  rw [(mirrors.entries n member).2 _ (by omega), at', pageOf]
  congr 2
  omega

theorem Index.Mirrors.put (mirrors : ix.Mirrors perPage file plain nodes) (some : 0 < perPage)
    {i : Nat} (entry : Entry)
    (proper : plain.Proper perPage file.length (.put i entry)) : ∃ ix', ix.put i entry = Option.some ix' ∧
      ix'.lru.capacity = ix.lru.capacity ∧ ix'.Mirrors perPage file (plain.step (.put i entry))
      nodes := by
  obtain ⟨id, found, low, n, member, at', pointer⟩ := mirrors.pointer proper.1 proper.2
  obtain ⟨keeps, large, backing, pages, whole, entries, pointers⟩ := mirrors
  have split := Int.ediv_mul_add_emod id perPage
  have offset := Int.emod_lt_of_pos id (show (0 : Int) < perPage by omega)
  have positive := Int.emod_nonneg id (show (perPage : Int) ≠ 0 by omega)
  have here : id = pageOf perPage id * perPage + ((id % perPage).toNat : Nat) := by
    unfold pageOf
    omega
  obtain ⟨length, _⟩ := entries n member
  have step : plain.step (.put i entry) =
    { plain with cell := fun j => if j = id then entry else plain.cell j } := by
    rw [Plain.step, found]
  have run : ix.put i entry = Option.some { ix with lru := { ix.lru with
      buffer := fun a =>
        if a = ix.lru.pageValue n then (ix.lru.buffer a).set (id % perPage).toNat
          entry else ix.lru.buffer a } } := by
    rw [Index.put, pointer]
    exact if_pos (by omega)
  refine ⟨_, run, rfl, ⟨⟨keeps.queues.withBuffer _, keeps.size, keeps.fits, keeps.room⟩, large,
    backing, ?_, whole, ?_, ?_⟩⟩
  · rw [step]
    exact pages
  · rw [step]
    intro c there
    dsimp only
    by_cases same : c = n
    · subst same
      rw [if_pos rfl, List.length_set]
      refine ⟨length, fun j small => ?_⟩
      rw [List.getElem?_set]
      by_cases this : (id % perPage).toNat = j
      · subst this
        rw [if_pos rfl, if_pos (by omega), at', ← here, if_pos rfl]
      · have other : ix.lru.pageId c * perPage + j ≠ id := by
          rw [at']
          omega
        rw [if_neg this, if_neg other]
        exact (entries c there).2 j small
    · have apart : ix.lru.pageValue c ≠ ix.lru.pageValue n := fun equal =>
        same (List.inj_on_of_nodup_map keeps.queues.buffers there member equal)
      rw [if_neg apart]
      refine ⟨(entries c there).1, fun j small => ?_⟩
      have other : ix.lru.pageId c * perPage + j ≠ id := by
        intro equal
        refine same (List.inj_on_of_nodup_map keeps.queues.ids there member ?_)
        rw [at', pageOf, ← equal, Int.add_comm, Int.add_mul_ediv_right _ _ (by omega),
          Int.ediv_eq_zero_of_lt (by omega) (by omega), Int.zero_add]
      rw [if_neg other]
      exact (entries c there).2 j small
  · rw [step]
    exact pointers

theorem Index.Mirrors.answers (mirrors : ix.Mirrors perPage file plain nodes) (some : 0 < perPage)
    (proper : plain.Proper perPage file.length access)
    (retained : plain.Retained perPage ix.lru.capacity file access) :
    ∃ ix' nodes', ix.Answers (Index.indexAt perPage) plain access ix' ∧
    ix'.lru.capacity = ix.lru.capacity ∧
      ix'.Mirrors perPage file (plain.step access) nodes' := by
  cases access with
  | seek id => exact mirrors.seek proper retained
  | get i => exact ⟨ix, nodes, ⟨rfl, mirrors.get some proper⟩, rfl, mirrors⟩
  | put i entry =>
    obtain ⟨ix', run, capacity, mirrors'⟩ := mirrors.put some entry proper
    exact ⟨ix', nodes, run, capacity, mirrors'⟩

theorem Index.Opened.mirrors (opened : ix.Opened file) (loads : plain.Loads perPage file) :
    ix.Mirrors perPage file plain [] := by
  obtain ⟨none, links, pageId, pageValue, buffer, capacity, large, small, shape⟩ := opened
  obtain ⟨ids, whole⟩ := loads
  refine ⟨?_, ?_, ?_, ?_, fun page member => ?_, (fun n member => by cases member), fun i id found => ?_⟩
  · rw [shape]
    exact Lru.initLru_keeps links pageId pageValue buffer file large small
  · rw [shape]
    exact large
  · rw [shape]
    rfl
  · simp [resident, Plain.history, ids]
  · obtain ⟨i, stored⟩ := List.mem_iff_getElem?.mp member
    exact (whole i page stored).1
  · rw [ids] at found
    cases found

structure Store.Mirrors (files : Files) (store : Store) (arrays : Arrays) : Prop where
  node : ∃ nodes, store.node.Mirrors nodeSizePerPage files.node arrays.node nodes
  ninfo : ∃ nodes, store.ninfo.Mirrors ninfoSizePerPage files.ninfo arrays.ninfo nodes
  block : ∃ nodes, store.block.Mirrors blockSizePerPage files.block arrays.block nodes

theorem Arrays.retained_congr {files : Files} (store store' : Store) {arrays : Arrays} {steps : List Step}
    (node : store'.node.lru.capacity = store.node.lru.capacity)
    (ninfo : store'.ninfo.lru.capacity = store.ninfo.lru.capacity)
    (block : store'.block.lru.capacity = store.block.lru.capacity)
    (retained : arrays.RetainedRun files store steps) : arrays.RetainedRun files store' steps := by
  induction steps generalizing arrays with
  | nil => trivial
  | cons step rest ih =>
    refine ⟨?_, ih retained.2⟩
    have here := retained.1
    cases step <;> simpa only [Arrays.Retained, node, ninfo, block] using here

theorem Store.Mirrors.behaves {files : Files} {store : Store} {arrays : Arrays}
    (mirrors : store.Mirrors files arrays)
    (steps : List Step) (proper : arrays.ProperRun files steps)
    (retained : arrays.RetainedRun files store steps) : store.Behaves arrays steps := by
  induction steps generalizing store arrays with
  | nil => trivial
  | cons step rest ih =>
    obtain ⟨⟨nodes, node⟩, ⟨ninfos, ninfo⟩, ⟨blocks, block⟩⟩ := mirrors
    cases step with
    | node access =>
      obtain ⟨node', nodes', run, capacity, mirrors'⟩ := node.answers (by decide) proper.1 retained.1
      exact ⟨node', run, ih ⟨⟨nodes', mirrors'⟩, ⟨ninfos, ninfo⟩, ⟨blocks, block⟩⟩ proper.2
        (Arrays.retained_congr store _ capacity rfl rfl retained.2)⟩
    | ninfo access =>
      obtain ⟨ninfo', ninfos', run, capacity, mirrors'⟩ := ninfo.answers (by decide) proper.1 retained.1
      exact ⟨ninfo', run, ih ⟨⟨nodes, node⟩, ⟨ninfos', mirrors'⟩, ⟨blocks, block⟩⟩ proper.2
        (Arrays.retained_congr store _ rfl capacity rfl retained.2)⟩
    | block access =>
      obtain ⟨block', blocks', run, capacity, mirrors'⟩ := block.answers (by decide) proper.1 retained.1
      exact ⟨block', run, ih ⟨⟨nodes, node⟩, ⟨ninfos, ninfo⟩, ⟨blocks', mirrors'⟩⟩ proper.2
        (Arrays.retained_congr store _ rfl rfl capacity retained.2)⟩

/-- As long as a page that is read from its file again is there as the array has it, the
    store behaves as plain arrays. -/
theorem store_behaves_as_arrays (files : Files) (store : Store) (opened : store.Opened files)
    (arrays : Arrays)
    (loads : arrays.Loads files) (steps : List Step) (proper : arrays.ProperRun files steps)
    (retained : arrays.RetainedRun files store steps) : store.Behaves arrays steps :=
  Store.Mirrors.behaves ⟨⟨[], opened.1.mirrors loads.1⟩, ⟨[], opened.2.1.mirrors loads.2.1⟩,
    ⟨[], opened.2.2.mirrors loads.2.2⟩⟩ steps proper retained

def blockFiles (pages : Nat) : Files := ⟨[], [], List.replicate pages (List.replicate 256 freshBlock)⟩

def freshCache (Entry : Type) (file : List (List Entry)) : Index Entry :=
  ⟨Lru.initLru ⟨fun u => u, fun u => u⟩ (fun _ => 0) (fun _ => 0) (fun _ => []) file 3, []⟩

def blockStore (pages : Nat) : Store :=
  ⟨freshCache Node [], freshCache Ninfo [], freshCache Block (blockFiles pages).block⟩

def blockArrays : Arrays := ⟨⟨fun _ => ⟨0, 0⟩, []⟩, ⟨fun _ => blankNinfo, []⟩, ⟨fun _ => freshBlock, []⟩⟩

theorem freshCache_opened (file : List (List Entry)) : (freshCache Entry file).Opened file :=
  ⟨rfl, _, _, _, _, 3, le_refl 3, by decide, rfl⟩

theorem blockStore_opened (pages : Nat) : (blockStore pages).Opened (blockFiles pages) :=
  ⟨freshCache_opened _, freshCache_opened _, freshCache_opened _⟩

theorem blockArrays_loads (pages : Nat) : blockArrays.Loads (blockFiles pages) := by
  refine ⟨⟨rfl, fun i page found => ?_⟩, ⟨rfl, fun i page found => ?_⟩, rfl, fun i page found => ?_⟩
  · cases found
  · cases found
  · rw [blockFiles, List.getElem?_replicate] at found
    by_cases inside : i < pages
    · rw [if_pos inside] at found
      obtain rfl := Option.some.inj found
      refine ⟨List.length_replicate, fun j small => ?_⟩
      exact List.getElem?_replicate.trans (if_pos small)
    · rw [if_neg inside] at found
      cases found

/-- Block 0 is changed while the cache holds two other pages; the page that is fetched then
    evicts one of them, which is read again, and the change is still there. -/
def evictingSteps : List Step :=
  [.block (.seek 256), .block (.seek 512), .block (.seek 0), .block (.put 0 ⟨1, 1, 255, 257, 0, 1⟩),
    .block (.seek 768), .block (.seek 256), .block (.get 0), .block (.seek 0), .block (.get 0)]

theorem blockFiles_page {pages i j : Nat} {page : List Block}
    (stored : (blockFiles pages).block[i]? = some page) (small : j < 256) : page[j]? = some freshBlock :=
  ((blockArrays_loads pages).2.2.2 i page stored).2 j small

theorem store_behaves_as_arrays_once : (blockStore 4).Behaves blockArrays evictingSteps := by
  refine store_behaves_as_arrays (blockFiles 4) (blockStore 4) (blockStore_opened 4) blockArrays
    (blockArrays_loads 4) evictingSteps ?_ ?_
  · exact ⟨⟨by decide, by decide, by decide⟩, ⟨by decide, by decide, by decide⟩,
      ⟨by decide, by decide, by decide⟩, ⟨by decide, by decide⟩, ⟨by decide, by decide, by decide⟩,
      ⟨by decide, by decide, by decide⟩, ⟨by decide, by decide⟩, ⟨by decide, by decide, by decide⟩,
      ⟨by decide, by decide⟩, trivial⟩
  · -- the pages that come in from the file are not the changed one
    have clean : ∀ (id : Int) (j : Nat), 256 ≤ id →
        (if id + (j : Int) = 0 then (⟨1, 1, 255, 257, 0, 1⟩ : Block) else freshBlock) = freshBlock :=
      fun id j high => if_neg (by omega)
    refine ⟨Or.inr fun page stored j small => blockFiles_page stored small,
      Or.inr fun page stored j small => blockFiles_page stored small,
      Or.inr fun page stored j small => blockFiles_page stored small, trivial,
      Or.inr fun page stored j small => ?_, Or.inr fun page stored j small => ?_, trivial,
      Or.inl (by decide), trivial, trivial⟩
    · rw [blockFiles_page stored small]
      exact congrArg some (clean 768 j (by decide)).symm
    · rw [blockFiles_page stored small]
      exact congrArg some (clean 256 j (by decide)).symm

theorem lost_update : (blockStore 4).Opened (blockFiles 4) ∧ blockArrays.Loads (blockFiles 4) ∧
    blockArrays.ProperRun (blockFiles 4)
    [.block (.seek 0), .block (.put 0 ⟨1, 1, 255, 257, 0, 1⟩), .block (.seek 256),
      .block (.seek 512), .block (.seek 768), .block (.seek 0), .block (.get 0)] ∧
    ¬ (blockStore 4).Behaves blockArrays
    [.block (.seek 0), .block (.put 0 ⟨1, 1, 255, 257, 0, 1⟩), .block (.seek 256),
      .block (.seek 512), .block (.seek 768), .block (.seek 0), .block (.get 0)] := by
  refine ⟨blockStore_opened 4, blockArrays_loads 4, ?_, ?_⟩
  · exact ⟨⟨by decide, by decide, by decide⟩, ⟨by decide, by decide⟩, ⟨by decide, by decide, by decide⟩,
      ⟨by decide, by decide, by decide⟩, ⟨by decide, by decide, by decide⟩,
      ⟨by decide, by decide, by decide⟩, ⟨by decide, by decide⟩, trivial⟩
  · rintro ⟨b1, h1, b2, h2, b3, h3, b4, h4, b5, h5, b6, h6, b7, ⟨rfl, id, found, read⟩, _⟩
    have run : (do
        let b ← indexBlockAt (blockStore 4).block 0
        let b ← b.put 0 ⟨1, 1, 255, 257, 0, 1⟩
        let b ← indexBlockAt b 256
        let b ← indexBlockAt b 512
        let b ← indexBlockAt b 768
        let b ← indexBlockAt b 0
        b.get 0) = some freshBlock := by decide +kernel
    dsimp only [Index.Answers, Option.bind_eq_bind] at h1 h2 h3 h4 h5 h6 run
    rw [h1, Option.bind_some, h2, Option.bind_some, h3, Option.bind_some, h4,
      Option.bind_some, h5, Option.bind_some, h6, Option.bind_some] at run
    rw [run] at read
    obtain rfl : 0 = id := Option.some.inj found
    exact absurd (Option.some.inj read) (by decide)

end
end EtdbStore
