import Etdb.Database.Ideal

/- What the slot really keeps: one cell for every key of the trie, values cut to what
   their size fields hold. `Holds` says that the trie and the records stand for such
   cells; every address belongs to one key, so that a change behind one key leaves what
   is behind the others. -/
namespace EtdbDatabase
open EtdbTrie CircularRing

inductive Cell where
  | bytes (value : List UInt8)
  | member
  | queue (values : List (List UInt8))
  | place (lat lon : ℚ)
  deriving DecidableEq

/-- Cells by trie key, the index keys of spatial points excepted. -/
abbrev Store := List UInt8 → Option Cell

namespace Store

def empty : Store := fun _ => none

def value (S : Store) (key : List UInt8) : Option (List UInt8) :=
  match S key with
  | some (.bytes value) => some value
  | _ => none

def queue (S : Store) (key : List UInt8) : List (List UInt8) :=
  match S key with
  | some (.queue values) => values
  | _ => []

def place (S : Store) (key : List UInt8) : Option (ℚ × ℚ) :=
  match S key with
  | some (.place lat lon) => some (lat, lon)
  | _ => none

/-- An emptied queue loses its key. -/
def putQueue (S : Store) (key : List UInt8) (values : List (List UInt8)) : Store :=
  Function.update S key (if values = [] then none else some (.queue values))

/-- What a size field of so many bits keeps of a value. -/
def kept (bits : Nat) (value : List UInt8) : List UInt8 := value.take (value.length % 2 ^ bits)

def apply (atof : List UInt8 → Option ℚ) (S : Store) : Op → Store
  | .kvSet key value => Function.update S (Db.encodeKvHead key) (some (.bytes (kept 24 value)))
  | .kvDel key => Function.update S (Db.encodeKvHead key) none
  | .hashSet name key value => Function.update S (Db.encodeHashHead name key)
      (some (.bytes (kept 24 value)))
  | .hashDel name key => Function.update S (Db.encodeHashHead name key) none
  | .setAdd name key => Function.update S (Db.encodeSetHead name key) (some .member)
  | .setDel name key => Function.update S (Db.encodeSetHead name key) none
  | .listLpush name value => S.putQueue (Db.encodeListHead name)
      (kept 32 value :: S.queue (Db.encodeListHead name))
  | .listRpush name value => S.putQueue (Db.encodeListHead name)
      (S.queue (Db.encodeListHead name) ++ [kept 32 value])
  | .listLpop name => S.putQueue (Db.encodeListHead name) (S.queue (Db.encodeListHead name)).tail
  | .listRpop name => S.putQueue (Db.encodeListHead name) (S.queue (Db.encodeListHead name)).dropLast
  | .spSet id lat lon =>
    match Db.coordinates atof lat lon with
    | none => S
    | some (latD, lonD) => Function.update S (Db.encodeIdHead id) (some (.place latD lonD))
  | .spDel id => Function.update S (Db.encodeIdHead id) none
  | _ => S

def after (atof : List UInt8 → Option ℚ) (S : Store) : List Op → Store
  | [] => S
  | op :: rest => (S.apply atof op).after atof rest

def longest (S : Store) (key : List UInt8) : Option (Nat × List UInt8) :=
  key.inits.reverse.findSome? fun P => (S.value (Db.encodeKvHead P)).map fun value => (P.length, value)

/-- The ids that sp_rect lists: those under the cover, without NUL, whose point lies
    between the corners as they are given. -/
def Listed (S : Store) (lat1 lat2 lon1 lon2 : ℚ) (id : List UInt8) : Prop :=
  ∃ lat lon code, S.place (Db.encodeIdHead id) = some (lat, lon) ∧
    EtdbGeoHash.encode lat lon Db.geoHashPrecisionLen = some code ∧
    ¬ (lat < lat1 ∨ lat2 < lat ∨ lon < lon1 ∨ lon2 < lon) ∧ 0 ∉ id ∧
    ∃ suffix, suffix ≠ [] ∧ Db.spatialPointHead2 :: (code ++ id) =
      Db.coverKey (EtdbGeoHash.getMaxCover lat1 lat2 lon1 lon2 Db.geoHashPrecisionLen) ++ suffix

def Answers (atof : List UInt8 → Option ℚ) (S : Store) : Op → Reply → Prop
  | .kvSet _ _, r => r = Ideal.done true
  | .kvGet key, r => r = Db.orFail .value (S.value (Db.encodeKvHead key))
  | .kvDel key, r => r = Ideal.done (S (Db.encodeKvHead key)).isSome
  | .kvMatchLongest key, r => r = Db.orFail (fun (matchLen, bytes) => .longest matchLen bytes)
      (S.longest key)
  | .hashSet _ _ _, r => r = Ideal.done true
  | .hashGet name key, r => r = Db.orFail .value (S.value (Db.encodeHashHead name key))
  | .hashDel name key, r => r = Ideal.done (S (Db.encodeHashHead name key)).isSome
  | .setAdd _ _, r => r = Ideal.done true
  | .setDel name key, r => r = Ideal.done (S (Db.encodeSetHead name key)).isSome
  | .setMembers name, r => ∃ items, r = .members items ∧ items.Nodup ∧
      ∀ key, key ∈ items ↔ key ≠ [] ∧ 0 ∉ key ∧ S (Db.encodeSetHead name key) ≠ none
  | .setIsmember name key, r => r = .status (if (S (Db.encodeSetHead name key)).isSome then 1 else 0)
  | .listLpush _ _, r => r = Ideal.done true
  | .listRpush _ _, r => r = Ideal.done true
  | .listLpop name, r => r = Ideal.done (S (Db.encodeListHead name)).isSome
  | .listRpop name, r => r = Ideal.done (S (Db.encodeListHead name)).isSome
  | .listLtop name, r => r = Db.orFail .value (S.queue (Db.encodeListHead name)).head?
  | .listRtop name, r => r = Db.orFail .value (S.queue (Db.encodeListHead name)).getLast?
  | .spSet _ lat lon, r => r = Ideal.done (Db.coordinates atof lat lon).isSome
  | .spGet id, r =>
    match S.place (Db.encodeIdHead id) with
    | none => r = Db.failed
    | some (lat, lon) => ∃ code, EtdbGeoHash.encode lat lon Db.geoHashPrecisionLen = some code ∧
        r = .point lat lon code
  | .spDel id, r => r = Ideal.done (S (Db.encodeIdHead id)).isSome
  | .spRect lat1 lat2 lon1 lon2, r =>
    match Db.coordinates atof lat1 lon1, Db.coordinates atof lat2 lon2 with
    | some (lat1, lon1), some (lat2, lon2) =>
      ∃ ids, r = .members ids ∧ ids.Nodup ∧ ∀ id, id ∈ ids ↔ S.Listed lat1 lat2 lon1 lon2 id
    | _, _ => r = Db.failed

end Store

/-- The tree of the trie, its entries, and the key that each address belongs to. -/
structure Layout where
  tree : ByteTree.Tree Int
  entries : Entries
  owner : Int → Option (List UInt8)

def nextOf (heap : Int → Option Record) (a : Int) : Int :=
  match heap a with
  | some (.list node) => node.next
  | _ => 0

def prevOf (heap : Int → Option Record) (a : Int) : Int :=
  match heap a with
  | some (.list node) => node.prev
  | _ => 0

/-- A tagged list head and its items, in order. -/
structure Queue (heap : Int → Option Record) (head : Int) (items : List Int)
    (values : List (List UInt8)) : Prop where
  ring : IsRing (nextOf heap) (prevOf heap) (head :: items)
  tag : ∃ node, heap head = some (.list node) ∧ node.size % 256 = typeList
  items : List.Forall₂ (fun a value => ∃ node, heap a = some (.list node) ∧
  node.data.take node.size = value) items values

def Denotes (heap : Int → Option Record) (owner : Int → Option (List UInt8)) (key : List UInt8)
    (v : Int) : Cell → Prop
  | .bytes value => owner v = some key ∧ ∃ node, heap v = some (.value node) ∧
      node.data.take node.size = value ∧
      (key.head? = some Db.kvHead ∧ node.type = typeKv ∨ key.head? = some Db.hashHead ∧
      node.type = typeHash)
  | .member => key.head? = some Db.setHead ∧ v = 1
  | .queue values => key.head? = some Db.listHead ∧ values ≠ [] ∧
      ∃ items, Queue heap v items values ∧ ∀ a ∈ v :: items, owner a = some key
  | .place lat lon => key.head? = some Db.spatialPointHead1 ∧ owner v = some key ∧
      ∃ code, EtdbGeoHash.encode lat lon Db.geoHashPrecisionLen = some code ∧
        heap v = some (.point ⟨typeSpatialPoint, lat, lon, code, 2⟩)

/-- The index keys are those of the placed ids, each under the code of its point. -/
def Indexed (m : Entries) (S : Store) : Prop :=
  ∀ rest v, m (Db.spatialPointHead2 :: rest) = some v ↔ ∃ id lat lon code, rest = code ++ id ∧
    S (Db.encodeIdHead id) = some (.place lat lon) ∧
    EtdbGeoHash.encode lat lon Db.geoHashPrecisionLen = some code ∧ m (Db.encodeIdHead id) = some v

structure Holds (db : Db) (L : Layout) (S : Store) : Prop where
  stores : Stores db.trie L.tree L.entries
  fresh : 0 < db.fresh
  owned : ∀ a key, L.owner a = some key → 0 < a ∧ a < db.fresh
  cells : ∀ key, key.head? ≠ some Db.spatialPointHead2 →
    Option.Rel (Denotes db.heap L.owner key) (L.entries key) (S key)
  index : Indexed L.entries S

structure Away (key : List UInt8) (db db' : Db) (L L' : Layout) : Prop where
  owner : ∀ a other, other ≠ key → L.owner a = some other → L'.owner a = some other
  heap : ∀ a other, other ≠ key → L.owner a = some other → db'.heap a = db.heap a

section
variable {db db' : Db} {L L' : Layout} {S S' : Store} {key : List UInt8} {v : Int} {cell : Cell}
variable {heap heap' : Int → Option Record} {owner owner' : Int → Option (List UInt8)}
variable {head : Int} {items : List Int} {values : List (List UInt8)} {m m' : Entries}

theorem Away.refl {tree : ByteTree.Tree Int} {entries : Entries} {trie : Trie} :
    Away key db { db with trie := trie } L ⟨tree, entries, L.owner⟩ :=
  ⟨fun _ _ _ own => own, fun _ _ _ _ => rfl⟩

theorem Queue.member (queue : Queue heap head items values) {a : Int} (inside : a ∈ head :: items) :
    ∃ node, heap a = some (.list node) := by
  rcases List.mem_cons.mp inside with rfl | item
  · obtain ⟨node, here, _⟩ := queue.tag
    exact ⟨node, here⟩
  · obtain ⟨i, bound, rfl⟩ := List.getElem_of_mem item
    obtain ⟨node, here, _⟩ := (List.forall₂_iff_get.mp queue.items).2 i bound
      (by rw [← queue.items.length_eq]; exact bound)
    exact ⟨node, here⟩

theorem Queue.congr (queue : Queue heap head items values)
    (same : ∀ a ∈ head :: items, heap' a = heap a) : Queue heap' head items values := by
  refine ⟨ring_congr queue.ring ?_ ?_, ?_, ?_⟩
  · intro a inside
    rw [nextOf, nextOf, same a inside]
  · intro a inside
    rw [prevOf, prevOf, same a inside]
  · rw [same head List.mem_cons_self]
    exact queue.tag
  · have facts := List.forall₂_iff_get.mp queue.items
    refine List.forall₂_iff_get.mpr ⟨facts.1, fun i bound bound' => ?_⟩
    rw [same _ (List.mem_cons_of_mem head (List.get_mem items ⟨i, bound⟩))]
    exact facts.2 i bound bound'

theorem Denotes.congr (denotes : Denotes heap owner key v cell)
    (kept : ∀ a, owner a = some key → owner' a = some key ∧ heap' a = heap a) :
    Denotes heap' owner' key v cell := by
  cases cell with
  | bytes value =>
    obtain ⟨own, rest⟩ := denotes
    obtain ⟨own', same⟩ := kept v own
    exact ⟨own', by rwa [same]⟩
  | member => exact denotes
  | queue values =>
    obtain ⟨type, some, items, queue, own⟩ := denotes
    refine ⟨type, some, items, queue.congr fun a inside => (kept a (own a inside)).2, fun a inside => ?_⟩
    exact (kept a (own a inside)).1
  | place lat lon =>
    obtain ⟨type, own, rest⟩ := denotes
    obtain ⟨own', same⟩ := kept v own
    exact ⟨type, own', by rwa [same]⟩

theorem Holds.change (holds : Holds db L S) {tree : ByteTree.Tree Int} {entry : Option Int}
    {cell : Option Cell} (stores : Stores db'.trie tree (Function.update L.entries key entry))
    (away : Away key db db' L ⟨tree, Function.update L.entries key entry, owner'⟩)
    (fresh : db.fresh ≤ db'.fresh)
    (owned : ∀ a k, owner' a = some k → L.owner a = some k ∨ 0 < a ∧ a < db'.fresh)
    (plain : key.head? ≠ some Db.spatialPointHead1 ∧ key.head? ≠ some Db.spatialPointHead2)
    (here : Option.Rel (Denotes db'.heap owner' key) entry cell) :
    Holds db' ⟨tree, Function.update L.entries key entry, owner'⟩ (Function.update S key cell) := by
  have positive := holds.fresh
  refine ⟨stores, by omega, ?_, ?_, ?_⟩
  · intro a k own
    rcases owned a k own with old | new
    · obtain ⟨low, high⟩ := holds.owned a k old
      exact ⟨low, by omega⟩
    · exact new
  · intro other type
    by_cases same : other = key
    · subst same
      simpa using here
    · simp only [Function.update_of_ne same]
      have before := holds.cells other type
      revert before
      cases L.entries other <;> cases S other <;> intro before <;> cases before
      · exact .none
      · rename_i denotes
        exact .some (denotes.congr fun a own => ⟨away.owner a other same own, away.heap a other same own⟩)
  · have spatial : ∀ head rest, head = Db.spatialPointHead1 ∨ head = Db.spatialPointHead2 →
      head :: rest ≠ key := by
      rintro head rest type rfl
      rcases type with rfl | rfl
      · exact plain.1 rfl
      · exact plain.2 rfl
    intro rest w
    have before := holds.index rest w
    have code : Function.update L.entries key entry (Db.spatialPointHead2 :: rest) =
        L.entries (Db.spatialPointHead2 :: rest) :=
        Function.update_of_ne (spatial _ rest (Or.inr rfl)) _ _
    have ids : ∀ id,
        Function.update L.entries key entry (Db.encodeIdHead id) = L.entries (Db.encodeIdHead id) ∧
        Function.update S key cell (Db.encodeIdHead id) = S (Db.encodeIdHead id) := fun id =>
      ⟨Function.update_of_ne (spatial _ id (Or.inl rfl)) _ _, Function.update_of_ne
        (spatial _ id (Or.inl rfl)) _ _⟩
    simp only [code, before, ids]

theorem Holds.none_iff (holds : Holds db L S) (plain : key.head? ≠ some Db.spatialPointHead2) :
    L.entries key = none ↔ S key = none := by
  have cell := holds.cells key plain
  revert cell
  cases L.entries key <;> cases S key <;> intro cell <;> cases cell <;> simp

theorem Holds.denotes (holds : Holds db L S) (plain : key.head? ≠ some Db.spatialPointHead2)
    (held : L.entries key = some v) : ∃ cell, S key = some cell ∧ Denotes db.heap L.owner key v cell := by
  have cell := holds.cells key plain
  rw [held] at cell
  revert cell
  cases S key <;> intro cell <;> cases cell
  rename_i denotes
  exact ⟨_, rfl, denotes⟩

end
end EtdbDatabase
