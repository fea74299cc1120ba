import Etdb.Database.Store

/- Which live records a store accounts for. A command that changes one key keeps them all
   when it answers for the records that were behind the key and for those it made. -/
namespace EtdbDatabase
open EtdbTrie CircularRing

def Occupies (heap : Int → Option Record) (v : Int) : Cell → Int → Prop
  | .bytes _, a => a = v
  | .member, _ => False
  | .queue values, a => ∃ items, Queue heap v items values ∧ a ∈ v :: items
  | .place _ _, a => a = v

def Behind (heap : Int → Option Record) (m : Entries) (S : Store) (key : List UInt8) (a : Int) : Prop :=
  ∃ v cell, m key = some v ∧ S key = some cell ∧ Occupies heap v cell a

def Lossless (db : Db) (L : Layout) (S : Store) : Prop :=
  ∀ a, db.heap a ≠ none → ∃ key, key.head? ≠ some Db.spatialPointHead2 ∧ Behind db.heap L.entries S key a

/-- What a command does to the records at large: none comes back, and none is lost. -/
structure Tends (db db' : Db) (L L' : Layout) (S S' : Store) : Prop where
  fresh : db.fresh ≤ db'.fresh
  old : ∀ a, db'.heap a ≠ none → db.fresh ≤ a ∨ db.heap a ≠ none
  lossless : Lossless db L S → Lossless db' L' S'

def Store.Spares (S : Store) : Op → Prop
  | .kvSet key _ => S (Db.encodeKvHead key) = none
  | .hashSet name key _ => S (Db.encodeHashHead name key) = none
  | _ => True

section
variable {db db' : Db} {L L' : Layout} {S S' : Store} {key : List UInt8} {v a : Int} {cell : Cell}
variable {heap heap' : Int → Option Record} {owner : Int → Option (List UInt8)} {m : Entries}
variable {items items' : List Int} {values values' : List (List UInt8)}

theorem Tends.refl (db : Db) (L : Layout) (S : Store) : Tends db db L L S S :=
  ⟨le_refl _, fun _ live => Or.inr live, id⟩

theorem Queue.items_eq (first : Queue heap v items values) (second : Queue heap v items' values') :
    items = items' :=
  ring_unique first.ring second.ring

theorem Denotes.owned (denotes : Denotes heap owner key v cell) (occupies : Occupies heap v cell a) :
    owner a = some key := by
  cases cell with
  | bytes value =>
    obtain rfl : a = v := occupies
    exact denotes.1
  | member => exact absurd occupies id
  | queue values =>
    obtain ⟨items, queue, inside⟩ := occupies
    obtain ⟨_, _, items', queue', own⟩ := denotes
    exact own a (queue.items_eq queue' ▸ inside)
  | place lat lon =>
    obtain rfl : a = v := occupies
    exact denotes.2.1

theorem Denotes.record (denotes : Denotes heap owner key v cell) (occupies : Occupies heap v cell a) :
    (∃ node, heap a = some (.value node) ∧ a = v ∧
    (key.head? = some Db.kvHead ∨ key.head? = some Db.hashHead)) ∨
    (∃ node, heap a = some (.list node) ∧ key.head? = some Db.listHead ∧
      ∃ values items, Queue heap v items values ∧ a ∈ v :: items) ∨
    (∃ head, heap a = some (.point head) ∧ a = v ∧ key.head? = some Db.spatialPointHead1) := by
  cases cell with
  | bytes value =>
    obtain rfl : a = v := occupies
    obtain ⟨_, node, here, _, type⟩ := denotes
    exact Or.inl ⟨node, here, rfl, type.imp And.left And.left⟩
  | member => exact absurd occupies id
  | queue values =>
    obtain ⟨items, queue, inside⟩ := occupies
    obtain ⟨node, here⟩ := queue.member inside
    exact Or.inr (Or.inl ⟨node, here, denotes.1, values, items, queue, inside⟩)
  | place lat lon =>
    obtain rfl : a = v := occupies
    obtain ⟨first, _, code, _, here⟩ := denotes
    exact Or.inr (Or.inr ⟨_, here, rfl, first⟩)

theorem Denotes.live (denotes : Denotes heap owner key v cell) (occupies : Occupies heap v cell a) :
    heap a ≠ none := by
  rcases denotes.record occupies with ⟨_, here, _⟩ | ⟨_, here, _⟩ | ⟨_, here, _⟩ <;> simp [here]

theorem Occupies.congr (denotes : Denotes heap owner key v cell) (occupies : Occupies heap v cell a)
    (same : ∀ b, owner b = some key → heap' b = heap b) : Occupies heap' v cell a := by
  cases cell with
  | bytes value => exact occupies
  | member => exact occupies
  | queue values =>
    obtain ⟨items, queue, inside⟩ := occupies
    refine ⟨items, queue.congr fun b member => same b ?_, inside⟩
    exact denotes.owned ⟨items, queue, member⟩
  | place lat lon => exact occupies

theorem not_behind_none (missing : S key = none) : ¬ Behind heap m S key a := by
  rintro ⟨_, _, _, stored, _⟩
  rw [missing] at stored
  cases stored

theorem behind_iff (held : m key = some v) (stored : S key = some cell) :
    Behind heap m S key a ↔ Occupies heap v cell a := by
  constructor
  · rintro ⟨v', cell', held', stored', occupies⟩
    obtain rfl := Option.some.inj (held.symm.trans held')
    obtain rfl := Option.some.inj (stored.symm.trans stored')
    exact occupies
  · exact fun occupies => ⟨v, cell, held, stored, occupies⟩

theorem occupies_queue (queue : Queue heap v items values) : Occupies heap v (.queue values) a ↔
    a ∈ v :: items := by
  constructor
  · rintro ⟨items', queue', inside⟩
    exact queue.items_eq queue' ▸ inside
  · exact fun inside => ⟨items, queue, inside⟩

/-- What lives on is behind the changed key, or was not behind it. -/
theorem Tends.change {cell : Option Cell} (holds : Holds db L S)
    (plain : key.head? ≠ some Db.spatialPointHead2) (fresh : db.fresh ≤ db'.fresh)
    (heap : ∀ a other, other ≠ key → L.owner a = some other → db'.heap a = db.heap a)
    (entries : ∀ other, other.head? ≠ some Db.spatialPointHead2 → other ≠ key →
    L'.entries other = L.entries other) (cover : ∀ a, db'.heap a ≠ none →
      Behind db'.heap L'.entries (Function.update S key cell) key a ∧ (db.fresh ≤ a ∨ db.heap a ≠ none) ∨
      db.heap a ≠ none ∧ ¬ Behind db.heap L.entries S key a) :
    Tends db db' L L' S (Function.update S key cell) := by
  refine ⟨fresh, fun a live => ?_, fun lossless a live => ?_⟩
  · rcases cover a live with ⟨_, old⟩ | ⟨old, _⟩
    · exact old
    · exact Or.inr old
  · rcases cover a live with ⟨behind, _⟩ | ⟨old, notHere⟩
    · exact ⟨key, plain, behind⟩
    · obtain ⟨other, type, v, cell, held, stored, occupies⟩ := lossless a old
      have different : other ≠ key := by
        rintro rfl
        exact notHere ⟨v, cell, held, stored, occupies⟩
      obtain ⟨cell', stored', denotes⟩ := holds.denotes type held
      obtain rfl := Option.some.inj (stored.symm.trans stored')
      refine ⟨other, type, v, cell, (entries other type different).trans held, ?_, ?_⟩
      · rw [Function.update_of_ne different, stored]
      · exact occupies.congr denotes fun b own => heap b other different own

end
end EtdbDatabase
