import Etdb.Database.Locations

/- Every record that was ever allocated is referenced the right number of times, or was
   freed and is so no more. An address is free when etdb_alloc has given it out and no
   record is there; it is never given out again, and to free it again ends the run. -/
namespace EtdbDatabase
open EtdbTrie CircularRing

namespace Db

def Allocated (db : Db) (a : Int) : Prop := 4096 ≤ a ∧ a < db.fresh

def Freed (db : Db) (a : Int) : Prop := db.Allocated a ∧ db.heap a = none

/-- A key of the trie refers to a record, but for those of sets, whose values are no pointers. -/
def Refers (db : Db) (key : List UInt8) (a : Int) : Prop := db.Entry key a ∧ key.head? ≠ some setHead

def Linked (db : Db) (h a : Int) : Prop :=
  ∃ name items, db.Refers (encodeListHead name) h ∧ IsRing (nextOf db.heap) (prevOf db.heap)
  (h :: items) ∧ a ∈ items

structure Accounted (db : Db) : Prop where
  allocated : ∀ a, db.heap a ≠ none → db.Allocated a
  values : ∀ a node, db.heap a = some (.value node) → ∃! key, db.Refers key a
  points : ∀ a head, db.heap a = some (.point head) →
    ∃ key key', key ≠ key' ∧ ∀ k, db.Refers k a ↔ k = key ∨ k = key'
  lists : ∀ a node, db.heap a = some (.list node) →
    (∃! key, db.Refers key a) ∧ (∀ h, ¬ db.Linked h a) ∨ (∀ key, ¬ db.Refers key a) ∧ ∃! h, db.Linked h a
  referred : ∀ key a, db.Refers key a → db.heap a ≠ none
  linked : ∀ h a, db.Linked h a → db.heap a ≠ none

/-- Throughout a run every state is accounted for, and what is freed stays freed. -/
def AccountedRun (atof : List UInt8 → Option ℚ) (db : Db) : List Op → Prop
  | [] => db.Accounted
  | op :: rest => db.Accounted ∧ ∃ r db', db.step atof op = some (r, db') ∧
      (∀ a, db.Freed a → db'.Freed a) ∧ db'.AccountedRun atof rest

def Spares (db : Db) : Op → Prop
  | .kvSet key _ => db.kvGet key = some none
  | .hashSet name key _ => db.hashGet name key = some none
  | _ => True

def SparesRun (atof : List UInt8 → Option ℚ) (db : Db) : List Op → Prop
  | [] => True
  | op :: rest => db.Spares op ∧ ∀ r db', db.step atof op = some (r, db') → db'.SparesRun atof rest

end Db

inductive Leads (db : Db) (L : Layout) (key : List UInt8) (a : Int) : Prop where
  | value (node : ValueHead) (here : db.heap a = some (.value node)) (own : L.owner a = some key)
  | list (name : List UInt8) (node : ListNode) (spelled : key = Db.encodeListHead name)
      (here : db.heap a = some (.list node)) (own : L.owner a = some key)
  | point (id code : List UInt8) (lat lon : ℚ) (spelled : key = Db.encodeIdHead id ∨
      key = Db.encodeIndexHead code id)
      (here : db.heap a = some (pointRecord lat lon code)) (own : L.owner a = some (Db.encodeIdHead id))

section
variable {db db' : Db} {L L' : Layout} {S S' : Store} {key key' : List UInt8} {a h v : Int}
variable {items : List Int} {values : List (List UInt8)} {atof : List UInt8 → Option ℚ} {op : Op}
    {ops : List Op}

theorem Holds.refers (holds : Holds db L S) : db.Refers key a ↔ L.entries key = some a ∧
    key.head? ≠ some Db.setHead := by
  rw [Db.Refers, holds.entry]

theorem Holds.leads (holds : Holds db L S) (refers : db.Refers key a) : Leads db L key a := by
  obtain ⟨held, notSet⟩ := holds.refers.mp refers
  obtain ⟨head, rest, rfl, type⟩ := holds.stores.typed key (by simp [held])
  have heads : head = Db.kvHead ∨ head = Db.hashHead ∨ head = Db.setHead ∨ head = Db.listHead ∨
      head = Db.spatialPointHead1 ∨ head = Db.spatialPointHead2 := by
    simpa [typeHeads, Db.kvHead, Db.hashHead, Db.setHead, Db.listHead, Db.spatialPointHead1,
      Db.spatialPointHead2] using type
  rcases heads with rfl | rfl | rfl | rfl | rfl | rfl
  · obtain ⟨node, _, here, _, own⟩ := holds.value (Or.inl ⟨rfl, rfl⟩) held
    exact .value node here own
  · obtain ⟨node, _, here, _, own⟩ := holds.value (Or.inr ⟨rfl, rfl⟩) held
    exact .value node here own
  · exact absurd rfl notSet
  · obtain ⟨values, items, _, _, queue, own⟩ := holds.queue held
    obtain ⟨node, here, _⟩ := queue.tag
    exact .list rest node rfl here (own a List.mem_cons_self)
  · obtain ⟨lat, lon, code, _, _, here, own⟩ :=
      holds.place (show L.entries (Db.encodeIdHead rest) = some a from held)
    exact .point rest code lat lon (Or.inl rfl) here own
  · obtain ⟨id, lat, lon, code, rfl, placed, encoded, heldId⟩ := (holds.index rest a).mp held
    obtain ⟨lat', lon', code', placed', encoded', here, own⟩ := holds.place heldId
    rw [placed] at placed'
    cases placed'
    obtain rfl := Option.some.inj (encoded.symm.trans encoded')
    exact .point id code lat lon (Or.inr rfl) here own

theorem Leads.live (leads : Leads db L key a) : db.heap a ≠ none := by
  cases leads with
  | value node here _ => simp [here]
  | list name node _ here _ => simp [here]
  | point id code lat lon _ here _ => simp [here]

theorem Leads.owner (leads : Leads db L key a) (notPoint : ∀ head, db.heap a ≠ some (.point head)) :
    L.owner a = some key := by
  cases leads with
  | value _ _ own => exact own
  | list _ _ _ _ own => exact own
  | point _ _ _ _ _ here _ => exact absurd here (notPoint _)

theorem Holds.linked (holds : Holds db L S) (linked : db.Linked h a) : ∃ name values items,
    L.entries (Db.encodeListHead name) = some h ∧ Queue db.heap h items values ∧ a ∈ items ∧
    ∀ b ∈ h :: items, L.owner b = some (Db.encodeListHead name) := by
  obtain ⟨name, items, refers, ring, inside⟩ := linked
  obtain ⟨held, _⟩ := holds.refers.mp refers
  obtain ⟨values, items', _, _, queue, own⟩ :=
    holds.queue (show L.entries (Db.listHead :: name) = some h from held)
  obtain rfl := ring_unique ring queue.ring
  exact ⟨name, values, items, held, queue, inside, own⟩

theorem Holds.linked_iff (holds : Holds db L S) {name : List UInt8}
    (held : L.entries (Db.encodeListHead name) = some v) (queue : Queue db.heap v items values)
    (own : L.owner a = some (Db.encodeListHead name)) : db.Linked h a ↔ h = v ∧ a ∈ items := by
  constructor
  · intro linked
    obtain ⟨name', values', items', held', queue', inside, own'⟩ := holds.linked linked
    have same : Db.encodeListHead name = Db.encodeListHead name' :=
      Option.some.inj (own.symm.trans (own' a (List.mem_cons_of_mem h inside)))
    rw [← same, held] at held'
    obtain rfl := Option.some.inj held'
    exact ⟨rfl, queue'.items_eq queue ▸ inside⟩
  · rintro ⟨rfl, inside⟩
    exact ⟨name, items, holds.refers.mpr
      ⟨held, by simp [Db.encodeListHead, Db.listHead, Db.setHead]⟩, queue.ring, inside⟩

theorem Holds.refers_iff (holds : Holds db L S) (key' : List UInt8) (held : L.entries key = some v)
    (notSet : key.head? ≠ some Db.setHead)
    (own : L.owner a = some key) (notPoint : ∀ head, db.heap a ≠ some (.point head)) :
    db.Refers key' a ↔ key' = key ∧ a = v := by
  constructor
  · intro refers
    have own' := (holds.leads refers).owner notPoint
    obtain rfl : key = key' := Option.some.inj (own.symm.trans own')
    exact ⟨rfl, Option.some.inj ((holds.refers.mp refers).1.symm.trans held)⟩
  · rintro ⟨rfl, rfl⟩
    exact holds.refers.mpr ⟨held, notSet⟩

theorem Holds.points_twice (holds : Holds db L S) {id : List UInt8}
    (held : L.entries (Db.encodeIdHead id) = some a) :
    ∃ code, ∀ key, db.Refers key a ↔ key = Db.encodeIdHead id ∨ key = Db.encodeIndexHead code id := by
  obtain ⟨lat, lon, code, placed, encoded, here, own⟩ := holds.place held
  refine ⟨code, fun key => ⟨fun refers => ?_, ?_⟩⟩
  · cases holds.leads refers with
    | value _ here' _ =>
      rw [here] at here'
      cases here'
    | list _ _ _ here' _ =>
      rw [here] at here'
      cases here'
    | point id' code' lat' lon' spelled here' own' =>
      obtain rfl := point_key.mp (Option.some.inj (own.symm.trans own'))
      have record := Option.some.inj (here.symm.trans here')
      obtain rfl : code = code' := congrArg SpHead.geoHashCode (Record.point.inj record)
      exact spelled
  · rintro (rfl | rfl)
    · exact holds.refers.mpr ⟨held, by simp [Db.encodeIdHead, Db.spatialPointHead1, Db.setHead]⟩
    · refine holds.refers.mpr ⟨?_, by simp [Db.encodeIndexHead, Db.spatialPointHead2, Db.setHead]⟩
      exact (holds.index.at (code_length encoded) id a).mpr ⟨lat, lon, placed, encoded, held⟩

/-- A slot that stands for a store and has no record beside it is accounted for. -/
theorem Holds.accounted (holds : Holds db L S) (lossless : Lossless db L S)
    (start : ∀ a, db.heap a ≠ none → 4096 ≤ a) : db.Accounted := by
  have kinds : ∀ a, db.heap a ≠ none → ∃ key v cell, L.entries key = some v ∧
    Denotes db.heap L.owner key v cell ∧
      Occupies db.heap v cell a ∧ L.owner a = some key := by
    intro a live
    obtain ⟨key, plain, v, cell, held, stored, occupies⟩ := lossless a live
    obtain ⟨cell', stored', denotes⟩ := holds.denotes plain held
    obtain rfl := Option.some.inj (stored.symm.trans stored')
    exact ⟨key, v, cell, held, denotes, occupies, denotes.owned occupies⟩
  refine ⟨?_, ?_, ?_, ?_, fun key a refers => (holds.leads refers).live, ?_⟩
  · intro a live
    obtain ⟨key, _, _, _, _, _, own⟩ := kinds a live
    exact ⟨start a live, (holds.owned a key own).2⟩
  · intro a node here
    obtain ⟨key, v, cell, held, denotes, occupies, own⟩ := kinds a (by simp [here])
    have record := denotes.record occupies
    simp only [here, Option.some.injEq, reduceCtorEq, false_and, exists_false, or_false] at record
    obtain ⟨_, _, rfl, type⟩ := record
    have notSet : key.head? ≠ some Db.setHead := by
      rcases type with first | first <;> simp [first, Db.kvHead, Db.hashHead, Db.setHead]
    have only := fun key' => holds.refers_iff key' held notSet own (by simp [here])
    exact ⟨key, (only key).mpr ⟨rfl, rfl⟩, fun other refers => ((only other).mp refers).1⟩
  · intro a head here
    obtain ⟨key, v, cell, held, denotes, occupies, own⟩ := kinds a (by simp [here])
    have record := denotes.record occupies
    simp only [here, Option.some.injEq, reduceCtorEq, false_and, exists_false, false_or] at record
    obtain ⟨_, _, rfl, first⟩ := record
    obtain ⟨id, rfl⟩ := List.head?_eq_some_iff.mp first
    obtain ⟨code, twice⟩ := holds.points_twice held
    exact ⟨_, _, (index_ne_id code id id).symm, twice⟩
  · intro a node here
    obtain ⟨key, v, cell, held, denotes, occupies, own⟩ := kinds a (by simp [here])
    have record := denotes.record occupies
    simp only [here, Option.some.injEq, reduceCtorEq, false_and, exists_false,
      false_or, or_false] at record
    obtain ⟨_, _, first, values, items, queue, inside⟩ := record
    obtain ⟨name, rfl⟩ := List.head?_eq_some_iff.mp first
    have keys := fun key' => holds.refers_iff key' held (by simp [Db.listHead, Db.setHead]) own
      (by simp [here])
    have lists := fun h => holds.linked_iff (h := h) held queue own
    have headOut : v ∉ items := (List.nodup_cons.mp (ring_nodup queue.ring)).1
    rcases List.mem_cons.mp inside with rfl | item
    · refine Or.inl ⟨⟨_, (keys _).mpr ⟨rfl, rfl⟩, fun other refers => ((keys other).mp refers).1⟩,
        fun h linked => ?_⟩
      exact headOut ((lists h).mp linked).2
    · refine Or.inr ⟨fun other refers => ?_, v, (lists v).mpr ⟨rfl, item⟩, fun h linked =>
        ((lists h).mp linked).1⟩
      obtain rfl := ((keys other).mp refers).2
      exact headOut item
  · intro h a linked
    obtain ⟨_, _, _, _, queue, inside, _⟩ := holds.linked linked
    obtain ⟨node, here⟩ := queue.member (List.mem_cons_of_mem h inside)
    simp [here]

theorem Holds.value_none (holds : Holds db L S) {head type : UInt8} (headed : ValueHeaded head type)
    (rest : List UInt8) : S.value (head :: rest) = none ↔ S (head :: rest) = none := by
  cases held : L.entries (head :: rest) with
  | none => simp [Store.value, (holds.none_iff (headed.plain rest).2).mp held]
  | some v =>
    obtain ⟨node, stored, _⟩ := holds.value headed held
    simp [Store.value, stored]

theorem Holds.spares_iff (holds : Holds db L S) (op : Op) : db.Spares op ↔ S.Spares op := by
  cases op with
  | kvSet key value =>
    have kv : ValueHeaded Db.kvHead typeKv := Or.inl ⟨rfl, rfl⟩
    have got : db.kvGet key = _ := fetchValue_spec holds kv key
    simp only [Db.Spares, Store.Spares, got, Option.some.injEq]
    exact holds.value_none kv key
  | hashSet name key value =>
    have hash : ValueHeaded Db.hashHead typeHash := Or.inr ⟨rfl, rfl⟩
    have got := fetchValue_spec holds hash (UInt8.ofNat name.length :: key)
    simp only [Db.Spares, Store.Spares, Db.hashGet, encodeHashHead_eq, got, Option.some.injEq]
    exact holds.value_none hash _
  | _ => exact Iff.rfl

theorem overwrite_loses (holds : Holds db L S) {head type : UInt8} (headed : ValueHeaded head type)
    {rest value : List UInt8} (held : L.entries (head :: rest) = some v) {code : Int}
    (run : db.storeValue type (head :: rest) value = some (code, db')) : ¬ db'.Accounted := by
  intro accounted
  obtain ⟨t', T', ran, stores', _⟩ := storeValue_run holds headed rest value
  obtain ⟨_, rfl⟩ := Prod.mk.inj (Option.some.inj (run.symm.trans ran))
  obtain ⟨node, _, here, _, own⟩ := holds.value headed held
  have old : v ≠ db.fresh := by
    have := (holds.owned v _ own).2
    omega
  have notSet : (head :: rest).head? ≠ some Db.setHead := by
    rcases headed with ⟨rfl, _⟩ | ⟨rfl, _⟩ <;> simp [Db.kvHead, Db.hashHead, Db.setHead]
  obtain ⟨key, ⟨entry, keyNotSet⟩, _⟩ :=
    accounted.values v node ((Function.update_of_ne old _ _).trans here)
  have held' := (stores_entry stores').mp entry
  by_cases same : key = head :: rest
  · rw [same, Function.update_self] at held'
    exact old (Option.some.inj held').symm
  · rw [Function.update_of_ne same] at held'
    have refers : db.Refers key v := holds.refers.mpr ⟨held', keyNotSet⟩
    exact same ((holds.refers_iff _ held notSet own (by simp [here])).mp refers).1

theorem spares_of_accounted (holds : Holds db L S) {r : Reply} (run : db.step atof op = some (r, db'))
    (accounted : db'.Accounted) : S.Spares op := by
  cases op with
  | kvSet key value =>
    have kv : ValueHeaded Db.kvHead typeKv := Or.inl ⟨rfl, rfl⟩
    obtain ⟨⟨code, after⟩, stored, same⟩ := Option.map_eq_some_iff.mp run
    obtain ⟨_, rfl⟩ := Prod.mk.inj same
    by_contra filled
    obtain ⟨v, held⟩ := Option.ne_none_iff_exists'.mp
      (fun none => filled ((holds.none_iff (kv.plain key).2).mp none))
    exact overwrite_loses holds kv held stored accounted
  | hashSet name key value =>
    have hash : ValueHeaded Db.hashHead typeHash := Or.inr ⟨rfl, rfl⟩
    obtain ⟨⟨code, after⟩, stored, same⟩ := Option.map_eq_some_iff.mp run
    obtain ⟨_, rfl⟩ := Prod.mk.inj same
    rw [Db.hashSet, encodeHashHead_eq] at stored
    rw [Store.Spares, encodeHashHead_eq]
    by_contra filled
    obtain ⟨v, held⟩ := Option.ne_none_iff_exists'.mp
      (fun none => filled ((holds.none_iff (hash.plain _).2).mp none))
    exact overwrite_loses holds hash held stored accounted
  | _ => trivial

theorem accounted_start (accounted : db.AccountedRun atof ops) : db.Accounted := by
  cases ops with
  | nil => exact accounted
  | cons op rest => exact accounted.1

theorem accounted_spares (holds : Holds db L S) (accounted : db.AccountedRun atof ops) :
    db.SparesRun atof ops := by
  induction ops generalizing db L S with
  | nil => trivial
  | cons op rest ih =>
    obtain ⟨_, r, db1, run, _, later⟩ := accounted
    refine ⟨(holds.spares_iff op).mpr (spares_of_accounted holds run (accounted_start later)),
      fun r' db' run' => ?_⟩
    obtain ⟨r1, db2, L2, run2, holds2, _⟩ := step_spec holds atof op
    obtain ⟨_, rfl⟩ := Prod.mk.inj (Option.some.inj (run.symm.trans run'))
    obtain ⟨_, rfl⟩ := Prod.mk.inj (Option.some.inj (run.symm.trans run2))
    exact ih holds2 later

theorem spares_accounted (holds : Holds db L S) (lossless : Lossless db L S) (first : 4096 ≤ db.fresh)
    (start : ∀ a, db.heap a ≠ none → 4096 ≤ a) (spares : db.SparesRun atof ops) :
    db.AccountedRun atof ops := by
  induction ops generalizing db L S with
  | nil => exact holds.accounted lossless start
  | cons op rest ih =>
    obtain ⟨r, db1, L1, run, holds1, _, _, tended⟩ := step_spec holds atof op
    have tends := tended ((holds.spares_iff op).mp spares.1)
    have grown := tends.fresh
    refine ⟨holds.accounted lossless start, r, db1, run, ?_, ?_⟩
    · rintro a ⟨⟨low, high⟩, dead⟩
      refine ⟨⟨low, by omega⟩, ?_⟩
      by_contra live
      rcases tends.old a live with new | old
      · omega
      · exact old dead
    · refine ih holds1 (tends.lossless lossless) (by omega) (fun a live => ?_) (spares.2 r db1 run)
      rcases tends.old a live with new | old
      · omega
      · exact start a old

/-- From a new slot, every state of a run is accounted for when and only when no command of it
    writes a value over another. -/
theorem records_accounted (atof : List UInt8 → Option ℚ) (ops : List Op) :
    ∃ db, Db.init = some db ∧ (db.AccountedRun atof ops ↔ db.SparesRun atof ops) := by
  obtain ⟨t, run, stores⟩ := init_stores
  obtain ⟨db, L, made, holds⟩ := init_holds
  have db_eq : (⟨t, fun _ => none, 4096⟩ : Db) = db := by
    rw [Db.init, run] at made
    exact Option.some.inj made
  refine ⟨db, made, accounted_spares holds, fun spares => ?_⟩
  subst db_eq
  exact spares_accounted holds (fun a live => absurd rfl live) (le_refl _)
    (fun a live => absurd rfl live) spares

theorem overwritten_record_is_lost : ∃ db, Db.init = some db ∧
    ¬ db.AccountedRun (fun _ => none) [.kvSet [97] [120], .kvSet [97] [121]] := by
  obtain ⟨db, L, made, holds⟩ := init_holds
  refine ⟨db, made, fun accounted => ?_⟩
  have spares := accounted_spares holds accounted
  obtain ⟨r, db1, L1, run, holds1, _⟩ := step_spec holds (fun _ => none) (.kvSet [97] [120])
  have missing := (holds1.spares_iff _).mp (spares.2 r db1 run).1
  simp [Store.Spares, Store.apply] at missing

end
end EtdbDatabase
