import Etdb.Server.Stores
import Etdb.Wire.Messages

/- The answers on the wire. A record of no bytes ends a message, so that an empty string
   in an answer would cut it short; as long as no argument is empty and none fills the
   24 bits of a size field, nothing empty is ever stored or answered. -/
namespace EtdbServer
open EtdbTrie EtdbDatabase DecimalText

/-- Nothing empty is stored: no value, no item of a list, no id of a point. -/
structure Filled (S : Store) : Prop where
  bytes : ∀ key value, S key = some (.bytes value) → value ≠ []
  queue : ∀ key values, S key = some (.queue values) → ∀ value ∈ values, value ≠ []
  id : S (Db.encodeIdHead []) = none

/-- An argument that is neither empty nor too long for a size field. -/
def Short (str : List UInt8) : Prop := str ≠ [] ∧ str.length < 2 ^ 24

def Brief : Op → Prop
  | .kvSet _ value | .hashSet _ _ value | .listLpush _ value | .listRpush _ value => Short value
  | .spSet id _ _ => id ≠ []
  | _ => True

def Call.Brief (call : Call) : Prop :=
  match call.event with
  | .request r => ∀ str ∈ r.args, Short str
  | .childEnded => True

section
variable {S S' : Store} {op : Op} {key value : List UInt8} {values strs : List (List UInt8)}
    {atof : List UInt8 → Option ℚ}
variable {ret : Int} {reply : Reply} {A A' : Stores} {r : Request} {h : Handler}

theorem kept_some (short : Short value) {bits : Nat} (wide : 24 ≤ bits) : Store.kept bits value ≠ [] := by
  have room : 2 ^ 24 ≤ 2 ^ bits := Nat.pow_le_pow_right (by decide) wide
  have size : value.length % 2 ^ bits = value.length := Nat.mod_eq_of_lt (by have := short.2; omega)
  rw [Store.kept, size, List.take_length]
  exact short.1

theorem Filled.empty : Filled Store.empty :=
  ⟨(fun _ _ other => by cases other), (fun _ _ other => by cases other), rfl⟩

theorem Filled.update (filled : Filled S) {cell : Option Cell}
    (bytes : ∀ value, cell = some (.bytes value) → value ≠ [])
    (queue : ∀ values, cell = some (.queue values) → ∀ value ∈ values, value ≠ [])
    (id : key = Db.encodeIdHead [] → cell = none) : Filled (Function.update S key cell) := by
  refine ⟨fun k value held => ?_, fun k values held => ?_, ?_⟩
  · by_cases same : k = key
    · rw [same, Function.update_self] at held
      exact bytes value held
    · rw [Function.update_of_ne same] at held
      exact filled.bytes k value held
  · by_cases same : k = key
    · rw [same, Function.update_self] at held
      exact queue values held
    · rw [Function.update_of_ne same] at held
      exact filled.queue k values held
  · by_cases same : Db.encodeIdHead [] = key
    · rw [← same, Function.update_self]
      exact id same.symm
    · rw [Function.update_of_ne same]
      exact filled.id

theorem Filled.erase (filled : Filled S) (key : List UInt8) : Filled (Function.update S key none) :=
  filled.update (fun _ other => by cases other) (fun _ other => by cases other) fun _ => rfl

theorem Filled.putBytes (filled : Filled S) (some : value ≠ []) (apart : key ≠ Db.encodeIdHead []) :
    Filled (Function.update S key (Option.some (.bytes value))) :=
  filled.update (fun _ same => by cases same; exact some) (fun _ other => by cases other)
    fun same => absurd same apart

theorem Filled.queue_items (filled : Filled S) (key : List UInt8) : ∀ value ∈ S.queue key,
    value ≠ [] := by
  intro value member
  unfold Store.queue at member
  split at member
  · rename_i values held
    exact filled.queue key values held value member
  · cases member

theorem Filled.putQueue (filled : Filled S) (items : ∀ value ∈ values, value ≠ [])
    (apart : key ≠ Db.encodeIdHead []) : Filled (S.putQueue key values) := by
  unfold Store.putQueue
  split
  · exact filled.erase key
  · exact filled.update (fun _ other => by cases other) (fun _ same => by cases same; exact items)
      fun same => absurd same apart

theorem heads_apart (name key rest : List UInt8) : Db.encodeKvHead key ≠ Db.encodeIdHead rest ∧
    Db.encodeHashHead name key ≠ Db.encodeIdHead rest ∧ Db.encodeSetHead name key ≠ Db.encodeIdHead rest ∧
    Db.encodeListHead key ≠ Db.encodeIdHead rest := by
  refine ⟨?_, ?_, ?_, ?_⟩ <;> intro same <;> cases (List.cons.inj same).1

theorem Filled.apply (filled : Filled S) (brief : Brief op) : Filled (S.apply atof op) := by
  cases op with
  | kvSet key value => exact filled.putBytes (kept_some brief le_rfl) (heads_apart [] key []).1
  | kvDel key => exact filled.erase _
  | hashSet name key value => exact filled.putBytes (kept_some brief le_rfl) (heads_apart name key []).2.1
  | hashDel name key => exact filled.erase _
  | setAdd name key =>
    exact filled.update (fun _ other => by cases other) (fun _ other => by cases other)
      fun same => absurd same (heads_apart name key []).2.2.1
  | setDel name key => exact filled.erase _
  | listLpush name value =>
    refine filled.putQueue (fun v member => ?_) (heads_apart [] name []).2.2.2
    rcases List.mem_cons.mp member with rfl | old
    · exact kept_some brief (by decide)
    · exact filled.queue_items _ v old
  | listRpush name value =>
    refine filled.putQueue (fun v member => ?_) (heads_apart [] name []).2.2.2
    rcases List.mem_append.mp member with old | new
    · exact filled.queue_items _ v old
    · rw [List.mem_singleton.mp new]
      exact kept_some brief (by decide)
  | listLpop name =>
    exact filled.putQueue (fun v member => filled.queue_items _ v (List.mem_of_mem_tail member))
      (heads_apart [] name []).2.2.2
  | listRpop name =>
    exact filled.putQueue (fun v member => filled.queue_items _ v (List.mem_of_mem_dropLast member))
      (heads_apart [] name []).2.2.2
  | spSet id lat lon =>
    simp only [Store.apply]
    cases Db.coordinates atof lat lon with
    | none => exact filled
    | some p =>
      refine filled.update (fun _ other => by cases other) (fun _ other => by cases other) fun same => ?_
      exact absurd (List.cons.inj same).2 brief
  | spDel id => exact filled.erase _
  | kvGet _ => exact filled
  | kvMatchLongest _ => exact filled
  | hashGet _ _ => exact filled
  | setMembers _ => exact filled
  | setIsmember _ _ => exact filled
  | listLtop _ => exact filled
  | listRtop _ => exact filled
  | spGet _ => exact filled
  | spRect _ _ _ _ => exact filled

theorem printInt_some (i : Int) : printInt i ≠ [] := by
  unfold printInt
  split
  · exact List.cons_ne_nil _ _
  · exact spell_some _

theorem pointText_some (lat lon : ℚ) (code : List UInt8) : pointText lat lon code ≠ [] := by
  unfold pointText
  exact List.append_ne_nil_of_right_ne_nil _ (List.cons_ne_nil _ _)

theorem memberText_some (contain : Int) : memberText contain ≠ [] := by
  unfold memberText
  split <;> exact List.cons_ne_nil _ _

theorem Filled.stored (filled : Filled S) (held : S.value key = some value) : value ≠ [] := by
  unfold Store.value at held
  split at held
  · rename_i _ here
    cases held
    exact filled.bytes key _ here
  · cases held

theorem Filled.longest (filled : Filled S) {matchLen : Nat}
    (held : S.longest key = some (matchLen, value)) : value ≠ [] := by
  obtain ⟨P, _, here⟩ := List.exists_of_findSome?_eq_some held
  obtain ⟨v, stored, pair⟩ := Option.map_eq_some_iff.mp here
  cases pair
  exact filled.stored stored

theorem orFail_full {α : Type} {reply : α → Reply} {found : Option α} (op : Op)
    (failed : (answer op Db.failed).2 = [])
    (full : ∀ a, found = some a → ∀ str ∈ (answer op (reply a)).2, str ≠ []) :
    ∀ str ∈ (answer op (Db.orFail reply found)).2, str ≠ [] := by
  cases found with
  | none =>
    rw [Db.orFail, failed]
    exact fun str member => absurd member List.not_mem_nil
  | some a => exact full a rfl

theorem value_full (op : Op) {found : Option (List UInt8)} (failed : (answer op Db.failed).2 = [])
    (shape : ∀ v, (answer op (.value v)).2 = [v]) (full : ∀ v, found = some v → v ≠ [])
    (answered : reply = Db.orFail .value found) : ∀ str ∈ (answer op reply).2, str ≠ [] := by
  subst answered
  refine orFail_full op failed fun v held str member => ?_
  rw [shape] at member
  rw [List.mem_singleton.mp member]
  exact full v held

theorem status_full {code : Int} (op : Op) (plain : (answer op (.status code)).2 = [])
    (answered : reply = .status code) : ∀ str ∈ (answer op reply).2, str ≠ [] := by
  rw [answered, plain]
  exact fun str member => absurd member List.not_mem_nil

theorem Filled.answers (filled : Filled S) (answers : S.Answers atof op reply) :
    ∀ str ∈ (answer op reply).2, str ≠ [] := by
  cases op with
  | kvSet key value => exact status_full _ rfl answers
  | kvGet key => exact value_full _ rfl (fun _ => rfl) (fun v held => filled.stored held) answers
  | kvDel key => exact status_full _ rfl answers
  | kvMatchLongest key =>
    obtain rfl : reply = Db.orFail (fun p => .longest p.1 p.2) (S.longest key) :=
      answers
    refine orFail_full _ rfl ?_
    rintro ⟨matchLen, value⟩ held str member
    rcases List.mem_cons.mp member with rfl | last
    · exact filled.longest held
    · rw [List.mem_singleton.mp last]
      exact printInt_some _
  | hashSet name key value => exact status_full _ rfl answers
  | hashGet name key => exact value_full _ rfl (fun _ => rfl) (fun v held => filled.stored held) answers
  | hashDel name key => exact status_full _ rfl answers
  | setAdd name key => exact status_full _ rfl answers
  | setDel name key => exact status_full _ rfl answers
  | setMembers name =>
    obtain ⟨items, rfl, _, listed⟩ := answers
    exact fun str member => ((listed str).mp member).1
  | setIsmember name key =>
    obtain rfl := answers
    intro str member
    rw [List.mem_singleton.mp member]
    exact memberText_some _
  | listLpush name value => exact status_full _ rfl answers
  | listRpush name value => exact status_full _ rfl answers
  | listLpop name => exact status_full _ rfl answers
  | listRpop name => exact status_full _ rfl answers
  | listLtop name =>
    exact value_full _ rfl (fun _ => rfl)
      (fun v held => filled.queue_items _ v (List.mem_of_head? held)) answers
  | listRtop name =>
    exact value_full _ rfl (fun _ => rfl)
      (fun v held => filled.queue_items _ v (List.mem_of_getLast? held)) answers
  | spSet id lat lon => exact status_full _ rfl answers
  | spGet id =>
    have answers := Store.answers_spGet.mp answers
    cases placed : S.place (Db.encodeIdHead id) with
    | none =>
      rw [placed] at answers
      exact status_full _ rfl answers
    | some p =>
      rw [placed] at answers
      obtain ⟨code, _, rfl⟩ := answers
      intro str member
      rw [List.mem_singleton.mp member]
      exact pointText_some _ _ _
  | spDel id => exact status_full _ rfl answers
  | spRect lat1 lat2 lon1 lon2 =>
    have answers := Store.answers_spRect.mp answers
    split at answers
    · obtain ⟨ids, rfl, _, listed⟩ := answers
      rintro str member rfl
      obtain ⟨lat, lon, code, placed, _⟩ := (listed []).mp member
      rw [Store.place, filled.id] at placed
      cases placed
    · exact status_full _ rfl answers

theorem Filled.addAll (filled : Filled S) (name : List UInt8) (keys : List (List UInt8)) :
    Filled (S.after atof (keys.map (.setAdd name))) := by
  induction keys generalizing S with
  | nil => exact filled
  | cons key rest ih => exact ih (filled.apply (show Brief (.setAdd name key) from trivial))

theorem Filled.eraseAll (filled : Filled S) (name : List UInt8) (keys : List (List UInt8)) :
    Filled (eraseAll name S keys).2 := by
  induction keys generalizing S with
  | nil => exact filled
  | cons key rest ih =>
    unfold EtdbServer.eraseAll
    split
    · exact ih (filled.erase _)
    · exact filled

theorem meaning_brief {args : List (List UInt8)} (short : ∀ str ∈ args, Short str)
    (meaning : h.meaning args = .op op) : Brief op := by
  unfold Handler.meaning at meaning
  split at meaning
  case h_1 key value _ =>
    cases meaning
    exact short value (by simp)
  case h_5 name key value _ =>
    split at meaning
    · cases meaning
    · cases meaning
      exact short value (by simp)
  case h_8 name value _ =>
    cases meaning
    exact short value (by simp)
  case h_9 name value _ =>
    cases meaning
    exact short value (by simp)
  case h_18 key lat lon _ =>
    cases meaning
    exact (short key (by simp)).1
  case h_22 => cases meaning
  -- the others store nothing but keys
  all_goals first
    | (cases meaning; trivial)
    | (split at meaning <;> cases meaning; trivial)
    | (split at meaning <;> cases meaning)

theorem Filled.does {args : List (List UInt8)} (filled : Filled S) (short : ∀ str ∈ args, Short str)
    (does : Does atof S (h.meaning args) ret strs S') : Filled S' ∧ ∀ str ∈ strs, str ≠ [] := by
  cases meaning : h.meaning args with
  | op op =>
    rw [meaning] at does
    obtain ⟨reply, answers, pair, rfl⟩ := does
    refine ⟨filled.apply (meaning_brief short meaning), ?_⟩
    rw [show strs = (answer op reply).2 from congrArg Prod.snd pair]
    exact filled.answers answers
  | addAll name keys =>
    rw [meaning] at does
    obtain ⟨_, rfl, rfl⟩ := does
    exact ⟨filled.addAll name keys, fun str member => absurd member List.not_mem_nil⟩
  | delAll name keys =>
    rw [meaning] at does
    obtain ⟨rfl, pair⟩ := does
    refine ⟨?_, fun str member => absurd member List.not_mem_nil⟩
    rw [show S' = (EtdbServer.eraseAll name S keys).2 from congrArg Prod.snd pair]
    exact filled.eraseAll name keys
  | refused =>
    rw [meaning] at does
    obtain ⟨_, rfl, rfl⟩ := does
    exact ⟨filled, fun str member => absurd member List.not_mem_nil⟩
  | other =>
    rw [meaning] at does
    cases does

theorem Stores.handles_full (filled : ∀ i, Filled (A.stores i)) (short : ∀ str ∈ r.args, Short str)
    (handles : A.Handles atof r h ret strs A') :
    (∀ i, Filled (A'.stores i)) ∧ ∀ str ∈ strs, str ≠ [] := by
  have slot : (∃ S', Does atof (A.stores (A.slotOf r.conn)) (h.meaning r.args) ret strs S' ∧
      A' = { A with stores := Function.update A.stores (A.slotOf r.conn) S' }) →
      (∀ i, Filled (A'.stores i)) ∧ ∀ str ∈ strs, str ≠ [] := by
    rintro ⟨S', does, rfl⟩
    obtain ⟨filled', full⟩ := (filled (A.slotOf r.conn)).does short does
    refine ⟨fun i => ?_, full⟩
    by_cases here : i = A.slotOf r.conn
    · rw [here]
      dsimp only
      rwa [Function.update_self]
    · dsimp only
      rw [Function.update_of_ne here]
      exact filled i
  have none : ∀ str ∈ ([] : List (List UInt8)), str ≠ [] := fun str member =>
    absurd member List.not_mem_nil
  have one : ∀ text : List UInt8, text ≠ [] → ∀ str ∈ [text], str ≠ [] := by
    intro text some str member
    rwa [List.mem_singleton.mp member]
  cases h with
  | sysUse =>
    obtain ⟨rfl, _, _, _, ⟨slot, _, _, rfl⟩ | ⟨_, _, rfl⟩⟩ := handles
    · exact ⟨filled, none⟩
    · exact ⟨filled, none⟩
  | sysWhere =>
    obtain ⟨_, rfl, rfl⟩ := handles
    exact ⟨filled, one _ (printInt_some _)⟩
  | sysHelp =>
    obtain ⟨_, rfl, rfl⟩ := handles
    exact ⟨filled, one _ (by decide +kernel)⟩
  | sysPing =>
    obtain ⟨_, rfl, rfl⟩ := handles
    exact ⟨filled, none⟩
  | sysSync =>
    obtain ⟨_, rfl, rfl⟩ := handles
    exact ⟨filled, none⟩
  | spKnn =>
    obtain ⟨_, rfl, rfl⟩ := handles
    exact ⟨filled, one _ (by decide +kernel)⟩
  | geoHashInfo =>
    obtain ⟨_, rfl, rfl⟩ := handles
    exact ⟨filled, one _ (List.append_ne_nil_of_right_ne_nil _ (List.cons_ne_nil _ _))⟩
  | sysBgsave =>
    obtain ⟨_, rfl, rfl⟩ := handles
    exact ⟨filled, none⟩
  | sysInfo =>
    obtain ⟨_, ⟨mem, keys, rfl⟩, rfl⟩ := handles
    exact ⟨filled, one _ (List.append_ne_nil_of_right_ne_nil _ (printInt_some _))⟩
  | sysPerf =>
    obtain ⟨⟨str, rest, _, found⟩, rfl⟩ := handles
    split at found
    · obtain ⟨_, rfl⟩ := found
      exact ⟨filled, none⟩
    · obtain ⟨_, counters, rfl⟩ := found
      exact ⟨filled, one _ (List.append_ne_nil_of_right_ne_nil _ (printInt_some _))⟩
  | _ => exact slot handles

/-- An answer has a first string, and none of its strings is empty. -/
def Full (strs : List (List UInt8)) : Prop := strs ≠ [] ∧ ∀ str ∈ strs, str ≠ []

theorem Stores.serves_full (filled : ∀ i, Filled (A.stores i)) (short : ∀ str ∈ r.args, Short str)
    (serves : A.Serves atof r strs A') : (∀ i, Filled (A'.stores i)) ∧ Full strs := by
  have back : Full [Server.unknown r] := by
    refine ⟨List.cons_ne_nil _ _, fun str member => ?_⟩
    rw [List.mem_singleton.mp member]
    exact List.append_ne_nil_of_left_ne_nil (by decide +kernel) _
  unfold Stores.Serves at serves
  split at serves
  · obtain ⟨rfl, rfl⟩ := serves
    exact ⟨filled, back⟩
  · split at serves
    · obtain ⟨ret, out, rfl, handles⟩ := serves
      obtain ⟨filled', full⟩ := Stores.handles_full filled short handles
      refine ⟨filled', List.cons_ne_nil _ _, fun str member => ?_⟩
      rcases List.mem_cons.mp member with rfl | later
      · unfold Server.statusText
        split <;> decide +kernel
      · exact full str later
    · obtain ⟨rfl, rfl⟩ := serves
      exact ⟨filled, back⟩

theorem Stores.answers_full {calls : List Call} {replies : List (List (List UInt8))}
    (filled : ∀ i, Filled (A.stores i)) (brief : ∀ call ∈ calls, call.Brief)
    (answers : A.Answers atof calls replies A') : (∀ i, Filled (A'.stores i)) ∧ ∀ strs ∈ replies,
    Full strs := by
  induction calls generalizing A replies with
  | nil =>
    obtain ⟨rfl, rfl⟩ := answers
    exact ⟨filled, fun strs member => absurd member List.not_mem_nil⟩
  | cons call rest ih =>
    obtain ⟨event, counters⟩ := call
    have later := fun c member => brief c (List.mem_cons_of_mem _ member)
    cases event with
    | request r =>
      obtain ⟨strs, more, A1, rfl, serves, answers⟩ := answers
      obtain ⟨filled1, full⟩ := Stores.serves_full filled (brief _ List.mem_cons_self) serves
      obtain ⟨filled', fulls⟩ := ih filled1 later answers
      refine ⟨filled', fun s member => ?_⟩
      rcases List.mem_cons.mp member with rfl | old
      · exact full
      · exact fulls s old
    | childEnded => exact ih filled later answers

end

/-- As long as no argument is empty or fills a size field, what the server answers comes
    back from the parser as it was answered, string by string and answer by answer. -/
theorem answers_come_back (atof : List UInt8 → Option ℚ) (calls : List Call)
    (brief : ∀ call ∈ calls, call.Brief) :
    ∃ replies s, (Server.init >>= fun s => s.answers atof calls) = some (replies, s) ∧
      ((∀ strs ∈ replies, (EtdbWire.message strs).length ≤ EtdbWire.maxPacketSize) →
        ∀ buf : EtdbWire.Buf, buf.Sound → buf.valid = replies.flatMap EtdbWire.message →
          buf.Decodes [] replies) := by
  obtain ⟨s0, start, stands0⟩ := init_stands
  obtain ⟨replies, s, A, run, answers, stands⟩ := answers_spec atof stands0 calls
  refine ⟨replies, s, bind_run start run, fun fits buf sound valid => ?_⟩
  have full := (Stores.answers_full (fun _ => Filled.empty) brief answers).2
  exact EtdbWire.Buf.decodes replies
    (fun strs member => ⟨(full strs member).1, (full strs member).2, fits strs member⟩) sound (Or.inl rfl)
    (by rw [valid, List.nil_append])

def setAndGet : List Call :=
  [⟨.request ⟨0, bytes ['s', 'e', 't'], [[107], [118]], 0, 0⟩, fun _ => ⟨0, 0, 0⟩⟩,
    ⟨.request ⟨1, bytes ['G', 'E', 'T'], [[107]], 0, 0⟩, fun _ => ⟨0, 0, 0⟩⟩]

theorem answers_come_back_once :
    ∃ replies s, (Server.init >>= fun s => s.answers (fun _ => none) setAndGet) = some (replies, s) ∧
      ((∀ strs ∈ replies, (EtdbWire.message strs).length ≤ EtdbWire.maxPacketSize) →
        ∀ buf : EtdbWire.Buf, buf.Sound → buf.valid = replies.flatMap EtdbWire.message →
          buf.Decodes [] replies) :=
  answers_come_back (fun _ => none) setAndGet (by
    intro call member
    have cases : call = ⟨.request ⟨0, bytes ['s', 'e', 't'], [[107], [118]], 0, 0⟩, fun _ => ⟨0, 0, 0⟩⟩ ∨
        call = ⟨.request ⟨1, bytes ['G', 'E', 'T'], [[107]], 0, 0⟩, fun _ => ⟨0, 0, 0⟩⟩ := by
      simpa [setAndGet] using member
    rcases cases with rfl | rfl <;> intro str inside <;>
      simp only [List.mem_cons, List.not_mem_nil, or_false] at inside
    · rcases inside with rfl | rfl <;> exact ⟨by decide, by decide⟩
    · rw [inside]
      exact ⟨by decide, by decide⟩)

end EtdbServer
