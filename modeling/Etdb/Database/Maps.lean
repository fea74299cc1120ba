import Etdb.Database.Runs

/- kv values, hashes and sets against their ideals. The code falls short in two places: a
   size field has 24 bits, and the keys of hashes and sets carry the length of a name in
   place of the name. -/
namespace EtdbDatabase
open EtdbTrie

section
variable {atof : List UInt8 → Option ℚ} {S : Store} {s : Ideal} {op : Op}

theorem Store.after_append (S : Store) (l m : List Op) : S.after atof (l ++ m) =
    (S.after atof l).after atof m := by
  induction l generalizing S with
  | nil => rfl
  | cons op l ih => exact ih (S.apply atof op)

theorem Ideal.after_append (s : Ideal) (l m : List Op) : s.after atof (l ++ m) =
    (s.after atof l).after atof m := by
  induction l generalizing s with
  | nil => rfl
  | cons op l ih => exact ih (s.apply atof op)

theorem Store.kept_eq (bits : Nat) (value : List UInt8) : kept bits value = value ↔
    value.length < 2 ^ bits := by
  have positive : 0 < 2 ^ bits := Nat.two_pow_pos bits
  rw [kept, List.take_eq_self_iff]
  constructor
  · intro fits
    have := Nat.mod_lt value.length positive
    omega
  · intro small
    rw [Nat.mod_eq_of_lt small]

theorem Ideal.apply_kv (other : op.kind ≠ .kv) : (s.apply atof op).kv = s.kv := by
  cases op <;> first | exact absurd rfl other | rfl | skip
  simp only [Ideal.apply]
  split <;> rfl

theorem Ideal.apply_hash (other : op.kind ≠ .hash) : (s.apply atof op).hash = s.hash := by
  cases op <;> first | exact absurd rfl other | rfl | skip
  simp only [Ideal.apply]
  split <;> rfl

theorem Ideal.apply_set (other : op.kind ≠ .set) : (s.apply atof op).set = s.set := by
  cases op <;> first | exact absurd rfl other | rfl | skip
  simp only [Ideal.apply]
  split <;> rfl

theorem Ideal.apply_list (other : op.kind ≠ .list) : (s.apply atof op).list = s.list := by
  cases op <;> first | exact absurd rfl other | rfl | skip
  simp only [Ideal.apply]
  split <;> rfl

theorem Ideal.apply_point (other : op.kind ≠ .point) : (s.apply atof op).point = s.point := by
  cases op <;> first | exact absurd rfl other | rfl

end

/- kv -/

/-- After every beginning of a run, each key yields its last value, or fails without one. -/
def KvFaithful (atof : List UInt8 → Option ℚ) (ops : List Op) : Prop :=
  ∀ before, before <+: ops → ∃ replies db, (Db.init >>= fun db => db.run atof before) =
  some (replies, db) ∧
    ∀ key, db.kvGet key = some ((Ideal.empty.after atof before).kv key)

def KvSim (S : Store) (s : Ideal) : Prop := ∀ key, S (Db.encodeKvHead key) = (s.kv key).map Cell.bytes

section
variable {atof : List UInt8 → Option ℚ} {S : Store} {s : Ideal} {op : Op} {ops : List Op}

theorem kv_key {key key' : List UInt8} : Db.encodeKvHead key = Db.encodeKvHead key' ↔ key = key' := by
  simp [Db.encodeKvHead]

theorem away_kv {key : List UInt8} (other : op.kind ≠ .kv) :
    S.apply atof op (Db.encodeKvHead key) = S (Db.encodeKvHead key) := by
  refine apply_away S atof fun head type first => ?_
  obtain rfl : Db.kvHead = head := Option.some.inj first
  revert other type
  cases op.kind <;> simp [Kind.heads, Db.kvHead, Db.hashHead, Db.setHead,
    Db.listHead, Db.spatialPointHead1, Db.spatialPointHead2]

theorem KvSim.step (sim : KvSim S s) (small : ∀ key value, op = .kvSet key value →
    value.length < 2 ^ 24) : KvSim (S.apply atof op) (s.apply atof op) := by
  intro key
  by_cases other : op.kind = .kv
  · cases op with
    | kvSet k value =>
      have fits := (Store.kept_eq 24 value).mpr (small k value rfl)
      by_cases same : key = k
      · simp [Store.apply, Ideal.apply, same, fits]
      · simp [Store.apply, Ideal.apply, kv_key, same, sim key]
    | kvDel k =>
      by_cases same : key = k
      · simp [Store.apply, Ideal.apply, same]
      · simp [Store.apply, Ideal.apply, kv_key, same, sim key]
    | kvGet _ => exact sim key
    | kvMatchLongest _ => exact sim key
    | _ => cases other
  · rw [away_kv other, Ideal.apply_kv other, sim key]

theorem KvSim.run (sim : KvSim S s) (small : ∀ key value, Op.kvSet key value ∈ ops →
    value.length < 2 ^ 24) : KvSim (S.after atof ops) (s.after atof ops) := by
  induction ops generalizing S s with
  | nil => exact sim
  | cons op rest ih =>
    refine ih (sim.step fun key value same =>
      small key value (by rw [← same]; exact List.mem_cons_self)) ?_
    exact fun key value member => small key value (List.mem_cons_of_mem op member)

theorem kvGet_run {db : Db} {L : Layout} (holds : Holds db L S) (key : List UInt8) :
    db.kvGet key = some (S.value (Db.encodeKvHead key)) := fetchValue_spec holds (Or.inl ⟨rfl, rfl⟩) key

theorem KvFaithful.small (faithful : KvFaithful atof ops) {key value : List UInt8}
    (member : Op.kvSet key value ∈ ops) : value.length < 2 ^ 24 := by
  obtain ⟨before, rest, rfl⟩ := List.append_of_mem member
  obtain ⟨replies, db, run, gets⟩ := faithful (before ++ [.kvSet key value]) ⟨rest, by simp⟩
  obtain ⟨replies', db', L, run', holds, _⟩ := reached_holds atof (before ++ [.kvSet key value])
  obtain ⟨_, rfl⟩ := Prod.mk.inj (Option.some.inj (run.symm.trans run'))
  have got := (kvGet_run holds key).symm.trans (gets key)
  rw [Store.after_append, Ideal.after_append] at got
  have kept : Store.kept 24 value = value := by
    simpa [Store.after, Ideal.after, Store.value, Store.apply, Ideal.apply] using got
  exact (Store.kept_eq 24 value).mp kept

/-- kv_get yields the last value of every key throughout a run when and only when every
    value set in it is shorter than 2 ^ 24 bytes. -/
theorem kv_returns_last_value (atof : List UInt8 → Option ℚ) (ops : List Op) :
    KvFaithful atof ops ↔ ∀ key value, Op.kvSet key value ∈ ops → value.length < 2 ^ 24 := by
  constructor
  · intro faithful key value member
    exact faithful.small member
  · intro small before start
    obtain ⟨replies, db, L, run, holds, _⟩ := reached_holds atof before
    refine ⟨replies, db, run, fun key => ?_⟩
    have sim : KvSim (Store.empty.after atof before) (Ideal.empty.after atof before) :=
      KvSim.run (fun _ => rfl) fun key value member => small key value (start.subset member)
    rw [kvGet_run holds, Store.value, sim key]
    cases (Ideal.empty.after atof before).kv key <;> rfl

theorem long_value_is_lost : ¬ KvFaithful (fun _ => none) [.kvSet [107] (List.replicate (2 ^ 24) 0)] := by
  intro faithful
  have small := faithful.small List.mem_cons_self
  rw [List.length_replicate] at small
  exact lt_irrefl _ small

end

/- Hashes and sets -/

/-- A run whose hash and set commands are answered as by independent maps and sets. -/
def AnswersIdeally (atof : List UInt8 → Option ℚ) (ops : List Op) : Prop :=
  ∃ replies db, (Db.init >>= fun db => db.run atof ops) = some (replies, db) ∧
    Ideal.empty.AnswersRun atof .hash ops replies ∧ Ideal.empty.AnswersRun atof .set ops replies

def Isolates (atof : List UInt8 → Option ℚ) (R : Op → Prop) : Prop :=
  ∀ ops, (∀ op ∈ ops, R op) → AnswersIdeally atof ops

def Op.name : Op → Option (List UInt8)
  | .hashSet name _ _ | .hashGet name _ | .hashDel name _ => some name
  | .setAdd name _ | .setDel name _ | .setMembers name | .setIsmember name _ => some name
  | _ => none

def NamesFit (R : Op → Prop) : Prop := ∀ op, R op → ∀ name, op.name = some name → name.length ≤ 255

/-- An item that a walk below its set's key can give back. -/
def Listable (key : List UInt8) : Prop := key ≠ [] ∧ 0 ∉ key

/-- What is written under a name is read only under that name, or under one of another
    length; what is written can be read back. -/
structure Separate (R : Op → Prop) : Prop where
  hashNames : ∀ name name' key value, R (.hashSet name key value) → R (.hashGet name' key) ∨
    R (.hashDel name' key) → name.length = name'.length → name = name'
  hashValues : ∀ name key value, R (.hashSet name key value) → R (.hashGet name key) →
  value.length < 2 ^ 24
  setNames : ∀ name name' key, R (.setAdd name key) → R (.setIsmember name' key) ∨ R (.setDel name' key) →
    name.length = name'.length → name = name'
  setItems : ∀ name name' key, R (.setAdd name key) → R (.setMembers name') → name.length = name'.length →
    (name = name' ↔ Listable key)

structure HashSim (R : Op → Prop) (S : Store) (s : Ideal) : Prop where
  written : ∀ name key value, s.hash name key = some value → R (.hashSet name key value)
  cells : ∀ name key, R (.hashGet name key) ∨ R (.hashDel name key) →
    S (Db.encodeHashHead name key) = (s.hash name key).map fun value => .bytes (Store.kept 24 value)

structure SetSim (R : Op → Prop) (S : Store) (s : Ideal) : Prop where
  written : ∀ name key, s.set name key = true → R (.setAdd name key)
  cells : ∀ name key, R (.setIsmember name key) ∨ R (.setDel name key) ∨ R (.setMembers name) ∧
  Listable key →
    S (Db.encodeSetHead name key) = if s.set name key then some .member else none

section
variable {atof : List UInt8 → Option ℚ} {S : Store} {s : Ideal} {op : Op} {ops : List Op} {R : Op → Prop}
variable {name name' key key' value : List UInt8} {r : Reply}

theorem length_byte (short : name.length ≤ 255) (short' : name'.length ≤ 255) :
    UInt8.ofNat name.length = UInt8.ofNat name'.length ↔ name.length = name'.length := by
  constructor
  · intro same
    have sizes := congrArg UInt8.toNat same
    simp only [UInt8.toNat_ofNat'] at sizes
    omega
  · intro same
    rw [same]

theorem hash_key (key key' : List UInt8) (short : name.length ≤ 255) (short' : name'.length ≤ 255) :
    Db.encodeHashHead name key = Db.encodeHashHead name' key' ↔
      name.length = name'.length ∧ key = key' := by
  simp [encodeHashHead_eq, length_byte short short']

theorem set_key (key key' : List UInt8) (short : name.length ≤ 255) (short' : name'.length ≤ 255) :
    Db.encodeSetHead name key = Db.encodeSetHead name' key' ↔
      name.length = name'.length ∧ key = key' := by
  simp [encodeSetHead_eq, length_byte short short']

theorem hash_update {v : Option (List UInt8)} : (s.putHash name key v).hash name' key' =
    if name' = name ∧ key' = key then v else s.hash name' key' := by
  by_cases first : name' = name
  · subst first
    by_cases second : key' = key <;> simp [Ideal.putHash, second]
  · simp [Ideal.putHash, first]

theorem set_update {b : Bool} : (s.putSet name key b).set name' key' =
    if name' = name ∧ key' = key then b else s.set name' key' := by
  by_cases first : name' = name
  · subst first
    by_cases second : key' = key <;> simp [Ideal.putSet, second]
  · simp [Ideal.putSet, first]

theorem away_hash (other : op.kind ≠ .hash) :
    S.apply atof op (Db.encodeHashHead name key) = S (Db.encodeHashHead name key) := by
  refine apply_away S atof fun head type first => ?_
  obtain rfl : Db.hashHead = head := Option.some.inj first
  revert other type
  cases op.kind <;> simp [Kind.heads, Db.kvHead, Db.hashHead, Db.setHead,
    Db.listHead, Db.spatialPointHead1, Db.spatialPointHead2]

theorem away_set (other : op.kind ≠ .set) :
    S.apply atof op (Db.encodeSetHead name key) = S (Db.encodeSetHead name key) := by
  refine apply_away S atof fun head type first => ?_
  obtain rfl : Db.setHead = head := Option.some.inj first
  revert other type
  cases op.kind <;> simp [Kind.heads, Db.kvHead, Db.hashHead, Db.setHead,
    Db.listHead, Db.spatialPointHead1, Db.spatialPointHead2]

theorem HashSim.step (sim : HashSim R S s) (separate : Separate R) (short : NamesFit R)
    (requested : R op) : HashSim R (S.apply atof op) (s.apply atof op) := by
  have fits : ∀ name key, R (.hashGet name key) ∨ R (.hashDel name key) → name.length ≤ 255 := by
    rintro name key (get | del)
    · exact short _ get name rfl
    · exact short _ del name rfl
  by_cases other : op.kind = .hash
  · cases op with
    | hashSet n k v =>
      refine ⟨fun name key value held => ?_, fun name key reader => ?_⟩
      · change (s.putHash n k (some v)).hash name key = some value at held
        rw [hash_update] at held
        split at held
        · rename_i same
          rw [same.1, same.2, ← Option.some.inj held]
          exact requested
        · exact sim.written name key value held
      · change Function.update S (Db.encodeHashHead n k) (some (.bytes (Store.kept 24 v)))
          (Db.encodeHashHead name key) =
          ((s.putHash n k (some v)).hash name key).map fun value => .bytes (Store.kept 24 value)
        rw [hash_update, Function.update_apply]
        have keys := hash_key key k (fits name key reader) (short _ requested n rfl)
        by_cases same : name = n ∧ key = k
        · rw [if_pos (keys.mpr ⟨by rw [same.1], same.2⟩), if_pos same]
          rfl
        · have distinct : Db.encodeHashHead name key ≠ Db.encodeHashHead n k := by
            intro collide
            obtain ⟨lengths, rfl⟩ := keys.mp collide
            exact same ⟨(separate.hashNames n name key v requested reader lengths.symm).symm, rfl⟩
          rw [if_neg distinct, if_neg same]
          exact sim.cells name key reader
    | hashDel n k =>
      refine ⟨fun name key value held => ?_, fun name key reader => ?_⟩
      · change (s.putHash n k none).hash name key = some value at held
        rw [hash_update] at held
        split at held
        · cases held
        · exact sim.written name key value held
      · change Function.update S (Db.encodeHashHead n k) none (Db.encodeHashHead name key) =
          ((s.putHash n k none).hash name key).map fun value => .bytes (Store.kept 24 value)
        rw [hash_update, Function.update_apply]
        have keys := hash_key key k (fits name key reader) (short _ requested n rfl)
        by_cases same : name = n ∧ key = k
        · rw [if_pos (keys.mpr ⟨by rw [same.1], same.2⟩), if_pos same]
          rfl
        · rw [if_neg same, ← sim.cells name key reader]
          split
          · -- the key that goes is one that nothing was written under
            rename_i collide
            obtain ⟨lengths, rfl⟩ := keys.mp collide
            rw [sim.cells name key reader]
            cases held : s.hash name key with
            | none => rfl
            | some value =>
              have names := separate.hashNames name n key value (sim.written name key value held)
                (Or.inr requested) lengths
              exact absurd ⟨names, rfl⟩ same
          · rfl
    | hashGet _ _ => exact sim
    | _ => cases other
  · refine ⟨fun name key value held => ?_, fun name key reader => ?_⟩
    · rw [Ideal.apply_hash other] at held
      exact sim.written name key value held
    · rw [away_hash other, Ideal.apply_hash other]
      exact sim.cells name key reader

theorem HashSim.answers (sim : HashSim R S s) (separate : Separate R) (requested : R op)
    (kind : op.kind = .hash) (answers : S.Answers atof op r) : s.Answers atof op r := by
  cases op with
  | hashSet n k v => exact answers
  | hashGet n k =>
    change r = _ at answers
    change r = _
    rw [answers, Store.value, sim.cells n k (Or.inl requested)]
    cases held : s.hash n k with
    | none => rfl
    | some value =>
      have small := separate.hashValues n k value (sim.written n k value held) requested
      simp [(Store.kept_eq 24 value).mpr small]
  | hashDel n k =>
    change r = _ at answers
    change r = _
    rw [answers, sim.cells n k (Or.inr requested)]
    cases s.hash n k <;> rfl
  | _ => cases kind

theorem SetSim.step (sim : SetSim R S s) (separate : Separate R) (short : NamesFit R) (requested : R op) :
    SetSim R (S.apply atof op) (s.apply atof op) := by
  have fits : ∀ name key, R (.setIsmember name key) ∨ R (.setDel name key) ∨ R (.setMembers name) ∧
    Listable key →
      name.length ≤ 255 := by
    rintro name key (is | del | ⟨members, _⟩)
    · exact short _ is name rfl
    · exact short _ del name rfl
    · exact short _ members name rfl
  -- an item that a reader can meet was added under the reader's own name
  have names : ∀ n name key, R (.setAdd n key) →
      R (.setIsmember name key) ∨ R (.setDel name key) ∨ R (.setMembers name) ∧ Listable key →
      n.length = name.length → n = name := by
    rintro n name key added (is | del | ⟨members, listable⟩) lengths
    · exact separate.setNames n name key added (Or.inl is) lengths
    · exact separate.setNames n name key added (Or.inr del) lengths
    · exact (separate.setItems n name key added members lengths).mpr listable
  by_cases other : op.kind = .set
  · cases op with
    | setAdd n k =>
      refine ⟨fun name key held => ?_, fun name key reader => ?_⟩
      · change (s.putSet n k true).set name key = true at held
        rw [set_update] at held
        split at held
        · rename_i same
          rw [same.1, same.2]
          exact requested
        · exact sim.written name key held
      · change Function.update S (Db.encodeSetHead n k) (some .member) (Db.encodeSetHead name key) =
          if (s.putSet n k true).set name key then some .member else none
        rw [set_update, Function.update_apply]
        have keys := set_key key k (fits name key reader) (short _ requested n rfl)
        by_cases same : name = n ∧ key = k
        · rw [if_pos (keys.mpr ⟨by rw [same.1], same.2⟩), if_pos same]
          rfl
        · have distinct : Db.encodeSetHead name key ≠ Db.encodeSetHead n k := by
            intro collide
            obtain ⟨lengths, rfl⟩ := keys.mp collide
            exact same ⟨(names n name key requested reader lengths.symm).symm, rfl⟩
          rw [if_neg distinct, if_neg same]
          exact sim.cells name key reader
    | setDel n k =>
      refine ⟨fun name key held => ?_, fun name key reader => ?_⟩
      · change (s.putSet n k false).set name key = true at held
        rw [set_update] at held
        split at held
        · cases held
        · exact sim.written name key held
      · change Function.update S (Db.encodeSetHead n k) none (Db.encodeSetHead name key) =
          if (s.putSet n k false).set name key then some .member else none
        rw [set_update, Function.update_apply]
        have keys := set_key key k (fits name key reader) (short _ requested n rfl)
        by_cases same : name = n ∧ key = k
        · rw [if_pos (keys.mpr ⟨by rw [same.1], same.2⟩), if_pos same]
          rfl
        · rw [if_neg same, ← sim.cells name key reader]
          split
          · rename_i collide
            obtain ⟨lengths, rfl⟩ := keys.mp collide
            rw [sim.cells name key reader]
            cases held : s.set name key with
            | false => rfl
            | true =>
              have names' := separate.setNames name n key (sim.written name key held)
                (Or.inr requested) lengths
              exact absurd ⟨names', rfl⟩ same
          · rfl
    | setMembers _ => exact sim
    | setIsmember _ _ => exact sim
    | _ => cases other
  · refine ⟨fun name key held => ?_, fun name key reader => ?_⟩
    · rw [Ideal.apply_set other] at held
      exact sim.written name key held
    · rw [away_set other, Ideal.apply_set other]
      exact sim.cells name key reader

theorem SetSim.answers (sim : SetSim R S s) (separate : Separate R) (requested : R op)
    (kind : op.kind = .set) (answers : S.Answers atof op r) : s.Answers atof op r := by
  cases op with
  | setAdd n k => exact answers
  | setDel n k =>
    change r = _ at answers
    change r = _
    rw [answers, sim.cells n k (Or.inr (Or.inl requested))]
    cases s.set n k <;> rfl
  | setMembers n =>
    obtain ⟨items, reply, nodup, member⟩ := answers
    refine ⟨items, reply, nodup, fun key => ?_⟩
    rw [member]
    constructor
    · rintro ⟨some, clean, held⟩
      rw [sim.cells n key (Or.inr (Or.inr ⟨requested, some, clean⟩))] at held
      by_contra out
      rw [if_neg out] at held
      exact held rfl
    · intro held
      have listable := (separate.setItems n n key (sim.written n key held) requested rfl).mp rfl
      refine ⟨listable.1, listable.2, ?_⟩
      rw [sim.cells n key (Or.inr (Or.inr ⟨requested, listable⟩)), if_pos held]
      simp
  | setIsmember n k =>
    change r = _ at answers
    change r = _
    rw [answers, sim.cells n k (Or.inl requested)]
    cases s.set n k <;> rfl
  | _ => cases kind

theorem separate_run (separate : Separate R) (short : NamesFit R) (hash : HashSim R S s)
    (set : SetSim R S s)
    (requested : ∀ op ∈ ops, R op) {replies : List Reply} (answers : S.AnswersRun atof ops replies) :
    s.AnswersRun atof .hash ops replies ∧ s.AnswersRun atof .set ops replies := by
  induction ops generalizing S s replies with
  | nil => exact ⟨answers, answers⟩
  | cons op rest ih =>
    cases replies with
    | nil => exact absurd answers id
    | cons r replies =>
      have first := requested op List.mem_cons_self
      obtain ⟨later, later'⟩ := ih (hash.step separate short first) (set.step separate short first)
        (fun op member => requested op (List.mem_cons_of_mem _ member)) answers.2
      exact ⟨⟨fun kind => hash.answers separate first kind answers.1, later⟩,
        fun kind => set.answers separate first kind answers.1, later'⟩

theorem AnswersIdeally.second {first second : Op} (ideal : AnswersIdeally atof [first, second])
    (kind : second.kind = .hash ∨ second.kind = .set) : ∃ r, (Store.empty.apply atof first).Answers
    atof second r ∧
      (Ideal.empty.apply atof first).Answers atof second r := by
  obtain ⟨replies, db, run, hash, set⟩ := ideal
  obtain ⟨replies', db', L, run', holds, answers⟩ := reached_holds atof [first, second]
  obtain ⟨rfl, _⟩ := Prod.mk.inj (Option.some.inj (run.symm.trans run'))
  match replies with
  | [] => exact absurd answers id
  | [_] => exact absurd answers.2 id
  | r :: r' :: _ =>
    rcases kind with kind | kind
    · exact ⟨r', answers.2.1, hash.2.1 kind⟩
    · exact ⟨r', answers.2.1, set.2.1 kind⟩

theorem clashing_hash_read {n n' k v : List UInt8} (lengths : n.length = n'.length)
    (ideal : AnswersIdeally atof [.hashSet n k v, .hashGet n' k]) : n = n' ∧ v.length < 2 ^ 24 := by
  obtain ⟨r, real, want⟩ := ideal.second (Or.inl rfl)
  have key : Db.encodeHashHead n' k = Db.encodeHashHead n k := by simp [encodeHashHead_eq, lengths]
  change r = Db.orFail .value (Store.value (Function.update Store.empty (Db.encodeHashHead n k)
    (some (.bytes (Store.kept 24 v)))) (Db.encodeHashHead n' k)) at real
  change r = Db.orFail .value ((Ideal.empty.putHash n k (some v)).hash n' k) at want
  rw [key, Store.value, Function.update_self] at real
  rw [real, hash_update] at want
  by_cases names : n' = n
  · rw [if_pos ⟨names, rfl⟩] at want
    have kept : Store.kept 24 v = v := by simpa [Db.orFail] using want
    exact ⟨names.symm, (Store.kept_eq 24 v).mp kept⟩
  · rw [if_neg (fun h => names h.1)] at want
    cases want

theorem clashing_hash_del {n n' k v : List UInt8} (lengths : n.length = n'.length)
    (ideal : AnswersIdeally atof [.hashSet n k v, .hashDel n' k]) : n = n' := by
  obtain ⟨r, real, want⟩ := ideal.second (Or.inl rfl)
  have key : Db.encodeHashHead n' k = Db.encodeHashHead n k := by simp [encodeHashHead_eq, lengths]
  change r = Ideal.done (Function.update Store.empty (Db.encodeHashHead n k)
    (some (.bytes (Store.kept 24 v))) (Db.encodeHashHead n' k)).isSome at real
  change r = Ideal.done ((Ideal.empty.putHash n k (some v)).hash n' k).isSome at want
  rw [key, Function.update_self] at real
  rw [real, hash_update] at want
  by_contra names
  rw [if_neg (fun h => names h.1.symm)] at want
  cases want

theorem clashing_set_read {n n' k : List UInt8} (lengths : n.length = n'.length)
    (ideal : AnswersIdeally atof [.setAdd n k, .setIsmember n' k]) : n = n' := by
  obtain ⟨r, real, want⟩ := ideal.second (Or.inr rfl)
  have key : Db.encodeSetHead n' k = Db.encodeSetHead n k := by simp [encodeSetHead_eq, lengths]
  change r = .status (if (Function.update Store.empty (Db.encodeSetHead n k)
    (some .member) (Db.encodeSetHead n' k)).isSome then 1 else 0) at real
  change r = .status (if (Ideal.empty.putSet n k true).set n' k then 1 else 0) at want
  rw [key, Function.update_self] at real
  rw [real, set_update] at want
  by_contra names
  have other : ¬ n' = n := fun h => names h.symm
  simp [other, Ideal.empty] at want

theorem clashing_set_del {n n' k : List UInt8} (lengths : n.length = n'.length)
    (ideal : AnswersIdeally atof [.setAdd n k, .setDel n' k]) : n = n' := by
  obtain ⟨r, real, want⟩ := ideal.second (Or.inr rfl)
  have key : Db.encodeSetHead n' k = Db.encodeSetHead n k := by simp [encodeSetHead_eq, lengths]
  change r = Ideal.done (Function.update Store.empty (Db.encodeSetHead n k)
    (some .member) (Db.encodeSetHead n' k)).isSome at real
  change r = Ideal.done ((Ideal.empty.putSet n k true).set n' k) at want
  rw [key, Function.update_self] at real
  rw [real, set_update] at want
  by_contra names
  rw [if_neg (fun h => names h.1.symm)] at want
  cases want

theorem clashing_set_list {n n' k : List UInt8} (lengths : n.length = n'.length)
    (ideal : AnswersIdeally atof [.setAdd n k, .setMembers n']) : n = n' ↔ Listable k := by
  obtain ⟨r, real, want⟩ := ideal.second (Or.inr rfl)
  have key : Db.encodeSetHead n' k = Db.encodeSetHead n k := by simp [encodeSetHead_eq, lengths]
  obtain ⟨items, rfl, _, listed⟩ := real
  obtain ⟨items', same, _, member⟩ := want
  obtain rfl := Reply.members.inj same
  have real := listed k
  have want := member k
  change _ ↔ k ≠ [] ∧ 0 ∉ k ∧ Function.update Store.empty (Db.encodeSetHead n k)
    (some .member) (Db.encodeSetHead n' k) ≠ none at real
  change _ ↔ (Ideal.empty.putSet n k true).set n' k = true at want
  rw [key, Function.update_self] at real
  rw [set_update] at want
  rw [real] at want
  have names : n = n' ↔ (if n' = n ∧ k = k then true else Ideal.empty.set n' k) = true := by
    by_cases same : n = n'
    · simp [same]
    · have other : ¬ n' = n := fun h => same h.symm
      simp [same, other, Ideal.empty]
  rw [names, ← want, Listable]
  simp

/-- Runs of requests of a family, with names of at most 255 bytes, are answered as by
    independent maps and sets when and only when the family keeps apart what it writes
    under equally long names and writes only what can be read back. -/
theorem names_isolated (atof : List UInt8 → Option ℚ) (R : Op → Prop) (short : NamesFit R) :
    Isolates atof R ↔ Separate R := by
  constructor
  · intro isolates
    have pair : ∀ first second, R first → R second → AnswersIdeally atof [first, second] := by
      intro first second one two
      refine isolates [first, second] fun op member => ?_
      rcases List.mem_cons.mp member with rfl | last
      · exact one
      · rw [List.mem_singleton.mp last]
        exact two
    refine ⟨?_, ?_, ?_, ?_⟩
    · rintro n n' k v written (get | del) lengths
      · exact (clashing_hash_read lengths (pair _ _ written get)).1
      · exact clashing_hash_del lengths (pair _ _ written del)
    · intro n k v written get
      exact (clashing_hash_read rfl (pair _ _ written get)).2
    · rintro n n' k added (is | del) lengths
      · exact clashing_set_read lengths (pair _ _ added is)
      · exact clashing_set_del lengths (pair _ _ added del)
    · intro n n' k added members lengths
      exact clashing_set_list lengths (pair _ _ added members)
  · intro separate ops requested
    obtain ⟨replies, db, L, run, _, answers⟩ := reached_holds atof ops
    obtain ⟨hash, set⟩ := separate_run separate short (S := Store.empty) (s := Ideal.empty)
      ⟨fun _ _ _ held => (by cases held), fun _ _ _ => rfl⟩
      ⟨fun _ _ held => (by cases held), fun _ _ _ => rfl⟩ requested answers
    exact ⟨replies, db, run, hash, set⟩

/-- Requests under the names "ab" and "c", which have different lengths. -/
def apartRequests : List Op :=
  [.hashSet [97, 98] [107] [118], .hashGet [99] [107], .hashGet [97, 98] [107], .hashDel [99] [107],
    .setAdd [97, 98] [105], .setMembers [99], .setMembers [97, 98], .setIsmember [99] [105]]

/-- Requests under the names "ab" and "cd". -/
def clashingRequests : List Op :=
  [.hashSet [97, 98] [107] [118], .hashGet [99, 100] [107], .setAdd [97, 98] [105],
    .setMembers [99, 100]]

theorem apartRequests_separate : Separate (· ∈ apartRequests) := by
  refine ⟨?_, ?_, ?_, ?_⟩
  · intro name name' key value written read lengths
    simp [apartRequests] at written read
    grind
  · intro name key value written read
    simp [apartRequests] at written
    rw [written.2.2]
    decide
  · intro name name' key added read lengths
    simp [apartRequests] at added read
    grind
  · intro name name' key added listed lengths
    simp [apartRequests] at added listed
    have listable : Listable [105] := by
      constructor <;> decide
    grind

theorem names_isolated_once : Isolates (fun _ => none) (· ∈ apartRequests) ∧
    ¬ Isolates (fun _ => none) (· ∈ clashingRequests) := by
  have apartFit : NamesFit (· ∈ apartRequests) := by
    have all : ∀ op ∈ apartRequests, ∀ name ∈ op.name, name.length ≤ 255 := by decide
    exact all
  have clashingFit : NamesFit (· ∈ clashingRequests) := by
    have all : ∀ op ∈ clashingRequests, ∀ name ∈ op.name, name.length ≤ 255 := by decide
    exact all
  constructor
  · exact (names_isolated (fun _ => none) (· ∈ apartRequests) apartFit).mpr apartRequests_separate
  · intro isolates
    have separate := (names_isolated (fun _ => none) (· ∈ clashingRequests) clashingFit).mp isolates
    have same : ([97, 98] : List UInt8) = [99, 100] :=
      separate.hashNames [97, 98] [99, 100] [107] [118] (by simp [clashingRequests])
        (Or.inl (by simp [clashingRequests])) rfl
    revert same
    decide

theorem equal_lengths_clash :
    ¬ AnswersIdeally (fun _ => none) [.hashSet [97, 98] [107] [118], .hashGet [99, 100] [107]] := by
  intro ideal
  have lengths : ([97, 98] : List UInt8).length = ([99, 100] : List UInt8).length := rfl
  have same := (clashing_hash_read lengths ideal).1
  revert same
  decide

end
end EtdbDatabase
