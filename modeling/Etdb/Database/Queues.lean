import Etdb.Database.Maps

/- Lists against their ideal: a queue for every name, with an entry in the trie while it
   holds anything. -/
namespace EtdbDatabase
open EtdbTrie

/-- The cell of a name is its queue; an empty one has no cell. -/
def QueueSim (S : Store) (s : Ideal) : Prop :=
  ∀ name, S (Db.encodeListHead name) = if s.list name = [] then none else some (.queue (s.list name))

def PushesFit (ops : List Op) : Prop :=
  ∀ name value, Op.listLpush name value ∈ ops ∨ Op.listRpush name value ∈ ops → value.length < 2 ^ 32

section
variable {atof : List UInt8 → Option ℚ} {S : Store} {s : Ideal} {op : Op} {ops : List Op}
variable {name name' : List UInt8} {values : List (List UInt8)} {r : Reply}

theorem list_key : Db.encodeListHead name = Db.encodeListHead name' ↔ name = name' := by
  simp [Db.encodeListHead]

theorem QueueSim.queue (sim : QueueSim S s) (name : List UInt8) :
    S.queue (Db.encodeListHead name) = s.list name := by
  rw [Store.queue, sim name]
  by_cases none : s.list name = []
  · simp [none]
  · simp [none]

theorem QueueSim.isSome (sim : QueueSim S s) (name : List UInt8) :
    (S (Db.encodeListHead name)).isSome = !(s.list name).isEmpty := by
  rw [sim name]
  cases s.list name <;> simp

theorem QueueSim.put (sim : QueueSim S s) (name : List UInt8) (values : List (List UInt8)) :
    QueueSim (S.putQueue (Db.encodeListHead name) values) (s.putList name values) := by
  intro other
  by_cases same : other = name
  · subst same
    simp [Store.putQueue, Ideal.putList]
  · have key : Db.encodeListHead other ≠ Db.encodeListHead name := fun h => same (list_key.mp h)
    rw [Store.putQueue, Function.update_of_ne key, sim other]
    simp [Ideal.putList, same]

theorem away_list (other : op.kind ≠ .list) :
    S.apply atof op (Db.encodeListHead name) = S (Db.encodeListHead name) := by
  refine apply_away S atof fun head type first => ?_
  obtain rfl : Db.listHead = head := Option.some.inj first
  revert other type
  cases op.kind <;> simp [Kind.heads, Db.kvHead, Db.hashHead, Db.setHead,
    Db.listHead, Db.spatialPointHead1, Db.spatialPointHead2]

theorem QueueSim.step (sim : QueueSim S s) (fit : PushesFit [op]) : QueueSim (S.apply atof op)
    (s.apply atof op) := by
  by_cases own : op.kind = .list
  · cases op with
    | listLpush name value =>
      have whole := (Store.kept_eq 32 value).mpr (fit name value (Or.inl List.mem_cons_self))
      have queue := sim.put name (value :: s.list name)
      rw [← sim.queue name] at queue
      simpa only [Store.apply, Ideal.apply, whole, sim.queue name] using queue
    | listRpush name value =>
      have whole := (Store.kept_eq 32 value).mpr (fit name value (Or.inr List.mem_cons_self))
      have queue := sim.put name (s.list name ++ [value])
      simpa only [Store.apply, Ideal.apply, whole, sim.queue name] using queue
    | listLpop name =>
      have queue := sim.put name (s.list name).tail
      simpa only [Store.apply, Ideal.apply, sim.queue name] using queue
    | listRpop name =>
      have queue := sim.put name (s.list name).dropLast
      simpa only [Store.apply, Ideal.apply, sim.queue name] using queue
    | listLtop _ => exact sim
    | listRtop _ => exact sim
    | _ => cases own
  · intro name
    rw [away_list own, Ideal.apply_list own, sim name]

theorem QueueSim.answers (sim : QueueSim S s) (own : op.kind = .list) (real : S.Answers atof op r) :
    s.Answers atof op r := by
  cases op with
  | listLpush _ _ => exact real
  | listRpush _ _ => exact real
  | listLpop name => exact real.trans (congrArg Ideal.done (sim.isSome name))
  | listRpop name => exact real.trans (congrArg Ideal.done (sim.isSome name))
  | listLtop name =>
    change r = Db.orFail .value (S.queue (Db.encodeListHead name)).head? at real
    rw [sim.queue name] at real
    exact real
  | listRtop name =>
    change r = Db.orFail .value (S.queue (Db.encodeListHead name)).getLast? at real
    rw [sim.queue name] at real
    exact real
  | _ => cases own

theorem QueueSim.run {replies : List Reply} (sim : QueueSim S s) (fit : PushesFit ops)
    (real : S.AnswersRun atof ops replies) :
    QueueSim (S.after atof ops) (s.after atof ops) ∧ s.AnswersRun atof .list ops replies := by
  induction ops generalizing S s replies with
  | nil => exact ⟨sim, real⟩
  | cons op rest ih =>
    have here : PushesFit [op] := fun name value pushed =>
      fit name value (by rcases pushed with l | r <;> simp_all)
    have later : PushesFit rest := fun name value pushed =>
      fit name value (pushed.imp (List.mem_cons_of_mem op) (List.mem_cons_of_mem op))
    cases replies with
    | nil => exact absurd real id
    | cons r replies =>
      obtain ⟨after, answers⟩ := ih (sim.step here) later real.2
      exact ⟨after, fun own => sim.answers own real.1, answers⟩

/-- Every name is an independent queue: all replies are those of the queues, and a name
    has an entry in the trie exactly while its queue holds a value. -/
theorem lists_are_queues (atof : List UInt8 → Option ℚ) (ops : List Op) (fit : PushesFit ops) :
    ∃ replies db, (Db.init >>= fun db => db.run atof ops) = some (replies, db) ∧
      Ideal.empty.AnswersRun atof .list ops replies ∧
      ∀ name, ∃ p, db.trie.exactMatchSearch (Db.encodeListHead name) = some p ∧
        (0 ≤ p ↔ (Ideal.empty.after atof ops).list name ≠ []) := by
  obtain ⟨replies, db, L, run, holds, real⟩ := reached_holds atof ops
  obtain ⟨sim, answers⟩ := QueueSim.run (S := Store.empty) (s := Ideal.empty) (fun _ => rfl) fit real
  refine ⟨replies, db, run, answers, fun name => ⟨_, holds.stores.search _, ?_⟩⟩
  have cell : L.entries (Db.encodeListHead name) = none ↔ _ := holds.none_iff (list_plain name).2
  rw [sim name] at cell
  cases held : L.entries (Db.encodeListHead name) with
  | none =>
    have empty : (Ideal.empty.after atof ops).list name = [] := by
      by_contra filled
      simp [held, filled] at cell
    simp [empty, noValue]
  | some p =>
    have filled : (Ideal.empty.after atof ops).list name ≠ [] := by
      intro empty
      simp [held, empty] at cell
    simp [filled, holds.stores.nonneg _ p held]

theorem lists_are_queues_once : ∃ replies db,
    (Db.init >>= fun db => db.run (fun _ => none)
    [.listLpush [108] [1], .listRpush [108] [2], .listLpop [108],
      .listRpop [108]]) = some (replies, db) ∧
    Ideal.empty.AnswersRun (fun _ => none) .list
    [.listLpush [108] [1], .listRpush [108] [2], .listLpop [108],
      .listRpop [108]] replies ∧
    ∀ name, ∃ p, db.trie.exactMatchSearch (Db.encodeListHead name) = some p ∧
      (0 ≤ p ↔ (Ideal.empty.after (fun _ => none)
      [.listLpush [108] [1], .listRpush [108] [2], .listLpop [108],
        .listRpop [108]]).list name ≠ []) :=
  lists_are_queues (fun _ => none) _ (by
    rintro name value pushed
    rcases pushed with pushed | pushed <;> simp at pushed <;> simp [pushed])

end
end EtdbDatabase
