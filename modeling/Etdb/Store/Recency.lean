import Etdb.Store.Lru

/- Runs of the page cache. What is resident is read off the page ids used so far: the last
   distinct ones, as many as the cache holds. -/
namespace EtdbStore
open LinkedQueue

/-- The last `capacity` distinct ids of a history, most recent first. -/
def resident (capacity : Nat) (history : List Int) : List Int := history.dedup.reverse.take capacity

inductive Call where
  | fetch (id : Int)
  | alloc (id : Int)

namespace Call

def id : Call → Int
  | fetch id => id
  | alloc id => id

/-- Page ids are not negative, and an entry is only made for a page that is not resident. -/
def Allowed (capacity : Nat) (history : List Int) : Call → Prop
  | fetch id => 0 ≤ id
  | alloc id => 0 ≤ id ∧ id ∉ resident capacity history

def AllAllowed (capacity : Nat) : List Int → List Call → Prop
  | _, [] => True
  | history, call :: rest => call.Allowed capacity history ∧
      AllAllowed capacity (history ++ [call.id]) rest

end Call

namespace Lru
variable {Page : Type}

def call (lru : Lru Page) : Call → Option (Nat × Lru Page)
  | .fetch id => lru.fetch id
  | .alloc id => lru.allocEntry id

def Shows (lru : Lru Page) (history : List Int) : Prop :=
  ∃ nodes, lru.Keeps nodes ∧ nodes.map lru.pageId = resident lru.capacity history

def Owns (lru : Lru Page) (id : Int) (address : Nat) : Prop :=
  ∃ nodes n, lru.Keeps nodes ∧ n ∈ nodes ∧ lru.pageId n = id ∧ lru.pageValue n = address

def Serves : Lru Page → List Int → List Call → Prop
  | _, _, [] => True
  | lru, history, call :: rest => ∃ address lru', lru.call call = some (address, lru') ∧
      lru'.capacity = lru.capacity ∧ lru'.Shows (history ++ [call.id]) ∧ lru'.Owns call.id address ∧
      lru'.Serves (history ++ [call.id]) rest

end Lru

section
variable {Page : Type} {lru : Lru Page} {history before after : List Int} {id : Int} {capacity : Nat}

theorem dedup_use (history : List Int) (id : Int) :
    (history ++ [id]).dedup = history.dedup.filter (· ≠ id) ++ [id] := by
  induction history with
  | nil => simp
  | cons a history ih =>
    rw [List.cons_append]
    by_cases again : a ∈ history
    · rw [List.dedup_cons_of_mem (List.mem_append_left _ again), List.dedup_cons_of_mem again, ih]
    · by_cases same : a = id
      · subst same
        rw [List.dedup_cons_of_mem (by simp), List.dedup_cons_of_notMem again, ih,
          List.filter_cons_of_neg (by simp)]
      · rw [List.dedup_cons_of_notMem (by simp [again, same]), List.dedup_cons_of_notMem again, ih,
          List.filter_cons_of_pos (by simpa using same), List.cons_append]

theorem resident_use (capacity : Nat) (history : List Int) (id : Int) : resident (capacity + 1)
    (history ++ [id]) = id :: (history.dedup.reverse.filter (· ≠ id)).take capacity := by
  rw [resident, dedup_use, List.reverse_append, List.reverse_singleton,
    List.singleton_append, List.take_succ_cons, List.filter_reverse]

theorem filter_apart {l : List Int} (out : id ∉ l) : l.filter (· ≠ id) = l := by
  refine List.filter_eq_self.mpr fun a member => ?_
  simpa using fun same : a = id => out (same ▸ member)

theorem resident_again (here : resident capacity history = before ++ id :: after) :
    resident capacity (history ++ [id]) = id :: (before ++ after) := by
  obtain ⟨k, rfl⟩ : ∃ k, capacity = k + 1 := ⟨capacity - 1, by
    cases capacity
    · simp [resident] at here
    · omega⟩
  have nodup : (history.dedup.reverse).Nodup := List.nodup_reverse.mpr (List.nodup_dedup history)
  have split : history.dedup.reverse = (before ++ id :: after) ++ history.dedup.reverse.drop (k + 1) := by
    rw [← here, resident, List.take_append_drop]
  have length := congrArg List.length here
  rw [resident, List.length_take, List.length_append, List.length_cons] at length
  have kept : history.dedup.reverse.filter (· ≠ id) = (before ++ after) ++
    history.dedup.reverse.drop (k + 1) := by
    rw [split] at nodup
    have perm : (before ++ id :: after).Perm (id :: (before ++ after)) := List.perm_middle
    have out : id ∉ (before ++ after) ++ history.dedup.reverse.drop (k + 1) :=
      (List.nodup_cons.mp ((perm.append_right _).nodup_iff.mp nodup)).1
    rw [List.mem_append, List.mem_append, not_or, not_or] at out
    conv_lhs => rw [split]
    rw [List.filter_append, List.filter_append, List.filter_cons_of_neg (by simp), filter_apart out.1.1,
      filter_apart out.1.2, filter_apart out.2]
  rw [resident_use, kept]
  congr 1
  by_cases full : k + 1 ≤ history.dedup.reverse.length
  · exact List.take_left' (by rw [List.length_append]; omega)
  · rw [List.drop_of_length_le (by omega), List.append_nil]
    exact List.take_of_length_le (by rw [List.length_append]; omega)

theorem resident_new (out : id ∉ resident capacity history) (room : 0 < capacity) :
    resident capacity (history ++ [id]) = id :: (resident capacity history).take (capacity - 1) := by
  obtain ⟨k, rfl⟩ : ∃ k, capacity = k + 1 := ⟨capacity - 1, by omega⟩
  have kept : history.dedup.reverse.filter (· ≠ id) =
      resident (k + 1) history ++ (history.dedup.reverse.drop (k + 1)).filter (· ≠ id) := by
    conv_lhs => rw [← List.take_append_drop (k + 1) history.dedup.reverse]
    rw [List.filter_append]
    exact congrArg (· ++ _) (filter_apart out)
  have length : (resident (k + 1) history).length = min (k + 1) history.dedup.reverse.length :=
    List.length_take
  rw [resident_use, kept, Nat.add_sub_cancel]
  congr 1
  by_cases full : k ≤ history.dedup.reverse.length
  · exact List.take_append_of_le_length (by omega)
  · rw [List.drop_of_length_le (by omega), List.filter_nil, List.append_nil]

theorem Lru.initHeads_ring (links : Links Link) (count pos : Nat) (small : pos < count) :
    (initHeads links count).Ring [.hash (.hashHead pos)] := by
  induction count with
  | zero => omega
  | succ count ih =>
    rw [initHeads]
    by_cases last : pos = count
    · subst last
      exact (Links.init_ring _ _).frame fun u member => Links.init_other _ (by
        rw [List.mem_singleton.mp member]
        exact Link.noConfusion)
    · refine (ih (by omega)).frame fun u member => ?_
      obtain rfl := List.mem_singleton.mp member
      refine (Links.init_other _ fun same => ?_).trans (Links.init_other _ Link.noConfusion)
      exact last (Cell.hashHead.inj (Link.hash.inj same))

theorem Lru.initLru_keeps (links : Links Link) (pageId : Cell → Int) (pageValue : Cell → Nat)
    (buffer : Nat → Page) (file : List Page) (large : 3 ≤ capacity) (small : capacity < 2 ^ 32) :
    (initLru links pageId pageValue buffer file capacity).Keeps [] := by
  refine ⟨⟨⟨?_, ?_⟩, Links.init_ring _ _, fun pos below => ⟨[], ?_, fun c => by simp⟩,
    List.nodup_nil, List.nodup_nil,
    fun c member => (by cases member), fun c member => (by cases member)⟩, rfl, Nat.zero_le _, ?_⟩
  · change 0 < capacity / 3
    omega
  · change capacity / 3 < 2 ^ 32
    omega
  · refine (initHeads_ring links (capacity / 3) pos below).frame fun u member => Links.init_other _ ?_
    rw [List.mem_singleton.mp member]
    exact Link.noConfusion
  · change 0 < capacity
    omega

theorem Lru.Shows.call (shows' : lru.Shows history) {call : Call}
    (allowed : call.Allowed lru.capacity history) :
    ∃ address lru', lru.call call = some (address, lru') ∧ lru'.capacity = lru.capacity ∧
      lru'.Shows (history ++ [call.id]) ∧ lru'.Owns call.id address := by
  obtain ⟨nodes, keeps, ids⟩ := shows'
  have enters : ∀ n lru' id, lru.Entered lru' nodes n id →
    lru'.Keeps (n :: nodes.take (lru.capacity - 1)) →
      lru'.capacity = lru.capacity ∧ lru'.Shows (history ++ [id]) ∧ lru'.Owns id (lru'.pageValue n) := by
    intro n lru' id entered keeps'
    refine ⟨entered.capacity, ⟨_, keeps', ?_⟩, _, n, keeps', List.mem_cons_self, entered.id, rfl⟩
    have out : id ∉ resident lru.capacity history := by
      rw [← ids]
      intro member
      obtain ⟨c, there, same⟩ := List.mem_map.mp member
      exact entered.absent c there same
    have rest : (nodes.take (lru.capacity - 1)).map lru'.pageId =
      (nodes.take (lru.capacity - 1)).map lru.pageId :=
      List.map_congr_left fun c member => (entered.kept c member).1
    rw [List.map_cons, rest, entered.id, entered.capacity, resident_new out keeps.room, ← ids,
      List.map_take]
  cases call with
  | fetch id =>
    obtain ⟨n, lru', run, hit | ⟨entered, keeps', _⟩⟩ := keeps.fetch allowed
    · obtain ⟨before, after, rfl, here, rfl, keeps'⟩ := hit
      refine ⟨_, _, run, rfl, ⟨_, keeps', ?_⟩, _, n, keeps', List.mem_cons_self, here, rfl⟩
      rw [List.map_append, List.map_cons, here] at ids
      change lru.pageId n :: (before ++ after).map lru.pageId = _
      rw [here, List.map_append]
      exact (resident_again ids.symm).symm
    · exact ⟨_, lru', run, enters n lru' id entered keeps'⟩
  | alloc id =>
    obtain ⟨positive, out⟩ := allowed
    obtain ⟨n, lru', run, entered, keeps'⟩ := keeps.allocEntry positive fun c member same =>
      out (ids ▸ List.mem_map.mpr ⟨c, member, same⟩)
    exact ⟨_, lru', run, enters n lru' id entered keeps'⟩

theorem Lru.Shows.serves (shows' : lru.Shows history) (calls : List Call)
    (allowed : Call.AllAllowed lru.capacity history calls) : lru.Serves history calls := by
  induction calls generalizing lru history with
  | nil => trivial
  | cons call rest ih =>
    obtain ⟨address, lru', run, capacity, shown, owns⟩ := shows'.call allowed.1
    exact ⟨address, lru', run, capacity, shown, owns, ih shown (by rw [capacity]; exact allowed.2)⟩

/-- From etdb_init_lru on, the last distinct pages are resident after every call, in order
    of last use, each in its chain and with a buffer of its own, which is returned. -/
theorem lru_serves (capacity : Nat) (large : 3 ≤ capacity) (small : capacity < 2 ^ 32)
    (links : Links Link)
    (pageId : Cell → Int) (pageValue : Cell → Nat) (buffer : Nat → Page) (file : List Page)
    (calls : List Call) (allowed : Call.AllAllowed capacity [] calls) :
    (Lru.initLru links pageId pageValue buffer file capacity).Serves [] calls :=
  Lru.Shows.serves ⟨[], Lru.initLru_keeps links pageId pageValue buffer file large
  small, by simp [resident]⟩ calls allowed

theorem lru_serves_once : (Lru.initLru ⟨fun u => u, fun u => u⟩ (fun _ => 0) (fun _ => 0)
    (fun _ => 0) [1, 2, 3, 4] 3).Serves [] [.fetch 0, .alloc 1, .fetch 2, .fetch 0, .fetch 3] :=
  lru_serves 3 (by decide) (by decide) ⟨fun u => u, fun u => u⟩ (fun _ => 0) (fun _ => 0)
  (fun _ => 0) [1, 2, 3, 4]
    [.fetch 0, .alloc 1, .fetch 2, .fetch 0, .fetch 3]
    ⟨Int.le_refl 0, ⟨Int.one_nonneg, by decide⟩, Int.le.intro 2 rfl, Int.le_refl 0,
    Int.le.intro 3 rfl, trivial⟩

end
end EtdbStore
