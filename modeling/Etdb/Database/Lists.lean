import Etdb.Database.Values

/- List commands. The queue macros only write links, so a chain of them is one change of
   the two link functions over the same records; the ring rules then say what the queue
   has become. -/
namespace EtdbDatabase
open EtdbTrie CircularRing

def withLinks (heap : Int → Option Record) (next prev : Int → Int) : Int → Option Record := fun a =>
  match heap a with
  | some (.list node) => some (.list { node with next := next a, prev := prev a })
  | r => r

def Db.relink (db : Db) (next prev : Int → Int) : Db := { db with heap := withLinks db.heap next prev }

section
variable {db db' : Db} {next prev : Int → Int} {node : ListNode} {a b head x : Int}
variable {heap heap' : Int → Option Record} {items : List Int} {values : List (List UInt8)}

theorem nextOf_list (here : heap a = some (.list node)) : nextOf heap a = node.next := by
  rw [nextOf, here]

theorem prevOf_list (here : heap a = some (.list node)) : prevOf heap a = node.prev := by
  rw [prevOf, here]

theorem Db.relink_self (db : Db) : db.relink (nextOf db.heap) (prevOf db.heap) = db := by
  have same : withLinks db.heap (nextOf db.heap) (prevOf db.heap) = db.heap := by
    funext a
    unfold withLinks nextOf prevOf
    split
    · rename_i node here
      simp [here]
    · rfl
  rw [relink, same]

theorem withLinks_list (here : heap a = some (.list node)) :
    withLinks heap next prev a = some (.list ⟨node.size, prev a, next a, node.data⟩) := by
  rw [withLinks, here]

theorem withLinks_same (forward : next a = nextOf heap a) (backward : prev a = prevOf heap a) :
    withLinks heap next prev a = heap a := by
  unfold withLinks
  split
  · rename_i node here
    rw [forward, backward, nextOf_list here, prevOf_list here, here]
  · rfl

theorem Db.listAt_run (here : db.heap a = some (.list node)) : db.listAt a = some node := by
  rw [listAt, here]

theorem Db.listAt_relink (here : db.heap a = some (.list node)) :
    (db.relink next prev).listAt a = some ⟨node.size, prev a, next a, node.data⟩ :=
  Db.listAt_run (withLinks_list here)

theorem Db.modifyList_run (here : db.heap a = some (.list node)) (f : ListNode → ListNode) :
    db.modifyList a f = some (db.put a (.list (f node))) := by
  rw [modifyList, listAt_run here]
  rfl

theorem Db.write_next (next prev : Int → Int) (here : db.heap a = some (.list node)) (b : Int) :
    (db.relink next prev).modifyList a (fun l => { l with next := b }) =
      some (db.relink (Function.update next a b) prev) := by
  rw [modifyList_run (withLinks_list here)]
  have heap : Function.update (withLinks db.heap next prev) a
    (some (.list ⟨node.size, prev a, b, node.data⟩)) =
      withLinks db.heap (Function.update next a b) prev := by
    funext c
    by_cases same : c = a
    · subst same
      rw [Function.update_self, withLinks_list here, Function.update_self]
    · rw [Function.update_of_ne same, withLinks, withLinks, Function.update_of_ne same]
  unfold put relink
  rw [heap]

theorem Db.write_prev (next prev : Int → Int) (here : db.heap a = some (.list node)) (b : Int) :
    (db.relink next prev).modifyList a (fun l => { l with prev := b }) =
      some (db.relink next (Function.update prev a b)) := by
  rw [modifyList_run (withLinks_list here)]
  have heap : Function.update (withLinks db.heap next prev) a
    (some (.list ⟨node.size, b, next a, node.data⟩)) =
      withLinks db.heap next (Function.update prev a b) := by
    funext c
    by_cases same : c = a
    · subst same
      rw [Function.update_self, withLinks_list here, Function.update_self]
    · rw [Function.update_of_ne same, withLinks, withLinks, Function.update_of_ne same]
  unfold put relink
  rw [heap]

def IsList (heap : Int → Option Record) (a : Int) : Prop := ∃ node, heap a = some (.list node)

theorem queueInsertHead_run (listHead : IsList db.heap head) (listItem : IsList db.heap x)
    (listFirst : IsList db.heap (nextOf db.heap head)) : db.queueInsertHead head x = some (db.relink
      (Function.update (Function.update (nextOf db.heap) x (nextOf db.heap head)) head x)
      (Function.update (Function.update (prevOf db.heap) (nextOf db.heap head) x) x head)) := by
  obtain ⟨nodeH, atHead⟩ := listHead
  obtain ⟨nodeX, atItem⟩ := listItem
  obtain ⟨nodeF, atFirst⟩ := listFirst
  have first := Db.write_next (nextOf db.heap) (prevOf db.heap) atItem (nextOf db.heap head)
  rw [Db.relink_self] at first
  refine bind_run (Db.listAt_run atHead) ?_
  rw [← nextOf_list atHead]
  refine bind_run first ?_
  refine bind_run (Db.listAt_relink atItem) ?_
  rw [Function.update_self]
  refine bind_run (Db.write_prev _ _ atFirst x) ?_
  refine bind_run (Db.write_prev _ _ atItem head) ?_
  exact Db.write_next _ _ atHead x

theorem queueInsertTail_run (listHead : IsList db.heap head) (listItem : IsList db.heap x)
    (listLast : IsList db.heap (prevOf db.heap head)) : db.queueInsertTail head x = some (db.relink
      (Function.update (Function.update (nextOf db.heap) (prevOf db.heap head) x) x head)
      (Function.update (Function.update (prevOf db.heap) x (prevOf db.heap head)) head x)) := by
  obtain ⟨nodeH, atHead⟩ := listHead
  obtain ⟨nodeX, atItem⟩ := listItem
  obtain ⟨nodeL, atLast⟩ := listLast
  have first := Db.write_prev (nextOf db.heap) (prevOf db.heap) atItem (prevOf db.heap head)
  rw [Db.relink_self] at first
  refine bind_run (Db.listAt_run atHead) ?_
  rw [← prevOf_list atHead]
  refine bind_run first ?_
  refine bind_run (Db.listAt_relink atItem) ?_
  rw [Function.update_self]
  refine bind_run (Db.write_next _ _ atLast x) ?_
  refine bind_run (Db.write_next _ _ atItem head) ?_
  exact Db.write_prev _ _ atHead x

theorem queueRemove_run (listItem : IsList db.heap x) (listNext : IsList db.heap (nextOf db.heap x))
    (listPrev : IsList db.heap (prevOf db.heap x)) : db.queueRemove x = some (db.relink
      (Function.update (nextOf db.heap) (prevOf db.heap x) (nextOf db.heap x))
      (Function.update (prevOf db.heap) (nextOf db.heap x) (prevOf db.heap x))) := by
  obtain ⟨nodeX, atItem⟩ := listItem
  obtain ⟨nodeN, atNext⟩ := listNext
  obtain ⟨nodeP, atPrev⟩ := listPrev
  have first := Db.write_prev (nextOf db.heap) (prevOf db.heap) atNext (prevOf db.heap x)
  rw [Db.relink_self] at first
  -- a cell that is its own neighbour still reads the same links
  have back : Function.update (prevOf db.heap) (nextOf db.heap x) (prevOf db.heap x) x =
      prevOf db.heap x := by
    by_cases loop : x = nextOf db.heap x
    · rw [← loop, Function.update_self]
    · rw [Function.update_of_ne loop]
  refine bind_run (Db.listAt_run atItem) ?_
  rw [← nextOf_list atItem, ← prevOf_list atItem]
  refine bind_run first ?_
  refine bind_run (Db.listAt_relink atItem) ?_
  rw [back]
  exact Db.write_next _ _ atPrev (nextOf db.heap x)

theorem Queue.relink (ring : IsRing next prev (head :: items))
    (tag : ∃ node, heap head = some (.list node) ∧ node.size % 256 = typeList)
    (filled : List.Forall₂ (fun a value => ∃ node, heap a = some (.list node) ∧
    node.data.take node.size = value)
      items values) : Queue (withLinks heap next prev) head items values := by
  have list : ∀ a ∈ head :: items, IsList heap a := by
    intro a inside
    rcases List.mem_cons.mp inside with rfl | item
    · obtain ⟨node, here, _⟩ := tag
      exact ⟨node, here⟩
    · obtain ⟨i, bound, rfl⟩ := List.getElem_of_mem item
      obtain ⟨node, here, _⟩ := (List.forall₂_iff_get.mp filled).2 i bound
        (by rw [← filled.length_eq]; exact bound)
      exact ⟨node, here⟩
  refine ⟨ring_congr ring ?_ ?_, ?_, filled.imp ?_⟩
  · intro a inside
    obtain ⟨node, here⟩ := list a inside
    exact nextOf_list (withLinks_list here)
  · intro a inside
    obtain ⟨node, here⟩ := list a inside
    exact prevOf_list (withLinks_list here)
  · obtain ⟨node, here, size⟩ := tag
    exact ⟨_, withLinks_list here, size⟩
  · rintro a value ⟨node, here, data⟩
    exact ⟨_, withLinks_list here, data⟩

/-- What a push does to a queue whose cells lie below the next address. -/
structure Pushed (db db' : Db) (head : Int) (items : List Int) (values : List (List UInt8)) : Prop where
  queue : ∃ items', Queue db'.heap head items' values ∧ ∀ a ∈ items', a ∈ items ∨ a = db.fresh
  trie : db'.trie = db.trie
  fresh : db'.fresh = db.fresh + 1
  heap : ∀ a, a ∉ head :: items → a ≠ db.fresh → db'.heap a = db.heap a

theorem Queue.alloc (queue : Queue db.heap head items values) (below : ∀ a ∈ head :: items, a < db.fresh)
    (value : List UInt8) : Queue (db.listItem value).2.heap head items values := by
  refine queue.congr fun a inside => Function.update_of_ne ?_ _ _
  have := below a inside
  omega

theorem listItem_here (db : Db) (value : List UInt8) : (db.listItem value).2.heap db.fresh =
    some (.list ⟨value.length % 2 ^ 32, 0, 0, value⟩) := Function.update_self _ _ _

theorem Pushed.links {value : List UInt8} (items' : List Int) {values' : List (List UInt8)}
    (queue : Queue (db.listItem value).2.heap head items values)
    (ring : IsRing next prev (head :: items'))
    (filled : List.Forall₂ (fun a value' => ∃ node, (db.listItem value).2.heap a = some (.list node) ∧
      node.data.take node.size = value') items' values')
    (cells : ∀ a ∈ items', a ∈ items ∨ a = db.fresh)
    (forward : ∀ a, a ∉ head :: items → a ≠ db.fresh → next a = nextOf (db.listItem value).2.heap a)
    (backward : ∀ a, a ∉ head :: items → a ≠ db.fresh → prev a = prevOf (db.listItem value).2.heap a) :
    Pushed db ((db.listItem value).2.relink next prev) head items values' := by
  refine ⟨⟨items', Queue.relink ring queue.tag filled, cells⟩, rfl, rfl, fun a away different => ?_⟩
  rw [show ((db.listItem value).2.relink next prev).heap a = (db.listItem value).2.heap a from
    withLinks_same (forward a away different) (backward a away different)]
  exact Function.update_of_ne different _ _

theorem listLpushAt_spec (queue : Queue db.heap head items values)
    (below : ∀ a ∈ head :: items, a < db.fresh)
    (value : List UInt8) : ∃ db', db.listLpushAt head value = some db' ∧
      Pushed db db' head items (Store.kept 32 value :: values) := by
  have queue1 := queue.alloc below value
  have item := listItem_here db value
  have nextIn := next_member queue1.ring List.mem_cons_self
  have headIn : head ∈ head :: items := List.mem_cons_self
  have apart : ∀ u ∈ head :: items, u ≠ db.fresh := fun u inside => by
    have := below u inside
    omega
  have run := queueInsertHead_run (queue1.member List.mem_cons_self) ⟨_, item⟩ (queue1.member nextIn)
  refine ⟨_, run, Pushed.links (db.fresh :: items) queue1 ?_ (.cons ⟨_, item, rfl⟩ queue1.items) ?_ ?_ ?_⟩
  · apply insert_behind_head queue1.ring (fun inside => apart _ inside rfl)
    · exact Function.update_self _ _ _
    · rw [Function.update_of_ne (apart head headIn).symm, Function.update_self]
    · exact Function.update_self _ _ _
    · rw [Function.update_of_ne (apart _ nextIn), Function.update_self]
    · intro u inside
      have other : u ≠ head := fun same => (List.nodup_cons.mp (ring_nodup queue1.ring)).1 (same ▸ inside)
      rw [Function.update_of_ne other, Function.update_of_ne (apart u (List.mem_cons_of_mem head inside))]
    · intro u inside different
      rw [Function.update_of_ne (apart u inside), Function.update_of_ne different]
  · intro a inside
    rcases List.mem_cons.mp inside with rfl | old
    · exact Or.inr rfl
    · exact Or.inl old
  · intro a away different
    rw [Function.update_of_ne (ne_of_mem_of_not_mem headIn away).symm, Function.update_of_ne different]
  · intro a away different
    rw [Function.update_of_ne different, Function.update_of_ne (ne_of_mem_of_not_mem nextIn away).symm]

/-- At the other end the same rule applies to the ring read backwards. -/
theorem listRpushAt_spec (queue : Queue db.heap head items values)
    (below : ∀ a ∈ head :: items, a < db.fresh)
    (value : List UInt8) : ∃ db', db.listRpushAt head value = some db' ∧
      Pushed db db' head items (values ++ [Store.kept 32 value]) := by
  have queue1 := queue.alloc below value
  have item := listItem_here db value
  have prevIn := prev_member queue1.ring List.mem_cons_self
  have headIn : head ∈ head :: items := List.mem_cons_self
  have apart : ∀ u ∈ head :: items, u ≠ db.fresh := fun u inside => by
    have := below u inside
    omega
  have mirrored : ∀ u ∈ head :: items.reverse, u ∈ head :: items := fun u inside => by simpa using inside
  have run := queueInsertTail_run (queue1.member List.mem_cons_self) ⟨_, item⟩ (queue1.member prevIn)
  have filled := List.rel_append queue1.items (show List.Forall₂ (fun a value' => ∃ node,
    (db.listItem value).2.heap a = some (.list node) ∧ node.data.take node.size = value')
    [db.fresh] [Store.kept 32 value] from .cons ⟨_, item, rfl⟩ .nil)
  refine ⟨_, run, Pushed.links (items ++ [db.fresh]) queue1 ?_ filled ?_ ?_ ?_⟩
  · have split : items ++ [db.fresh] = (db.fresh :: items.reverse).reverse := by simp
    rw [split]
    apply ring_mirror
    apply insert_behind_head (ring_mirror queue1.ring) (fun inside => apart _ (mirrored _ inside) rfl)
    · exact Function.update_self _ _ _
    · rw [Function.update_of_ne (apart head headIn).symm, Function.update_self]
    · exact Function.update_self _ _ _
    · rw [Function.update_of_ne (apart _ prevIn), Function.update_self]
    · intro u inside
      have inside' : u ∈ items := List.mem_reverse.mp inside
      have other : u ≠ head := fun same => (List.nodup_cons.mp (ring_nodup queue1.ring)).1
        (same ▸ inside')
      rw [Function.update_of_ne other, Function.update_of_ne
        (apart u (List.mem_cons_of_mem head inside'))]
    · intro u inside different
      rw [Function.update_of_ne (apart u (mirrored u inside)), Function.update_of_ne different]
  · intro a inside
    rcases List.mem_append.mp inside with old | new
    · exact Or.inl old
    · exact Or.inr (List.mem_singleton.mp new)
  · intro a away different
    rw [Function.update_of_ne different, Function.update_of_ne (ne_of_mem_of_not_mem prevIn away).symm]
  · intro a away different
    rw [Function.update_of_ne (ne_of_mem_of_not_mem headIn away).symm, Function.update_of_ne different]

/-- What the removal of an item does to a queue. -/
structure Popped (db db' : Db) (head : Int) (items : List Int) (values : List (List UInt8)) : Prop where
  queue : ∃ items', Queue db'.heap head items' values ∧ items' ⊆ items
  trie : db'.trie = db.trie
  fresh : db'.fresh = db.fresh
  heap : ∀ a, a ∉ head :: items → db'.heap a = db.heap a

theorem listRemove_spec {rest : List Int} {values' : List (List UInt8)}
    (queue : Queue db.heap head items values)
    (member : x ∈ items) (perm : (x :: head :: rest).Perm (head :: items))
    (filled : List.Forall₂ (fun a value => ∃ node, db.heap a = some (.list node) ∧
    node.data.take node.size = value)
      rest values')
    (join : ∀ next' prev' : Int → Int, next' (prevOf db.heap x) = nextOf db.heap x →
      prev' (nextOf db.heap x) = prevOf db.heap x →
      (∀ u ∈ head :: items, u ≠ x → u ≠ prevOf db.heap x → next' u = nextOf db.heap u) →
      (∀ u ∈ head :: items, u ≠ x → u ≠ nextOf db.heap x → prev' u = prevOf db.heap u) →
      IsRing next' prev' (head :: rest)) :
    ∃ db', db.listRemove x = some db' ∧ Popped db db' head items values' := by
  have inside : x ∈ head :: items := List.mem_cons_of_mem head member
  have nextIn := next_member queue.ring inside
  have prevIn := prev_member queue.ring inside
  have run := queueRemove_run (queue.member inside) (queue.member nextIn) (queue.member prevIn)
  have ring := join (Function.update (nextOf db.heap) (prevOf db.heap x) (nextOf db.heap x))
    (Function.update (prevOf db.heap) (nextOf db.heap x) (prevOf db.heap x))
    (Function.update_self _ _ _) (Function.update_self _ _ _)
    (fun u _ _ other => Function.update_of_ne other _ _)
    (fun u _ _ other => Function.update_of_ne other _ _)
  have queue1 := Queue.relink ring queue.tag filled
  have out : x ∉ head :: rest := (List.nodup_cons.mp (perm.nodup_iff.mpr (ring_nodup queue.ring))).1
  obtain ⟨node, here⟩ := queue.member inside
  refine ⟨_, bind_run run (Db.free_run (withLinks_list here)), ⟨rest, queue1.congr ?_, ?_⟩, rfl, rfl, ?_⟩
  · intro a member
    exact Function.update_of_ne (ne_of_mem_of_not_mem member out) _ _
  · intro a member
    have kept : a ∈ head :: items :=
      perm.subset (List.mem_cons_of_mem x (List.mem_cons_of_mem head member))
    rcases List.mem_cons.mp kept with rfl | old
    · exact absurd member (List.nodup_cons.mp (ring_nodup ring)).1
    · exact old
  · intro a away
    have other : a ≠ x := (ne_of_mem_of_not_mem inside away).symm
    refine (Function.update_of_ne other _ _).trans (withLinks_same ?_ ?_)
    · exact Function.update_of_ne (ne_of_mem_of_not_mem prevIn away).symm _ _
    · exact Function.update_of_ne (ne_of_mem_of_not_mem nextIn away).symm _ _

theorem remove_first {value : List UInt8} (queue : Queue db.heap head (x :: items) (value :: values)) :
    ∃ db', db.listRemove x = some db' ∧ Popped db db' head (x :: items) values := by
  obtain ⟨_, filled⟩ := List.forall₂_cons.mp queue.items
  refine listRemove_spec queue List.mem_cons_self (List.Perm.swap head x items) filled ?_
  intro next' prev' joinNext joinPrev forward backward
  have turned : IsRing (nextOf db.heap) (prevOf db.heap) (x :: (items ++ [head])) := by
    have := ring_turn queue.ring
    simpa using this
  have distinct := (List.nodup_cons.mp (ring_nodup turned)).1
  have rest : IsRing next' prev' (items ++ [head]) := by
    apply unlink_head turned (by simp) joinNext joinPrev
    · intro u inside
      refine forward u ?_ (fun same => distinct (same ▸ inside))
      simp only [List.mem_append, List.mem_cons, List.not_mem_nil, or_false] at inside ⊢
      tauto
    · intro u inside
      refine backward u ?_ (fun same => distinct (same ▸ inside))
      simp only [List.mem_append, List.mem_cons, List.not_mem_nil, or_false] at inside ⊢
      tauto
  exact ring_rotate (l := items) (m := [head]) rest

theorem remove_last {value : List UInt8} (queue : Queue db.heap head (items ++ [x]) (values ++ [value]))
    (count : items.length = values.length) :
    ∃ db', db.listRemove x = some db' ∧ Popped db db' head (items ++ [x]) values := by
  have perm : (x :: head :: items).Perm (head :: (items ++ [x])) :=
    (List.Perm.swap head x items).trans ((List.perm_append_singleton x items).symm.cons head)
  refine listRemove_spec queue (by simp) perm ?_ ?_
  · refine List.forall₂_iff_zip.mpr ⟨count, fun pair => (List.forall₂_iff_zip.mp queue.items).2 ?_⟩
    rw [List.zip_append count]
    exact List.mem_append_left _ pair
  · intro next' prev' joinNext joinPrev forward backward
    have turned : IsRing (nextOf db.heap) (prevOf db.heap) (x :: head :: items) :=
      ring_rotate (l := head :: items) (m := [x]) (by simpa using queue.ring)
    have distinct := (List.nodup_cons.mp (ring_nodup turned)).1
    apply unlink_head turned (by simp) joinNext joinPrev
    · intro u inside
      exact forward u (perm.subset (List.mem_cons_of_mem x inside)) (fun same => distinct (same ▸ inside))
    · intro u inside
      exact backward u (perm.subset (List.mem_cons_of_mem x inside))
        (fun same => distinct (same ▸ inside))

theorem Queue.empty_iff (queue : Queue heap head items values) : items = [] ↔ values = [] := by
  rw [← List.length_eq_zero_iff, ← List.length_eq_zero_iff, queue.items.length_eq]

theorem Queue.alone (queue : Queue heap head items values) (here : heap head = some (.list node)) :
    node.prev = head ↔ values = [] := by
  rw [← prevOf_list here, alone_iff (ring_mirror queue.ring) List.mem_cons_self, ← queue.empty_iff]
  simp

theorem Queue.distinct (queue : Queue heap head items values) : items.Nodup :=
  (List.nodup_cons.mp (ring_nodup queue.ring)).2

theorem Pushed.all {values' : List (List UInt8)} (pushed : Pushed db db' head items values')
    (queue : Queue db.heap head items values) (more : values'.length = values.length + 1) :
    ∃ items', Queue db'.heap head items' values' ∧ ∀ a, a ∈ items' ↔ a = db.fresh ∨ a ∈ items := by
  obtain ⟨items', queue', cells⟩ := pushed.queue
  have within : items' ⊆ db.fresh :: items := fun a inside => List.mem_cons.mpr (cells a inside).symm
  have count : (db.fresh :: items).length ≤ items'.length := by
    rw [queue'.items.length_eq, more, List.length_cons, queue.items.length_eq]
  have perm := (List.subperm_of_subset queue'.distinct within).perm_of_length_le count
  exact ⟨items', queue', fun a => perm.mem_iff.trans List.mem_cons⟩

theorem listRemove_freed (run : db.listRemove x = some db') : db'.heap x = none := by
  obtain ⟨db1, _, freed⟩ := Option.bind_eq_some_iff.mp run
  obtain ⟨_, _, rfl⟩ := Option.map_eq_some_iff.mp freed
  exact Function.update_self _ _ _

theorem Popped.all {values' : List (List UInt8)} (popped : Popped db db' head items values')
    (queue : Queue db.heap head items values) (member : x ∈ items) (freed : db'.heap x = none)
    (less : values.length = values'.length + 1) :
    ∃ items', Queue db'.heap head items' values' ∧ ∀ a, a ∈ items ↔ a = x ∨ a ∈ items' := by
  obtain ⟨items', queue', cells⟩ := popped.queue
  have out : x ∉ items' := by
    intro inside
    obtain ⟨node, here⟩ := queue'.member (List.mem_cons_of_mem head inside)
    rw [freed] at here
    cases here
  have within : x :: items' ⊆ items := List.cons_subset.mpr ⟨member, cells⟩
  have count : items.length ≤ (x :: items').length := by
    rw [queue.items.length_eq, less, List.length_cons, queue'.items.length_eq]
  have perm := (List.subperm_of_subset (List.nodup_cons.mpr ⟨out, queue'.distinct⟩)
    within).perm_of_length_le count
  exact ⟨items', queue', fun a => perm.mem_iff.symm.trans List.mem_cons⟩

end

section
variable {db db' : Db} {L : Layout} {S : Store} {name rest value : List UInt8} {v : Int}
    {tree : ByteTree.Tree Int}
variable {items : List Int} {values : List (List UInt8)}

theorem list_plain (rest : List UInt8) : (Db.listHead :: rest).head? ≠ some Db.spatialPointHead1 ∧
    (Db.listHead :: rest).head? ≠ some Db.spatialPointHead2 := by
  simp [Db.listHead, Db.spatialPointHead1, Db.spatialPointHead2]

theorem Holds.queue (holds : Holds db L S) (held : L.entries (Db.listHead :: rest) = some v) :
    ∃ values items, S (Db.listHead :: rest) = some (.queue values) ∧ values ≠ [] ∧
    Queue db.heap v items values ∧
      ∀ a ∈ v :: items, L.owner a = some (Db.listHead :: rest) := by
  obtain ⟨cell, stored, denotes⟩ := holds.denotes (list_plain rest).2 held
  cases cell with
  | bytes value =>
    obtain ⟨_, _, _, _, ⟨type, _⟩ | ⟨type, _⟩⟩ := denotes <;> cases type
  | member => cases denotes.1
  | queue values =>
    obtain ⟨_, filled, items, queue, own⟩ := denotes
    exact ⟨values, items, stored, filled, queue, own⟩
  | place lat lon => cases denotes.1

/-- A non-empty queue of old and new cells behind a list key. -/
theorem Holds.requeue (holds : Holds db L S) (db' : Db) (tree : ByteTree.Tree Int) (rest : List UInt8)
    (stores : Stores db'.trie tree (Function.update L.entries (Db.listHead :: rest) (some v)))
    (queue : Queue db'.heap v items values) (filled : values ≠ []) (fresh : db.fresh ≤ db'.fresh)
    (cells : ∀ a ∈ v :: items, L.owner a = some (Db.listHead :: rest) ∨ db.fresh ≤ a ∧ a < db'.fresh)
    (heap : ∀ a other, other ≠ Db.listHead :: rest → L.owner a = some other → db'.heap a = db.heap a) :
    ∃ owner', Holds db' ⟨tree, Function.update L.entries (Db.listHead :: rest) (some v), owner'⟩
      (Function.update S (Db.listHead :: rest) (some (.queue values))) := by
  have positive := holds.fresh
  refine ⟨fun a => if db.fresh ≤ a ∧ a < db'.fresh then some (Db.listHead :: rest) else L.owner a,
    holds.change stores ⟨?_, heap⟩ fresh ?_ (list_plain rest) (.some ⟨rfl, filled, items, queue, ?_⟩)⟩
  · intro a other _ own
    have := (holds.owned a other own).2
    exact (if_neg (by omega)).trans own
  · intro a k own
    by_cases new : db.fresh ≤ a ∧ a < db'.fresh
    · exact Or.inr (by omega)
    · rw [if_neg new] at own
      exact Or.inl own
  · intro a inside
    dsimp only
    split
    · rfl
    · rename_i old
      exact (cells a inside).resolve_right old

theorem Store.putQueue_some (S : Store) (key : List UInt8) (filled : values ≠ []) :
    S.putQueue key values = Function.update S key (some (.queue values)) := by
  rw [putQueue, if_neg filled]

theorem Tends.queue {db' : Db} {L' : Layout} (holds : Holds db L S) (fresh : db.fresh ≤ db'.fresh)
    (heap : ∀ a other, other ≠ Db.listHead :: rest → L.owner a = some other → db'.heap a = db.heap a)
    (entries : L'.entries = Function.update L.entries (Db.listHead :: rest) (some v))
    (queue : Queue db'.heap v items values)
    (cells : ∀ a ∈ v :: items, db.fresh ≤ a ∨ db.heap a ≠ none)
    (others : ∀ a, db'.heap a ≠ none → a ∉ v :: items → db.heap a ≠ none ∧
      ¬ Behind db.heap L.entries S (Db.listHead :: rest) a) :
    Tends db db' L L' S (Function.update S (Db.listHead :: rest) (some (.queue values))) := by
  refine Tends.change holds (list_plain rest).2 fresh heap (fun _ _ other => ?_) fun a live => ?_
  · rw [entries, Function.update_of_ne other]
  · by_cases inside : a ∈ v :: items
    · refine Or.inl ⟨(behind_iff ?_ (Function.update_self _ _ _)).mpr
        ((occupies_queue queue).mpr inside), cells a inside⟩
      rw [entries, Function.update_self]
    · exact Or.inr (others a live inside)

/-- An insertion makes every queue longer by the one new cell. -/
structure Pushes (push : Db → Int → List UInt8 → Option Db) (value : List UInt8)
    (grow : List (List UInt8) → List (List UInt8)) : Prop where
  more : ∀ values, (grow values).length = values.length + 1
  spec : ∀ (db : Db) (head : Int) (items : List Int) (values : List (List UInt8)),
    Queue db.heap head items values → (∀ a ∈ head :: items, a < db.fresh) →
      ∃ db', push db head value = some db' ∧ Pushed db db' head items (grow values)

def Db.headed (db : Db) : Db :=
  db.listNew.2.put db.fresh (.list (Db.tagList ⟨0, db.fresh, db.fresh, []⟩))

theorem Db.headed_run (db : Db) : db.listNew.2.modifyList db.fresh Db.tagList = some db.headed :=
  Db.modifyList_run (Function.update_self _ _ _) Db.tagList

theorem Db.headed_queue (db : Db) : Queue db.headed.heap db.fresh [] [] := by
  have atHead : db.headed.heap db.fresh = some (.list (Db.tagList ⟨0, db.fresh, db.fresh, []⟩)) :=
    Function.update_self _ _ _
  exact ⟨ring_single.mpr ⟨nextOf_list atHead, prevOf_list atHead⟩, ⟨_, atHead, rfl⟩, .nil⟩

theorem Pushes.first {push : Db → Int → List UInt8 → Option Db}
    {grow : List (List UInt8) → List (List UInt8)} (pushes : Pushes push value grow) (db : Db) :
    ∃ db1 items, push db.headed db.fresh value = some db1 ∧ Queue db1.heap db.fresh items (grow []) ∧
      db1.trie = db.trie ∧ db1.fresh = db.fresh + 2 ∧
      (∀ a, a ∈ db.fresh :: items ↔ a = db.fresh ∨ a = db.fresh + 1) ∧
      ∀ a, a ≠ db.fresh → a ≠ db.fresh + 1 → db1.heap a = db.heap a := by
  have next : db.headed.fresh = db.fresh + 1 := rfl
  obtain ⟨db1, run, pushed⟩ := pushes.spec db.headed db.fresh [] [] db.headed_queue (by
    intro a inside
    rw [List.mem_singleton.mp inside, next]
    omega)
  obtain ⟨items, queue, cells⟩ := pushed.all db.headed_queue (pushes.more [])
  have fresh := pushed.fresh
  rw [next] at fresh
  refine ⟨db1, items, run, queue, pushed.trie, by omega, fun a => ?_, fun a notHead notItem => ?_⟩
  · rw [List.mem_cons, cells a, next]
    simp
  · refine (pushed.heap a (by simpa using notHead) notItem).trans ?_
    exact (Function.update_of_ne notHead _ _).trans (Function.update_of_ne notHead _ _)

theorem listPush_absent (holds : Holds db L S) {push : Db → Int → List UInt8 → Option Db}
    {grow : List (List UInt8) → List (List UInt8)} (pushes : Pushes push value grow)
    (held : L.entries (Db.listHead :: name) = none) :
    ∃ db' L', db.listPush push name value = some (0, db') ∧
      Holds db' L' (Function.update S (Db.listHead :: name) (some (.queue (grow [])))) ∧
      Apart [Db.listHead] L.tree L'.tree ∧
      Tends db db' L L' S (Function.update S (Db.listHead :: name) (some (.queue (grow [])))) := by
  have positive := holds.fresh
  have search := holds.stores.search (Db.listHead :: name)
  rw [held] at search
  have missing := (holds.none_iff (list_plain name).2).mp held
  obtain ⟨db1, items, run, queue, trie, fresh, made, outside⟩ := pushes.first db
  obtain ⟨t', T', updated, stores', apart⟩ := holds.stores.update (v := db.fresh) name
    (show Db.listHead ∈ typeHeads by decide) (by omega)
  rw [← trie, held] at updated
  have heap : ∀ a other, other ≠ Db.listHead :: name → L.owner a = some other →
      db1.heap a = db.heap a := by
    intro a other _ own
    have := (holds.owned a other own).2
    exact outside a (by omega) (by omega)
  obtain ⟨owner', holds'⟩ := holds.requeue { db1 with trie := t' } T' name stores' queue
    (List.ne_nil_of_length_eq_add_one (pushes.more [])) (show db.fresh ≤ db1.fresh by omega) (by
      intro a inside
      refine Or.inr ?_
      dsimp only
      rcases (made a).mp inside with rfl | rfl <;> omega) heap
  refine ⟨{ db1 with trie := t' }, _, ?_, holds', apart, ?_⟩
  · unfold Db.listPush Db.encodeListHead
    refine bind_run search ?_
    refine (if_pos (show (none : Option Int).getD noValue < 0 by decide)).trans ?_
    refine bind_run db.headed_run ?_
    refine bind_run run ?_
    exact bind_run (Db.trieUpdate_run updated) rfl
  · refine Tends.queue holds (show db.fresh ≤ db1.fresh by omega) heap rfl queue (fun a inside => ?_)
      fun a live out => ?_
    · refine Or.inl ?_
      rcases (made a).mp inside with rfl | rfl <;> omega
    · rw [made, not_or] at out
      exact ⟨fun dead => live ((outside a out.1 out.2).trans dead), not_behind_none missing⟩

theorem listPush_present (holds : Holds db L S) {push : Db → Int → List UInt8 → Option Db}
    {grow : List (List UInt8) → List (List UInt8)} (pushes : Pushes push value grow)
    (held : L.entries (Db.listHead :: name) = some v) :
    ∃ db' L', db.listPush push name value = some (0, db') ∧ Holds db' L'
      (Function.update S (Db.listHead :: name) (some (.queue (grow (S.queue (Db.listHead :: name)))))) ∧
      Apart [Db.listHead] L.tree L'.tree ∧ Tends db db' L L' S
      (Function.update S (Db.listHead :: name) (some (.queue (grow (S.queue (Db.listHead :: name)))))) := by
  have search := holds.stores.search (Db.listHead :: name)
  rw [held] at search
  obtain ⟨values, items, stored, _, queue, own⟩ := holds.queue held
  have nonneg := holds.stores.nonneg _ v held
  have same : S.queue (Db.listHead :: name) = values := by rw [Store.queue, stored]
  obtain ⟨db1, run, pushed⟩ := pushes.spec db v items values queue
    (fun a inside => (holds.owned a _ (own a inside)).2)
  obtain ⟨items', queue1, cells⟩ := pushed.all queue (pushes.more values)
  have keep : Function.update L.entries (Db.listHead :: name) (some v) = L.entries :=
    Function.update_eq_self_iff.mpr held.symm
  have fresh1 := pushed.fresh
  have heap : ∀ a other, other ≠ Db.listHead :: name → L.owner a = some other →
      db1.heap a = db.heap a := by
    intro a other different own'
    refine pushed.heap a (fun inside => different (Option.some.inj (own'.symm.trans (own a inside)))) ?_
    have := (holds.owned a other own').2
    omega
  have before : ∀ a, a ∈ v :: items' → a = db.fresh ∨ a ∈ v :: items := by
    intro a inside
    rw [List.mem_cons, cells a] at inside
    rw [List.mem_cons]
    tauto
  rw [same]
  obtain ⟨owner', holds'⟩ := holds.requeue db1 L.tree name (v := v)
    (by rw [keep, pushed.trie]; exact holds.stores) queue1
    (List.ne_nil_of_length_eq_add_one (pushes.more values)) (by omega) (by
      intro a inside
      rcases before a inside with rfl | old
      · exact Or.inr (by omega)
      · exact Or.inl (own a old)) heap
  refine ⟨db1, _, ?_, holds', .refl _ _, ?_⟩
  · unfold Db.listPush Db.encodeListHead
    refine bind_run search ?_
    refine (if_neg (show ¬ (Option.some v).getD noValue < 0 by rw [Option.getD_some]; omega)).trans ?_
    exact bind_run run rfl
  · refine Tends.queue holds (by omega) heap rfl queue1 (fun a inside => ?_) fun a live out => ?_
    · rcases before a inside with rfl | old
      · exact Or.inl le_rfl
      · obtain ⟨node, here⟩ := queue.member old
        exact Or.inr (by simp [here])
    · rw [List.mem_cons, cells a, not_or, not_or] at out
      have absent : a ∉ v :: items := by
        rw [List.mem_cons, not_or]
        exact ⟨out.1, out.2.2⟩
      refine ⟨fun dead => live ((pushed.heap a absent out.2.1).trans dead), fun behind => absent ?_⟩
      exact (occupies_queue queue).mp ((behind_iff held stored).mp behind)

theorem listPush_spec (holds : Holds db L S) {push : Db → Int → List UInt8 → Option Db}
    {grow : List (List UInt8) → List (List UInt8)} (pushes : Pushes push value grow) (name : List UInt8) :
    ∃ db' L', db.listPush push name value = some (0, db') ∧
      Holds db' L' (S.putQueue (Db.encodeListHead name) (grow (S.queue (Db.encodeListHead name)))) ∧
      Apart [Db.listHead] L.tree L'.tree ∧
      Tends db db' L L' S (S.putQueue (Db.encodeListHead name)
      (grow (S.queue (Db.encodeListHead name)))) := by
  rw [Store.putQueue_some S _ (List.ne_nil_of_length_eq_add_one (pushes.more _))]
  unfold Db.encodeListHead
  cases held : L.entries (Db.listHead :: name) with
  | none =>
    rw [Store.queue, (holds.none_iff (list_plain name).2).mp held]
    exact listPush_absent holds pushes held
  | some v => exact listPush_present holds pushes held

/-- A removal takes one item out of every queue that has one. -/
structure Pops (which : ListNode → Int) (shrink : List (List UInt8) → List (List UInt8)) : Prop where
  less : ∀ values, (shrink values).length = values.length - 1
  spec : ∀ (db : Db) (head : Int) (items : List Int) (values : List (List UInt8)) (node : ListNode),
    Queue db.heap head items values → values ≠ [] → db.heap head = some (.list node) →
      which node ∈ items ∧ ∃ db', db.listRemove (which node) = some db' ∧
      Popped db db' head items (shrink values)

/-- A list with an item drawn from its queue; the entry is still in the trie. -/
structure Drawn (db db1 : Db) (L : Layout) (name : List UInt8) (v : Int) (items items' : List Int)
    (values values' : List (List UInt8)) : Prop where
  before : Queue db.heap v items values
  after : Queue db1.heap v items' values'
  own : ∀ a ∈ v :: items, L.owner a = some (Db.listHead :: name)
  still : ∀ a ∈ v :: items', a ∈ v :: items
  gone : ∀ a, db1.heap a ≠ none → a ∉ v :: items' → a ∉ v :: items
  heap : ∀ a, a ∉ v :: items → db1.heap a = db.heap a
  trie : db1.trie = db.trie
  fresh : db1.fresh = db.fresh

section
variable {db1 : Db} {items' : List Int} {values' : List (List UInt8)}

theorem Drawn.others (drawn : Drawn db db1 L name v items items' values values') (a : Int)
    (other : List UInt8) (different : other ≠ Db.listHead :: name) (own : L.owner a = some other) :
    db1.heap a = db.heap a :=
  drawn.heap a fun inside => different (Option.some.inj (own.symm.trans (drawn.own a inside)))

theorem Drawn.kept (drawn : Drawn db db1 L name v items items' values values')
    (held : L.entries (Db.listHead :: name) = some v)
    (stored : S (Db.listHead :: name) = some (.queue values)) (a : Int) (live : db1.heap a ≠ none)
    (out : a ∉ v :: items') :
    db.heap a ≠ none ∧ ¬ Behind db.heap L.entries S (Db.listHead :: name) a := by
  have absent := drawn.gone a live out
  refine ⟨fun dead => live ((drawn.heap a absent).trans dead), fun here => absent ?_⟩
  exact (occupies_queue drawn.before).mp ((behind_iff held stored).mp here)

/-- Up to the look at the head that is left, every pop takes the same way. -/
theorem listPop_draws (holds : Holds db L S) {which : ListNode → Int}
    {shrink : List (List UInt8) → List (List UInt8)} (pops : Pops which shrink)
    (held : L.entries (Db.listHead :: name) = some v) :
    ∃ db1 items items' values, S (Db.listHead :: name) = some (.queue values) ∧
      Drawn db db1 L name v items items' values (shrink values) ∧
      db.listPop which name = if shrink values = [] then (do
        let (p, d) ← db1.trieErase (Db.encodeListHead name)
        if p < 0 then some (-1, d)
        else do
          let d ← d.free p
          some (0, d)) else some (0, db1) := by
  have search := holds.stores.search (Db.listHead :: name)
  rw [held] at search
  obtain ⟨values, items, stored, filled, queue, own⟩ := holds.queue held
  have nonneg := holds.stores.nonneg _ v held
  obtain ⟨node, atHead, _⟩ := queue.tag
  obtain ⟨member, db1, run, popped⟩ := pops.spec db v items values node queue filled atHead
  have taken := listRemove_freed run
  obtain ⟨items', queue1, cells⟩ := popped.all queue member taken (by
    have := List.length_pos_iff.mpr filled
    have := pops.less values
    omega)
  obtain ⟨node1, atHead1, _⟩ := queue1.tag
  refine ⟨db1, items, items', values, stored, ⟨queue, queue1, own, fun a inside => ?_, fun a live out => ?_,
    popped.heap, popped.trie, popped.fresh⟩, ?_⟩
  · rcases List.mem_cons.mp inside with rfl | item
    · exact List.mem_cons_self
    · exact List.mem_cons_of_mem v ((cells a).mpr (Or.inr item))
  · intro inside
    rcases List.mem_cons.mp inside with rfl | item
    · exact out List.mem_cons_self
    · rcases (cells a).mp item with rfl | still
      · exact live taken
      · exact out (List.mem_cons_of_mem v still)
  · unfold Db.listPop Db.encodeListHead
    refine bind_run search ?_
    refine (if_neg (show ¬ (some v).getD noValue < 0 by rw [Option.getD_some]; omega)).trans ?_
    refine bind_run (Db.listAt_run atHead) ?_
    refine (if_neg (show ¬ node.prev = v from fun alone =>
      filled ((queue.alone atHead).mp alone))).trans ?_
    refine bind_run run ?_
    refine bind_run (Db.listAt_run atHead1) ?_
    exact if_congr (queue1.alone atHead1) rfl rfl

theorem listPop_emptied (holds : Holds db L S) (drawn : Drawn db db1 L name v items items' values [])
    (held : L.entries (Db.listHead :: name) = some v)
    (stored : S (Db.listHead :: name) = some (.queue values)) :
    ∃ db' L', (do
        let (p, d) ← db1.trieErase (Db.encodeListHead name)
        if p < 0 then some (-1, d)
        else do
          let d ← d.free p
          some (0, d)) = some ((0 : Int), db') ∧
      Holds db' L' (Function.update S (Db.listHead :: name) none) ∧ Apart [Db.listHead] L.tree L'.tree ∧
      Tends db db' L L' S (Function.update S (Db.listHead :: name) none) := by
  have nonneg := holds.stores.nonneg _ v held
  obtain ⟨t', T', erased, stores', apart⟩ := holds.stores.erase name
    (show Db.listHead ∈ typeHeads by decide)
  rw [← drawn.trie, held, Option.getD_some] at erased
  obtain ⟨node, atHead, _⟩ := drawn.after.tag
  have others : ∀ a other, other ≠ Db.listHead :: name → L.owner a = some other →
      Function.update db1.heap v none a = db.heap a := by
    intro a other different own
    refine (Function.update_of_ne ?_ _ _).trans (drawn.others a other different own)
    rintro rfl
    exact different (Option.some.inj (own.symm.trans (drawn.own a List.mem_cons_self)))
  refine ⟨{ db1 with trie := t', heap := Function.update db1.heap v none }, ⟨T', _, L.owner⟩, ?_,
    holds.change stores' ⟨fun _ _ _ own => own, others⟩ (le_of_eq drawn.fresh.symm)
      (fun _ _ own => Or.inl own) (list_plain name) .none, apart, ?_⟩
  · refine bind_run (Db.trieErase_run erased) ?_
    refine (if_neg (show ¬ v < 0 by omega)).trans ?_
    exact bind_run (Db.free_run (d := { db1 with trie := t' }) atHead) rfl
  · refine Tends.change holds (list_plain name).2 (le_of_eq drawn.fresh.symm) others
      (fun _ _ other => Function.update_of_ne other _ _) fun a live => Or.inr ?_
    have other : a ≠ v := by
      rintro rfl
      exact live (Function.update_self _ _ _)
    obtain rfl := drawn.after.empty_iff.mpr rfl
    exact drawn.kept held stored a (fun dead => live ((Function.update_of_ne other _ _).trans dead))
      (by simpa using other)

theorem Drawn.stays (drawn : Drawn db db1 L name v items items' values values') (holds : Holds db L S)
    (held : L.entries (Db.listHead :: name) = some v)
    (stored : S (Db.listHead :: name) = some (.queue values)) (left : values' ≠ []) :
    ∃ L', Holds db1 L' (Function.update S (Db.listHead :: name) (some (.queue values'))) ∧
      Apart [Db.listHead] L.tree L'.tree ∧
      Tends db db1 L L' S (Function.update S (Db.listHead :: name) (some (.queue values'))) := by
  have keep : Function.update L.entries (Db.listHead :: name) (some v) = L.entries :=
    Function.update_eq_self_iff.mpr held.symm
  have fresh := le_of_eq drawn.fresh.symm
  obtain ⟨owner', holds'⟩ := holds.requeue db1 L.tree name (v := v)
    (by rw [keep, drawn.trie]; exact holds.stores) drawn.after left fresh
    (fun a inside => Or.inl (drawn.own a (drawn.still a inside))) drawn.others
  refine ⟨_, holds', .refl _ _, ?_⟩
  refine Tends.queue holds fresh drawn.others rfl drawn.after (fun a inside => Or.inr ?_)
    (drawn.kept held stored)
  obtain ⟨node, here⟩ := drawn.before.member (drawn.still a inside)
  simp [here]

end

theorem listPop_spec (holds : Holds db L S) {which : ListNode → Int}
    {shrink : List (List UInt8) → List (List UInt8)} (pops : Pops which shrink) (name : List UInt8) :
    ∃ db' L', db.listPop which name = some (if (S (Db.encodeListHead name)).isSome then 0 else -1, db') ∧
      Holds db' L' (S.putQueue (Db.encodeListHead name) (shrink (S.queue (Db.encodeListHead name)))) ∧
      Apart [Db.listHead] L.tree L'.tree ∧
      Tends db db' L L' S (S.putQueue (Db.encodeListHead name)
      (shrink (S.queue (Db.encodeListHead name)))) := by
  unfold Db.encodeListHead
  cases held : L.entries (Db.listHead :: name) with
  | none =>
    have search := holds.stores.search (Db.listHead :: name)
    rw [held] at search
    have missing := (holds.none_iff (list_plain name).2).mp held
    have same : S.putQueue (Db.listHead :: name) (shrink (S.queue (Db.listHead :: name))) = S := by
      rw [Store.queue, missing, List.length_eq_zero_iff.mp (pops.less []), Store.putQueue, if_pos rfl]
      exact Function.update_eq_self_iff.mpr missing.symm
    rw [same, missing]
    exact ⟨db, L, bind_run search rfl, holds, .refl _ _, .refl _ _ _⟩
  | some v =>
    obtain ⟨db1, items, items', values, stored, drawn, run⟩ := listPop_draws holds pops held
    have same : S.queue (Db.listHead :: name) = values := by rw [Store.queue, stored]
    rw [same, stored, run]
    by_cases emptied : shrink values = []
    · rw [if_pos emptied, emptied, Store.putQueue, if_pos rfl]
      rw [emptied] at drawn
      exact listPop_emptied holds drawn held stored
    · obtain ⟨L', holds', apart, tends⟩ := drawn.stays holds held stored emptied
      rw [if_neg emptied, Store.putQueue_some S _ emptied]
      exact ⟨db1, L', rfl, holds', apart, tends⟩

theorem listTop_spec (holds : Holds db L S) {which : ListNode → Int}
    (pick : List (List UInt8) → Option (List UInt8)) (name : List UInt8) (nothing : pick [] = none)
    (spec : ∀ (heap : Int → Option Record) (head : Int) (items : List Int) (values : List (List UInt8)) (node : ListNode),
      Queue heap head items values → values ≠ [] → heap head = some (.list node) →
        ∃ l, heap (which node) = some (.list l) ∧ pick values = some (l.data.take l.size)) :
    db.listTop which name = some (pick (S.queue (Db.encodeListHead name))) := by
  unfold Db.listTop Db.encodeListHead
  have search := holds.stores.search (Db.listHead :: name)
  cases held : L.entries (Db.listHead :: name) with
  | none =>
    rw [held] at search
    rw [Store.queue, (holds.none_iff (list_plain name).2).mp held, nothing]
    exact bind_run search rfl
  | some v =>
    rw [held] at search
    obtain ⟨values, items, stored, filled, queue, own⟩ := holds.queue held
    have nonneg := holds.stores.nonneg _ v held
    obtain ⟨node, atHead, _⟩ := queue.tag
    obtain ⟨l, here, top⟩ := spec db.heap v items values node queue filled atHead
    rw [Store.queue, stored, top]
    refine bind_run search ?_
    refine (if_neg (show ¬ (some v).getD noValue < 0 by rw [Option.getD_some]; omega)).trans ?_
    refine bind_run (Db.listAt_run atHead) ?_
    refine (if_neg (show ¬ node.prev = v from fun alone =>
      filled ((queue.alone atHead).mp alone))).trans ?_
    exact bind_run (Db.listAt_run here) rfl

theorem Queue.first {heap : Int → Option Record} {head : Int} {node : ListNode} {value : List UInt8}
    (queue : Queue heap head items (value :: values)) (here : heap head = some (.list node)) :
    ∃ rest, items = node.next :: rest := by
  cases items with
  | nil => cases queue.items
  | cons x rest =>
    have step := (ring_first queue.ring).1
    rw [nextOf_list here] at step
    exact ⟨rest, by rw [step]⟩

theorem Queue.last {heap : Int → Option Record} {head : Int} {node : ListNode} {value : List UInt8}
    (queue : Queue heap head items (values ++ [value])) (here : heap head = some (.list node)) :
    ∃ init, items = init ++ [node.prev] ∧ init.length = values.length := by
  have count := queue.items.length_eq
  rw [List.length_append, List.length_singleton] at count
  rcases List.eq_nil_or_concat' items with rfl | ⟨init, z, rfl⟩
  · cases count
  · have step := (ring_last queue.ring).2
    rw [prevOf_list here] at step
    refine ⟨init, by rw [step], ?_⟩
    simpa using count

theorem listLpush_spec (holds : Holds db L S) (name value : List UInt8) :
    ∃ db' L', db.listLpush name value = some (0, db') ∧ Holds db' L' (S.putQueue (Db.encodeListHead name)
      (Store.kept 32 value :: S.queue (Db.encodeListHead name))) ∧ Apart [Db.listHead] L.tree L'.tree ∧
      Tends db db' L L' S (S.putQueue (Db.encodeListHead name)
        (Store.kept 32 value :: S.queue (Db.encodeListHead name))) :=
  listPush_spec holds ⟨fun _ => List.length_cons,
    fun _ _ _ _ queue below => listLpushAt_spec queue below value⟩ name

theorem listRpush_spec (holds : Holds db L S) (name value : List UInt8) :
    ∃ db' L', db.listRpush name value = some (0, db') ∧ Holds db' L' (S.putQueue (Db.encodeListHead name)
      (S.queue (Db.encodeListHead name) ++ [Store.kept 32 value])) ∧ Apart [Db.listHead] L.tree L'.tree ∧
      Tends db db' L L' S (S.putQueue (Db.encodeListHead name)
        (S.queue (Db.encodeListHead name) ++ [Store.kept 32 value])) :=
  listPush_spec holds ⟨fun _ => List.length_append,
    fun _ _ _ _ queue below => listRpushAt_spec queue below value⟩ name

theorem listLpop_spec (holds : Holds db L S) (name : List UInt8) :
    ∃ db' L', db.listLpop name = some (if (S (Db.encodeListHead name)).isSome then 0 else -1, db') ∧
      Holds db' L' (S.putQueue (Db.encodeListHead name) (S.queue (Db.encodeListHead name)).tail) ∧
      Apart [Db.listHead] L.tree L'.tree ∧
      Tends db db' L L' S (S.putQueue (Db.encodeListHead name)
      (S.queue (Db.encodeListHead name)).tail) := by
  refine listPop_spec holds ⟨fun _ => List.length_tail,
    fun db head items values node queue filled here => ?_⟩ name
  obtain ⟨value, rest, rfl⟩ := List.exists_cons_of_ne_nil filled
  obtain ⟨others, rfl⟩ := queue.first here
  exact ⟨List.mem_cons_self, remove_first queue⟩

theorem listRpop_spec (holds : Holds db L S) (name : List UInt8) :
    ∃ db' L', db.listRpop name = some (if (S (Db.encodeListHead name)).isSome then 0 else -1, db') ∧
      Holds db' L' (S.putQueue (Db.encodeListHead name) (S.queue (Db.encodeListHead name)).dropLast) ∧
      Apart [Db.listHead] L.tree L'.tree ∧
      Tends db db' L L' S (S.putQueue (Db.encodeListHead name)
      (S.queue (Db.encodeListHead name)).dropLast) := by
  refine listPop_spec holds ⟨fun _ => List.length_dropLast,
    fun db head items values node queue filled here => ?_⟩ name
  obtain ⟨init, value, rfl⟩ := (List.eq_nil_or_concat' values).resolve_left filled
  obtain ⟨others, rfl, count⟩ := queue.last here
  rw [List.dropLast_concat]
  exact ⟨by simp, remove_last queue count⟩

theorem listLtop_spec (holds : Holds db L S) (name : List UInt8) :
    db.listLtop name = some (S.queue (Db.encodeListHead name)).head? := by
  refine listTop_spec holds List.head? name rfl fun heap head items values node queue filled here => ?_
  obtain ⟨value, rest, rfl⟩ := List.exists_cons_of_ne_nil filled
  obtain ⟨others, rfl⟩ := queue.first here
  obtain ⟨⟨l, at', data⟩, _⟩ := List.forall₂_cons.mp queue.items
  exact ⟨l, at', by rw [data]; rfl⟩

theorem listRtop_spec (holds : Holds db L S) (name : List UInt8) :
    db.listRtop name = some (S.queue (Db.encodeListHead name)).getLast? := by
  refine listTop_spec holds List.getLast? name rfl fun heap head items values node queue filled here => ?_
  obtain ⟨init, value, rfl⟩ := (List.eq_nil_or_concat' values).resolve_left filled
  obtain ⟨others, rfl, count⟩ := queue.last here
  have pair : (node.prev, value) ∈ (others ++ [node.prev]).zip (init ++ [value]) := by
    rw [List.zip_append count]
    exact List.mem_append_right _ (by simp)
  obtain ⟨l, at', data⟩ := (List.forall₂_iff_zip.mp queue.items).2 pair
  exact ⟨l, at', by rw [List.getLast?_concat, data]⟩

end
end EtdbDatabase
