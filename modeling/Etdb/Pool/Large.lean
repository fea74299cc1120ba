import Etdb.Pool.Kept

/- The large blocks of a pool, and the calls of etdb_palloc.c over them. -/
namespace EtdbPool
open Arena NullLinked
open Function (update)

/-- What a call gives that hands out memory: nothing, or memory set aside; `big` holds where it
    is a block of its own. -/
def Gives (p : Pool) (chain : List Nat) (L : Layout Owner) (big : Prop) (size : Nat)
    (out : Nat × Pool) : Prop :=
  ∃ chain' heads' L', Kept out.2 chain' heads' L' ∧ Frame p out.2 chain chain' L L' ∧
    (out.1 ≠ 0 → ∃ i, Spare out.2 chain' heads' L' i ⟨out.1, size⟩ ∧ (i ∉ chain' → big))

/-- What a call leaves alone that takes a large block back: all regions that are not in it. -/
structure Passed (p p' : Pool) (L L' : Layout Owner) (raw : Nat) : Prop where
  same : ∀ k, L.home k ≠ raw → L'.region k = L.region k ∧ L'.home k = L.home k
  bytes : ∀ k r x, L'.region k = some r → r.Holds x → p'.mem.bytes x = p.mem.bytes x

section
variable {p : Pool} {chain heads : List Nat} {L : Layout Owner} {a b h i l raw size : Nat}
  {big : Prop}

theorem alloc_here (larges : Nat → PoolLarge) (l : Nat) (x : PoolLarge) :
    (update larges l x l).alloc = x.alloc := by rw [Function.update_self]

theorem alloc_next (larges : Nat → PoolLarge) (l a h : Nat) :
    (update larges l { larges l with alloc := a } h).next = (larges h).next := by
  rw [Function.update_apply]
  split <;> simp only [*]

theorem alloc_other (larges : Nat → PoolLarge) (x : PoolLarge) (other : h ≠ l) :
    (update larges l x h).alloc = (larges h).alloc := by rw [Function.update_of_ne other]

theorem Distinct.update {larges : Nat → PoolLarge} (distinct : Distinct heads fun l => (larges l).alloc)
    (x : PoolLarge) (new : x.alloc ≠ 0 → ∀ l ∈ heads, (larges l).alloc ≠ x.alloc) :
    Distinct (h :: heads) fun l => (update larges h x l).alloc := by
  intro l left l' right same full
  dsimp only at same full
  by_cases hl : l = h
  · rw [hl, alloc_here] at same full
    by_cases hl' : l' = h
    · exact hl.trans hl'.symm
    · rw [alloc_other larges x hl'] at same
      exact absurd same.symm (new full l' (List.mem_of_ne_of_mem hl' right))
  · rw [alloc_other larges x hl] at same full
    have old := List.mem_of_ne_of_mem hl left
    by_cases hl' : l' = h
    · rw [hl', alloc_here] at same
      exact absurd same (new (same ▸ full) l old)
    · rw [alloc_other larges x hl'] at same
      exact distinct l old l' (List.mem_of_ne_of_mem hl' right) same full

theorem Distinct.mono {alloc : Nat → Nat} (distinct : Distinct (h :: heads) alloc) :
    Distinct heads alloc := fun l left l' right =>
  distinct l (List.mem_cons_of_mem h left) l' (List.mem_cons_of_mem h right)

theorem Kept.home_pos {k : Owner} {r : Region} (kept : Kept p chain heads L)
    (here : L.region k = some r) : L.home k ≠ 0 := by
  have owned := (kept.sound.inside k r here).1
  exact Nat.ne_of_gt (kept.block ((kept.owned _).mp owned)).1

theorem Kept.assign (kept : Kept p chain heads L) (free : (p.larges h).alloc = 0)
    (block : a ∈ p.mem.blocks) (out : a ∉ chain) (new : ∀ l ∈ heads, (p.larges l).alloc ≠ a) :
    Kept { p with larges := update p.larges h { p.larges h with alloc := a } } chain heads L := by
  refine { kept with
    listed := linked_congr kept.listed fun l _ => alloc_next p.larges h a l
    chunks := fun c inside => { kept.chunks c inside with }
    entries := fun l inside => ⟨(kept.entries l inside).header, (kept.entries l inside).home, ?_⟩
    distinct := (kept.distinct.update _ fun _ => new).mono
    whole := fun k r found away => ?_ }
  · by_cases same : l = h
    · subst same
      rw [alloc_here]
      exact fun _ => ⟨block, out⟩
    · rw [alloc_other _ _ same]
      exact (kept.entries l inside).alloc
  · obtain ⟨start, l, inside, same⟩ := kept.whole k r found away
    have other : l ≠ h := by
      rintro rfl
      exact kept.home_pos found (same.symm.trans free)
    exact ⟨start, l, inside, (alloc_other _ _ other).trans same⟩

theorem Kept.letGo (kept : Kept p chain heads L) (entry : h ∈ heads) (held : (p.larges h).alloc = raw) :
    Kept { p with larges := update p.larges h { p.larges h with alloc := 0 } } chain heads
      (L.clear raw) := by
  have out : ∀ c ∈ chain, c ≠ raw := by
    rintro c inside rfl
    have full : (p.larges h).alloc ≠ 0 := by
      rw [held]
      exact Nat.ne_of_gt (kept.block (kept.chunks c inside).block).1
    exact ((kept.entries h entry).alloc full).2 (held ▸ inside)
  refine { kept with
    sound := kept.sound.clear raw
    listed := linked_congr kept.listed fun l _ => alloc_next p.larges h 0 l
    chunks := fun c inside => ?_
    entries := fun l inside => ⟨?_, (kept.entries l inside).home, ?_⟩
    distinct := (kept.distinct.update _ fun full => absurd rfl full).mono
    whole := fun k r found away => ?_ }
  · have chunk := kept.chunks c inside
    refine { chunk with header := ?_ }
    exact (Layout.clear_region (chunk.home.symm ▸ out c inside)).trans chunk.header
  · have old := kept.entries l inside
    exact (Layout.clear_region (out _ old.home)).trans old.header
  · by_cases same : l = h
    · subst same
      exact fun full => absurd (alloc_here _ _ _) full
    · rw [alloc_other _ _ same]
      exact (kept.entries l inside).alloc
  · obtain ⟨other, found⟩ := Layout.clear_some found
    obtain ⟨start, l, inside, same⟩ := kept.whole k r found away
    have apart : l ≠ h := by
      rintro rfl
      exact other (same.symm.trans held)
    exact ⟨start, l, inside, (alloc_other _ _ apart).trans same⟩

theorem Kept.drop (kept : Kept p chain heads L) (out : b ∉ chain)
    (free : ∀ h ∈ heads, (p.larges h).alloc ≠ b) :
    Kept { p with mem := p.mem.remove b } chain heads (L.disown b) := by
  have member : ∀ c, c ∈ (p.mem.remove b).blocks ↔ c ∈ p.mem.blocks ∧ c ≠ b := by
    intro c
    exact List.mem_filter.trans (and_congr_right fun _ => decide_eq_true_iff)
  have unused : ∀ k r, L.region k = some r → L.home k ≠ b := by
    rintro k r found rfl
    obtain ⟨_, h, inside, same⟩ := kept.whole k r found out
    exact free h inside same
  refine { kept with
    sound := kept.sound.disown unused
    owned := fun c => ?_
    stop := fun c inside => kept.stop c ((member c).mp inside).1
    placed := ⟨fun c inside => kept.placed.place c ((member c).mp inside).1, fun c left c' right =>
      kept.placed.apart c ((member c).mp left).1 c' ((member c').mp right).1⟩
    chunks := fun c inside => ?_
    entries := fun h inside => ?_ }
  · exact (and_congr_left fun _ => kept.owned c).trans (member c).symm
  · have chunk := kept.chunks c inside
    refine { chunk with block := (member c).mpr ⟨chunk.block, ?_⟩ }
    rintro rfl
    exact out inside
  · have entry := kept.entries h inside
    refine { entry with alloc := fun full => ⟨?_, (entry.alloc full).2⟩ }
    exact (member _).mpr ⟨(entry.alloc full).1, free h inside⟩

theorem Kept.push (kept : Kept p chain heads L) (inside : i ∈ chain)
    (room : L.Room i ⟨h, poolLargeSize⟩) (proper : h ≠ 0) (block : a ∈ p.mem.blocks) (out : a ∉ chain)
    (new : ∀ l ∈ heads, (p.larges l).alloc ≠ a) :
    Kept { p with larges := update p.larges h ⟨p.large, a⟩, large := h } chain (h :: heads)
      (L.place (.large h) i ⟨h, poolLargeSize⟩) := by
  have absent : h ∉ heads := by
    intro member
    have inside' : (⟨h, poolLargeSize⟩ : Region).Holds h := ⟨Nat.le_refl h, by unfold poolLargeSize; simp⟩
    exact room.apart _ _ (kept.entries h member).header h inside' inside'
  have old : ∀ l ∈ heads, update p.larges h ⟨p.large, a⟩ l = p.larges l := by
    intro l member
    refine Function.update_of_ne ?_ _ _
    rintro rfl
    exact absent member
  have here := Function.update_self h ⟨p.large, a⟩ p.larges
  refine { kept with
    sound := room.sound kept.sound
    listed := linked_push kept.listed proper (congrArg PoolLarge.next here)
      fun l member => congrArg PoolLarge.next (old l member)
    chunks := fun c member => ?_
    entries := fun l member => ?_
    distinct := kept.distinct.update _ fun _ => new
    whole := fun k r found away => ?_ }
  · have chunk := kept.chunks c member
    have other : Owner.chunk c ≠ .large h := nofun
    refine { chunk with header := ?_, home := ?_ }
    · exact (Layout.place_other other).trans chunk.header
    · exact (Layout.place_home_other other).trans chunk.home
  · cases List.mem_cons.mp member with
    | inl same =>
      subst same
      refine ⟨Layout.place_self, ?_, ?_⟩
      · rw [Layout.place_home]
        exact inside
      · dsimp only
        rw [here]
        exact fun _ => ⟨block, out⟩
    | inr member =>
      have entry := kept.entries l member
      have other : Owner.large l ≠ .large h := by
        intro same
        exact absent (Owner.large.inj same ▸ member)
      refine ⟨(Layout.place_other other).trans entry.header, ?_, ?_⟩
      · rw [Layout.place_home_other other]
        exact entry.home
      · dsimp only
        rw [old l member]
        exact entry.alloc
  · by_cases same : k = .large h
    · rw [same, Layout.place_home] at away
      exact absurd inside away
    · rw [Layout.place_other same] at found
      rw [Layout.place_home_other same] at away ⊢
      obtain ⟨start, l, member, held⟩ := kept.whole k r found away
      refine ⟨start, l, List.mem_cons_of_mem h member, ?_⟩
      dsimp only
      rw [old l member]
      exact held

theorem slotLoop_spec {larges : Nat → PoolLarge} {q : Nat} {l : List Nat} (left : Nat)
    (linked : Linked 0 (fun h => (larges h).next) q l) :
    slotLoop larges left q = 0 ∨
      slotLoop larges left q ∈ l ∧ (larges (slotLoop larges left q)).alloc = 0 := by
  induction l generalizing q left with
  | nil =>
    have null : q = 0 := linked
    cases left with
    | zero => exact Or.inl rfl
    | succ left => exact Or.inl (if_pos null)
  | cons x xs ih =>
    obtain ⟨rfl, proper, rest⟩ := linked
    cases left with
    | zero => exact Or.inl rfl
    | succ left =>
      unfold slotLoop
      rw [if_neg proper]
      by_cases free : (larges q).alloc = 0
      · rw [if_pos free]
        exact Or.inr ⟨List.mem_cons_self, free⟩
      · rw [if_neg free]
        exact (ih left rest).imp id fun found => ⟨List.mem_cons_of_mem q found.1, found.2⟩

theorem findLarge_spec {larges : Nat → PoolLarge} {q turns : Nat} {l : List Nat}
    (linked : Linked 0 (fun h => (larges h).next) q l) (short : l.length < turns) :
    ∃ h, findLarge larges raw turns q = some h ∧ (h = 0 ∨ h ∈ l ∧ (larges h).alloc = raw) := by
  induction l generalizing q turns with
  | nil =>
    have null : q = 0 := linked
    cases turns with
    | zero => exact absurd short (Nat.not_lt_zero _)
    | succ turns => exact ⟨0, if_pos null, Or.inl rfl⟩
  | cons x xs ih =>
    obtain ⟨rfl, proper, rest⟩ := linked
    cases turns with
    | zero => exact absurd short (Nat.not_lt_zero _)
    | succ turns =>
      unfold findLarge
      rw [if_neg proper]
      by_cases found : raw = (larges q).alloc
      · exact ⟨q, if_pos found, Or.inr ⟨List.mem_cons_self, found.symm⟩⟩
      · rw [if_neg found]
        obtain ⟨h, run, here⟩ := ih rest (Nat.lt_of_succ_lt_succ short)
        exact ⟨h, run, here.imp id fun found => ⟨List.mem_cons_of_mem q found.1, found.2⟩⟩

/-- The entries are places in memory, so the search for a block ends. -/
theorem Kept.findLarge (kept : Kept p chain heads L) (raw : Nat) :
    ∃ h, findLarge p.larges raw addresses p.large = some h ∧
      (h = 0 ∨ h ∈ heads ∧ (p.larges h).alloc = raw) := by
  refine findLarge_spec kept.listed ?_
  have proper := linked_proper kept.listed
  refine length_le_addresses (List.nodup_cons.mpr ⟨proper, linked_nodup kept.listed⟩) fun h member => ?_
  cases List.mem_cons.mp member with
  | inl null =>
    rw [null]
    decide
  | inr member =>
    have entry := kept.entries h member
    have inside := (kept.sound.inside _ _ entry.header).2.2
    have bounds := kept.bounds entry.home
    rw [(kept.chunks _ entry.home).last] at inside
    unfold poolLargeSize at inside
    dsimp only at inside
    omega

theorem Bumped.gives {p' : Pool} {chain' : List Nat} {L' : Layout Owner}
    (bumped : Bumped p p' chain chain' heads L L')
    (room : a ≠ 0 → ∃ c ∈ chain', L'.Room c ⟨a, size⟩) : Gives p chain L big size (a, p') := by
  refine ⟨chain', heads, L', bumped.kept, bumped.frame, fun some' => ?_⟩
  obtain ⟨c, inside, room⟩ := room some'
  exact ⟨c, ⟨room, fun out => absurd inside out⟩, fun out => absurd inside out⟩

theorem Gives.imp {big' : Prop} {out : Nat × Pool} (gives : Gives p chain L big size out)
    (more : big → big') : Gives p chain L big' size out := by
  obtain ⟨chain', heads', L', kept, frame, spare⟩ := gives
  refine ⟨chain', heads', L', kept, frame, fun some' => ?_⟩
  obtain ⟨i, spare, large⟩ := spare some'
  exact ⟨i, spare, fun out => more (large out)⟩

theorem Kept.settle {k : Owner} {r : Region} (kept : Kept p chain heads L)
    (sound : (L.place k i r).Sound)
    (own : i ∉ chain → r.start = i ∧ ∃ h ∈ heads, (p.larges h).alloc = i) (caller : k.Caller) :
    Kept p chain heads (L.place k i r) := by
  have chunk : ∀ c, Owner.chunk c ≠ k := by
    rintro c rfl
    exact caller
  have large : ∀ h, Owner.large h ≠ k := by
    rintro h rfl
    exact caller
  refine { kept with
    sound := sound
    chunks := fun c inside => ?_
    entries := fun h inside => ?_
    whole := fun k' s found away => ?_ }
  · have old := kept.chunks c inside
    exact { old with
      header := (Layout.place_other (chunk c)).trans old.header
      home := (Layout.place_home_other (chunk c)).trans old.home }
  · have old := kept.entries h inside
    refine { old with header := (Layout.place_other (large h)).trans old.header, home := ?_ }
    rw [Layout.place_home_other (large h)]
    exact old.home
  · by_cases same : k' = k
    · subst same
      rw [Layout.place_self] at found
      rw [Layout.place_home] at away ⊢
      cases found
      exact own away
    · rw [Layout.place_other same] at found
      rw [Layout.place_home_other same] at away ⊢
      exact kept.whole k' s found away

theorem Kept.give {k : Owner} {r : Region} (kept : Kept p chain heads L)
    (spare : Spare p chain heads L i r) (caller : k.Caller) : Kept p chain heads (L.place k i r) :=
  kept.settle (spare.1.sound kept.sound) spare.2 caller

theorem Kept.enterLarge (kept : Kept p chain heads L) (room : L.Room a ⟨a, size⟩) (out : a ∉ chain)
    (new : ∀ l ∈ heads, (p.larges l).alloc ≠ a) :
    ∃ res, p.enterLarge a = some res ∧ Gives p chain L True size res ∧ (res.1 = 0 ∨ res.1 = a) := by
  have block := (kept.owned a).mp room.owned
  unfold Pool.enterLarge
  rw [if_pos kept.most.1]
  obtain ⟨⟨h, p'⟩, chain', L', run, bumped, room', _⟩ := kept.bump rounds_align kept.most.1
  obtain ⟨block', out'⟩ := bumped.others a block
  have new' : ∀ l ∈ heads, (p'.larges l).alloc ≠ a := by
    rw [bumped.larges]
    exact new
  rw [run, Option.bind_eq_bind, Option.bind_some]
  dsimp only
  by_cases null : h = 0
  · rw [if_pos null]
    have dropped := bumped.kept.drop (out' out) new'
    have free : p'.mem.free a = some (p'.mem.remove a) := by
      refine (if_neg ?_).trans (if_pos block')
      exact Nat.ne_of_gt (bumped.kept.block block').1
    rw [free, Option.bind_eq_bind, Option.bind_some]
    refine ⟨_, rfl, ⟨chain', heads, _, dropped, ⟨bumped.frame.bytes, bumped.frame.grown,
      bumped.frame.same⟩, fun some' => absurd rfl some'⟩, Or.inl rfl⟩
  · rw [if_neg null]
    obtain ⟨c, inside, header⟩ := room' null
    have pushed := bumped.kept.push inside header null block' (out' out) new'
    have other : c ≠ a := by
      rintro rfl
      exact out' out inside
    have apart := header.apart_room bumped.kept.sound (bumped.rooms a _ room) other
    refine ⟨_, rfl, ⟨chain', h :: heads, _, pushed, ⟨bumped.frame.bytes, bumped.frame.grown,
      fun k caller => ?_⟩, fun _ => ⟨a, ⟨(bumped.rooms a _ room).place apart, fun _ => ⟨rfl, h, ?_, ?_⟩⟩,
      fun _ => trivial⟩⟩,
      Or.inr rfl⟩
    · have owner : k ≠ .large h := by
        rintro rfl
        exact caller
      obtain ⟨region, home⟩ := bumped.frame.same k caller
      exact ⟨(Layout.place_other owner).trans region, (Layout.place_home_other owner).trans home⟩
    · exact List.mem_cons_self
    · exact alloc_here _ _ _

theorem Kept.pallocLarge (kept : Kept p chain heads L) (size : Nat) :
    ∃ out, p.pallocLarge size = some out ∧ Gives p chain L True size out ∧ out.1 % 8 = 0 := by
  unfold Pool.pallocLarge
  dsimp only
  obtain none' | ⟨a, fresh, some'⟩ := p.mem.alloc_cases size
  · rw [none']
    dsimp only
    rw [if_pos rfl]
    exact ⟨_, rfl, ⟨chain, heads, L, kept.answered, ⟨rfl, fun _ => id, fun _ _ => ⟨rfl, rfl⟩⟩,
      fun some' => absurd rfl some'⟩, rfl⟩
  · have entered := kept.enter fresh (Nat.le_add_right a size) (Nat.le_refl _)
    have room := kept.enter_room fresh (r := ⟨a, size⟩) (Nat.le_refl _) (Nat.le_refl a) (Nat.le_refl _)
    have out : a ∉ chain := fun inside => fresh.new (kept.chunks a inside).block
    have new : ∀ l ∈ heads, (p.larges l).alloc ≠ a := by
      rintro l inside rfl
      exact fresh.new ((kept.entries l inside).alloc (Nat.ne_of_gt fresh.1)).1
    have aligned : a % 8 = 0 := by
      have := fresh.2.1
      omega
    rw [some']
    dsimp only
    rw [if_neg (Nat.ne_of_gt fresh.1)]
    by_cases null : slotLoop p.larges 5 p.large = 0
    · rw [if_pos null]
      obtain ⟨res, run, ⟨chain', heads', L', kept', frame, spare⟩, answer⟩ :=
        entered.enterLarge room out new
      refine ⟨res, run, ⟨chain', heads', L', kept', ⟨frame.bytes, frame.grown, frame.same⟩, spare⟩, ?_⟩
      cases answer with
      | inl null => rw [null]
      | inr here => rwa [here]
    · rw [if_neg null]
      obtain ⟨inside, free⟩ := (slotLoop_spec 5 kept.listed).resolve_left null
      refine ⟨_, rfl, ⟨chain, heads, _, entered.assign free List.mem_cons_self out new,
        ⟨rfl, fun _ => id, fun _ _ => ⟨rfl, rfl⟩⟩, fun _ => ⟨a, ⟨room, fun _ => ⟨rfl, _, inside, ?_⟩⟩,
        fun _ => trivial⟩⟩, aligned⟩
      exact alloc_here _ _ _

theorem Kept.palloc (kept : Kept p chain heads L) (size : Nat) :
    ∃ out, p.palloc size = some out ∧ Gives p chain L (0 < size) size out ∧ out.1 % 8 = 0 := by
  unfold Pool.palloc
  by_cases small : size ≤ p.max
  · rw [if_pos small]
    obtain ⟨out, chain', L', run, bumped, room, aligned⟩ := kept.bump rounds_align small
    exact ⟨out, run, bumped.gives room, aligned alignPtr_aligned⟩
  · rw [if_neg small]
    obtain ⟨out, run, gives, aligned⟩ := kept.pallocLarge size
    exact ⟨out, run, gives.imp (by omega), aligned⟩

theorem Kept.pnalloc (kept : Kept p chain heads L) (size : Nat) :
    ∃ out, p.pnalloc size = some out ∧ Gives p chain L True size out := by
  unfold Pool.pnalloc
  by_cases small : size ≤ p.max
  · rw [if_pos small]
    obtain ⟨out, chain', L', run, bumped, room, _⟩ := kept.bump rounds_id small
    exact ⟨out, run, bumped.gives room⟩
  · rw [if_neg small]
    obtain ⟨out, run, gives, _⟩ := kept.pallocLarge size
    exact ⟨out, run, gives⟩

theorem Kept.rewrite (kept : Kept p chain heads L) (bytes : Nat → UInt8) :
    Kept { p with mem := { p.mem with bytes := bytes } } chain heads L :=
  { kept with
    placed := ⟨kept.placed.place, kept.placed.apart⟩
    chunks := fun c here => { kept.chunks c here with }
    entries := fun h here => { kept.entries h here with } }

theorem Passed.clear (p : Pool) (mem : Memory) (larges : Nat → PoolLarge) (L : Layout Owner) (raw : Nat)
    (bytes : mem.bytes = p.mem.bytes) :
    Passed p { p with mem := mem, larges := larges } L (L.clear raw) raw :=
  ⟨fun _ other => ⟨Layout.clear_region other, rfl⟩, fun _ _ x _ _ => congrFun bytes x⟩

theorem Kept.unlist (kept : Kept p chain heads L) (entry : h ∈ heads) (held : (p.larges h).alloc = raw)
    (full : raw ≠ 0) :
    raw ∈ p.mem.blocks ∧ raw ∉ chain ∧ Kept { p with
        mem := p.mem.remove raw
        larges := update p.larges h { p.larges h with alloc := 0 } } chain heads
      ((L.clear raw).disown raw) := by
  obtain ⟨block, out⟩ := (kept.entries h entry).alloc (held ▸ full)
  rw [held] at block out
  refine ⟨block, out, (kept.letGo entry held).drop out fun l inside same => ?_⟩
  by_cases other : l = h
  · rw [other] at same
    exact full (same.symm.trans (alloc_here _ _ _))
  · have old := congrArg PoolLarge.alloc
      (Function.update_of_ne other { p.larges h with alloc := 0 } p.larges)
    have alloc := old.symm.trans same
    exact other (kept.distinct l inside h entry (alloc.trans held.symm) fun none' =>
      full (alloc.symm.trans none'))

theorem Kept.pfree (kept : Kept p chain heads L) (raw : Nat) :
    ∃ l out, EtdbPool.findLarge p.larges raw addresses p.large = some l ∧ p.pfree raw = some out ∧
      ((l = 0 ∧ out.2 = p) ∨
        l ≠ 0 ∧ ∃ L', Kept out.2 chain heads L' ∧ Passed p out.2 L L' raw) := by
  obtain ⟨l, run, found⟩ := kept.findLarge raw
  unfold Pool.pfree
  rw [run, Option.bind_eq_bind, Option.bind_some]
  by_cases null : l = 0
  · exact ⟨l, _, rfl, if_pos null, Or.inl ⟨null, rfl⟩⟩
  · obtain ⟨entry, held⟩ := found.resolve_left null
    rw [if_neg null]
    by_cases empty : raw = 0
    · have free : p.mem.free raw = some p.mem := if_pos empty
      rw [free, Option.bind_eq_bind, Option.bind_some]
      exact ⟨l, _, rfl, rfl, Or.inr ⟨null, L.clear raw, kept.letGo entry held,
        Passed.clear p p.mem _ L raw rfl⟩⟩
    · obtain ⟨block, _, unlisted⟩ := kept.unlist entry held empty
      have free : p.mem.free raw = some (p.mem.remove raw) := (if_neg empty).trans (if_pos block)
      rw [free, Option.bind_eq_bind, Option.bind_some]
      have passed := Passed.clear p (p.mem.remove raw)
        (update p.larges l { p.larges l with alloc := 0 }) L raw rfl
      exact ⟨l, _, rfl, rfl, Or.inr ⟨null, _, unlisted, ⟨passed.same, passed.bytes⟩⟩⟩

theorem Kept.relist (kept : Kept p chain heads L) (bytes : Nat → UInt8) (entry : h ∈ heads)
    (free : (p.larges h).alloc = 0) (fresh : p.mem.Fresh a size)
    (same : ∀ x, ¬ (a ≤ x ∧ x < a + size) → bytes x = p.mem.bytes x) :
    ∃ L', Kept { p with
        mem := { p.mem.answered.enter a size with bytes := bytes }
        larges := update p.larges h { p.larges h with alloc := a } } chain heads L' ∧
      (∀ k, L'.region k = L.region k ∧ L'.home k = L.home k) ∧
      (∀ k r x, L.region k = some r → r.Holds x → bytes x = p.mem.bytes x) ∧
      Spare { p with larges := update p.larges h { p.larges h with alloc := a } } chain heads L' a
        ⟨a, size⟩ := by
  have out : a ∉ chain := fun inside => fresh.new (kept.chunks a inside).block
  have new : ∀ l ∈ heads, (p.larges l).alloc ≠ a := by
    rintro l inside rfl
    exact fresh.new ((kept.entries l inside).alloc (Nat.ne_of_gt fresh.1)).1
  have entered := kept.enter fresh (Nat.le_add_right a size) (Nat.le_refl _)
  have room := kept.enter_room fresh (r := ⟨a, size⟩) (Nat.le_refl _) (Nat.le_refl a) (Nat.le_refl _)
  refine ⟨_, (entered.assign free List.mem_cons_self out new).rewrite bytes, fun k => ⟨rfl, rfl⟩,
    fun k r x found inside => same x (room.apart k r found x inside), room, fun _ => ⟨rfl, h, entry, ?_⟩⟩
  exact alloc_here _ _ _

theorem Kept.preallocLarge (kept : Kept p chain heads L) (raw size : Nat) :
    ∃ l out, EtdbPool.findLarge p.larges raw addresses p.large = some l ∧
      p.preallocLarge raw size = some out ∧
      ((l = 0 ∧ out = (0, p)) ∨
        l ≠ 0 ∧ ∃ L', Kept out.2 chain heads L' ∧ Passed p out.2 L L' raw ∧
          (out.1 ≠ 0 → ∃ i, Spare out.2 chain heads L' i ⟨out.1, size⟩)) := by
  obtain ⟨l, run, found⟩ := kept.findLarge raw
  unfold Pool.preallocLarge
  rw [run, Option.bind_eq_bind, Option.bind_some]
  by_cases null : l = 0
  · exact ⟨l, _, rfl, if_pos null, Or.inl ⟨null, rfl⟩⟩
  · obtain ⟨entry, held⟩ := found.resolve_left null
    rw [if_neg null]
    have gone := kept.letGo entry held
    have free : (update p.larges l { p.larges l with alloc := 0 } l).alloc = 0 :=
      alloc_here _ _ _
    have again : ∀ a, update (update p.larges l { p.larges l with alloc := 0 }) l
        { update p.larges l { p.larges l with alloc := 0 } l with alloc := a } =
        update p.larges l { p.larges l with alloc := a } := by
      intro a
      rw [Function.update_self, Function.update_idem]
    by_cases empty : raw = 0
    · have realloc : p.mem.realloc raw size = some (p.mem.alloc size) := if_pos empty
      rw [realloc, Option.bind_eq_bind, Option.bind_some]
      obtain none' | ⟨a, fresh, some'⟩ := p.mem.alloc_cases size
      · rw [none']
        exact ⟨l, _, rfl, rfl, Or.inr ⟨null, _, gone.answered, Passed.clear p _ _ L raw rfl,
          fun some' => absurd rfl some'⟩⟩
      · rw [some']
        obtain ⟨L', kept', same, bytes, spare⟩ := gone.relist p.mem.bytes entry free fresh fun _ _ => rfl
        rw [again] at kept'
        dsimp only at spare
        rw [again] at spare
        refine ⟨l, _, rfl, rfl, Or.inr ⟨null, L', kept', ⟨fun k other => ?_, fun _ _ _ _ _ => rfl⟩,
          fun _ => ⟨a, spare⟩⟩⟩
        exact ⟨(same k).1.trans (Layout.clear_region other), (same k).2⟩
    · obtain ⟨block, _, unlisted⟩ := kept.unlist entry held empty
      unfold Memory.realloc
      rw [if_neg empty, if_pos block]
      by_cases fresh : (p.mem.remove raw).Fresh p.mem.next.address size
      · rw [if_pos fresh, Option.bind_eq_bind, Option.bind_some]
        obtain ⟨L', kept', same, bytes, spare⟩ := unlisted.relist
          (Memory.copy p.mem.bytes p.mem.next.address raw (min (p.mem.length raw) size))
          entry free fresh fun x outside => if_neg fun inside => outside ⟨inside.1, by omega⟩
        rw [again] at kept'
        dsimp only at spare
        rw [again] at spare
        refine ⟨l, _, rfl, rfl, Or.inr ⟨null, L', kept', ⟨fun k other => ?_, fun k r x found => ?_⟩,
          fun _ => ⟨_, spare⟩⟩⟩
        · exact ⟨(same k).1.trans (Layout.clear_region other), (same k).2⟩
        · exact bytes k r x ((same k).1.symm.trans found)
      · rw [if_neg fresh]
        by_cases freed : p.mem.next = .freed ∧ size = 0
        · rw [if_pos freed, Option.bind_eq_bind, Option.bind_some]
          have passed := Passed.clear p (p.mem.remove raw)
            (update p.larges l { p.larges l with alloc := 0 }) L raw rfl
          exact ⟨l, _, rfl, rfl, Or.inr ⟨null, _, unlisted.answered, ⟨passed.same, passed.bytes⟩,
            fun some' => absurd rfl some'⟩⟩
        · rw [if_neg freed, Option.bind_eq_bind, Option.bind_some]
          exact ⟨l, _, rfl, rfl, Or.inr ⟨null, _, gone.answered, Passed.clear p _ _ L raw rfl,
            fun some' => absurd rfl some'⟩⟩

end
end EtdbPool
