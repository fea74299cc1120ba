import Etdb.Pool.Stack

/- Runs of pool and stack calls. Callers keep their regions and stacks under names, and write
   where they may; the answers of the system allocator are part of the state. -/
namespace EtdbPool
open Arena NullLinked
open Function (update)

inductive Op
  | palloc (n size : Nat)
  | pnalloc (n size : Nat)
  | pallocLarge (n size : Nat)
  | preallocLarge (n raw size : Nat)
  | pfree (raw : Nat)
  | write (n offset : Nat) (v : List UInt8)
  | stackInit (k n size : Nat)
  | push (k : Nat) (v : List UInt8)
  | pop (k : Nat)

/-- A pool with its callers: their live regions, their stacks, and what should be on these. -/
structure Run where
  pool : Pool
  live : Nat → Option Region
  stack : Nat → Option Stack
  contents : Nat → List (List UInt8)

namespace Run

def start (pool : Pool) : Run := ⟨pool, fun _ => none, fun _ => none, fun _ => []⟩

def hand (r : Run) (n size : Nat) (out : Nat × Pool) : Nat × Run :=
  (out.1, { r with
    pool := out.2
    live := if out.1 = 0 then r.live else update r.live n (some ⟨out.1, size⟩) })

/-- With a large block that is freed or reallocated its region is gone. -/
def forget (r : Run) (raw : Nat) : Run :=
  if findLarge r.pool.larges raw addresses r.pool.large = some 0 then r
  else { r with live := fun n => if (r.live n).map Region.start = some raw then none else r.live n }

/-- A call and its address, 0 where it gives none. What is pushed is written into the slot. -/
def step (r : Run) : Op → Option (Nat × Run)
  | .palloc n size => (r.pool.palloc size).map (r.hand n size)
  | .pnalloc n size => (r.pool.pnalloc size).map (r.hand n size)
  | .pallocLarge n size => (r.pool.pallocLarge size).map (r.hand n size)
  | .preallocLarge n raw size => (r.pool.preallocLarge raw size).map ((r.forget raw).hand n size)
  | .pfree raw => (r.pool.pfree raw).map fun out => (0, { r.forget raw with pool := out.2 })
  | .write n offset v => (r.live n).map fun s => (0, { r with
      pool.mem.bytes := writeBytes r.pool.mem.bytes (s.start + offset) v })
  | .stackInit k n size => (EtdbPool.stackInit r.pool n size).map fun out => (0, { r with
      pool := out.2
      stack := update r.stack k (if out.1.elts = 0 then none else some out.1)
      contents := update r.contents k [] })
  | .push k v => (r.stack k).bind fun s => (s.push r.pool).map fun out =>
      (out.1, if out.1 = 0 then { r with pool := out.2.2 } else { r with
        pool := { out.2.2 with
          mem := { out.2.2.mem with bytes := writeBytes out.2.2.mem.bytes out.1 v } }
        stack := update r.stack k (some out.2.1)
        contents := update r.contents k (r.contents k ++ [v]) })
  | .pop k => (r.stack k).map fun s => (s.pop.1, { r with
      stack := update r.stack k (some s.pop.2)
      contents := update r.contents k (r.contents k).dropLast })

/-- What callers see to: they free and reallocate no array of a stack, stay in their regions,
    push elements of the stack's size, and never pop below empty. -/
def Contract (r : Run) : Op → Prop
  | .preallocLarge _ raw _ => ∀ k s, r.stack k = some s → s.elts = raw → s.nalloc * s.size = 0
  | .pfree raw => ∀ k s, r.stack k = some s → s.elts = raw → s.nalloc * s.size = 0
  | .write n offset v => ∃ s, r.live n = some s ∧ offset + v.length ≤ s.len
  | .push k v => ∃ s, r.stack k = some s ∧ v.length = s.size
  | .pop k => (r.stack k).isSome ∧ r.contents k ≠ []
  | _ => True

/-- Every stack is created with a number of bytes that a size_t holds, and none that has no slots
    has to move. -/
def Roomy (r : Run) : Op → Prop
  | .stackInit _ n size => n * size < 2 ^ 64
  | .push k _ => ∀ s, r.stack k = some s → s.nalloc ≠ 0 ∨ s.size = 0 ∨
      s.elts = (r.pool.d r.pool.pool).last ∧
        (r.pool.d r.pool.pool).last + s.size ≤ (r.pool.d r.pool.pool).stop
  | _ => True

/-- Who has which region, where the chunks and the large headers are these. -/
def region (r : Run) (chain heads : List Nat) : Owner → Option Region
  | .chunk c => if c ∈ chain then some ⟨c, r.pool.headerSize c⟩ else none
  | .large h => if h ∈ heads then some ⟨h, poolLargeSize⟩ else none
  | .client n => r.live n
  | .array k => (r.stack k).map Stack.region

/-- The regions are apart, each in its home: a chunk of the pool or one of its large blocks. -/
structure Tidy (r : Run) (chain heads : List Nat) (home : Owner → Nat) : Prop where
  chained : Linked 0 (fun c => (r.pool.d c).next) r.pool.pool chain
  listed : Linked 0 (fun h => (r.pool.larges h).next) r.pool.large heads
  current : r.pool.current ∈ chain
  apart : ∀ k k' s s', r.region chain heads k = some s → r.region chain heads k' = some s' →
    k ≠ k' → s.Apart s'
  inside : ∀ k s, r.region chain heads k = some s → home k ∈ r.pool.mem.blocks ∧
    home k ≤ s.start ∧ s.start + s.len ≤ home k + r.pool.mem.length (home k)
  homes : ∀ k s, r.region chain heads k = some s →
    home k ∈ chain ∨ ∃ h ∈ heads, (r.pool.larges h).alloc = home k
  chunks : ∀ c ∈ chain, home (.chunk c) = c
  headers : ∀ h ∈ heads, home (.large h) ∈ chain
  count : ∀ k s, r.stack k = some s → 0 < s.size → s.nelts = (r.contents k).length
  read : ∀ k s i x, r.stack k = some s → (r.contents k)[i]? = some x →
    readBytes r.pool.mem.bytes (s.elts + i * s.size) s.size = x

/-- What the answers of a call must be: palloc aligns, and pop gives back the last element. -/
def Right (r : Run) (a : Nat) : Op → Prop
  | .palloc _ _ => a % 8 = 0
  | .pop k => ∀ s ∈ r.stack k, ∀ x ∈ (r.contents k).getLast?,
      readBytes r.pool.mem.bytes a s.size = x
  | _ => True

def Lasts (allowed : Run → Op → Prop) : Run → List Op → Prop
  | r, [] => ∃ chain heads home, r.Tidy chain heads home
  | r, op :: ops => (∃ chain heads home, r.Tidy chain heads home) ∧
      (allowed r op → ∃ out, r.step op = some out ∧ r.Right out.1 op ∧ out.2.Lasts allowed ops)

def after (r : Run) : List Op → Run
  | [] => r
  | op :: ops => ((r.step op).getD (0, r)).2.after ops

/-- The invariant: the pool is kept, and the callers have what they were given. -/
structure Held (r : Run) (chain heads : List Nat) (L : Layout Owner) : Prop where
  kept : Kept r.pool chain heads L
  live : ∀ n s, r.live n = some s → L.region (.client n) = some s
  stack : ∀ k s, r.stack k = some s →
    Stands L chain r.pool.mem.bytes k s (r.contents k)

section
variable {r : Run} {chain heads chain' heads' : List Nat} {L L' : Layout Owner}

theorem Held.region_some {k : Owner} {s : Region} (held : r.Held chain heads L)
    (here : r.region chain heads k = some s) : L.region k = some s := by
  cases k with
  | chunk c =>
    by_cases member : c ∈ chain
    · exact (held.kept.chunks c member).header.trans ((if_pos member).symm.trans here)
    · exact absurd ((if_neg member).symm.trans here) nofun
  | large h =>
    by_cases member : h ∈ heads
    · exact (held.kept.entries h member).header.trans ((if_pos member).symm.trans here)
    · exact absurd ((if_neg member).symm.trans here) nofun
  | client n => exact held.live n s here
  | array k =>
    obtain ⟨t, found, rfl⟩ := Option.map_eq_some_iff.mp here
    exact (held.stack k t found).region

theorem Held.tidy (held : r.Held chain heads L) : r.Tidy chain heads L.home where
  chained := held.kept.chained
  listed := held.kept.listed
  current := held.kept.current
  apart k k' s s' left right :=
    held.kept.sound.disjoint k k' s s' (held.region_some left) (held.region_some right)
  inside k s here := by
    obtain ⟨owned, low, high⟩ := held.kept.sound.inside k s (held.region_some here)
    have member := (held.kept.owned _).mp owned
    have ordered := (held.kept.sound.ordered _ owned).2
    rw [held.kept.stop _ member] at ordered
    exact ⟨member, low, Nat.le_trans high ordered⟩
  homes k s here := by
    by_cases inside : L.home k ∈ chain
    · exact Or.inl inside
    · exact Or.inr (held.kept.whole k s (held.region_some here) inside).2
  chunks c member := (held.kept.chunks c member).home
  headers h member := (held.kept.entries h member).home
  count k s found full := ((held.stack k s found).count full).1
  read k s i x found := (held.stack k s found).read i x

theorem Held.frame {p' : Pool} (held : r.Held chain heads L) (kept : Kept p' chain' heads' L')
    (frame : Frame r.pool p' chain chain' L L') : Held { r with pool := p' } chain' heads' L' where
  kept := kept
  live n s here := (frame.same (.client n) trivial).1.trans (held.live n s here)
  stack k s here :=
    (held.stack k s here).frame (frame.same (.array k) trivial) frame.grown fun x _ =>
    congrFun frame.bytes x

theorem Held.place {n i : Nat} {s : Region} (held : r.Held chain heads L)
    (spare : Spare r.pool chain heads L i s) :
    Held { r with live := update r.live n (some s) } chain heads (L.place (.client n) i s) where
  kept := held.kept.give spare trivial
  live m t here := by
    by_cases same : m = n
    · subst same
      dsimp only at here
      rw [Function.update_self] at here
      cases here
      exact Layout.place_self
    · dsimp only at here
      rw [Function.update_of_ne same] at here
      have other : Owner.client m ≠ .client n := fun bad => same (Owner.client.inj bad)
      exact (Layout.place_other other).trans (held.live m t here)
  stack k t here := by
    have other : Owner.array k ≠ .client n := nofun
    exact (held.stack k t here).frame ⟨Layout.place_other other, Layout.place_home_other other⟩
      (fun _ => id) fun _ _ => rfl

theorem hand_null {n size : Nat} {out : Nat × Pool} (r : Run) (null : out.1 = 0) :
    r.hand n size out = (out.1, { r with pool := out.2 }) := by
  rw [hand, if_pos null]

theorem hand_some {n size : Nat} {out : Nat × Pool} (r : Run) (some' : out.1 ≠ 0) :
    r.hand n size out =
      (out.1, { r with pool := out.2, live := update r.live n (some ⟨out.1, size⟩) }) := by
  rw [hand, if_neg some']

theorem Held.hand {n size : Nat} {big : Prop} {out : Nat × Pool} (held : r.Held chain heads L)
    (gives : Gives r.pool chain L big size out) :
    ∃ chain' heads' L', Held (r.hand n size out).2 chain' heads' L' := by
  obtain ⟨chain', heads', L', kept, frame, spare⟩ := gives
  have framed := held.frame kept frame
  by_cases null : out.1 = 0
  · rw [hand_null r null]
    exact ⟨chain', heads', L', framed⟩
  · rw [hand_some r null]
    obtain ⟨i, spare, _⟩ := spare null
    exact ⟨chain', heads', L'.place (.client n) i ⟨out.1, size⟩, framed.place spare⟩

theorem Held.write {n offset : Nat} {v : List UInt8} {s : Region} (held : r.Held chain heads L)
    (here : r.live n = some s) (fits : offset + v.length ≤ s.len) :
    Held { r with pool.mem.bytes := writeBytes r.pool.mem.bytes (s.start + offset) v } chain heads L where
  kept := held.kept.rewrite _
  live := held.live
  stack k t found := by
    refine (held.stack k t found).frame ⟨rfl, rfl⟩ (fun _ => id) fun x inside => ?_
    refine writeBytes_other fun written => ?_
    have apart := held.kept.sound.disjoint _ _ _ _ (held.stack k t found).region
      (held.live n s here) nofun
    exact apart x inside ⟨by omega, by omega⟩

theorem Held.forget {p' : Pool} {raw l : Nat} (held : r.Held chain heads L)
    (free : ∀ k s, r.stack k = some s → s.elts = raw → s.nalloc * s.size = 0)
    (find : findLarge r.pool.larges raw addresses r.pool.large = some l) (found : l ≠ 0)
    (kept : Kept p' chain heads L') (passed : Passed r.pool p' L L' raw) :
    Held { r.forget raw with pool := p' } chain heads L' := by
  have forget : r.forget raw = { r with
      live := fun n => if (r.live n).map Region.start = some raw then none else r.live n } := by
    refine if_neg ?_
    rw [find]
    exact fun same => found (Option.some.inj same)
  obtain ⟨entry, here⟩ : l ∈ heads ∧ (r.pool.larges l).alloc = raw := by
    obtain ⟨l', find', found'⟩ := held.kept.findLarge raw
    rw [find] at find'
    cases find'
    exact found'.resolve_left found
  have out : raw ∉ chain := by
    intro inside
    have full := Nat.ne_of_gt (held.kept.block (held.kept.chunks raw inside).block).1
    exact ((held.kept.entries l entry).alloc (here ▸ full)).2 (here ▸ inside)
  have whole : ∀ k s, L.region k = some s → L.home k = raw → s.start = raw := by
    intro k s region home
    rw [← home] at out ⊢
    exact (held.kept.whole k s region out).1
  rw [forget]
  refine ⟨kept, fun n s live => ?_, fun k s stack => ?_⟩
  · dsimp only at live
    by_cases gone : (r.live n).map Region.start = some raw
    · rw [if_pos gone] at live
      exact absurd live nofun
    · rw [if_neg gone] at live
      have region := held.live n s live
      refine (passed.same _ fun home => gone ?_).1.trans region
      rw [live, Option.map_some, whole _ s region home]
  · have stands := held.stack k s stack
    have away : L.home (.array k) ≠ raw := by
      intro home
      have big := stands.large (home ▸ out)
      exact Nat.ne_of_gt big (free k s stack (whole _ _ stands.region home))
    have same := passed.same _ away
    exact stands.frame same (fun _ => id) fun x inside =>
      passed.bytes _ _ x (same.1.trans stands.region) inside

theorem Held.setStack {k : Nat} {t : Option Stack} {items : List (List UInt8)} {p' : Pool}
    (held : r.Held chain heads L) (kept : Kept p' chain' heads' L') (grown : chain ⊆ chain')
    (same : ∀ k', k'.Caller → k' ≠ .array k → L'.region k' = L.region k' ∧ L'.home k' = L.home k')
    (bytes : ∀ k' u x, k' ≠ k → r.stack k' = some u → u.region.Holds x →
      p'.mem.bytes x = r.pool.mem.bytes x)
    (stands : ∀ u ∈ t, Stands L' chain' p'.mem.bytes k u items) :
    Held { r with pool := p', stack := update r.stack k t, contents := update r.contents k items }
      chain' heads' L' where
  kept := kept
  live n s here := (same (.client n) trivial nofun).1.trans (held.live n s here)
  stack k' u here := by
    by_cases this' : k' = k
    · subst this'
      dsimp only at here ⊢
      rw [Function.update_self] at here ⊢
      exact stands u here
    · dsimp only at here ⊢
      rw [Function.update_of_ne this'] at here ⊢
      refine (held.stack k' u here).frame (same (.array k') trivial ?_) grown fun x =>
        bytes k' u x this' here
      exact fun bad => this' (Owner.array.inj bad)

theorem Held.stackInit {k n size : Nat} (held : r.Held chain heads L) (small : n * size < 2 ^ 64) :
    ∃ out chain' heads' L', r.step (.stackInit k n size) = some out ∧ Held out.2 chain' heads' L' := by
  obtain ⟨⟨a, p'⟩, run, ⟨chain', heads', L', kept, frame, spare⟩, _⟩ := held.kept.palloc (n * size)
  rw [Run.step, EtdbPool.stackInit, sizeT_eq small, run, Option.map_some, Option.map_some]
  dsimp only at spare ⊢
  by_cases null : a = 0
  · rw [if_pos null]
    refine ⟨_, chain', heads', L', rfl, held.setStack kept frame.grown
      (fun k' caller _ => frame.same k' caller) (fun _ _ x _ _ _ => congrFun frame.bytes x) nofun⟩
  · rw [if_neg null]
    obtain ⟨i, spare, large⟩ := spare null
    refine ⟨_, chain', heads', L'.place (.array k) i ⟨a, n * size⟩, rfl, held.setStack
      (kept.give spare trivial) frame.grown (fun k' caller other => ?_)
      (fun _ _ x _ _ _ => congrFun frame.bytes x) ?_⟩
    · obtain ⟨region, home⟩ := frame.same k' caller
      exact ⟨(Layout.place_other other).trans region, (Layout.place_home_other other).trans home⟩
    · rintro u ⟨⟩
      refine ⟨Layout.place_self, fun out => ?_, fun _ => ⟨rfl, Nat.zero_le _⟩, nofun⟩
      rw [Layout.place_home] at out
      exact large out

theorem Held.push {k : Nat} {s : Stack} {v : List UInt8} (held : r.Held chain heads L)
    (found : r.stack k = some s) (length : v.length = s.size) (roomy : s.nalloc ≠ 0 ∨ s.size = 0 ∨
      s.elts = (r.pool.d r.pool.pool).last ∧
        (r.pool.d r.pool.pool).last + s.size ≤ (r.pool.d r.pool.pool).stop) :
    ∃ out chain' heads' L', r.step (.push k v) = some out ∧ Held out.2 chain' heads' L' := by
  have stands := held.stack k s found
  obtain ⟨⟨t, p'⟩, chain', heads', L', run, grown⟩ := stands.grow held.kept roomy
  rw [Run.step, found, Option.bind_some]
  cases t with
  | none =>
    have pushed : s.push r.pool = some (0, s, p') := by
      rw [Stack.push, run]
      rfl
    rw [pushed, Option.map_some]
    obtain ⟨bytes, same⟩ := grown.refused rfl
    refine ⟨_, chain', heads', L', rfl, grown.kept, fun n s here => ?_, fun k' u here => ?_⟩
    · exact (grown.same (.client n) trivial nofun).1.trans (held.live n s here)
    · refine (held.stack k' u here).frame ?_ grown.grown fun x _ => congrFun bytes x
      by_cases this' : k' = k
      · rw [this']
        exact same
      · exact grown.same (.array k') trivial fun bad => this' (Owner.array.inj bad)
  | some t =>
    obtain ⟨size, room⟩ := grown.room t rfl
    have stands' := grown.stands t rfl
    obtain ⟨taken, slot, inside⟩ := stands'.take grown.kept room (length.trans size.symm)
    have pushed : s.push r.pool = some (t.take.1, t.take.2, p') := by
      rw [Stack.push, run]
      rfl
    rw [pushed, Option.map_some]
    dsimp only
    rw [if_neg slot]
    refine ⟨_, chain', heads', L', rfl, held.setStack (grown.kept.rewrite _) grown.grown grown.same
      (fun k' u x other here holds => ?_) ?_⟩
    · have same := grown.same (.array k') trivial fun bad => other (Owner.array.inj bad)
      have apart := grown.kept.sound.disjoint _ _ _ _ (same.1.trans (held.stack k' u here).region)
        stands'.region (fun bad => other (Owner.array.inj bad)) x holds
      refine (writeBytes_other fun written => apart (inside x written)).trans ?_
      exact grown.bytes t rfl x apart
    · rintro u ⟨⟩
      exact taken

theorem Held.pop {k : Nat} {s : Stack} (held : r.Held chain heads L) (found : r.stack k = some s)
    (more : r.contents k ≠ []) :
    ∃ out, r.step (.pop k) = some out ∧ r.Right out.1 (.pop k) ∧ Held out.2 chain heads L := by
  obtain ⟨x, last⟩ : ∃ x, (r.contents k).getLast? = some x :=
    ⟨_, List.getLast?_eq_some_getLast more⟩
  have stands := held.stack k s found
  obtain ⟨read, stands'⟩ := stands.pop held.kept last
  rw [Run.step, found, Option.map_some]
  refine ⟨_, rfl, ?_, held.setStack held.kept (fun _ => id) (fun _ _ _ => ⟨rfl, rfl⟩)
    (fun _ _ _ _ _ _ => rfl) ?_⟩
  · intro t here y this'
    rw [found] at here
    rw [last] at this'
    cases here
    cases this'
    exact read
  · rintro u ⟨⟩
    exact stands'

theorem Held.step {op : Op} (held : r.Held chain heads L) (contract : r.Contract op)
    (roomy : r.Roomy op) : ∃ out chain' heads' L', r.step op = some out ∧ r.Right out.1 op ∧
      Held out.2 chain' heads' L' := by
  cases op with
  | palloc n size =>
    obtain ⟨out, run, gives, aligned⟩ := held.kept.palloc size
    obtain ⟨chain', heads', L', held'⟩ := held.hand (n := n) gives
    refine ⟨r.hand n size out, chain', heads', L', ?_, aligned, held'⟩
    rw [Run.step, run, Option.map_some]
  | pnalloc n size =>
    obtain ⟨out, run, gives⟩ := held.kept.pnalloc size
    obtain ⟨chain', heads', L', held'⟩ := held.hand (n := n) gives
    refine ⟨r.hand n size out, chain', heads', L', ?_, trivial, held'⟩
    rw [Run.step, run, Option.map_some]
  | pallocLarge n size =>
    obtain ⟨out, run, gives, _⟩ := held.kept.pallocLarge size
    obtain ⟨chain', heads', L', held'⟩ := held.hand (n := n) gives
    refine ⟨r.hand n size out, chain', heads', L', ?_, trivial, held'⟩
    rw [Run.step, run, Option.map_some]
  | preallocLarge n raw size =>
    obtain ⟨l, out, find, run, result⟩ := held.kept.preallocLarge raw size
    have step : r.step (.preallocLarge n raw size) = some ((r.forget raw).hand n size out) := by
      rw [Run.step, run, Option.map_some]
    obtain ⟨rfl, rfl⟩ | ⟨found, L', kept, passed, spare⟩ := result
    · have forget : r.forget raw = r := if_pos find
      rw [forget] at step
      exact ⟨_, chain, heads, L, step, trivial, held⟩
    · have held' := held.forget contract find found kept passed
      by_cases null : out.1 = 0
      · rw [hand_null _ null] at step
        exact ⟨_, chain, heads, L', step, trivial, held'⟩
      · rw [hand_some _ null] at step
        obtain ⟨i, spare⟩ := spare null
        exact ⟨_, chain, heads, L'.place (.client n) i ⟨out.1, size⟩, step, trivial, held'.place spare⟩
  | pfree raw =>
    obtain ⟨l, out, find, run, result⟩ := held.kept.pfree raw
    have step : r.step (.pfree raw) = some (0, { r.forget raw with pool := out.2 }) := by
      rw [Run.step, run, Option.map_some]
    obtain ⟨rfl, same⟩ | ⟨found, L', kept, passed⟩ := result
    · have forget : r.forget raw = r := if_pos find
      rw [forget, same] at step
      exact ⟨_, chain, heads, L, step, trivial, held⟩
    · exact ⟨_, chain, heads, L', step, trivial, held.forget contract find found kept passed⟩
  | write n offset v =>
    obtain ⟨s, here, fits⟩ := contract
    have held' := held.write here fits
    refine ⟨(0, _), chain, heads, L, ?_, trivial, held'⟩
    rw [Run.step, here, Option.map_some]
  | stackInit k n size =>
    obtain ⟨out, chain', heads', L', step, held'⟩ := held.stackInit (k := k) roomy
    exact ⟨out, chain', heads', L', step, trivial, held'⟩
  | push k v =>
    obtain ⟨s, found, length⟩ := contract
    obtain ⟨out, chain', heads', L', step, held'⟩ := held.push found length (roomy s found)
    exact ⟨out, chain', heads', L', step, trivial, held'⟩
  | pop k =>
    obtain ⟨some', more⟩ := contract
    obtain ⟨s, found⟩ := Option.isSome_iff_exists.mp some'
    obtain ⟨out, step, right, held'⟩ := held.pop found more
    exact ⟨out, chain, heads, L, step, right, held'⟩

theorem Held.lasts {ops : List Op} (held : r.Held chain heads L) :
    r.Lasts (fun r op => r.Contract op ∧ r.Roomy op) ops := by
  induction ops generalizing r chain heads L with
  | nil => exact ⟨chain, heads, L.home, held.tidy⟩
  | cons op ops ih =>
    refine ⟨⟨chain, heads, L.home, held.tidy⟩, fun allowed => ?_⟩
    obtain ⟨out, chain', heads', L', step, right, held'⟩ := held.step allowed.1 allowed.2
    exact ⟨out, step, right, ih held'⟩

end

/-- A pool of at least one page keeps its regions apart and its stacks in order, in every run in
    which the stacks are created and pushed to within the bounds. -/
theorem pool_stays_tidy (supply : List Answer) (bytes : Nat → UInt8) (size : Nat) (ops : List Op)
    (aligned : size % 8 = 0) (wide : 4096 ≤ size) :
    ∀ p ∈ createPool (Memory.start supply bytes) size,
      (start p).Lasts (fun r op => r.Contract op ∧ r.Roomy op) ops := by
  intro p made
  obtain ⟨L, kept⟩ := createPool_kept aligned wide made
  exact Held.lasts ⟨kept, nofun, nofun⟩

theorem Lasts.next {allowed : Run → Op → Prop} {r : Run} {op : Op} {ops : List Op}
    (lasts : r.Lasts allowed (op :: ops)) (ok : allowed r op) : (r.after [op]).Lasts allowed ops := by
  obtain ⟨out, step, _, rest⟩ := lasts.2 ok
  rw [after, step]
  exact rest

theorem page_made : (createPool (Memory.start [.got 4096] fun _ => 0) 4096).isSome := by
  decide +kernel

theorem pool_stays_tidy_once : ∃ chain heads home,
    ((start ((createPool (Memory.start [.got 4096] fun _ => 0) 4096).get page_made)).after
      [.stackInit 0 1 1, .push 0 [120], .push 0 [121]]).Tidy chain heads home := by
  have lasts := pool_stays_tidy [.got 4096] (fun _ => 0) 4096
    [.stackInit 0 1 1, .push 0 [120], .push 0 [121]] rfl (Nat.le_refl _) _
    (Option.some_get page_made).symm
  have made := lasts.next ⟨trivial, (by decide : 1 * 1 < 2 ^ 64)⟩
  have pushed := made.next ⟨⟨⟨1, 0, 1, 4152⟩, by decide +kernel, rfl⟩, fun s found => by
    cases found.symm.trans (by decide +kernel : _ = some (⟨1, 0, 1, 4152⟩ : Stack))
    exact Or.inl Nat.one_ne_zero⟩
  refine (pushed.next ⟨⟨⟨1, 1, 1, 4152⟩, by decide +kernel, rfl⟩, fun s found => ?_⟩)
  cases found.symm.trans (by decide +kernel : _ = some (⟨1, 1, 1, 4152⟩ : Stack))
  exact Or.inl Nat.one_ne_zero

/-- A stack without slots that cannot grow in place: what is pushed lies in memory that is then
    given away. -/
theorem empty_stack_overwritten : ¬ ∀ (supply : List Answer) (bytes : Nat → UInt8) (size : Nat)
    (ops : List Op), size % 8 = 0 → 4096 ≤ size →
    ∀ p ∈ createPool (Memory.start supply bytes) size, (start p).Lasts Contract ops := by
  intro claim
  have lasts := claim [.got 4096] (fun _ => 0) 4096
    [.stackInit 0 0 1, .palloc 0 8, .push 0 [120], .palloc 1 8, .write 1 0 [0]] rfl (Nat.le_refl _)
    _ (Option.some_get page_made).symm
  have pushed := ((lasts.next trivial).next trivial).next ⟨⟨0, 0, 1, 4152⟩, by decide +kernel, rfl⟩
  obtain ⟨chain, heads, home, tidy⟩ := (pushed.next trivial).next
    ⟨⟨4160, 8⟩, by decide +kernel, by decide⟩
  have read := tidy.read 0 ⟨0, 1, 1, 4160⟩ 0 [120] (by decide +kernel) (by decide +kernel)
  exact absurd read (by decide +kernel)

end Run
end EtdbPool
