import Etdb.Server.Stores

/- Connections that keep to slots of their own. What they are answered does not depend on
   the requests of the others: these can be left out of the run, and no reply changes. Only
   three commands tell of the others: info, which adds up the memory of all slots, perf,
   which prints how often a command was called, and bgsave, which finds the child of another
   connection at work. -/
namespace EtdbServer
open EtdbTrie EtdbDatabase

def Handler.onSlot : Handler → Bool
  | .spKnn | .geoHashInfo | .sysInfo | .sysPerf | .sysUse | .sysWhere | .sysHelp | .sysBgsave | .sysPing
  | .sysSync => false
  | _ => true

def Handler.shared : Handler → Bool
  | .sysInfo | .sysPerf | .sysBgsave => true
  | _ => false

def Request.handler (r : Request) : Option Handler :=
  (modules.flatten.find? fun cmd => cmd.name = r.cmd.map EtdbWire.Buf.lower).map Command.handler

structure Timed where
  event : Event
  elapsed : Int

def Timed.isOf (mine : Nat → Bool) (t : Timed) : Bool :=
  match t.event with
  | .request r => mine r.conn
  | .childEnded => false

def repliesTo (mine : Nat → Bool) : List Timed → List (List (List UInt8)) → List (List (List UInt8))
  | ⟨.request r, _⟩ :: rest, strs :: replies =>
    if mine r.conn then strs :: repliesTo mine rest replies else repliesTo mine rest replies
  | ⟨.childEnded, _⟩ :: rest, replies => repliesTo mine rest replies
  | _, _ => []

namespace Counting

def init : Option Counting := Server.init.map fun s => ⟨s, fun _ => ⟨0, 0, 0⟩⟩

def ended (c : Counting) : Counting := { c with server := { c.server with bgsavePid := 0 } }

/-- The events in order; a request is answered, the end of a child is not. -/
def answers (atof : List UInt8 → Option ℚ) (c : Counting) :
    List Timed → Option (List (List (List UInt8)) × Counting)
  | [] => some ([], c)
  | ⟨.request r, elapsed⟩ :: rest => do
    let (strs, c) ← c.serve atof r elapsed
    let (replies, c) ← c.answers atof rest
    some (strs :: replies, c)
  | ⟨.childEnded, _⟩ :: rest => c.ended.answers atof rest

end Counting

/-- A request on a slot is on one of the own slots exactly when it is of these connections,
    and these ask for nothing that all connections share. -/
structure Request.Apart (mine : Nat → Bool) (own : Fin maxSlot → Prop) (s : Server) (r : Request) :
    Prop where
  within : ∀ h ∈ r.handler, h.onSlot = true → (mine r.conn = true ↔ own (s.slotOf r.conn))
  discreet : mine r.conn = true → ∀ h ∈ r.handler, h.shared = false

def Counting.Apart (atof : List UInt8 → Option ℚ) (mine : Nat → Bool) (own : Fin maxSlot → Prop)
    (c : Counting) : List Timed → Prop
  | [] => True
  | ⟨.request r, elapsed⟩ :: rest => r.Apart mine own c.server ∧
      ∀ strs c', c.serve atof r elapsed = some (strs, c') → c'.Apart atof mine own rest
  | ⟨.childEnded, _⟩ :: rest => c.ended.Apart atof mine own rest

/-- The servers cannot be told apart by these connections on their slots. -/
structure Server.Alike (mine : Nat → Bool) (own : Fin maxSlot → Prop) (s t : Server) : Prop where
  slots : ∀ i, own i → s.slots i = t.slots i
  slotOf : ∀ conn, mine conn = true → s.slotOf conn = t.slotOf conn

section
variable {atof : List UInt8 → Option ℚ} {mine : Nat → Bool} {own : Fin maxSlot → Prop}
variable {s t s' : Server} {c c' d : Counting} {r : Request} {h : Handler} {elapsed : Int}
variable {strs : List (List UInt8)}

theorem handle_slot (atof : List UInt8 → Option ℚ) (r : Request) (works : h.onSlot = true) :
    ∃ (run : Db → Option (Int × Db)) (out : Db → Option (List (List UInt8))), ∀ s : Server,
      s.handle atof r h = s.onSlot r.conn (run (s.slot r.conn)) ∧
      ∀ counters, s.resp atof counters r h = out (s.slot r.conn) := by
  cases h with
  | spKnn | geoHashInfo | sysInfo | sysPerf | sysUse | sysWhere | sysHelp | sysBgsave | sysPing
  | sysSync => cases works
  | kvSet => exact ⟨fun db => kvSetHandler db r.args, fun _ => some [], fun _ => ⟨rfl, fun _ => rfl⟩⟩
  | kvGet => exact ⟨fun db => kvGetHandler db r.args, fun db => kvGetResp db r.args, fun _ => ⟨rfl, fun _ => rfl⟩⟩
  | kvDel => exact ⟨fun db => kvDelHandler db r.args, fun _ => some [], fun _ => ⟨rfl, fun _ => rfl⟩⟩
  | kvMatchlongest => exact ⟨fun db => kvMatchlongestHandler db r.args,
      fun db => kvMatchlongestResp db r.args, fun _ => ⟨rfl, fun _ => rfl⟩⟩
  | hashSet => exact ⟨fun db => hashSetHandler db r.args, fun _ => some [], fun _ => ⟨rfl, fun _ => rfl⟩⟩
  | hashGet => exact ⟨fun db => hashGetHandler db r.args, fun db => hashGetResp db r.args,
      fun _ => ⟨rfl, fun _ => rfl⟩⟩
  | hashDel => exact ⟨fun db => hashDelHandler db r.args, fun _ => some [], fun _ => ⟨rfl, fun _ => rfl⟩⟩
  | listLpush => exact ⟨fun db => listLpushHandler db r.args, fun _ => some [], fun _ => ⟨rfl, fun _ => rfl⟩⟩
  | listRpush => exact ⟨fun db => listRpushHandler db r.args, fun _ => some [], fun _ => ⟨rfl, fun _ => rfl⟩⟩
  | listLpop => exact ⟨fun db => listLpopHandler db r.args, fun _ => some [], fun _ => ⟨rfl, fun _ => rfl⟩⟩
  | listRpop => exact ⟨fun db => listRpopHandler db r.args, fun _ => some [], fun _ => ⟨rfl, fun _ => rfl⟩⟩
  | listLtop => exact ⟨fun db => listLtopHandler db r.args, fun db => listLtopResp db r.args,
      fun _ => ⟨rfl, fun _ => rfl⟩⟩
  | listRtop => exact ⟨fun db => listRtopHandler db r.args, fun db => listRtopResp db r.args,
      fun _ => ⟨rfl, fun _ => rfl⟩⟩
  | setAdd => exact ⟨fun db => setAddHandler db r.args, fun _ => some [], fun _ => ⟨rfl, fun _ => rfl⟩⟩
  | setDel => exact ⟨fun db => setDelHandler db r.args, fun _ => some [], fun _ => ⟨rfl, fun _ => rfl⟩⟩
  | setMembers => exact ⟨fun db => setMembersHandler db r.args, fun db => setMembersResp db r.args,
      fun _ => ⟨rfl, fun _ => rfl⟩⟩
  | setIsmember => exact ⟨fun db => setIsmemberHandler db r.args, fun db => setIsmemberResp db r.args,
      fun _ => ⟨rfl, fun _ => rfl⟩⟩
  | spSet => exact ⟨fun db => spSetHandler atof db r.args, fun _ => some [], fun _ => ⟨rfl, fun _ => rfl⟩⟩
  | spGet => exact ⟨fun db => spGetHandler db r.args, fun db => spGetResp db r.args, fun _ => ⟨rfl, fun _ => rfl⟩⟩
  | spDel => exact ⟨fun db => spDelHandler db r.args, fun _ => some [], fun _ => ⟨rfl, fun _ => rfl⟩⟩
  | spRect => exact ⟨fun db => spRectHandler atof db r.args, fun db => spRectResp atof db r.args,
      fun _ => ⟨rfl, fun _ => rfl⟩⟩

theorem perf_handled {ret : Int} (handled : s.handle atof r .sysPerf = some (ret, s')) : s' = s := by
  rw [Server.handle] at handled
  cases args : r.args with
  | nil =>
    rw [args] at handled
    cases handled
  | cons str rest =>
    have all : s.perfHandler (str :: rest) =
        some (if (modules.flatten.find? fun cmd => cmd.name = str).isSome then 0 else -1, s) :=
      bind_run (find_command str) rfl
    rw [args, all] at handled
    cases handled
    rfl

theorem handle_away {ret : Int} (handled : s.handle atof r h = some (ret, s')) :
    (h.onSlot = true ∨ s'.slots = s.slots) ∧
    (∀ i, i ≠ s.slotOf r.conn → s'.slots i = s.slots i) ∧
    ∀ conn, conn ≠ r.conn → s'.slotOf conn = s.slotOf conn := by
  by_cases works : h.onSlot = true
  · obtain ⟨run, _, all⟩ := handle_slot atof r works
    rw [(all s).1, Server.onSlot, Option.map_eq_some_iff] at handled
    obtain ⟨⟨ret', db⟩, _, pair⟩ := handled
    cases pair
    exact ⟨Or.inl works, fun i other => Function.update_of_ne other _ _, fun _ _ => rfl⟩
  · have same : s'.slots = s.slots ∧ ∀ conn, conn ≠ r.conn → s'.slotOf conn = s.slotOf conn := by
      cases h with
      | sysUse =>
        rw [Server.handle] at handled
        cases args : r.args with
        | nil =>
          rw [args] at handled
          cases handled
        | cons str rest =>
          rw [args, Server.useHandler] at handled
          cases read : EtdbString.atoi str with
          | none =>
            rw [read] at handled
            cases handled
            exact ⟨rfl, fun _ _ => rfl⟩
          | some slot =>
            rw [read, Option.elim_some] at handled
            by_cases inside : 0 < slot ∧ slot ≤ maxSlot
            · rw [dif_pos inside] at handled
              cases handled
              exact ⟨rfl, fun conn other => Function.update_of_ne other _ _⟩
            · rw [dif_neg inside] at handled
              cases handled
              exact ⟨rfl, fun _ _ => rfl⟩
      | sysPerf =>
        rw [perf_handled handled]
        exact ⟨rfl, fun _ _ => rfl⟩
      | sysBgsave =>
        rw [Server.handle, Server.bgsaveHandler] at handled
        by_cases busy : 0 < s.bgsavePid
        · rw [if_pos busy] at handled
          cases handled
          exact ⟨rfl, fun _ _ => rfl⟩
        · rw [if_neg busy] at handled
          cases handled
          exact ⟨rfl, fun _ _ => rfl⟩
      | spKnn | geoHashInfo | sysInfo | sysWhere | sysHelp | sysPing | sysSync =>
        cases handled
        exact ⟨rfl, fun _ _ => rfl⟩
      | _ => exact absurd rfl works
    exact ⟨Or.inr same.1, fun i _ => by rw [same.1], same.2⟩

theorem use_alike {ret : Int} (same : s.slotOf r.conn = t.slotOf r.conn)
    (handled : s.handle atof r .sysUse = some (ret, s')) :
    ∃ t', t.handle atof r .sysUse = some (ret, t') ∧ s'.slotOf r.conn = t'.slotOf r.conn := by
  rw [Server.handle] at handled ⊢
  cases args : r.args with
  | nil =>
    rw [args] at handled
    cases handled
  | cons str rest =>
    rw [args, Server.useHandler] at handled
    rw [Server.useHandler]
    cases read : EtdbString.atoi str with
    | none =>
      rw [read] at handled
      cases handled
      exact ⟨t, rfl, same⟩
    | some slot =>
      rw [read, Option.elim_some] at handled
      rw [Option.elim_some]
      by_cases inside : 0 < slot ∧ slot ≤ maxSlot
      · rw [dif_pos inside] at handled
        cases handled
        exact ⟨_, dif_pos inside, by simp⟩
      · rw [dif_neg inside] at handled
        cases handled
        exact ⟨t, dif_neg inside, same⟩

theorem handle_alike {ret : Int} {counters : List UInt8 → Counters} {out : List (List UInt8)}
    (same : s.slotOf r.conn = t.slotOf r.conn) (slot : h.onSlot = true → s.slot r.conn = t.slot r.conn)
    (discreet : h.shared = false) (handled : s.handle atof r h = some (ret, s'))
    (answered : s.resp atof counters r h = some out) :
    (∀ counters, t.resp atof counters r h = some out) ∧ ∃ t', t.handle atof r h = some (ret, t') ∧
      s'.slotOf r.conn = t'.slotOf r.conn ∧
      (h.onSlot = true → s'.slots (s.slotOf r.conn) = t'.slots (s.slotOf r.conn)) := by
  by_cases works : h.onSlot = true
  · obtain ⟨run, outs, all⟩ := handle_slot atof r works
    rw [(all s).1, Server.onSlot, Option.map_eq_some_iff] at handled
    obtain ⟨⟨ret', db⟩, ran, pair⟩ := handled
    cases pair
    refine ⟨fun _ => by rw [(all t).2, ← slot works, ← (all s).2 counters, answered],
      { t with slots := Function.update t.slots (t.slotOf r.conn) db }, ?_, same, fun _ => ?_⟩
    · rw [(all t).1, ← slot works, ran]
      rfl
    · dsimp only
      rw [same, Function.update_self, Function.update_self]
  · cases h with
    | sysUse =>
      obtain ⟨t', handled', same'⟩ := use_alike same handled
      exact ⟨fun _ => answered, t', handled', same', fun yes => absurd yes works⟩
    | sysWhere =>
      cases handled
      rw [Server.resp, same] at answered
      exact ⟨fun _ => by rw [Server.resp, answered], t, rfl, same, fun yes => absurd yes works⟩
    | spKnn | geoHashInfo | sysHelp | sysPing | sysSync =>
      cases handled
      exact ⟨fun _ => answered, t, rfl, same, fun yes => absurd yes works⟩
    | sysInfo | sysPerf | sysBgsave => cases discreet
    | _ => exact absurd rfl works

namespace Counting

theorem serve_cases (served : c.serve atof r elapsed = some (strs, c')) :
    (c' = c ∧ ∀ d : Counting, d.serve atof r elapsed = some (strs, d)) ∨
    ∃ h ret out counters, r.handler = some h ∧ c.server.resp atof counters r h = some out ∧
      c.server.handle atof r h = some (ret, c'.server) ∧
      ∀ (d : Counting) (t : Server), (∀ counters, d.server.resp atof counters r h = some out) →
        d.server.handle atof r h = some (ret, t) →
        ∃ d', d.serve atof r elapsed = some (strs, d') ∧ d'.server = t := by
  have found := find_command (r.cmd.map EtdbWire.Buf.lower)
  cases place : modules.flatten.find? fun cmd => cmd.name = r.cmd.map EtdbWire.Buf.lower with
  | none =>
    rw [place] at found
    have all (d : Counting) : d.serve atof r elapsed = some ([Server.unknown r], d) := bind_run found rfl
    rw [all] at served
    cases served
    exact Or.inl ⟨rfl, all⟩
  | some cmd =>
    rw [place] at found
    by_cases parsed : parseArgs cmd.flags r.args.length = true
    · have all (d : Counting) : d.serve atof r elapsed =
          d.server.resp atof (fun name => (d.called cmd name).counters) r cmd.handler >>= fun out =>
          d.server.handle atof r cmd.handler >>= fun ended =>
          some (Server.statusText ended.1 :: out, ⟨ended.2, Function.update (d.called cmd) cmd.name
            ((d.called cmd cmd.name).timed elapsed)⟩) :=
        bind_run found (if_pos parsed)
      rw [all, Option.bind_eq_bind, Option.bind_eq_some_iff] at served
      obtain ⟨out, answered, served⟩ := served
      rw [Option.bind_eq_bind, Option.bind_eq_some_iff] at served
      obtain ⟨⟨ret, ended⟩, handled, pair⟩ := served
      cases pair
      refine Or.inr ⟨cmd.handler, ret, out, _, by rw [Request.handler, place]; rfl, answered, handled, ?_⟩
      intro d t answered' handled'
      exact ⟨_, (all d).trans (bind_run (answered' _) (bind_run handled' rfl)), rfl⟩
    · have all (d : Counting) : d.serve atof r elapsed = some ([Server.unknown r], d) :=
        bind_run found (if_neg parsed)
      rw [all] at served
      cases served
      exact Or.inl ⟨rfl, all⟩

theorem serve_stands (atof : List UInt8 → Option ℚ) {A : Stores} (stands : c.server.Stands A) (r : Request)
    (elapsed : Int) :
    ∃ strs c' A', c.serve atof r elapsed = some (strs, c') ∧ c'.server.Stands A' := by
  have found := find_command (r.cmd.map EtdbWire.Buf.lower)
  cases place : modules.flatten.find? fun cmd => cmd.name = r.cmd.map EtdbWire.Buf.lower with
  | none =>
    rw [place] at found
    exact ⟨_, c, A, bind_run found rfl, stands⟩
  | some cmd =>
    rw [place] at found
    by_cases parsed : parseArgs cmd.flags r.args.length = true
    · have enough := enough_args (List.mem_of_find?_eq_some place) parsed
      obtain ⟨ret, strs, s', A', handled, answered, _, stands'⟩ :=
        handle_follows atof (fun name => (c.called cmd name).counters) stands r cmd.handler enough
      exact ⟨_, _, A', bind_run found ((if_pos parsed).trans (bind_run answered
        (bind_run handled rfl))), stands'⟩
    · exact ⟨_, c, A, bind_run found (if_neg parsed), stands⟩

theorem answers_stands (atof : List UInt8 → Option ℚ) {A : Stores} (stands : c.server.Stands A)
    (events : List Timed) :
    ∃ replies c', c.answers atof events = some (replies, c') := by
  induction events generalizing c A with
  | nil => exact ⟨[], c, rfl⟩
  | cons first rest ih =>
    obtain ⟨event, elapsed⟩ := first
    cases event with
    | request r =>
      obtain ⟨strs, c1, A1, served, stands1⟩ := serve_stands atof stands r elapsed
      obtain ⟨replies, c', ran⟩ := ih stands1
      exact ⟨strs :: replies, c', bind_run served (bind_run ran rfl)⟩
    | childEnded =>
      have same : c.ended.server.Stands A := ⟨stands.slots, stands.slotOf⟩
      exact ih same

end Counting

namespace Server

theorem Alike.refl (s : Server) : s.Alike mine own s := ⟨fun _ _ => rfl, fun _ _ => rfl⟩

theorem Alike.ours (alike : c.server.Alike mine own d.server) (ours : mine r.conn = true)
    (apart : r.Apart mine own c.server) (served : c.serve atof r elapsed = some (strs, c')) :
    ∃ d', d.serve atof r elapsed = some (strs, d') ∧ c'.server.Alike mine own d'.server := by
  have same := alike.slotOf r.conn ours
  rcases Counting.serve_cases served with
    ⟨rfl, back⟩ | ⟨h, ret, out, counters, is, answered, handled, twin⟩
  · exact ⟨d, back d, alike⟩
  · have slot : h.onSlot = true → c.server.slot r.conn = d.server.slot r.conn := fun works => by
      rw [slot, slot, ← same]
      exact alike.slots _ ((apart.within h is works).mp ours)
    obtain ⟨resp, t', handled', place, here⟩ :=
      handle_alike same slot (apart.discreet ours h is) handled answered
    obtain ⟨d', served', leaves⟩ := twin d t' resp handled'
    have left := handle_away handled
    have right := handle_away handled'
    rw [← leaves] at right place here
    refine ⟨d', served', fun i inside => ?_, fun conn inside => ?_⟩
    · by_cases used : i = c.server.slotOf r.conn
      · by_cases works : h.onSlot = true
        · rw [used]
          exact here works
        · rw [left.1.resolve_left works, right.1.resolve_left works]
          exact alike.slots i inside
      · rw [left.2.1 i used, right.2.1 i (same ▸ used)]
        exact alike.slots i inside
    · by_cases asks : conn = r.conn
      · rw [asks]
        exact place
      · rw [left.2.2 conn asks, right.2.2 conn asks]
        exact alike.slotOf conn inside

theorem Alike.theirs (alike : c.server.Alike mine own t) (theirs : mine r.conn = false)
    (apart : r.Apart mine own c.server) (served : c.serve atof r elapsed = some (strs, c')) :
    c'.server.Alike mine own t := by
  rcases Counting.serve_cases served with ⟨rfl, _⟩ | ⟨h, ret, out, _, is, _, handled, _⟩
  · exact alike
  · obtain ⟨slots, away, others⟩ := handle_away handled
    refine ⟨fun i inside => ?_, fun conn inside => ?_⟩
    · by_cases works : h.onSlot = true
      · have outside : i ≠ c.server.slotOf r.conn := by
          intro used
          have ours := (apart.within h is works).mpr (used ▸ inside)
          rw [theirs] at ours
          cases ours
        rw [away i outside]
        exact alike.slots i inside
      · rw [slots.resolve_left works]
        exact alike.slots i inside
    · have other : conn ≠ r.conn := by
        intro same
        rw [same, theirs] at inside
        cases inside
      rw [others conn other]
      exact alike.slotOf conn inside

theorem Alike.run {events : List Timed} {replies : List (List (List UInt8))}
    (alike : c.server.Alike mine own d.server) (apart : c.Apart atof mine own events)
    (ran : c.answers atof events = some (replies, c')) :
    ∃ d', d.answers atof (events.filter (Timed.isOf mine)) = some (repliesTo mine events replies, d') ∧
      c'.server.Alike mine own d'.server := by
  induction events generalizing c d replies with
  | nil =>
    cases ran
    exact ⟨d, rfl, alike⟩
  | cons first rest ih =>
    obtain ⟨event, elapsed⟩ := first
    cases event with
    | request r =>
      rw [Counting.answers, Option.bind_eq_bind, Option.bind_eq_some_iff] at ran
      obtain ⟨⟨strs, c1⟩, served, ran⟩ := ran
      rw [Option.bind_eq_bind, Option.bind_eq_some_iff] at ran
      obtain ⟨⟨more, c2⟩, ran, pair⟩ := ran
      cases pair
      have later := apart.2 strs c1 served
      by_cases ours : mine r.conn = true
      · obtain ⟨d1, served', alike1⟩ := alike.ours ours apart.1 served
        obtain ⟨d', ran', alike'⟩ := ih alike1 later ran
        refine ⟨d', ?_, alike'⟩
        rw [List.filter_cons_of_pos (by exact ours), Counting.answers, repliesTo, if_pos ours]
        exact bind_run served' (bind_run ran' rfl)
      · have theirs : mine r.conn = false := Bool.eq_false_iff.mpr ours
        obtain ⟨d', ran', alike'⟩ := ih (alike.theirs theirs apart.1 served) later ran
        refine ⟨d', ?_, alike'⟩
        rw [List.filter_cons_of_neg (by exact ours), repliesTo, if_neg ours]
        exact ran'
    | childEnded =>
      have same : c.ended.server.Alike mine own d.server := ⟨alike.slots, alike.slotOf⟩
      obtain ⟨d', ran', alike'⟩ := ih same apart ran
      refine ⟨d', ?_, alike'⟩
      rw [List.filter_cons_of_neg (by exact Bool.false_ne_true), repliesTo]
      exact ran'

end Server

end

/-- From the start on, connections that keep to slots of their own are answered as if they
    were alone: without the requests of all others, and the ends of children, they get the
    same replies, and their slots hold the same. -/
theorem slots_keep_apart (atof : List UInt8 → Option ℚ) (mine : Nat → Bool) (own : Fin maxSlot → Prop)
    (events : List Timed) {c0 : Counting} (start : Counting.init = some c0)
    (apart : c0.Apart atof mine own events) :
    ∃ replies c c', c0.answers atof events = some (replies, c) ∧
      c0.answers atof (events.filter (Timed.isOf mine)) = some (repliesTo mine events replies, c') ∧
      c.server.Alike mine own c'.server := by
  obtain ⟨s0, begin, stands⟩ := init_stands
  rw [Counting.init, begin, Option.map_some, Option.some.injEq] at start
  have held : c0.server.Stands Stores.empty := start ▸ stands
  obtain ⟨replies, c, ran⟩ := Counting.answers_stands atof held events
  obtain ⟨c', ran', alike⟩ := (Server.Alike.refl c0.server).run apart ran
  exact ⟨replies, c, c', ran, ran', alike⟩

section
variable {atof : List UInt8 → Option ℚ} {mine : Nat → Bool} {own : Fin maxSlot → Prop} [DecidablePred own]
variable {c c' : Counting} {events : List Timed} {replies : List (List (List UInt8))}

instance (s : Server) (r : Request) : Decidable (r.Apart mine own s) :=
  decidable_of_iff ((∀ h ∈ r.handler, h.onSlot = true → (mine r.conn = true ↔ own (s.slotOf r.conn))) ∧
      (mine r.conn = true → ∀ h ∈ r.handler, h.shared = false))
    ⟨fun both => ⟨both.1, both.2⟩, fun apart => ⟨apart.within, apart.discreet⟩⟩

namespace Counting

def aparting (atof : List UInt8 → Option ℚ) (mine : Nat → Bool) (own : Fin maxSlot → Prop)
    [DecidablePred own] (c : Counting) : List Timed → Option (List (List (List UInt8)) × Counting)
  | [] => some ([], c)
  | ⟨.request r, elapsed⟩ :: rest =>
    if r.Apart mine own c.server then do
      let (strs, c) ← c.serve atof r elapsed
      let (replies, c) ← c.aparting atof mine own rest
      some (strs :: replies, c)
    else none
  | ⟨.childEnded, _⟩ :: rest => c.ended.aparting atof mine own rest

theorem aparting_spec (ran : c.aparting atof mine own events = some (replies, c')) :
    c.Apart atof mine own events ∧ c.answers atof events = some (replies, c') := by
  induction events generalizing c replies with
  | nil => exact ⟨trivial, ran⟩
  | cons first rest ih =>
    obtain ⟨event, elapsed⟩ := first
    cases event with
    | request r =>
      rw [aparting, Option.ite_none_right_eq_some] at ran
      obtain ⟨apart, ran⟩ := ran
      rw [Option.bind_eq_bind, Option.bind_eq_some_iff] at ran
      obtain ⟨⟨strs, c1⟩, served, ran⟩ := ran
      rw [Option.bind_eq_bind, Option.bind_eq_some_iff] at ran
      obtain ⟨⟨more, c2⟩, ran, pair⟩ := ran
      cases pair
      obtain ⟨later, answers⟩ := ih ran
      refine ⟨⟨apart, fun strs' c3 served' => ?_⟩, bind_run served (bind_run answers rfl)⟩
      rw [served] at served'
      cases served'
      exact later
    | childEnded => exact ih ran

end Counting
end

/-- The first connection stores a value on its slot and asks for the counters of set; the
    second stores another value under the same key on the second slot, and asks for it. -/
def twoTenants : List Timed :=
  [⟨.request ⟨1, bytes ['u', 's', 'e'], [[50]], 0, 0⟩, 3⟩,
    ⟨.request ⟨0, bytes ['s', 'e', 't'], [[107], [118]], 0, 0⟩, 5⟩,
    ⟨.request ⟨1, bytes ['s', 'e', 't'], [[107], [119]], 0, 0⟩, 4⟩,
    ⟨.request ⟨0, bytes ['p', 'e', 'r', 'f'], [bytes ['s', 'e', 't']], 0, 0⟩, 2⟩,
    ⟨.childEnded, 0⟩,
    ⟨.request ⟨1, bytes ['g', 'e', 't'], [[107]], 0, 0⟩, 3⟩]

theorem twoTenants_apart : (Counting.init.bind fun c =>
    c.aparting (fun _ => none) (· == 1) (·.val = 1) twoTenants).any (fun ran =>
      decide (ran.1 = [[okText], [okText], [okText],
        [okText, perfText (bytes ['s', 'e', 't']) ⟨2, 4, 5⟩], [okText, [119]]])) = true := by
  decide +kernel

theorem slots_keep_apart_once : ∃ c0 replies c c', Counting.init = some c0 ∧
    c0.answers (fun _ => none) twoTenants = some (replies, c) ∧
    c0.answers (fun _ => none) (twoTenants.filter (Timed.isOf (· == 1))) =
      some ([[okText], [okText], [okText, [119]]], c') ∧
    c.server.Alike (· == 1) (·.val = 1) c'.server := by
  obtain ⟨⟨replies, c⟩, ran, answered⟩ := (Option.any_eq_true ..).mp twoTenants_apart
  obtain ⟨c0, start, ran⟩ := Option.bind_eq_some_iff.mp ran
  obtain ⟨apart, answers⟩ := Counting.aparting_spec ran
  obtain ⟨replies', c1, c', answers', alone, alike⟩ :=
    slots_keep_apart (fun _ => none) (· == 1) (·.val = 1) twoTenants start apart
  have told := of_decide_eq_true answered
  dsimp only at told
  subst told
  cases answers.symm.trans answers'
  exact ⟨c0, _, c, c', start, answers, alone, alike⟩

end EtdbServer
