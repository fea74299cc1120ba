import Etdb.Lib.Queue
import Etdb.Wire.Stream

/- The records of a connection: recv_cmd is the queue of the request that is parsed, free_cmd
   holds the records of earlier ones, and a record is taken from the pool only when no other is
   free. -/
namespace EtdbWire
open LinkedQueue

/-- The links of etdb_queue_t: the two heads and the records in the order of their allocation. -/
inductive Cell where
  | recvCmd
  | freeCmd
  | record (n : Nat)
  deriving DecidableEq

/-- `used` records were taken from the pool; each holds a place in buf_in and a length. -/
structure Records where
  links : Links Cell
  used : Nat
  str : Nat → Nat × Nat

namespace Records

def init (links : Links Cell) : Records := ⟨(links.init .recvCmd).init .freeCmd, 0, fun _ => (0, 0)⟩

def allocBytes (r : Records) : Option (Nat × Records) :=
  if r.links.prev .freeCmd = .freeCmd then some (r.used, { r with used := r.used + 1 })
  else match r.links.next .freeCmd with
    | .record n => some (n, { r with links := r.links.remove (.record n) })
    | _ => none

def insertRecv (r : Records) (n : Nat) (str : Nat × Nat) : Records :=
  { r with links := r.links.insertTail .recvCmd (.record n), str := Function.update r.str n str }

def recycle (r : Records) : Records :=
  if r.links.prev .recvCmd = .recvCmd then r
  else { r with links := (r.links.add .freeCmd .recvCmd).init .recvCmd }

inductive Outcome where
  /-- 0, with the bytes consumed -/
  | ready (parsed : Nat)
  /-- 1 -/
  | notReady
  /-- -1 -/
  | refused

/-- The loop of etdb_resp_parse_req over the records, with the number of records that it put
    into recv_cmd. -/
def parseLoop : Nat → List UInt8 → Nat → Nat → Nat → Records → Option (Outcome × Nat × Records)
  | 0, _, _, _, _, _ => none
  | turns + 1, rest, size, parsed, begun, r =>
    if size = 0 then some (.notReady, begun, r)
    else
      match readHeader rest size with
      | none => none
      | some .missing => some (.notReady, begun, r)
      | some .refused => some (.refused, begun, r)
      | some (.line headLen bodyLen) =>
        let size := sizeT (size - (headLen + bodyLen : Nat))
        match rest[headLen]? with
        | none => none
        | some c =>
          if c = newline ∧ bodyLen = 0 then some (.ready (parsed + (headLen + bodyLen)), begun, r)
          else do
            let (n, r) ← r.allocBytes
            let r := r.insertRecv n (parsed + headLen, bodyLen)
            if size = 0 then some (.notReady, begun + 1, r)
            else
              match rest.drop (headLen + bodyLen) with
              | [] => none
              | c :: more =>
                if c ≠ newline then some (.notReady, begun + 1, r)
                else if maxPacketSize < parsed + (headLen + bodyLen) + 1 then some (.refused,
                  begun + 1, r)
                else parseLoop turns more (size - 1) (parsed + (headLen + bodyLen) + 1) (begun + 1) r

/-- etdb_resp_parse_req; a request that is not ready gives its records back. -/
def parseReq (rest : List UInt8) (size : Nat) (r : Records) : Option (Outcome × Nat × Records) :=
  match skipNewlines rest size with
  | none => none
  | some k => do
    let (outcome, begun, r) ← parseLoop (rest.length + 1) (rest.drop k) (size - k) k 0 r
    match outcome with
    | .notReady => some (.notReady, begun, r.recycle)
    | outcome => some (outcome, begun, r)

def strings (r : Records) : Nat → Cell → List (Nat × Nat)
  | turns + 1, .record n => r.str n :: r.strings turns (r.links.next (.record n))
  | _, _ => []

def received (r : Records) : List (Nat × Nat) := r.strings r.used (r.links.next .recvCmd)

/-- etdb_connect_recv and etdb_resp_recv_req, with the number of records that were parsed;
    `left` is what the latter returns behind a request. -/
def connectRecv (r : Records) (buf : Buf) (junk : Nat → UInt8) (left : Int) :
    Option ((Received × Buf) × Nat × Records) :=
  let r := r.recycle
  if buf.size = 0 then some ((.incomplete, buf), 0, r)
  else do
    let (outcome, begun, r) ← parseReq (buf.mem.drop buf.data) buf.size r
    match outcome with
    | .refused => some ((.failed, buf), begun, r)
    | .notReady => do
      let buf ← buf.spare junk
      some ((.incomplete, buf), begun, r)
    | .ready parsed =>
      if r.links.prev .recvCmd = .recvCmd then do
        let buf ← (buf.decr parsed).spare junk
        some ((.incomplete, buf), begun, r)
      else
        let request := Received.request (contents (buf.mem.drop buf.data) r.received)
        some ((request.behind left, buf.decr parsed), begun, r)

def calls (r : Records) :
    List (Buf × (Nat → UInt8) × Int) → Option (List (Received × Buf) × List Nat × Records)
  | [] => some ([], [], r)
  | (buf, junk, left) :: rest => do
    let (answer, begun, r) ← r.connectRecv buf junk left
    let (answers, counts, r) ← r.calls rest
    some (answer :: answers, begun :: counts, r)

/-- The free records and those of the request, in the order of their queues; no record is in
    both and none is lost. -/
structure Holds (r : Records) (free recv : List Nat) : Prop where
  freeRing : r.links.Ring (.freeCmd :: free.map .record)
  recvRing : r.links.Ring (.recvCmd :: recv.map .record)
  all : (free ++ recv).Perm (List.range r.used)

section
variable {r : Records} {free recv : List Nat} {n : Nat} {str : Nat × Nat}

theorem record_mem {l : List Nat} : Cell.record n ∈ l.map Cell.record ↔ n ∈ l := by
  simp

theorem Holds.apart (holds : r.Holds free recv) :
    ∀ u ∈ Cell.freeCmd :: free.map .record, u ∉ Cell.recvCmd :: recv.map .record := by
  have nodup := holds.all.nodup_iff.mpr List.nodup_range
  intro u inside other
  rcases List.mem_cons.mp inside with rfl | inside
  · simp at other
  · obtain ⟨n, here, rfl⟩ := List.mem_map.mp inside
    rcases List.mem_cons.mp other with head | other
    · cases head
    · exact (List.nodup_append.mp nodup).2.2 n here n (record_mem.mp other) rfl

theorem init_holds (links : Links Cell) : (init links).Holds [] [] where
  freeRing := Links.init_ring _ _
  recvRing := (Links.init_ring links Cell.recvCmd).frame fun u inside => Links.init_other _ (by
    rw [List.mem_singleton.mp inside]
    decide)
  all := List.Perm.refl []

theorem empty_iff {h : Cell} {l : List Nat} (ring : r.links.Ring (h :: l.map .record)) :
    r.links.prev h = h ↔ l = [] := by
  have alone := CircularRing.alone_iff (CircularRing.ring_mirror ring) List.mem_cons_self
  rw [alone]
  simp

theorem Holds.allocBytes (holds : r.Holds free recv) : ∃ n r' free', r.allocBytes = some (n, r') ∧
    r'.links.Ring (.freeCmd :: free'.map .record) ∧ r'.links.Ring (.recvCmd :: recv.map .record) ∧
    (n :: (free' ++ recv)).Perm (List.range r'.used) ∧ r'.used = max r.used (recv.length + 1) ∧
    r'.str = r.str := by
  have length := holds.all.length_eq
  rw [List.length_append, List.length_range] at length
  rw [Records.allocBytes]
  cases free with
  | nil =>
    rw [if_pos ((empty_iff holds.freeRing).mpr rfl)]
    refine ⟨r.used, _, [], rfl, holds.freeRing, holds.recvRing, ?_, ?_, rfl⟩
    · dsimp only
      rw [List.range_succ]
      exact (holds.all.cons r.used).trans (List.perm_append_singleton r.used _).symm
    · dsimp only
      rw [List.length_nil] at length
      omega
  | cons n rest =>
    have first : r.links.next .freeCmd = .record n := (CircularRing.ring_first holds.freeRing).1
    rw [if_neg fun none => List.cons_ne_nil n rest ((empty_iff holds.freeRing).mp none), first]
    refine ⟨n, _, rest, rfl, ?_, ?_, holds.all, ?_, rfl⟩
    · have ring : r.links.Ring (.freeCmd :: ([] ++ Cell.record n :: rest.map .record)) := holds.freeRing
      exact Links.remove_ring ring
    · refine holds.recvRing.frame fun u inside => Links.remove_other holds.freeRing (by simp)
        fun other => ?_
      exact holds.apart u other inside
    · dsimp only
      rw [List.length_cons] at length
      omega

theorem Holds.take (holds : r.Holds free recv) (str : Nat × Nat) : ∃ n r' free',
    r.allocBytes = some (n, r') ∧ (r'.insertRecv n str).Holds free' (recv ++ [n]) ∧
    (r'.insertRecv n str).used = max r.used (recv.length + 1) ∧
    (recv ++ [n]).map (r'.insertRecv n str).str = recv.map r.str ++ [str] := by
  obtain ⟨n, r', free', run, freeRing, recvRing, all, used, kept⟩ := holds.allocBytes
  have nodup := List.nodup_cons.mp (all.nodup_iff.mpr List.nodup_range)
  have fresh : n ∉ recv := fun inside => nodup.1 (List.mem_append_right _ inside)
  refine ⟨n, r', free', run, ⟨?_, ?_, ?_⟩, used, ?_⟩
  · refine freeRing.frame fun u inside => Links.insertTail_other recvRing (fun other => ?_) ?_
    · rcases List.mem_cons.mp inside with rfl | inside
      · simp at other
      · obtain ⟨k, here, rfl⟩ := List.mem_map.mp inside
        rcases List.mem_cons.mp other with head | other
        · cases head
        · exact (List.nodup_append.mp nodup.2).2.2 k here k (record_mem.mp other) rfl
    · rintro rfl
      rcases List.mem_cons.mp inside with head | inside
      · cases head
      · exact nodup.1 (List.mem_append_left _ (record_mem.mp inside))
  · have out : Cell.record n ∉ Cell.recvCmd :: recv.map .record := by simpa using fresh
    rw [List.map_append, List.map_singleton]
    exact Links.insertTail_ring recvRing out
  · rw [← List.append_assoc]
    exact (List.perm_append_singleton n _).trans all
  · rw [List.map_append, List.map_singleton, insertRecv]
    dsimp only
    rw [Function.update_self, kept]
    refine congrArg (· ++ [str]) (List.map_congr_left fun k inside => Function.update_of_ne ?_ _ _)
    rintro rfl
    exact fresh inside

theorem Holds.recycle (holds : r.Holds free recv) : r.recycle.Holds (free ++ recv) [] ∧
    r.recycle.used = r.used := by
  rw [Records.recycle]
  by_cases empty : recv = []
  · rw [if_pos ((empty_iff holds.recvRing).mpr empty)]
    rw [empty] at holds ⊢
    rw [List.append_nil]
    exact ⟨holds, rfl⟩
  · rw [if_neg fun none => empty ((empty_iff holds.recvRing).mp none)]
    have some : recv.map Cell.record ≠ [] := by simpa using empty
    have joined := Links.add_ring holds.freeRing holds.recvRing some holds.apart
    refine ⟨⟨?_, Links.init_ring _ _, ?_⟩, rfl⟩
    · rw [List.map_append]
      refine joined.frame fun u inside => Links.init_other _ ?_
      rintro rfl
      simp at inside
    · rw [List.append_nil]
      exact holds.all

theorem strings_eq {l : List Nat} {a : Cell} {turns : Nat}
    (linked : CircularRing.Linked r.links.next r.links.prev a (l.map .record) .recvCmd)
    (enough : l.length ≤ turns) : r.strings turns (r.links.next a) = l.map r.str := by
  induction l generalizing a turns with
  | nil =>
    rw [linked.1]
    cases turns <;> rfl
  | cons n rest ih =>
    obtain ⟨turns, rfl⟩ : ∃ m, turns = m + 1 := ⟨turns - 1, by rw [List.length_cons] at enough; omega⟩
    obtain ⟨step, _, further⟩ := linked
    rw [step, strings, ih further (Nat.le_of_succ_le_succ enough), List.map_cons]

theorem Holds.received (holds : r.Holds free recv) : r.received = recv.map r.str := by
  refine strings_eq holds.recvRing.2 ?_
  have length := holds.all.length_eq
  rw [List.length_append, List.length_range] at length
  omega

/-- The same answer, with the records in the queue where it hands them out. -/
inductive Tells : Answer → Outcome → List (Nat × Nat) → Prop
  | ready (records : List (Nat × Nat)) (parsed : Nat) : Tells (.ready records parsed)
      (.ready parsed) records
  | notReady (strs : List (Nat × Nat)) : Tells .notReady .notReady strs
  | refused (strs : List (Nat × Nat)) : Tells .refused .refused strs

def Alike (used : Nat) : Option Answer → Option (Outcome × Nat × Records) → Prop
  | none, none => True
  | some answer, some (outcome, begun, r) => ∃ free recv, r.Holds free recv ∧ begun = recv.length ∧
      r.used = max used begun ∧ Tells answer outcome (recv.map r.str)
  | _, _ => False

theorem Holds.alike {used : Nat} {answer : Answer} {outcome : Outcome} (holds : r.Holds free recv)
    (most : r.used = max used recv.length) (tells : Tells answer outcome (recv.map r.str)) :
    Alike used (some answer) (some (outcome, recv.length, r)) := ⟨free, recv, holds, rfl, most, tells⟩

theorem Holds.parseLoop {used : Nat} (holds : r.Holds free recv) (most : r.used = max used recv.length)
    (turns size parsed : Nat) (rest : List UInt8) : Alike used
      (EtdbWire.parseLoop turns rest size parsed (recv.map r.str))
      (Records.parseLoop turns rest size parsed recv.length r) := by
  induction turns generalizing rest size parsed free recv r with
  | zero => trivial
  | succ turns ih =>
    rw [EtdbWire.parseLoop, Records.parseLoop]
    by_cases done : size = 0
    · rw [if_pos done, if_pos done]
      exact holds.alike most (.notReady _)
    rw [if_neg done, if_neg done]
    cases readHeader rest size with
    | none => trivial
    | some header =>
      cases header with
      | missing => exact holds.alike most (.notReady _)
      | refused => exact holds.alike most (.refused _)
      | line headLen bodyLen =>
        dsimp only
        cases rest[headLen]? with
        | none => trivial
        | some c =>
          dsimp only
          by_cases last : c = newline ∧ bodyLen = 0
          · rw [if_pos last, if_pos last]
            exact holds.alike most (.ready _ _)
          rw [if_neg last, if_neg last]
          obtain ⟨n, r', free', run, holds', used', strs⟩ := holds.take (parsed + headLen, bodyLen)
          have most' : (r'.insertRecv n (parsed + headLen, bodyLen)).used = max used
            (recv ++ [n]).length := by
            rw [used', List.length_append, List.length_singleton]
            omega
          have more : recv.length + 1 = (recv ++ [n]).length := by
            rw [List.length_append, List.length_singleton]
          rw [run, ← strs, more]
          dsimp only [bind, Option.bind]
          by_cases ended : sizeT (size - (headLen + bodyLen : Nat)) = 0
          · rw [if_pos ended, if_pos ended]
            exact holds'.alike most' (.notReady _)
          rw [if_neg ended, if_neg ended]
          cases rest.drop (headLen + bodyLen) with
          | nil => trivial
          | cons c behind =>
            dsimp only
            by_cases torn : c ≠ newline
            · rw [if_pos torn, if_pos torn]
              exact holds'.alike most' (.notReady _)
            rw [if_neg torn, if_neg torn]
            by_cases big : maxPacketSize < parsed + (headLen + bodyLen) + 1
            · rw [if_pos big, if_pos big]
              exact holds'.alike most' (.refused _)
            rw [if_neg big, if_neg big]
            exact ih holds' most' (sizeT (size - (headLen + bodyLen : Nat)) - 1) _ behind

structure Served (used : Nat) (answer : Received × Buf) (begun : Nat) (r : Records) : Prop where
  held : ∃ free recv, r.Holds free recv
  most : r.used = max used begun
  request : ∀ strs, answer.1 = .request strs → begun = strs.length

theorem Holds.connectRecv (holds : r.Holds free recv) (buf : Buf) (junk : Nat → UInt8) (left : Int) :
    (r.connectRecv buf junk left).map Prod.fst = buf.connectRecv junk left ∧
    ∀ answer begun r', r.connectRecv buf junk left = some (answer, begun, r') →
      Served r.used answer begun r' := by
  obtain ⟨recycled, used⟩ := holds.recycle
  rw [Records.connectRecv, Buf.connectRecv]
  dsimp only
  by_cases empty : buf.size = 0
  · rw [if_pos empty, if_pos empty]
    refine ⟨rfl, fun answer begun r' same => ?_⟩
    cases same
    exact ⟨⟨_, _, recycled⟩, by rw [used, Nat.max_zero], fun _ none => by cases none⟩
  rw [if_neg empty, if_neg empty, Buf.recvReq, Buf.parse, EtdbWire.parseReq, Records.parseReq]
  cases skipNewlines (buf.mem.drop buf.data) buf.size with
  | none => exact ⟨rfl, fun _ _ _ none => by cases none⟩
  | some k =>
    dsimp only
    have alike := recycled.parseLoop (used.trans (Nat.max_zero _).symm)
      ((buf.mem.drop buf.data).length + 1) (buf.size - k) k ((buf.mem.drop buf.data).drop k)
    rw [List.map_nil, List.length_nil] at alike
    revert alike
    cases EtdbWire.parseLoop ((buf.mem.drop buf.data).length + 1) ((buf.mem.drop buf.data).drop k)
        (buf.size - k) k [] with
    | none =>
      cases Records.parseLoop ((buf.mem.drop buf.data).length + 1) ((buf.mem.drop buf.data).drop k)
        (buf.size - k) k 0 r.recycle with
      | none => exact fun _ => ⟨rfl, fun _ _ _ none => by cases none⟩
      | some _ => exact False.elim
    | some answer =>
      cases Records.parseLoop ((buf.mem.drop buf.data).length + 1) ((buf.mem.drop buf.data).drop k)
        (buf.size - k) k 0 r.recycle with
      | none => exact False.elim
      | some result =>
        obtain ⟨outcome, begun, r'⟩ := result
        rintro ⟨free', recv', holds', count, most, tells⟩
        generalize places : recv'.map r'.str = records at tells
        cases tells with
        | refused =>
          refine ⟨rfl, fun answer begun' r'' same => ?_⟩
          cases same
          exact ⟨⟨_, _, holds'⟩, most, fun _ none => by cases none⟩
        | notReady =>
          obtain ⟨again, used'⟩ := holds'.recycle
          dsimp only [bind, Option.bind]
          cases buf.spare junk with
          | none => exact ⟨rfl, fun _ _ _ none => by cases none⟩
          | some room =>
            refine ⟨rfl, fun answer begun' r'' same => ?_⟩
            cases same
            exact ⟨⟨_, _, again⟩, used'.trans most, fun _ none => by cases none⟩
        | ready _ parsed =>
          dsimp only [bind, Option.bind]
          by_cases nothing : recv' = []
          · have silent : records = [] := by rw [← places, nothing, List.map_nil]
            rw [if_pos ((empty_iff holds'.recvRing).mpr nothing), if_pos silent]
            cases (buf.decr parsed).spare junk with
            | none => exact ⟨rfl, fun _ _ _ none => by cases none⟩
            | some room =>
              refine ⟨rfl, fun answer begun' r'' same => ?_⟩
              cases same
              exact ⟨⟨_, _, holds'⟩, most, fun _ none => by cases none⟩
          · have some : records ≠ [] := by rwa [← places, ne_eq, List.map_eq_nil_iff]
            rw [if_neg fun none => nothing ((empty_iff holds'.recvRing).mp none), if_neg some,
              holds'.received, places]
            refine ⟨rfl, fun answer begun' r'' same => ?_⟩
            cases same
            refine ⟨⟨_, _, holds'⟩, most, fun strs handed => ?_⟩
            have whole := Received.behind_request handed
            rw [← whole, contents, List.length_map, ← places, List.length_map, count]

def Counted (answers : List (Received × Buf)) (counts : List Nat) : Prop :=
  List.Forall₂ (fun answer begun => ∀ strs, answer.1 = .request strs → begun = strs.length) answers counts

theorem Holds.calls (holds : r.Holds free recv) (inputs : List (Buf × (Nat → UInt8) × Int)) :
    (r.calls inputs).map Prod.fst =
        inputs.mapM (fun input => input.1.connectRecv input.2.1 input.2.2) ∧
    ∀ answers counts r', r.calls inputs = some (answers, counts, r') →
      (∃ free recv, r'.Holds free recv) ∧ r'.used = counts.foldl max r.used ∧ Counted answers counts := by
  induction inputs generalizing r free recv with
  | nil =>
    refine ⟨rfl, fun answers counts r' same => ?_⟩
    cases same
    exact ⟨⟨_, _, holds⟩, rfl, .nil⟩
  | cons input rest ih =>
    obtain ⟨buf, junk, left⟩ := input
    obtain ⟨same, served⟩ := holds.connectRecv buf junk left
    rw [Records.calls, List.mapM_cons, ← same]
    cases first : r.connectRecv buf junk left with
    | none => exact ⟨rfl, fun _ _ _ none => by cases none⟩
    | some result =>
      obtain ⟨answer, begun, r1⟩ := result
      obtain ⟨⟨free1, recv1, holds1⟩, most, request⟩ := served _ _ _ first
      obtain ⟨same', served'⟩ := ih holds1
      dsimp only [bind, Option.bind, Option.map_some]
      rw [← same']
      cases later : r1.calls rest with
      | none => exact ⟨rfl, fun _ _ _ none => by cases none⟩
      | some results =>
        obtain ⟨answers, counts, r2⟩ := results
        obtain ⟨held, most', requests⟩ := served' _ _ _ later
        refine ⟨rfl, fun answers' counts' r' same => ?_⟩
        cases same
        exact ⟨held, by rw [most', most]; rfl, .cons request requests⟩

/-- Over any calls of etdb_connect_recv on any buffers, the requests are those that are read
    from recv_cmd, no record is in use twice or lost, and the pool gives out as many records as
    the call that parsed the most of them needed. -/
theorem records_are_recycled (links : Links Cell) (inputs : List (Buf × (Nat → UInt8) × Int)) :
    ((init links).calls inputs).map Prod.fst =
        inputs.mapM (fun input => input.1.connectRecv input.2.1 input.2.2) ∧
      ∀ answers counts r, (init links).calls inputs = some (answers, counts, r) →
        (∃ free recv, r.Holds free recv) ∧ r.used = counts.foldl max 0 ∧ Counted answers counts :=
  (init_holds links).calls inputs

end
end Records
end EtdbWire
