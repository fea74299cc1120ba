import Etdb.Server.Descriptors
import Etdb.Server.Interleaving

/- The loop with its descriptors, while the clients send requests: it always goes on, and
   the connections are served as the cycle serves them. -/
namespace EtdbServer
open EtdbTrie EtdbEvent
open EtdbWire (Reader message)

def Loop.CalmRun {K : Type} [Epoll K] (atof : List UInt8 → Option ℚ)
    (sends : Nat → List (List (List UInt8))) : Loop K → List LoopInput → Prop
  | _, [] => True
  | l, input :: rest => (∀ o, input = .next o → l.seen.Calm atof o) ∧
      ∀ l', l.step atof input = some l' → l'.seen.Conforms sends ∧ l'.CalmRun atof sends rest

section
variable {K : Type} [Epoll K] {atof : List UInt8 → Option ℚ} {sends : Nat → List (List (List UInt8))}
variable {listener : Nat} {l l' : Loop K} {w : Watches Owner} {s0 : Server} {inputs : List LoopInput}

namespace Loop

theorem Keeps.opened (keeps : l.Keeps listener w) {id : Nat} {link : Link}
    (here : l.base.links id = some link) : Epoll.isOpen l.mgr.kernel (l.sock id) = true := by
  obtain ⟨a, watched, _⟩ := keeps.links id link here
  exact (keeps.inStep (l.sock id)).opened (by rw [watched]; exact Option.some_ne_none a)

variable [EpollLaws K] [EpollAmple K]

theorem Keeps.runs (proper : ∀ id, ∀ m ∈ sends id, EtdbWire.Proper m) (keeps : l.Keeps listener w)
    (serving : l.seen.Keeps atof s0 sends) (possible : l.PossibleRun atof inputs)
    (calm : l.CalmRun atof sends inputs) :
    ∃ l' w', l.run atof inputs = some l' ∧ l'.Keeps listener w' ∧ l'.seen.Keeps atof s0 sends := by
  induction inputs generalizing l w with
  | nil => exact ⟨l, w, rfl, keeps, serving⟩
  | cons input rest ih =>
    obtain ⟨now, later⟩ := possible
    obtain ⟨quiet, following⟩ := calm
    obtain ⟨input', alike, same, kept⟩ := keeps.step atof input now
    have quiet' : ∀ o, input' = .next o → l.seen.Calm atof o := by
      intro o next
      subst next
      cases input with
      | next o' =>
        cases alike
        exact quiet o rfl
      | wait _ => exact alike.elim
      | ended => exact alike.elim
    have conforms : ∀ c', l.seen.step atof input' = some c' → c'.Conforms sends := by
      intro c' step
      rw [← same, Option.map_eq_some_iff] at step
      obtain ⟨l', step, rfl⟩ := step
      exact (following l' step).1
    obtain ⟨c', step, serving'⟩ := serving.step proper input' quiet' conforms
    rw [← same, Option.map_eq_some_iff] at step
    obtain ⟨l1, step, rfl⟩ := step
    obtain ⟨w1, keeps1⟩ := kept l1 step
    obtain ⟨l', w', run, rest⟩ := ih keeps1 serving' (later l1 step) (following l1 step).2
    exact ⟨l', w', bind_run step run, rest⟩

end Loop

namespace Loop

def calmInput (atof : List UInt8 → Option ℚ) (l : Loop K) : LoopInput → Bool
  | .next o => l.seen.Calm atof o
  | _ => true

def calmly (atof : List UInt8 → Option ℚ) (sends : Nat → List (List (List UInt8))) (l : Loop K) :
    List LoopInput → Option (Loop K)
  | [] => some l
  | input :: rest =>
    if l.Possible input ∧ l.calmInput atof input then
      (l.step atof input).bind fun l' =>
        if l'.seen.conforms sends then l'.calmly atof sends rest else none
    else none

theorem Keeps.conforms (keeps : l.Keeps listener w) (conform : l.seen.conforms sends) :
    l.seen.Conforms sends := by
  intro id link here
  have low : id < l.base.fresh := by
    by_contra high
    rw [show l.seen.links id = none from keeps.unused id (not_lt.mp high)] at here
    cases here
  exact of_decide_eq_true conform id low link here

end Loop
end

end EtdbServer
