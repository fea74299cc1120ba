import Etdb.Lib.Ring

/- Queues whose links lie in the cells themselves. A queue is a ring read from its head,
   so that every rule names the cells in their order; a cell off the ring that is worked
   on keeps its links. -/
namespace LinkedQueue
open CircularRing
variable {Cell : Type*}

structure Links (Cell : Type*) where
  next : Cell → Cell
  prev : Cell → Cell

namespace Links

def Ring (m : Links Cell) (l : List Cell) : Prop := IsRing m.next m.prev l

def Agree (m m' : Links Cell) (u : Cell) : Prop := m'.next u = m.next u ∧ m'.prev u = m.prev u

theorem Agree.trans {m m' m'' : Links Cell} {u : Cell} (first : m.Agree m' u) (second : m'.Agree m'' u) :
    m.Agree m'' u := ⟨second.1.trans first.1, second.2.trans first.2⟩

theorem Ring.frame {m m' : Links Cell} {l : List Cell} (ring : m.Ring l) (agree : ∀ u ∈ l, m.Agree m' u) :
    m'.Ring l :=
  ring_congr ring (fun u member => (agree u member).1) fun u member => (agree u member).2

/-- A ring of one kind of cells is kept by whatever leaves the cells of that kind alone. -/
theorem Ring.frame_map {Part : Type} {m m' : Links Cell} (part : Part → Cell) {h : Part} {l : List Part}
    (ring : m.Ring (part h :: l.map part)) (agree : ∀ x, m.Agree m' (part x)) :
    m'.Ring (part h :: l.map part) := by
  refine ring.frame fun u member => ?_
  obtain ⟨x, _, rfl⟩ := List.mem_map.mp (show u ∈ (h :: l).map part from member)
  exact agree x

def mirror (m : Links Cell) : Links Cell := ⟨m.prev, m.next⟩

theorem Ring.mirror {m : Links Cell} {h : Cell} {l : List Cell} (ring : m.Ring (h :: l)) :
    m.mirror.Ring (h :: l.reverse) := ring_mirror ring

variable [DecidableEq Cell]

def setNext (m : Links Cell) (q x : Cell) : Links Cell :=
    { m with next := fun u => if u = q then x else m.next u }

def setPrev (m : Links Cell) (q x : Cell) : Links Cell :=
    { m with prev := fun u => if u = q then x else m.prev u }

def init (m : Links Cell) (q : Cell) : Links Cell := (m.setPrev q q).setNext q q

def insertHead (m : Links Cell) (h x : Cell) : Links Cell :=
  let m := m.setNext x (m.next h)
  let m := m.setPrev (m.next x) x
  let m := m.setPrev x h
  m.setNext h x

def remove (m : Links Cell) (x : Cell) : Links Cell :=
  let m := m.setPrev (m.next x) (m.prev x)
  m.setNext (m.prev x) (m.next x)

variable {m : Links Cell} {h q u x : Cell} {l before after : List Cell}

theorem init_ring (m : Links Cell) (q : Cell) : (m.init q).Ring [q] :=
  ring_single.mpr ⟨if_pos rfl, if_pos rfl⟩

theorem init_other (m : Links Cell) (other : u ≠ q) : m.Agree (m.init q) u := ⟨if_neg other, if_neg other⟩

theorem insertHead_next (other : u ≠ h) (old : u ≠ x) : (m.insertHead h x).next u = m.next u := by
  simp only [insertHead, setNext, setPrev, if_neg other, if_neg old]

theorem insertHead_prev (after : u ≠ m.next h) (old : u ≠ x) : (m.insertHead h x).prev u = m.prev u := by
  simp only [insertHead, setNext, setPrev, ↓reduceIte, if_neg old, if_neg after]

theorem insertHead_other (ring : m.Ring (h :: l)) (out : u ∉ h :: l) (old : u ≠ x) :
    m.Agree (m.insertHead h x) u := by
  have step : u ≠ m.next h := fun same => out (same ▸ next_member ring List.mem_cons_self)
  exact ⟨insertHead_next (fun same => out (same ▸ List.mem_cons_self)) old, insertHead_prev step old⟩

theorem insertHead_ring (ring : m.Ring (h :: l)) (fresh : x ∉ h :: l) : (m.insertHead h x).Ring
    (h :: x :: l) := by
  have apart : x ≠ h := fun same => fresh (same ▸ List.mem_cons_self)
  have step : m.next h ≠ x := fun same => fresh (same ▸ next_member ring List.mem_cons_self)
  have old : ∀ v ∈ h :: l, v ≠ x := fun v member same => fresh (same ▸ member)
  refine insert_behind_head ring fresh ?_ ?_ ?_ ?_ (fun v member => ?_) fun v member other => ?_
  · simp only [insertHead, setNext, setPrev, ↓reduceIte]
  · simp only [insertHead, setNext, setPrev, ↓reduceIte, if_neg apart]
  · simp only [insertHead, setNext, setPrev, ↓reduceIte]
  · simp only [insertHead, setNext, setPrev, ↓reduceIte, if_neg step]
  · have distinct : v ≠ h := fun same => (List.nodup_cons.mp ring.1).1 (same ▸ member)
    exact insertHead_next distinct (old v (List.mem_cons_of_mem _ member))
  · exact insertHead_prev other (old v member)

theorem remove_next (m : Links Cell) (x u : Cell) :
    (m.remove x).next u = if u = m.prev x then m.next x else m.next u := by
  simp only [remove, setNext, setPrev, ite_self]

theorem remove_prev (m : Links Cell) (x u : Cell) :
    (m.remove x).prev u = if u = m.next x then m.prev x else m.prev u := rfl

theorem remove_other (ring : m.Ring l) (member : x ∈ l) (out : u ∉ l) : m.Agree (m.remove x) u := by
  refine ⟨?_, ?_⟩
  · rw [remove_next, if_neg fun same : u = m.prev x => out (same ▸ prev_member ring member)]
  · rw [remove_prev, if_neg fun same : u = m.next x => out (same ▸ next_member ring member)]

theorem remove_ring (ring : m.Ring (h :: (before ++ x :: after))) :
    (m.remove x).Ring (h :: (before ++ after)) := by
  have turned : IsRing m.next m.prev (x :: (after ++ h :: before)) :=
    ring_rotate (show IsRing m.next m.prev ((h :: before) ++ (x :: after)) from ring)
  have rest : IsRing (m.remove x).next (m.remove x).prev (after ++ h :: before) := by
    refine unlink_head turned (by simp) ?_ ?_ (fun u _ other => ?_) fun u _ other => ?_
    · rw [remove_next, if_pos rfl]
    · rw [remove_prev, if_pos rfl]
    · rw [remove_next, if_neg other]
    · rw [remove_prev, if_neg other]
  exact ring_rotate rest

def insertTail (m : Links Cell) (h x : Cell) : Links Cell :=
  let m := m.setPrev x (m.prev h)
  let m := m.setNext (m.prev x) x
  let m := m.setNext x h
  m.setPrev h x

/-- The cells of a second queue are put behind those of the first; its own head keeps its links. -/
def add (m : Links Cell) (h n : Cell) : Links Cell :=
  let m := m.setNext (m.prev h) (m.next n)
  let m := m.setPrev (m.next n) (m.prev h)
  let m := m.setPrev h (m.prev n)
  m.setNext (m.prev h) h

theorem insertTail_mirror (m : Links Cell) (h x : Cell) :
    m.insertTail h x = (m.mirror.insertHead h x).mirror := rfl

theorem insertTail_ring (ring : m.Ring (h :: l)) (fresh : x ∉ h :: l) :
    (m.insertTail h x).Ring (h :: (l ++ [x])) := by
  have turned := insertHead_ring ring.mirror (show x ∉ h :: l.reverse by simpa using fresh)
  simpa [insertTail_mirror] using turned.mirror

theorem insertTail_other (ring : m.Ring (h :: l)) (out : u ∉ h :: l) (old : u ≠ x) :
    m.Agree (m.insertTail h x) u :=
  (insertHead_other ring.mirror (show u ∉ h :: l.reverse by simpa using out) old).symm

variable {n : Cell} {k : List Cell}

theorem add_links (some : m.next n ≠ n) (u : Cell) :
    (m.add h n).next u = (if u = m.prev n then h else if u = m.prev h then m.next n else m.next u) ∧
      (m.add h n).prev u = if u = h then m.prev n else if u = m.next n then m.prev h else m.prev u := by
  simp [add, setNext, setPrev, if_neg (Ne.symm some)]

theorem add_ring (ring : m.Ring (h :: l)) (more : m.Ring (n :: k)) (some : k ≠ [])
    (apart : ∀ u ∈ h :: l, u ∉ n :: k) : (m.add h n).Ring (h :: (l ++ k)) := by
  obtain ⟨first, last⟩ := ends_member more some
  have old : m.prev h ∈ h :: l := prev_member ring List.mem_cons_self
  have links := add_links (h := h) fun same : m.next n = n => (List.nodup_cons.mp more.1).1 (same ▸ first)
  refine splice ring more some apart ?_ ?_ ?_ ?_ (fun u hu other away => ?_) fun u hu other => ?_
  · have distinct : m.prev h ≠ m.prev n := fun same =>
      apart _ old (same ▸ List.mem_cons_of_mem n last)
    rw [(links _).1, if_neg distinct, if_pos rfl]
  · have distinct : m.next n ≠ h := fun same =>
      apart h List.mem_cons_self (same ▸ List.mem_cons_of_mem n first)
    rw [(links _).2, if_neg distinct, if_pos rfl]
  · rw [(links _).1, if_pos rfl]
  · rw [(links _).2, if_pos rfl]
  · rw [(links u).1, if_neg away, if_neg other]
  · have distinct : u ≠ h := by
      rintro rfl
      rcases List.mem_append.mp hu with first | second
      · exact (List.nodup_cons.mp ring.1).1 first
      · exact apart _ List.mem_cons_self (List.mem_cons_of_mem n second)
    rw [(links u).2, if_neg distinct, if_neg other]

end Links
end LinkedQueue
