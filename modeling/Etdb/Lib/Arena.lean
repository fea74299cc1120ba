import Mathlib.Tactic.TypeStar

/- Regions set aside in blocks of one address space. A block is known by its first address
   and handed out from below: up to `top` it may be in use, the rest of it is free. Every
   region has an owner and a home, the block that it was taken from. -/
namespace Arena

structure Region where
  start : Nat
  len : Nat
  deriving DecidableEq

namespace Region

def Holds (r : Region) (a : Nat) : Prop := r.start ≤ a ∧ a < r.start + r.len

/-- No address is in both. An empty region is apart from every region. -/
def Apart (r s : Region) : Prop := ∀ a, r.Holds a → ¬ s.Holds a

theorem Apart.symm {r s : Region} (apart : r.Apart s) : s.Apart r := fun a right left =>
    apart a left right

theorem apart_of_le {r s : Region} (le : r.start + r.len ≤ s.start) : r.Apart s := by
  rintro a ⟨_, below⟩ ⟨above, _⟩
  omega

theorem Apart.join {r : Region} {a m n : Nat} (low : r.Apart ⟨a, m⟩) (high : r.Apart ⟨a + m, n⟩) :
    r.Apart ⟨a, m + n⟩ := by
  rintro x inside ⟨above, below⟩
  dsimp only at above below
  by_cases before : x < a + m
  · exact low x inside ⟨above, before⟩
  · exact high x inside ⟨by dsimp only; omega, by dsimp only; omega⟩

end Region

structure Layout (Owner : Type*) where
  owned : Nat → Prop
  top : Nat → Nat
  stop : Nat → Nat
  region : Owner → Option Region
  home : Owner → Nat

namespace Layout
variable {Owner : Type*} {L : Layout Owner} {i j n : Nat} {k : Owner} {r s : Region}

structure Sound (L : Layout Owner) : Prop where
  ordered : ∀ i, L.owned i → i ≤ L.top i ∧ L.top i ≤ L.stop i
  blocks : ∀ i j, L.owned i → L.owned j → i ≠ j → L.stop i ≤ j ∨ L.stop j ≤ i
  inside : ∀ k r, L.region k = some r →
    L.owned (L.home k) ∧ L.home k ≤ r.start ∧ r.start + r.len ≤ L.top (L.home k)
  disjoint : ∀ k k' r s, L.region k = some r → L.region k' = some s → k ≠ k' → r.Apart s

/-- A region in a block that no owner has yet, below the top. -/
structure Room (L : Layout Owner) (i : Nat) (r : Region) : Prop where
  owned : L.owned i
  low : i ≤ r.start
  high : r.start + r.len ≤ L.top i
  apart : ∀ k s, L.region k = some s → s.Apart r

theorem Sound.above (sound : L.Sound) (owned : L.owned i) (low : L.top i ≤ r.start)
    (high : r.start + r.len ≤ L.stop i) (here : L.region k = some s) : s.Apart r := by
  obtain ⟨home, above, below⟩ := sound.inside k s here
  by_cases same : L.home k = i
  · rw [same] at below
    exact Region.apart_of_le (Nat.le_trans below low)
  · have bounds := sound.ordered i owned
    have homeBounds := sound.ordered _ home
    cases sound.blocks _ i home owned same with
    | inl before => exact Region.apart_of_le (by omega)
    | inr after => exact (Region.apart_of_le (by omega)).symm

theorem Sound.across (sound : L.Sound) (left : L.owned i) (right : L.owned j) (other : i ≠ j)
    (low : i ≤ r.start) (high : r.start + r.len ≤ L.top i) (low' : j ≤ s.start)
    (high' : s.start + s.len ≤ L.top j) : r.Apart s := by
  have leftBounds := sound.ordered i left
  have rightBounds := sound.ordered j right
  cases sound.blocks i j left right other with
  | inl before => exact Region.apart_of_le (by omega)
  | inr after => exact (Region.apart_of_le (by omega)).symm

def raise (L : Layout Owner) (i n : Nat) : Layout Owner :=
    { L with top := fun j => if j = i then n else L.top j }

theorem le_raise (up : L.top i ≤ n) : L.top j ≤ (L.raise i n).top j := by
  by_cases same : j = i
  · subst same
    exact Nat.le_trans up (Nat.le_of_eq (if_pos rfl).symm)
  · exact Nat.le_of_eq (if_neg same).symm

theorem Sound.raise (sound : L.Sound) (up : L.top i ≤ n) (fits : n ≤ L.stop i) : (L.raise i n).Sound where
  ordered j owned := by
    have bounds := sound.ordered j owned
    refine ⟨Nat.le_trans bounds.1 (le_raise up), ?_⟩
    by_cases same : j = i
    · subst same
      exact Nat.le_trans (Nat.le_of_eq (if_pos rfl)) fits
    · exact Nat.le_trans (Nat.le_of_eq (if_neg same)) bounds.2
  blocks := sound.blocks
  inside k r here := by
    obtain ⟨home, above, below⟩ := sound.inside k r here
    exact ⟨home, above, Nat.le_trans below (le_raise up)⟩
  disjoint := sound.disjoint

theorem Sound.raise_room (sound : L.Sound) (owned : L.owned i) (fits : n ≤ L.stop i)
    (low : L.top i ≤ r.start) (high : r.start + r.len ≤ n) : (L.raise i n).Room i r where
  owned := owned
  low := Nat.le_trans (sound.ordered i owned).1 low
  high := Nat.le_trans high (Nat.le_of_eq (if_pos rfl).symm)
  apart _ _ here := sound.above owned low (Nat.le_trans high fits) here

theorem Room.raise (room : L.Room j r) (up : L.top i ≤ n) : (L.raise i n).Room j r where
  owned := room.owned
  low := room.low
  high := Nat.le_trans room.high (le_raise up)
  apart := room.apart

section
variable [DecidableEq Owner]

def place (L : Layout Owner) (k : Owner) (i : Nat) (r : Region) : Layout Owner :=
    { L with
      region := fun k' => if k' = k then some r else L.region k'
      home := fun k' => if k' = k then i else L.home k' }

theorem place_self : (L.place k i r).region k = some r := if_pos rfl

theorem place_home : (L.place k i r).home k = i := if_pos rfl

theorem place_other {k' : Owner} (other : k' ≠ k) : (L.place k i r).region k' = L.region k' :=
  if_neg other

theorem place_home_other {k' : Owner} (other : k' ≠ k) : (L.place k i r).home k' = L.home k' :=
  if_neg other

theorem Sound.place (sound : L.Sound) (owned : L.owned i) (low : i ≤ r.start)
    (high : r.start + r.len ≤ L.top i) (apart : ∀ k' s, k' ≠ k → L.region k' = some s → s.Apart r) :
    (L.place k i r).Sound where
  ordered := sound.ordered
  blocks := sound.blocks
  inside k' s here := by
    by_cases same : k' = k
    · subst same
      rw [place_self] at here
      cases here
      rw [place_home]
      exact ⟨owned, low, high⟩
    · rw [place_other same] at here
      rw [place_home_other same]
      exact sound.inside k' s here
  disjoint a b s t hs ht other := by
    by_cases left : a = k
    · subst left
      rw [place_self] at hs
      rw [place_other other.symm] at ht
      cases hs
      exact (apart b t other.symm ht).symm
    · rw [place_other left] at hs
      by_cases right : b = k
      · subst right
        rw [place_self] at ht
        cases ht
        exact apart a s left hs
      · rw [place_other right] at ht
        exact sound.disjoint a b s t hs ht other

theorem Room.sound (room : L.Room i r) (sound : L.Sound) : (L.place k i r).Sound :=
  sound.place room.owned room.low room.high fun k' s _ => room.apart k' s

theorem Room.stretch {a m : Nat} (room : L.Room i ⟨a + m, n⟩) (sound : L.Sound)
    (here : L.region k = some ⟨a, m⟩) (low : i ≤ a) : (L.place k i ⟨a, m + n⟩).Sound := by
  have high := room.high
  dsimp only at high
  refine sound.place room.owned low (by dsimp only; omega) fun k' s other found => ?_
  exact (sound.disjoint k' k s _ found here other).join (room.apart k' s found)

theorem Room.place (room : L.Room j s) (apart : r.Apart s) : (L.place k i r).Room j s where
  owned := room.owned
  low := room.low
  high := room.high
  apart k' t here := by
    by_cases same : k' = k
    · subst same
      rw [place_self] at here
      cases here
      exact apart
    · rw [place_other same] at here
      exact room.apart k' t here

end

/-- A new block from i to n, all of it in use up to m. -/
def acquire (L : Layout Owner) (i m n : Nat) : Layout Owner :=
    { L with
      owned := fun j => j = i ∨ L.owned j
      top := fun j => if j = i then m else L.top j
      stop := fun j => if j = i then n else L.stop j }

theorem Sound.acquire {m : Nat} (sound : L.Sound) (low : i ≤ m) (high : m ≤ n) (new : ¬ L.owned i)
    (clear : ∀ j, L.owned j → n ≤ j ∨ L.stop j ≤ i) : (L.acquire i m n).Sound := by
  have old : ∀ j, L.owned j → (L.acquire i m n).top j = L.top j ∧
    (L.acquire i m n).stop j = L.stop j := by
    intro j owned
    have other : j ≠ i := fun same => new (same ▸ owned)
    exact ⟨if_neg other, if_neg other⟩
  have topHere : (L.acquire i m n).top i = m := if_pos rfl
  have stopHere : (L.acquire i m n).stop i = n := if_pos rfl
  refine ⟨fun j owned => ?_, fun j j' owned owned' other => ?_, fun k r here => ?_, sound.disjoint⟩
  · cases owned with
    | inl same =>
      rw [same, topHere, stopHere]
      exact ⟨low, high⟩
    | inr owned =>
      rw [(old j owned).1, (old j owned).2]
      exact sound.ordered j owned
  · cases owned with
    | inl same =>
      cases owned' with
      | inl same' => exact absurd (same.trans same'.symm) other
      | inr owned' =>
        rw [same, stopHere, (old j' owned').2]
        exact clear j' owned'
    | inr owned =>
      rw [(old j owned).2]
      cases owned' with
      | inl same' =>
        rw [same', stopHere]
        exact (clear j owned).symm
      | inr owned' =>
        rw [(old j' owned').2]
        exact sound.blocks j j' owned owned' other
  · obtain ⟨home, above, below⟩ := sound.inside k r here
    refine ⟨Or.inr home, above, ?_⟩
    exact Nat.le_trans below (Nat.le_of_eq (old _ home).1.symm)

theorem Sound.acquire_room {m : Nat} (sound : L.Sound) (high : m ≤ n)
    (clear : ∀ j, L.owned j → n ≤ j ∨ L.stop j ≤ i) (low : i ≤ r.start) (fits : r.start + r.len ≤ m) :
    (L.acquire i m n).Room i r where
  owned := Or.inl rfl
  low := low
  high := Nat.le_trans fits (Nat.le_of_eq (if_pos rfl).symm)
  apart k s here := by
    obtain ⟨home, above, below⟩ := sound.inside k s here
    have bounds := sound.ordered _ home
    cases clear _ home with
    | inl before => exact (Region.apart_of_le (by omega)).symm
    | inr after => exact Region.apart_of_le (by omega)

theorem Room.acquire {m : Nat} (room : L.Room j r) (new : ¬ L.owned i) : (L.acquire i m n).Room j r where
  owned := Or.inr room.owned
  low := room.low
  high := by
    have other : j ≠ i := fun same => new (same ▸ room.owned)
    exact Nat.le_trans room.high (Nat.le_of_eq (if_neg other).symm)
  apart := room.apart

theorem Room.apart_room (room : L.Room i r) (sound : L.Sound) (room' : L.Room j s) (other : i ≠ j) :
    r.Apart s :=
  sound.across room.owned room'.owned other room.low room.high room'.low room'.high

def clear (L : Layout Owner) (i : Nat) : Layout Owner :=
    { L with region := fun k => if L.home k = i then none else L.region k }

theorem clear_region (other : L.home k ≠ i) : (L.clear i).region k = L.region k := if_neg other

theorem clear_some (here : (L.clear i).region k = some r) : L.home k ≠ i ∧ L.region k = some r := by
  by_cases same : L.home k = i
  · exact absurd ((if_pos same).symm.trans here) nofun
  · exact ⟨same, (clear_region same).symm.trans here⟩

theorem Sound.clear (sound : L.Sound) (i : Nat) : (L.clear i).Sound where
  ordered := sound.ordered
  blocks := sound.blocks
  inside k r here := sound.inside k r (clear_some here).2
  disjoint k k' r s hr hs := sound.disjoint k k' r s (clear_some hr).2 (clear_some hs).2

def disown (L : Layout Owner) (i : Nat) : Layout Owner :=
    { L with owned := fun j => L.owned j ∧ j ≠ i }

theorem Sound.disown (sound : L.Sound) (unused : ∀ k r, L.region k = some r → L.home k ≠ i) :
    (L.disown i).Sound where
  ordered j owned := sound.ordered j owned.1
  blocks j j' owned owned' := sound.blocks j j' owned.1 owned'.1
  inside k r here := by
    obtain ⟨home, bounds⟩ := sound.inside k r here
    exact ⟨⟨home, unused k r here⟩, bounds⟩
  disjoint := sound.disjoint

end Layout
end Arena
