import Etdb.Geo.Box

/- etdb_geo_hash_get_neighbor and etdb_geo_hash_neighbors. A code is a number on each axis,
   a digit of two or three bits for every character; the tables step one digit and the
   recursion is the carry. A buffer is the list of its bytes, and an access outside ends the
   run with none. -/
namespace EtdbGeoHash

inductive Direction where
  | north
  | east
  | south
  | west
  deriving DecidableEq

def Direction.index : Direction → Nat
  | .north => 0
  | .east => 1
  | .south => 2
  | .west => 3

/-- "p0r21436x8zb9dcf5h7kjnmqesgutwvy",
    "bc01fg45238967deuvhjyznpkmstqrwx",
    "14365h7k9dcfesgujnmqp0r2twvyx8zb",
    "238967debc01fg45kmstqrwxuvhjyznp" -/
def evenNeighbors : List (List UInt8) :=
  [[112, 48, 114, 50, 49, 52, 51, 54, 120, 56, 122, 98, 57, 100, 99, 102, 53, 104, 55, 107, 106, 110,
      109, 113, 101, 115, 103, 117, 116, 119, 118, 121],
    [98, 99, 48, 49, 102, 103, 52, 53, 50, 51, 56, 57, 54, 55, 100, 101, 117, 118, 104, 106, 121, 122,
      110, 112, 107, 109, 115, 116, 113, 114, 119, 120],
    [49, 52, 51, 54, 53, 104, 55, 107, 57, 100, 99, 102, 101, 115, 103, 117, 106, 110, 109, 113, 112, 48,
      114, 50, 116, 119, 118, 121, 120, 56, 122, 98],
    [50, 51, 56, 57, 54, 55, 100, 101, 98, 99, 48, 49, 102, 103, 52, 53, 107, 109, 115, 116, 113, 114,
      119, 120, 117, 118, 104, 106, 121, 122, 110, 112]]

/-- "bc01fg45238967deuvhjyznpkmstqrwx",
    "p0r21436x8zb9dcf5h7kjnmqesgutwvy",
    "238967debc01fg45kmstqrwxuvhjyznp",
    "14365h7k9dcfesgujnmqp0r2twvyx8zb" -/
def oddNeighbors : List (List UInt8) :=
  [[98, 99, 48, 49, 102, 103, 52, 53, 50, 51, 56, 57, 54, 55, 100, 101, 117, 118, 104, 106, 121, 122,
      110, 112, 107, 109, 115, 116, 113, 114, 119, 120],
    [112, 48, 114, 50, 49, 52, 51, 54, 120, 56, 122, 98, 57, 100, 99, 102, 53, 104, 55, 107, 106, 110,
      109, 113, 101, 115, 103, 117, 116, 119, 118, 121],
    [50, 51, 56, 57, 54, 55, 100, 101, 98, 99, 48, 49, 102, 103, 52, 53, 107, 109, 115, 116, 113, 114,
      119, 120, 117, 118, 104, 106, 121, 122, 110, 112],
    [49, 52, 51, 54, 53, 104, 55, 107, 57, 100, 99, 102, 101, 115, 103, 117, 106, 110, 109, 113, 112, 48,
      114, 50, 116, 119, 118, 121, 120, 56, 122, 98]]

/-- "prxz", "bcfguvyz", "028b", "0145hjnp" -/
def evenBorders : List (List UInt8) :=
  [[112, 114, 120, 122],
    [98, 99, 102, 103, 117, 118, 121, 122],
    [48, 50, 56, 98],
    [48, 49, 52, 53, 104, 106, 110, 112]]

/-- "bcfguvyz", "prxz", "0145hjnp", "028b" -/
def oddBorders : List (List UInt8) :=
  [[98, 99, 102, 103, 117, 118, 121, 122],
    [112, 114, 120, 122],
    [48, 49, 52, 53, 104, 106, 110, 112],
    [48, 50, 56, 98]]

def copyBytes (nei hash : List UInt8) (count : Nat) : Option (List UInt8) :=
  if count ≤ hash.length ∧ count ≤ nei.length then some (hash.take count ++ nei.drop count) else none

/-- etdb_geo_hash_get_neighbor. Nothing stops it at the length 0, where it reads hash[-1]. -/
def getNeighbor (hash : List UInt8) (direction : Direction) : Nat → List UInt8 → Option (List UInt8)
  | 0, _ => none
  | n + 1, nei => do
    let lastChar ← hash[n]?
    let isOdd := (n + 1) % 2
    let border ← (if isOdd ≠ 0 then oddBorders else evenBorders)[direction.index]?
    let neighbor ← (if isOdd ≠ 0 then oddNeighbors else evenNeighbors)[direction.index]?
    let nei ← if indexForChar lastChar border ≠ -1 then getNeighbor hash direction n nei else copyBytes nei hash n
    let neighborIndex := indexForChar lastChar neighbor
    let lastChar ← if neighborIndex < 0 then none else charMap[neighborIndex.toNat]?
    if n < nei.length then some (nei.set n lastChar) else none

/-- One line of etdb_geo_hash_neighbors: the neighbor of `hash` goes to the buffer `k`. -/
def fillNeighbor (charAmount : Nat) (hash : List UInt8) (direction : Direction) (k : Nat)
    (neighbors : List (List UInt8)) : Option (List (List UInt8)) := do
  let nei ← neighbors[k]?
  let nei ← getNeighbor hash direction charAmount nei
  some (neighbors.set k nei)

/-- etdb_geo_hash_neighbors: N, NE, E, SE, S, SW, W, NW -/
def neighbors (hash : List UInt8) (charAmount : Nat) (out : List (List UInt8)) :
    Option (List (List UInt8)) := do
  let out ← fillNeighbor charAmount hash .north 0 out
  let out ← fillNeighbor charAmount (← out[0]?) .east 1 out
  let out ← fillNeighbor charAmount hash .east 2 out
  let out ← fillNeighbor charAmount (← out[2]?) .south 3 out
  let out ← fillNeighbor charAmount hash .south 4 out
  let out ← fillNeighbor charAmount (← out[4]?) .west 5 out
  let out ← fillNeighbor charAmount hash .west 6 out
  fillNeighbor charAmount (← out[6]?) .north 7 out

/-- A code is a number on each axis with so many bits. -/
structure Spot where
  lats : Nat
  lat : Nat
  lngs : Nat
  lng : Nat
  isEven : Bool
  deriving DecidableEq

namespace Spot

def world : Spot := ⟨0, 0, 0, 0, true⟩

def cut (s : Spot) (bit : Bool) : Spot :=
  if s.isEven then ⟨s.lats, s.lat, s.lngs + 1, 2 * s.lng + bit.toNat, false⟩
  else ⟨s.lats + 1, 2 * s.lat + bit.toNat, s.lngs, s.lng, true⟩

def char (s : Spot) (c : UInt8) : Spot :=
    (List.range 5).foldl (fun s j => s.cut (bitAt (charMapIndex c) j)) s

def read (hash : List UInt8) : Spot := hash.foldl char world

def digit (isEven : Bool) (c : UInt8) : Spot := char ⟨0, 0, 0, 0, isEven⟩ c

structure Within (s : Spot) : Prop where
  lat : s.lat < 2 ^ s.lats
  lng : s.lng < 2 ^ s.lngs

/-- How many cells lie between a cell and the edge of the world. -/
def room (s : Spot) : Direction → Nat
  | .north => 2 ^ s.lats - 1 - s.lat
  | .east => 2 ^ s.lngs - 1 - s.lng
  | .south => s.lat
  | .west => s.lng

def across (s : Spot) : Direction → Nat
  | .north | .south => s.lng
  | .east | .west => s.lat

structure Beside (direction : Direction) (s s' : Spot) : Prop where
  turn : s'.isEven = s.isEven
  lats : s'.lats = s.lats
  lngs : s'.lngs = s.lngs
  room : s'.room direction + 1 = s.room direction
  across : s'.across direction = s.across direction

end Spot

def part (low width : ℚ) (bits k : Nat) : Interval :=
    ⟨low + (k + 1) * (width / 2 ^ bits), low + k * (width / 2 ^ bits)⟩

/-- The box of a code ends where the world does. -/
def Touches : Direction → Coord → Prop
  | .north, box => box.north = maxLat
  | .east, box => box.east = maxLong
  | .south, box => box.south = minLat
  | .west, box => box.west = minLong

/-- The second box begins at the edge of the first and has its extent on the other axis. -/
def Adjacent : Direction → Coord → Coord → Prop
  | .north, box, box' => box'.south = box.north ∧ box'.west = box.west ∧ box'.east = box.east
  | .east, box, box' => box'.west = box.east ∧ box'.south = box.south ∧ box'.north = box.north
  | .south, box, box' => box'.north = box.south ∧ box'.west = box.west ∧ box'.east = box.east
  | .west, box, box' => box'.east = box.west ∧ box'.south = box.south ∧ box'.north = box.north

structure Spelled (hash : List UInt8) : Prop where
  some : hash ≠ []
  chars : ∀ c ∈ hash, c ∈ charMap

def Spot.cell (s : Spot) : Cell := ⟨part minLat 180 s.lats s.lat, part minLong 360 s.lngs s.lng, s.isEven⟩

section
variable {s s' : Spot} {direction : Direction} {c c' : UInt8} {hash nei : List UInt8} {n : Nat}

theorem move_part (low width : ℚ) (bits k : Nat) (bit : Bool) :
    Cell.move (part low width bits k) bit = part low width (bits + 1) (2 * k + bit.toNat) := by
  have half : width / 2 ^ (bits + 1) = width / 2 ^ bits / 2 := by rw [pow_succ, div_div]
  unfold Cell.move part
  rw [half]
  cases bit
  · simp only [Bool.false_eq_true, ↓reduceIte, Bool.toNat_false, Interval.mk.injEq]
    push_cast
    constructor <;> ring
  · simp only [↓reduceIte, Bool.toNat_true, Interval.mk.injEq]
    push_cast
    constructor <;> ring

theorem cut_cell (s : Spot) (bit : Bool) : s.cell.cut bit = (s.cut bit).cell := by
  unfold Spot.cell Cell.cut Spot.cut
  cases s.isEven <;> simp [move_part]

theorem decodeChar_cell (s : Spot) (c : UInt8) : decodeChar s.cell c = (s.char c).cell := by
  unfold decodeChar Spot.char
  induction List.range 5 generalizing s with
  | nil => rfl
  | cons j rest ih =>
    rw [List.foldl_cons, List.foldl_cons, cut_cell]
    exact ih (s.cut _)

theorem decodeLoop_cell (s : Spot) (hash : List UInt8) : decodeLoop hash s.cell =
    (hash.foldl Spot.char s).cell := by
  unfold decodeLoop
  induction hash generalizing s with
  | nil => rfl
  | cons c rest ih =>
    rw [List.foldl_cons, List.foldl_cons, decodeChar_cell]
    exact ih (s.char c)

theorem decode_spot (hash : List UInt8) : decodeLoop hash Cell.world = (Spot.read hash).cell := by
  have start : Cell.world = Spot.world.cell := by
    norm_num [Cell.world, Spot.cell, Spot.world, part, maxLat, minLat, maxLong, minLong]
  rw [start, decodeLoop_cell]
  rfl

theorem digit_size (isEven : Bool) (c : UInt8) : (Spot.digit isEven c).lats = (if isEven then 2 else 3) ∧
    (Spot.digit isEven c).lngs = (if isEven then 3 else 2) := by
  cases isEven <;> simp [Spot.digit, Spot.char, Spot.cut, List.range, List.range.loop]

theorem digit_within (isEven : Bool) (c : UInt8) : (Spot.digit isEven c).Within := by
  have bit : ∀ b : Bool, b.toNat ≤ 1 := Bool.toNat_le
  cases isEven <;> constructor <;>
    simp only [Spot.digit, Spot.char, Spot.cut, List.range, List.range.loop,
    List.foldl_cons, List.foldl_nil,
      ↓reduceIte, Bool.false_eq_true] <;>
    (have h0 := bit (bitAt (charMapIndex c) 0)
     have h1 := bit (bitAt (charMapIndex c) 1)
     have h2 := bit (bitAt (charMapIndex c) 2)
     have h3 := bit (bitAt (charMapIndex c) 3)
     have h4 := bit (bitAt (charMapIndex c) 4)
     omega)

theorem char_digit (s : Spot) (c : UInt8) : s.char c =
    ⟨s.lats + (Spot.digit s.isEven c).lats,
    s.lat * 2 ^ (Spot.digit s.isEven c).lats + (Spot.digit s.isEven c).lat,
      s.lngs + (Spot.digit s.isEven c).lngs,
      s.lng * 2 ^ (Spot.digit s.isEven c).lngs + (Spot.digit s.isEven c).lng, !s.isEven⟩ := by
  obtain ⟨lats, lat, lngs, lng, isEven⟩ := s
  cases isEven <;>
    simp only [Spot.digit, Spot.char, Spot.cut, List.range, List.range.loop,
    List.foldl_cons, List.foldl_nil,
      ↓reduceIte, Bool.false_eq_true, Spot.mk.injEq, Bool.not_true, Bool.not_false, Nat.reduceAdd,
      Nat.reducePow, true_and, and_true] <;>
    omega

theorem Spot.Within.char (within : s.Within) (c : UInt8) : (s.char c).Within := by
  obtain ⟨lat, lng⟩ := within
  obtain ⟨digitLat, digitLng⟩ := digit_within s.isEven c
  obtain ⟨lats, lngs⟩ := digit_size s.isEven c
  rw [char_digit]
  constructor
  · dsimp only
    rw [Nat.pow_add, Nat.mul_comm s.lat]
    exact Nat.mul_add_lt_mul_of_lt_of_lt lat digitLat
  · dsimp only
    rw [Nat.pow_add, Nat.mul_comm s.lng]
    exact Nat.mul_add_lt_mul_of_lt_of_lt lng digitLng

def digitBits (isEven : Bool) : Direction → Nat
  | .north | .south => if isEven then 2 else 3
  | .east | .west => if isEven then 3 else 2

theorem room_char (within : s.Within) (direction : Direction) (c : UInt8) : (s.char c).room direction =
    s.room direction * 2 ^ digitBits s.isEven direction + (Spot.digit s.isEven c).room direction := by
  obtain ⟨lat, lng⟩ := within
  obtain ⟨digitLat, digitLng⟩ := digit_within s.isEven c
  obtain ⟨lats, lngs⟩ := digit_size s.isEven c
  rw [char_digit]
  rw [lats] at digitLat
  rw [lngs] at digitLng
  cases even : s.isEven <;> rw [even] at digitLat digitLng lats lngs <;> cases direction <;>
    simp only [Spot.room, digitBits, lats, lngs, Nat.pow_add, Bool.false_eq_true,
    ↓reduceIte, Nat.reducePow]
      at digitLat digitLng ⊢ <;>
    omega

theorem across_char (turn : s'.isEven = s.isEven) (prior : s'.across direction = s.across direction)
    (digits : (Spot.digit s.isEven c').across direction = (Spot.digit s.isEven c).across direction) :
    (s'.char c').across direction = (s.char c).across direction := by
  obtain ⟨lats, lngs⟩ := digit_size s.isEven c
  obtain ⟨lats', lngs'⟩ := digit_size s.isEven c'
  rw [char_digit, char_digit s, turn]
  cases direction <;> simp only [Spot.across, lats, lngs, lats', lngs'] at prior digits ⊢ <;>
    rw [prior, digits]

theorem beside_step (within : s.Within)
    (step : (Spot.digit s.isEven c').room direction + 1 = (Spot.digit s.isEven c).room direction)
    (digits : (Spot.digit s.isEven c').across direction = (Spot.digit s.isEven c).across direction) :
    Spot.Beside direction (s.char c) (s.char c') := by
  obtain ⟨lats, lngs⟩ := digit_size s.isEven c
  obtain ⟨lats', lngs'⟩ := digit_size s.isEven c'
  refine ⟨?_, ?_, ?_, ?_, across_char rfl rfl digits⟩
  · rw [char_digit, char_digit s c]
  · rw [char_digit, char_digit s c, lats, lats']
  · rw [char_digit, char_digit s c, lngs, lngs']
  · rw [room_char within, room_char within, Nat.add_assoc, step]

theorem beside_carry (within : s.Within) (within' : s'.Within) (beside : Spot.Beside direction s s')
    (last : (Spot.digit s.isEven c).room direction = 0)
    (wrapped : (Spot.digit s.isEven c').room direction + 1 = 2 ^ digitBits s.isEven direction)
    (digits : (Spot.digit s.isEven c').across direction = (Spot.digit s.isEven c).across direction) :
    Spot.Beside direction (s.char c) (s'.char c') := by
  obtain ⟨turn, sameLats, sameLngs, room, across⟩ := beside
  obtain ⟨lats, lngs⟩ := digit_size s.isEven c
  obtain ⟨lats', lngs'⟩ := digit_size s.isEven c'
  refine ⟨?_, ?_, ?_, ?_, across_char turn across digits⟩
  · rw [char_digit, char_digit s c, turn]
  · rw [char_digit, char_digit s c, turn, sameLats, lats, lats']
  · rw [char_digit, char_digit s c, turn, sameLngs, lngs, lngs']
  · rw [room_char within, room_char within', turn, last, Nat.add_assoc, wrapped, ← room,
      Nat.add_mul, Nat.one_mul, Nat.add_zero]

/- The tables, by the axis whose turn the last character begins with. -/

def borderTable (isEven : Bool) (direction : Direction) : List UInt8 :=
  (if isEven then oddBorders else evenBorders).getD direction.index []

def neighborTable (isEven : Bool) (direction : Direction) : List UInt8 :=
  (if isEven then oddNeighbors else evenNeighbors).getD direction.index []

def nextChar (isEven : Bool) (direction : Direction) (c : UInt8) : UInt8 :=
  charMap.getD (indexForChar c (neighborTable isEven direction)).toNat 0

structure TableStep (isEven : Bool) (direction : Direction) (c : UInt8) : Prop where
  found : 0 ≤ indexForChar c (neighborTable isEven direction)
  inside : (indexForChar c (neighborTable isEven direction)).toNat < 32
  across : (Spot.digit isEven (nextChar isEven direction c)).across direction = (Spot.digit isEven c).across direction
  step : indexForChar c (borderTable isEven direction) = -1 →
    (Spot.digit isEven (nextChar isEven direction c)).room direction + 1 =
    (Spot.digit isEven c).room direction
  carry : indexForChar c (borderTable isEven direction) ≠ -1 → (Spot.digit isEven c).room direction = 0 ∧
    (Spot.digit isEven (nextChar isEven direction c)).room direction + 1 = 2 ^ digitBits isEven direction

instance (isEven : Bool) (direction : Direction) (c : UInt8) : Decidable (TableStep isEven direction c) :=
  decidable_of_iff (_ ∧ _ ∧ _ ∧ (_ → _) ∧ (_ → _ ∧ _))
    ⟨fun h => ⟨h.1, h.2.1, h.2.2.1, h.2.2.2.1, h.2.2.2.2⟩, fun h => ⟨h.1, h.2, h.3, h.4, h.5⟩⟩

theorem table_steps (isEven : Bool) (direction : Direction) : ∀ c ∈ charMap,
    TableStep isEven direction c := by
  cases isEven <;> cases direction <;> decide +kernel

theorem read_snoc (hash : List UInt8) (c : UInt8) :
    Spot.read (hash ++ [c]) = (Spot.read hash).char c := by
  rw [Spot.read, List.foldl_append]
  rfl

theorem read_turn (hash : List UInt8) : (Spot.read hash).isEven = decide (hash.length % 2 = 0) := by
  induction hash using List.reverseRecOn with
  | nil => rfl
  | append_singleton hash c ih =>
    rw [read_snoc, char_digit, ih, List.length_append, List.length_singleton]
    by_cases even : hash.length % 2 = 0
    · simp [even]
      omega
    · simp [even]
      omega

theorem read_within (hash : List UInt8) : (Spot.read hash).Within := by
  induction hash using List.reverseRecOn with
  | nil => exact ⟨Nat.one_pos, Nat.one_pos⟩
  | append_singleton hash c ih =>
    rw [read_snoc]
    exact ih.char c

theorem tables_at {isEven : Bool} (turn : isEven = decide (n % 2 = 0)) (direction : Direction) :
    (if (n + 1) % 2 ≠ 0 then oddBorders else evenBorders)[direction.index]? =
    some (borderTable isEven direction) ∧
    (if (n + 1) % 2 ≠ 0 then oddNeighbors else evenNeighbors)[direction.index]? =
      some (neighborTable isEven direction) := by
  by_cases even : n % 2 = 0
  · rw [if_pos (by omega), if_pos (by omega), turn, decide_eq_true even]
    cases direction <;> exact ⟨rfl, rfl⟩
  · rw [if_neg (by omega), if_neg (by omega), turn, decide_eq_false even]
    cases direction <;> exact ⟨rfl, rfl⟩

theorem take_set_last {l : List UInt8} (bound : n < l.length) (c : UInt8) :
    (l.set n c).take (n + 1) = l.take n ++ [c] := by
  rw [List.take_add_one, List.take_set_of_le (le_refl n), List.getElem?_set_self bound]
  rfl

theorem nextChar_at {isEven : Bool} (table : TableStep isEven direction c) :
    charMap[(indexForChar c (neighborTable isEven direction)).toNat]? =
    some (nextChar isEven direction c) ∧ nextChar isEven direction c ∈ charMap := by
  have inside : (indexForChar c (neighborTable isEven direction)).toNat < charMap.length := table.inside
  have read := List.getElem?_eq_getElem inside
  rw [nextChar, List.getD, read]
  exact ⟨rfl, List.getElem_mem inside⟩

theorem getNeighbor_turn {isEven : Bool} (turn : isEven = decide (n % 2 = 0)) (here : hash[n]? = some c)
    (table : TableStep isEven direction c) (nei : List UInt8) : getNeighbor hash direction (n + 1) nei =
      (if indexForChar c (borderTable isEven direction) ≠ -1 then getNeighbor hash direction n nei
        else copyBytes nei hash n) >>= fun nei =>
      if n < nei.length then some (nei.set n (nextChar isEven direction c)) else none := by
  obtain ⟨borders, neighbors⟩ := tables_at turn direction
  have found := not_lt.mpr table.found
  simp only [getNeighbor, here, borders, neighbors, Option.bind_eq_bind, Option.bind_some, if_neg found,
    (nextChar_at table).1]
  split <;> rfl

/-- Stepping a code of `n` characters: at the edge of the world the recursion runs out of
    characters, and elsewhere it writes the next cell. -/
theorem getNeighbor_spec (chars : ∀ c ∈ hash, c ∈ charMap) (direction : Direction)
    (bound : n ≤ hash.length)
    (fits : n ≤ nei.length) : ((Spot.read (hash.take n)).room direction = 0 →
    getNeighbor hash direction n nei = none) ∧
    ((Spot.read (hash.take n)).room direction ≠ 0 → ∃ nei', getNeighbor hash direction n nei = some nei' ∧
      nei'.length = nei.length ∧ (∀ c ∈ nei'.take n, c ∈ charMap) ∧
      Spot.Beside direction (Spot.read (hash.take n)) (Spot.read (nei'.take n))) := by
  induction n with
  | zero =>
    refine ⟨fun _ => rfl, fun some => absurd ?_ some⟩
    cases direction <;> rfl
  | succ n ih =>
    obtain ⟨stuck, steps⟩ := ih (by omega) (by omega)
    obtain ⟨c, here⟩ : ∃ c, hash[n]? = some c := ⟨hash[n], List.getElem?_eq_getElem (by omega)⟩
    have inside : c ∈ charMap := chars c (List.mem_of_getElem? here)
    have split : hash.take (n + 1) = hash.take n ++ [c] := by
      rw [List.take_add_one, here]
      rfl
    have within := read_within (hash.take n)
    have turn : (Spot.read (hash.take n)).isEven = decide (n % 2 = 0) := by
      rw [read_turn, List.length_take_of_le (by omega)]
    have table := table_steps (Spot.read (hash.take n)).isEven direction c inside
    have next := (nextChar_at table).2
    have ran := getNeighbor_turn turn here table nei
    have size := room_char within direction c
    rw [split, read_snoc]
    by_cases border : indexForChar c (borderTable (Spot.read (hash.take n)).isEven direction) = -1
    · have step := table.step border
      rw [if_neg (not_not.mpr border), copyBytes, if_pos ⟨by omega, by omega⟩] at ran
      have length : (hash.take n ++ nei.drop n).length = nei.length := by
        rw [List.length_append, List.length_take_of_le (by omega), List.length_drop]
        omega
      have begins : (hash.take n ++ nei.drop n).take n = hash.take n := by
        rw [List.take_append_of_le_length (by rw [List.length_take_of_le (by omega)]),
          List.take_take, min_self]
      refine ⟨fun none => by omega, fun _ => ⟨_, ran.trans (if_pos (by rw [length]; omega)), ?_, ?_, ?_⟩⟩
      · rw [List.length_set, length]
      · rw [take_set_last (by rw [length]; omega), begins]
        intro c' member
        rcases List.mem_append.mp member with old | new
        · exact chars c' (List.mem_of_mem_take old)
        · rw [List.mem_singleton.mp new]
          exact next
      · rw [take_set_last (by rw [length]; omega), begins, read_snoc]
        exact beside_step within step table.across
    · obtain ⟨last, wrapped⟩ := table.carry border
      rw [if_pos border] at ran
      rw [last, Nat.add_zero] at size
      by_cases edge : (Spot.read (hash.take n)).room direction = 0
      · rw [stuck edge] at ran
        rw [size, edge, Nat.zero_mul]
        exact ⟨fun _ => ran, fun some => absurd rfl some⟩
      · obtain ⟨nei1, run1, length1, chars1, beside⟩ := steps edge
        rw [run1] at ran
        have positive := Nat.two_pow_pos (digitBits (Spot.read (hash.take n)).isEven direction)
        refine ⟨fun none => ?_, fun _ => ⟨_, ran.trans (if_pos (by omega)), ?_, ?_, ?_⟩⟩
        · rw [size] at none
          rcases Nat.mul_eq_zero.mp none with zero | zero
          · exact absurd zero edge
          · omega
        · rw [List.length_set, length1]
        · rw [take_set_last (by omega)]
          intro c' member
          rcases List.mem_append.mp member with old | new
          · exact chars1 c' old
          · rw [List.mem_singleton.mp new]
            exact next
        · rw [take_set_last (by omega), read_snoc]
          exact beside_carry within (read_within _) beside last wrapped table.across

theorem decode_box (some : hash ≠ []) : (decode hash).north = (Spot.read hash).cell.latInterval.high ∧
    (decode hash).east = (Spot.read hash).cell.lngInterval.high ∧
    (decode hash).south = (Spot.read hash).cell.latInterval.low ∧
    (decode hash).west = (Spot.read hash).cell.lngInterval.low := by
  rw [decode, if_neg some, ← decode_spot]
  exact ⟨rfl, rfl, rfl, rfl⟩

theorem part_high (low width : ℚ) (bits k : Nat) (wide : 0 < width) :
    (part low width bits k).high = low + width ↔ k + 1 = 2 ^ bits := by
  have power : (0 : ℚ) < 2 ^ bits := by positivity
  rw [part, add_right_inj, mul_div_assoc', div_eq_iff (ne_of_gt power), mul_comm,
    mul_right_inj' (ne_of_gt wide)]
  exact_mod_cast Iff.rfl

theorem part_low (low width : ℚ) (bits k : Nat) (wide : 0 < width) :
    (part low width bits k).low = low ↔ k = 0 := by
  have power : 0 < width / 2 ^ bits := div_pos wide (by positivity)
  rw [part, add_eq_left, mul_eq_zero, or_iff_left (ne_of_gt power)]
  exact_mod_cast Iff.rfl

theorem touches_iff (direction : Direction) (some : hash ≠ []) :
    Touches direction (decode hash) ↔ (Spot.read hash).room direction = 0 := by
  obtain ⟨north, east, south, west⟩ := decode_box some
  obtain ⟨lat, lng⟩ := read_within hash
  cases direction with
  | north =>
    have edge := part_high minLat 180 (Spot.read hash).lats (Spot.read hash).lat (by norm_num)
    rw [show minLat + 180 = maxLat by norm_num [minLat, maxLat]] at edge
    rw [Touches, north, Spot.room]
    refine edge.trans ?_
    omega
  | east =>
    have edge := part_high minLong 360 (Spot.read hash).lngs (Spot.read hash).lng (by norm_num)
    rw [show minLong + 360 = maxLong by norm_num [minLong, maxLong]] at edge
    rw [Touches, east, Spot.room]
    refine edge.trans ?_
    omega
  | south =>
    rw [Touches, south]
    exact part_low minLat 180 _ _ (by norm_num)
  | west =>
    rw [Touches, west]
    exact part_low minLong 360 _ _ (by norm_num)

theorem part_next (low width : ℚ) (bits k : Nat) : (part low width bits (k + 1)).low =
    (part low width bits k).high := by
  simp [part]

theorem adjacent_of_beside {hash' : List UInt8} (some : hash ≠ []) (some' : hash' ≠ [])
    (beside : Spot.Beside direction (Spot.read hash) (Spot.read hash')) :
    Adjacent direction (decode hash) (decode hash') := by
  obtain ⟨north, east, south, west⟩ := decode_box some
  obtain ⟨north', east', south', west'⟩ := decode_box some'
  obtain ⟨lat, lng⟩ := read_within hash
  obtain ⟨lat', lng'⟩ := read_within hash'
  obtain ⟨_, lats, lngs, room, across⟩ := beside
  rw [lats] at lat'
  rw [lngs] at lng'
  cases direction with
  | north =>
    have step : (Spot.read hash').lat = (Spot.read hash).lat + 1 := by
      simp only [Spot.room, lats] at room
      omega
    simp only [Adjacent, north, east, west, south', west', east', Spot.cell, lats, lngs, step,
      show (Spot.read hash').lng = (Spot.read hash).lng from across, part_next, and_self]
  | east =>
    have step : (Spot.read hash').lng = (Spot.read hash).lng + 1 := by
      simp only [Spot.room, lngs] at room
      omega
    simp only [Adjacent, north, east, south, north', south', west', Spot.cell, lats, lngs, step,
      show (Spot.read hash').lat = (Spot.read hash).lat from across, part_next, and_self]
  | south =>
    have step : (Spot.read hash).lat = (Spot.read hash').lat + 1 := room.symm
    simp only [Adjacent, east, west, south, north', west', east', Spot.cell, lats, lngs, step,
      show (Spot.read hash').lng = (Spot.read hash).lng from across, part_next, and_self]
  | west =>
    have step : (Spot.read hash).lng = (Spot.read hash').lng + 1 := room.symm
    simp only [Adjacent, north, west, south, north', south', east', Spot.cell, lats, lngs, step,
      show (Spot.read hash').lat = (Spot.read hash).lat from across, part_next, and_self]

theorem getNeighbor_whole (spelled : Spelled hash) (direction : Direction)
    (fits : nei.length = hash.length) :
    (Touches direction (decode hash) → getNeighbor hash direction hash.length nei = none) ∧
    (¬ Touches direction (decode hash) → ∃ nei', getNeighbor hash direction hash.length nei = some nei' ∧
      nei'.length = hash.length ∧ Spelled nei' ∧ Spot.Beside direction (Spot.read hash)
      (Spot.read nei')) := by
  obtain ⟨stuck, steps⟩ := getNeighbor_spec spelled.chars direction (le_refl hash.length)
    (le_of_eq fits.symm)
  rw [List.take_length] at stuck steps
  rw [touches_iff direction spelled.some]
  refine ⟨stuck, fun clear => ?_⟩
  obtain ⟨nei', run, length, chars, beside⟩ := steps clear
  rw [← fits, ← length, List.take_length] at chars beside
  have filled := List.length_pos_iff.mpr spelled.some
  exact ⟨nei', run, length.trans fits, ⟨List.length_pos_iff.mp (by omega), chars⟩, beside⟩

/-- Away from the edge of the world the code of the adjacent cell is written. -/
theorem neighbor_adjacent (hash nei : List UInt8) (spelled : Spelled hash) (direction : Direction)
    (fits : nei.length = hash.length) (clear : ¬ Touches direction (decode hash)) :
    ∃ nei', getNeighbor hash direction hash.length nei = some nei' ∧ nei'.length = hash.length ∧
    Spelled nei' ∧
      Adjacent direction (decode hash) (decode nei') := by
  obtain ⟨nei', run, length, spelled', beside⟩ := (getNeighbor_whole spelled direction fits).2 clear
  exact ⟨nei', run, length, spelled', adjacent_of_beside spelled.some spelled'.some beside⟩

/-- The cell east of "sb", whose own last character is on the border. -/
theorem neighbor_adjacent_once : ∃ nei', getNeighbor [115, 98] .east 2 [0, 0] = some nei' ∧
    nei'.length = 2 ∧ Spelled nei' ∧ Adjacent .east (decode [115, 98]) (decode nei') :=
  neighbor_adjacent [115, 98] [0, 0] ⟨by decide, by decide +kernel⟩ .east rfl (by
    rw [touches_iff _ (by decide)]
    decide +kernel)

structure Buffers (charAmount : Nat) (out : List (List UInt8)) : Prop where
  eight : out.length = 8
  sized : ∀ nei ∈ out, nei.length = charAmount

theorem fillNeighbor_spec {out : List (List UInt8)} {k : Nat} (spelled : Spelled hash)
    (buffers : Buffers hash.length out) (small : k < 8) (direction : Direction) :
    Touches direction (decode hash) ∧ fillNeighbor hash.length hash direction k out = none ∨
    ¬ Touches direction (decode hash) ∧ ∃ out' nei', fillNeighbor hash.length hash direction k out =
    some out' ∧
      Buffers hash.length out' ∧ out'[k]? = some nei' ∧ nei'.length = hash.length ∧ Spelled nei' ∧
      Spot.Beside direction (Spot.read hash) (Spot.read nei') := by
  obtain ⟨eight, sized⟩ := buffers
  obtain ⟨nei, read⟩ : ∃ nei, out[k]? = some nei := ⟨out[k], List.getElem?_eq_getElem (by omega)⟩
  obtain ⟨stuck, steps⟩ := getNeighbor_whole spelled direction (sized nei (List.mem_of_getElem? read))
  by_cases edge : Touches direction (decode hash)
  · refine Or.inl ⟨edge, ?_⟩
    simp only [fillNeighbor, read, stuck edge, Option.bind_eq_bind, Option.bind_some, Option.bind_none]
  · obtain ⟨nei', run, length, spelled', beside⟩ := steps edge
    refine Or.inr ⟨edge, out.set k nei', nei', ?_, ⟨by rw [List.length_set, eight], ?_⟩, ?_,
      length, spelled', beside⟩
    · simp only [fillNeighbor, read, run, Option.bind_eq_bind, Option.bind_some]
    · intro b member
      rcases List.mem_or_eq_of_mem_set member with old | rfl
      · exact sized b old
      · exact length
    · exact List.getElem?_set_self (by omega)

/-- Two lines of etdb_geo_hash_neighbors: a neighbor, and the neighbor of that one in the
    next direction, which has the same edges there as the cell itself. -/
theorem fillPair_spec {out : List (List UInt8)} {k : Nat} (spelled : Spelled hash)
    (buffers : Buffers hash.length out) (small : k + 1 < 8) (first second : Direction)
    (turned : ∀ s s' : Spot, Spot.Beside first s s' → s'.room second = s.room second)
    (rest : List (List UInt8) → Option (List (List UInt8))) :
    (Touches first (decode hash) ∨ Touches second (decode hash)) ∧
      ((fillNeighbor hash.length hash first k out).bind fun out => (out[k]?).bind fun nei =>
        (fillNeighbor hash.length nei second (k + 1) out).bind rest) = none ∨
    (¬ Touches first (decode hash) ∧ ¬ Touches second (decode hash)) ∧ ∃ out', Buffers hash.length out' ∧
      ((fillNeighbor hash.length hash first k out).bind fun out => (out[k]?).bind fun nei =>
        (fillNeighbor hash.length nei second (k + 1) out).bind rest) = rest out' := by
  rcases fillNeighbor_spec spelled buffers (show k < 8 by omega) first with
    ⟨edge, stuck⟩ | ⟨clear, out1, nei1, run1, buffers1, read1, length1, spelled1, beside1⟩
  · exact Or.inl ⟨Or.inl edge, by rw [stuck, Option.bind_none]⟩
  · have same : Touches second (decode nei1) ↔ Touches second (decode hash) := by
      rw [touches_iff second spelled1.some, touches_iff second spelled.some, turned _ _ beside1]
    rw [← length1] at buffers1
    have second' := fillNeighbor_spec spelled1 buffers1 small second
    rw [length1, same] at second'
    rcases second' with ⟨edge, stuck⟩ | ⟨clear2, out2, _, run2, buffers2, _⟩
    · exact Or.inl ⟨Or.inr edge, by rw [run1, Option.bind_some, read1, Option.bind_some, stuck, Option.bind_none]⟩
    · refine Or.inr ⟨⟨clear, clear2⟩, out2, buffers2, ?_⟩
      rw [run1, Option.bind_some, read1, Option.bind_some, run2, Option.bind_some]

theorem neighbors_isSome (spelled : Spelled hash) {out : List (List UInt8)}
    (buffers : Buffers hash.length out) :
    (neighbors hash hash.length out).isSome ↔ ∀ direction, ¬ Touches direction (decode hash) := by
  have all : (∀ direction, ¬ Touches direction (decode hash)) ↔
      (¬ Touches .north (decode hash) ∧ ¬ Touches .east (decode hash)) ∧
        ¬ Touches .south (decode hash) ∧ ¬ Touches .west (decode hash) := by
    constructor
    · intro clear
      exact ⟨⟨clear .north, clear .east⟩, clear .south, clear .west⟩
    · rintro ⟨⟨north, east⟩, south, west⟩ direction
      cases direction <;> assumption
  have across : ∀ {first second : Direction} (s s' : Spot), first = .north ∧ second = .east ∨
      first = .east ∧ second = .south ∨ first = .south ∧ second = .west ∨ first = .west ∧
      second = .north → Spot.Beside first s s' → s'.room second = s.room second := by
    rintro first second s s' (⟨rfl, rfl⟩ | ⟨rfl, rfl⟩ | ⟨rfl, rfl⟩ | ⟨rfl, rfl⟩)
      ⟨_, lats, lngs, _, same⟩ <;>
      simp only [Spot.across] at same <;> simp only [Spot.room, lats, lngs, same]
  rw [all]
  unfold neighbors
  simp only [Option.bind_eq_bind]
  rcases fillPair_spec (k := 0) spelled buffers (by decide) .north .east
    (fun s s' => across s s' (by simp)) _ with
    ⟨edge, run⟩ | ⟨⟨north, east⟩, out1, buffers1, run⟩
  · rw [run, Option.isSome_none]
    tauto
  rw [run]
  rcases fillPair_spec (k := 2) spelled buffers1 (by decide) .east .south
    (fun s s' => across s s' (by simp)) _ with
    ⟨edge, run⟩ | ⟨⟨_, south⟩, out2, buffers2, run⟩
  · rw [run, Option.isSome_none]
    tauto
  rw [run]
  rcases fillPair_spec (k := 4) spelled buffers2 (by decide) .south .west
    (fun s s' => across s s' (by simp)) _ with
    ⟨edge, run⟩ | ⟨⟨_, west⟩, out3, buffers3, run⟩
  · rw [run, Option.isSome_none]
    tauto
  rw [run]
  rcases fillPair_spec (k := 6) spelled buffers3 (by decide) .west .north
    (fun s s' => across s s' (by simp)) some with
    ⟨edge, run⟩ | ⟨_, out4, _, run⟩
  · simp only [Option.bind_fun_some] at run
    rw [run, Option.isSome_none]
    tauto
  · simp only [Option.bind_fun_some] at run
    rw [run, Option.isSome_some]
    tauto

/-- The bytes of the code, of the buffers and of the tables are all that is touched, when and
    only when the cell is not at the edge of the world that is stepped over. -/
theorem neighbors_safe_iff (hash : List UInt8) (spelled : Spelled hash) :
    (∀ direction nei, nei.length = hash.length →
      ((getNeighbor hash direction hash.length nei).isSome ↔ ¬ Touches direction (decode hash))) ∧
    ∀ out, Buffers hash.length out →
      ((neighbors hash hash.length out).isSome ↔ ∀ direction, ¬ Touches direction (decode hash)) := by
  refine ⟨fun direction nei fits => ?_, fun out buffers => neighbors_isSome spelled buffers⟩
  obtain ⟨stuck, steps⟩ := getNeighbor_whole spelled direction fits
  constructor
  · intro run edge
    rw [stuck edge] at run
    cases run
  · intro clear
    obtain ⟨nei', run, _⟩ := steps clear
    rw [run]
    rfl

theorem neighbors_safe_iff_once :
    (∀ direction nei, nei.length = 1 →
      ((getNeighbor [115] direction 1 nei).isSome ↔ ¬ Touches direction (decode [115]))) ∧
    ∀ out, Buffers 1 out → ((neighbors [115] 1 out).isSome ↔ ∀ direction,
    ¬ Touches direction (decode [115])) :=
  neighbors_safe_iff [115] ⟨by decide, by decide +kernel⟩

theorem edge_reads_outside : getNeighbor [98] .north 1 [0] = none ∧
    neighbors [98] 1 (List.replicate 8 [0]) = none := by
  decide +kernel

end
end EtdbGeoHash
