import Etdb.Geo.Hash

/- etdb_geo_hash_decode and etdb_geo_hash_dimensions_for_precision. The decoder halves the
   same two intervals as the encoder but moves one end by half the width instead of
   setting it to the midpoint; a code is the list of the halves taken, five a character. -/
namespace EtdbGeoHash

/-- The local variables of the loop of etdb_geo_hash_decode. -/
structure Cell where
  latInterval : Interval
  lngInterval : Interval
  isEven : Bool

/-- etdb_geo_hash_box_dimension_t -/
structure BoxDimension where
  height : ℚ
  width : ℚ

structure Coord where
  latitude : ℚ
  longitude : ℚ
  north : ℚ
  east : ℚ
  south : ℚ
  west : ℚ
  dimension : BoxDimension

def indexForChar (c : UInt8) (string : List UInt8) : Int :=
  match string.findIdx? (· = c) with
  | some index => index
  | none => -1

/-- char_mapIndex, an unsigned int -/
def charMapIndex (c : UInt8) : Nat := (indexForChar c charMap % 2 ^ 32).toNat

/-- (char_mapIndex << j) & 0x0010 -/
def bitAt (index j : Nat) : Bool := decide ((index <<< j) % 2 ^ 32 &&& 16 ≠ 0)

namespace Cell

def world : Cell := ⟨⟨maxLat, minLat⟩, ⟨maxLong, minLong⟩, true⟩

def move (i : Interval) (bit : Bool) : Interval :=
  let delta := (i.high - i.low) / 2
  if bit then { i with low := i.low + delta } else { i with high := i.high - delta }

/-- The inner loop of etdb_geo_hash_decode. -/
def cut (cell : Cell) (bit : Bool) : Cell where
  latInterval := if cell.isEven then cell.latInterval else move cell.latInterval bit
  lngInterval := if cell.isEven then move cell.lngInterval bit else cell.lngInterval
  isEven := !cell.isEven

end Cell

def decodeChar (cell : Cell) (c : UInt8) : Cell :=
  (List.range 5).foldl (fun cell j => cell.cut (bitAt (charMapIndex c) j)) cell

def decodeLoop (hash : List UInt8) (cell : Cell) : Cell := hash.foldl decodeChar cell

/-- etdb_geo_hash_decode of the first char_amount bytes. The dimension of the result is
    never set. -/
def decode (hash : List UInt8) : Coord :=
  if hash = [] then ⟨0, 0, 0, 0, 0, 0, ⟨0, 0⟩⟩
  else
    let cell := decodeLoop hash Cell.world
    { latitude := cell.latInterval.high - (cell.latInterval.high - cell.latInterval.low) / 2
      longitude := cell.lngInterval.high - (cell.lngInterval.high - cell.lngInterval.low) / 2
      north := cell.latInterval.high
      east := cell.lngInterval.high
      south := cell.latInterval.low
      west := cell.lngInterval.low
      dimension := ⟨0, 0⟩ }

/-- The loops of etdb_geo_hash_dimensions_for_precision. -/
def halve : Nat → ℚ → ℚ
  | 0, x => x
  | n + 1, x => halve n (x / 2)

def dimensionsForPrecision (precision : Nat) : BoxDimension :=
  if 0 < precision then
    let latTimesToCut := precision * 5 / 2
    let lngTimesToCut := precision * 5 / 2 + if precision % 2 = 0 then 0 else 1
    ⟨halve latTimesToCut 180, halve lngTimesToCut 360⟩
  else ⟨0, 0⟩

def Coord.Contains (box : Coord) (lat lng : ℚ) : Prop :=
  box.south ≤ lat ∧ lat ≤ box.north ∧ box.west ≤ lng ∧ lng ≤ box.east

def Coord.size (box : Coord) : BoxDimension := ⟨box.north - box.south, box.east - box.west⟩

/-- A geohash as the encoder writes them: up to twelve characters of the map. -/
structure Valid (hash : List UInt8) : Prop where
  short : 1 ≤ hash.length ∧ hash.length ≤ 12
  chars : ∀ c ∈ hash, c ∈ charMap

namespace Cell

def interval (cell : Cell) : Interval := if cell.isEven then cell.lngInterval else cell.latInterval

def bit (lat lng : ℚ) (cell : Cell) : Bool :=
  decide ((cell.interval.low + cell.interval.high) / 2 < if cell.isEven then lng else lat)

def cuts (cell : Cell) (bits : List Bool) : Cell := bits.foldl cut cell

def Chosen (lat lng : ℚ) : Cell → List Bool → Prop
  | _, [] => True
  | cell, b :: bits => cell.bit lat lng = b ∧ Chosen lat lng (cell.cut b) bits

def bits (lat lng : ℚ) : Nat → Cell → List Bool
  | 0, _ => []
  | n + 1, cell => cell.bit lat lng :: bits lat lng n (cell.cut (cell.bit lat lng))

structure Holds (lat lng : ℚ) (cell : Cell) : Prop where
  south : cell.latInterval.low ≤ lat
  north : lat ≤ cell.latInterval.high
  west : cell.lngInterval.low ≤ lng
  east : lng ≤ cell.lngInterval.high

structure Inner (lat lng : ℚ) (cell : Cell) : Prop where
  south : cell.latInterval.low < lat
  north : lat < cell.latInterval.high
  west : cell.lngInterval.low < lng
  east : lng < cell.lngInterval.high

end Cell

def Scan.cell (s : Scan) : Cell := ⟨s.latInterval, s.lngInterval, s.isEven⟩

def pack (hashChar : Nat) (bits : List Bool) : Nat := bits.foldl (fun v b => 2 * v + b.toNat) hashChar

section
variable {lat lng : ℚ} {cell : Cell} {s : Scan} {bits : List Bool} {b : Bool} {n i m : Nat}
    {hash : List UInt8}

theorem Cell.half_move (i : Interval) (bit : Bool) : Scan.half i ((i.low + i.high) / 2) bit =
    Cell.move i bit := by
  cases bit
  · simp only [Scan.half, Cell.move, Bool.false_eq_true, ↓reduceIte, Interval.mk.injEq, and_true]
    ring
  · simp only [Scan.half, Cell.move, ↓reduceIte, Interval.mk.injEq, true_and]
    ring

theorem narrow_cell (s : Scan) (bit : Bool) : (s.narrow bit).cell = s.cell.cut bit := by
  unfold Scan.narrow Scan.cell Cell.cut Scan.mid Scan.interval
  cases s.isEven
  · simp only [Bool.false_eq_true, ↓reduceIte, Cell.half_move]
  · simp only [↓reduceIte, Cell.half_move]

theorem bit_cell (lat lng : ℚ) (s : Scan) : decide (s.mid < s.coord lat lng) = s.cell.bit lat lng := rfl

theorem encode_char (n : Nat) (chosen : s.cell.Chosen lat lng bits) (turns : i % 5 + bits.length = 5) :
    ∃ s', encodeLoop lat lng (n + bits.length) (i + 1) s =
        charMap.getD (pack s.hashChar bits) 0 :: encodeLoop lat lng n (i + bits.length + 1) s' ∧
      s'.hashChar = 0 ∧ s'.cell = s.cell.cuts bits := by
  induction bits generalizing s i with
  | nil =>
    have := Nat.mod_lt i (show 5 > 0 by decide)
    rw [List.length_nil] at turns
    omega
  | cons b bits ih =>
    obtain ⟨first, rest⟩ := chosen
    rw [List.length_cons] at turns
    rw [List.length_cons, ← Nat.add_assoc, encodeLoop, bit_cell, first]
    cases bits with
    | nil =>
      rw [List.length_nil] at turns
      rw [if_pos (by omega)]
      exact ⟨(s.narrow b).reset, rfl, rfl, narrow_cell s b⟩
    | cons b' bits =>
      rw [List.length_cons] at turns
      rw [← narrow_cell] at rest
      obtain ⟨s', run, zero, cell⟩ := ih (i := i + 1) rest (by rw [List.length_cons]; omega)
      rw [if_neg (by omega), run]
      refine ⟨s', ?_, zero, by rw [cell, narrow_cell]; rfl⟩
      rw [show i + 1 + (b' :: bits).length + 1 = i + ((b' :: bits).length + 1) + 1 by omega]
      rfl

theorem decoded_bits : ∀ b0 b1 b2 b3 b4 : Bool, (List.range 5).map
    (bitAt (charMapIndex (charMap.getD (pack 0 [b0, b1, b2, b3, b4]) 0))) = [b0, b1, b2, b3, b4] := by
  decide

theorem spelled_char : ∀ c ∈ charMap, ∃ b0 b1 b2 b3 b4 : Bool,
    c = charMap.getD (pack 0 [b0, b1, b2, b3, b4]) 0 := by
  decide +kernel

theorem five_bits (count : bits.length = 5) : ∃ b0 b1 b2 b3 b4, bits = [b0, b1, b2, b3, b4] := by
  match bits, count with
  | [b0, b1, b2, b3, b4], _ => exact ⟨b0, b1, b2, b3, b4, rfl⟩

theorem decode_char (cell : Cell) (count : bits.length = 5) :
    decodeChar cell (charMap.getD (pack 0 bits) 0) = cell.cuts bits := by
  obtain ⟨b0, b1, b2, b3, b4, rfl⟩ := five_bits count
  rw [decodeChar, ← List.foldl_map, decoded_bits]
  rfl

theorem Cell.chosen_bits (lat lng : ℚ) (n : Nat) (cell : Cell) :
    cell.Chosen lat lng (cell.bits lat lng n) ∧ (cell.bits lat lng n).length = n := by
  induction n generalizing cell with
  | zero => exact ⟨trivial, rfl⟩
  | succ n ih =>
    obtain ⟨chosen, length⟩ := ih (cell.cut (cell.bit lat lng))
    exact ⟨⟨rfl, chosen⟩, by rw [Cell.bits, List.length_cons, length]⟩

theorem Cell.chosen_append {more : List Bool} (first : cell.Chosen lat lng bits)
    (rest : (cell.cuts bits).Chosen lat lng more) : cell.Chosen lat lng (bits ++ more) := by
  induction bits generalizing cell with
  | nil => exact rest
  | cons b bits ih => exact ⟨first.1, ih first.2 rest⟩

/-- The decoder takes the halves that the encoder took. -/
theorem decode_encode (lat lng : ℚ) (m k : Nat) (s : Scan) (zero : s.hashChar = 0) :
    ∃ bits, bits.length = 5 * m ∧ s.cell.Chosen lat lng bits ∧
      decodeLoop (encodeLoop lat lng (5 * m) (5 * k + 1) s) s.cell = s.cell.cuts bits := by
  induction m generalizing k s with
  | zero => exact ⟨[], rfl, trivial, rfl⟩
  | succ m ih =>
    obtain ⟨first, count⟩ := Cell.chosen_bits lat lng 5 s.cell
    obtain ⟨s', run, zero', cell⟩ := encode_char (5 * m) first (show 5 * k % 5 + _ = 5 by omega)
    obtain ⟨more, length, chosen, decoded⟩ := ih (k + 1) s' zero'
    rw [count, zero] at run
    rw [cell] at chosen decoded
    refine ⟨s.cell.bits lat lng 5 ++
      more, by rw [List.length_append]; omega, Cell.chosen_append first chosen, ?_⟩
    rw [Nat.mul_succ, run, Cell.cuts, List.foldl_append, decodeLoop, List.foldl_cons, decode_char _ count]
    exact decoded

theorem Cell.Holds.cuts (holds : cell.Holds lat lng) (chosen : cell.Chosen lat lng bits) :
    (cell.cuts bits).Holds lat lng := by
  induction bits generalizing cell with
  | nil => exact holds
  | cons b bits ih =>
    refine ih ?_ chosen.2
    obtain ⟨first, _⟩ := chosen
    obtain ⟨south, north, west, east⟩ := holds
    unfold Cell.bit Cell.interval at first
    unfold Cell.cut
    cases even : cell.isEven
    · simp only [even, Bool.false_eq_true, ↓reduceIte] at first ⊢
      refine ⟨?_, ?_, west, east⟩ <;> cases b <;> simp [Cell.move] at first ⊢ <;> linarith
    · simp only [even, ↓reduceIte] at first ⊢
      refine ⟨south, north, ?_, ?_⟩ <;> cases b <;> simp [Cell.move] at first ⊢ <;> linarith

theorem Cell.move_width (i : Interval) (b : Bool) : (move i b).high - (move i b).low =
    (i.high - i.low) / 2 := by
  cases b
  · simp only [move, Bool.false_eq_true, ↓reduceIte]
    ring
  · simp only [move, ↓reduceIte]
    ring

/-- How often each axis has been halved, longitude first. -/
structure Cell.Sized (n : Nat) (cell : Cell) : Prop where
  width : cell.lngInterval.high - cell.lngInterval.low = halve ((n + 1) / 2) 360
  height : cell.latInterval.high - cell.latInterval.low = halve (n / 2) 180
  turn : cell.isEven = decide (n % 2 = 0)

theorem halve_succ (n : Nat) (x : ℚ) : halve (n + 1) x = halve n x / 2 := by
  induction n generalizing x with
  | zero => rfl
  | succ n ih => rw [halve, ih (x / 2), halve]

theorem Cell.Sized.cut (sized : cell.Sized n) (b : Bool) : (cell.cut b).Sized (n + 1) := by
  obtain ⟨width, height, turn⟩ := sized
  by_cases even : n % 2 = 0
  · have now : cell.isEven = true := by simp [turn, even]
    refine ⟨?_, ?_, ?_⟩
    · rw [Cell.cut, now]
      simp only [↓reduceIte]
      rw [Cell.move_width, width, ← halve_succ]
      congr 1
      omega
    · rw [Cell.cut, now]
      simp only [↓reduceIte]
      rw [height]
      congr 1
      omega
    · rw [Cell.cut, now]
      simp
      omega
  · have now : cell.isEven = false := by simp [turn, even]
    refine ⟨?_, ?_, ?_⟩
    · rw [Cell.cut, now]
      simp only [Bool.false_eq_true, ↓reduceIte]
      rw [width]
      congr 1
      omega
    · rw [Cell.cut, now]
      simp only [Bool.false_eq_true, ↓reduceIte]
      rw [Cell.move_width, height, ← halve_succ]
      congr 1
      omega
    · rw [Cell.cut, now]
      simp
      omega

theorem Cell.Sized.cuts (sized : cell.Sized n) (bits : List Bool) : (cell.cuts bits).Sized
    (n + bits.length) := by
  induction bits generalizing cell n with
  | nil => exact sized
  | cons b bits ih =>
    have rest := ih (sized.cut b)
    rwa [show n + 1 + bits.length = n + (b :: bits).length by rw [List.length_cons]; omega] at rest

theorem Cell.world_sized : world.Sized 0 := ⟨by norm_num [world, maxLong, minLong, halve],
  by norm_num [world, maxLat, minLat, halve], rfl⟩

theorem Cell.Inner.cut (inner : (cell.cut b).Inner lat lng) : cell.Inner lat lng ∧
    cell.bit lat lng = b := by
  obtain ⟨south, north, west, east⟩ := inner
  unfold Cell.cut at south north west east
  unfold Cell.bit Cell.interval
  cases even : cell.isEven
  · simp only [even, Bool.false_eq_true, ↓reduceIte] at south north west east ⊢
    cases b
    · simp only [Cell.move, Bool.false_eq_true, ↓reduceIte] at south north
      exact ⟨⟨south, by linarith, west, east⟩, decide_eq_false (by linarith)⟩
    · simp only [Cell.move, ↓reduceIte] at south north
      exact ⟨⟨by linarith, north, west, east⟩, decide_eq_true (by linarith)⟩
  · simp only [even, ↓reduceIte] at south north west east ⊢
    cases b
    · simp only [Cell.move, Bool.false_eq_true, ↓reduceIte] at west east
      exact ⟨⟨south, north, west, by linarith⟩, decide_eq_false (by linarith)⟩
    · simp only [Cell.move, ↓reduceIte] at west east
      exact ⟨⟨south, north, by linarith, east⟩, decide_eq_true (by linarith)⟩

theorem Cell.Inner.cuts (inner : (cell.cuts bits).Inner lat lng) :
    cell.Inner lat lng ∧ cell.Chosen lat lng bits := by
  induction bits generalizing cell with
  | nil => exact ⟨inner, trivial⟩
  | cons b bits ih =>
    obtain ⟨half, rest⟩ := ih inner
    obtain ⟨whole, first⟩ := half.cut
    exact ⟨whole, first, rest⟩

theorem Cell.Inner.decoded (chars : ∀ c ∈ hash, c ∈ charMap)
    (inner : (decodeLoop hash cell).Inner lat lng) : cell.Inner lat lng := by
  induction hash generalizing cell with
  | nil => exact inner
  | cons c hash ih =>
    obtain ⟨b0, b1, b2, b3, b4, rfl⟩ := spelled_char c (chars c List.mem_cons_self)
    have rest := ih (fun c member => chars c (List.mem_cons_of_mem _ member)) inner
    rw [decode_char cell rfl] at rest
    exact rest.cuts.1

/-- A point inside the box of a code has that code. -/
theorem encode_decode (k : Nat) (s : Scan) (zero : s.hashChar = 0) (chars : ∀ c ∈ hash, c ∈ charMap)
    (inner : (decodeLoop hash s.cell).Inner lat lng) : encodeLoop lat lng (5 * hash.length)
    (5 * k + 1) s = hash := by
  induction hash generalizing k s with
  | nil => rfl
  | cons c hash ih =>
    obtain ⟨b0, b1, b2, b3, b4, rfl⟩ := spelled_char c (chars c List.mem_cons_self)
    have later : ∀ c ∈ hash, c ∈ charMap := fun c member => chars c (List.mem_cons_of_mem _ member)
    rw [decodeLoop, List.foldl_cons, decode_char _ rfl] at inner
    obtain ⟨_, chosen⟩ := (Cell.Inner.decoded later inner).cuts
    obtain ⟨s', run, zero', cell⟩ :=
      encode_char (5 * hash.length) chosen (show 5 * k % 5 + 5 = 5 by omega)
    rw [← cell] at inner
    rw [List.length_cons, Nat.mul_succ]
    rw [zero] at run
    exact run.trans (congrArg _ (ih (k + 1) s' zero' later inner))

theorem encodeLoop_begins (lat lng : ℚ) (n m i : Nat) (s : Scan) :
    encodeLoop lat lng n i s <+: encodeLoop lat lng (n + m) i s := by
  induction n generalizing i s with
  | zero => exact List.nil_prefix
  | succ n ih =>
    rw [Nat.add_right_comm, encodeLoop, encodeLoop]
    split
    · exact List.cons_prefix_cons.mpr ⟨rfl, ih _ _⟩
    · exact ih _ _

theorem halve_pos (n : Nat) {x : ℚ} (positive : 0 < x) : 0 < halve n x := by
  induction n generalizing x with
  | zero => exact positive
  | succ n ih => exact ih (by linarith)

theorem decode_cuts (chars : ∀ c ∈ hash, c ∈ charMap) (cell : Cell) :
    ∃ bits, bits.length = 5 * hash.length ∧ decodeLoop hash cell = cell.cuts bits := by
  induction hash generalizing cell with
  | nil => exact ⟨[], rfl, rfl⟩
  | cons c hash ih =>
    obtain ⟨b0, b1, b2, b3, b4, rfl⟩ := spelled_char c (chars c List.mem_cons_self)
    obtain ⟨bits, length, decoded⟩ :=
      ih (fun c member => chars c (List.mem_cons_of_mem _ member)) (cell.cuts [b0, b1, b2, b3, b4])
    refine ⟨[b0, b1, b2, b3, b4] ++ bits, ?_, ?_⟩
    · simp only [List.length_append, List.length_cons, List.length_nil, length]
      omega
    · rw [decodeLoop, List.foldl_cons, decode_char _ rfl]
      exact decoded.trans List.foldl_append.symm

theorem decode_size (chars : ∀ c ∈ hash, c ∈ charMap) (some : hash ≠ []) :
    (decode hash).size = dimensionsForPrecision hash.length := by
  obtain ⟨bits, length, decoded⟩ := decode_cuts chars Cell.world
  obtain ⟨width, height, _⟩ := Cell.world_sized.cuts bits
  have positive := List.length_pos_iff.mpr some
  rw [decode, if_neg some, Coord.size, decoded]
  dsimp only
  rw [width, height, dimensionsForPrecision, if_pos positive, length]
  have lats : (0 + 5 * hash.length) / 2 = hash.length * 5 / 2 := by omega
  have lngs : (0 + 5 * hash.length + 1) / 2 = hash.length * 5 / 2 + if hash.length % 2 =
    0 then 0 else 1 := by
    split <;> omega
  rw [lats, lngs]

theorem decode_inner (chars : ∀ c ∈ hash, c ∈ charMap) (some : hash ≠ []) :
    (decodeLoop hash Cell.world).Inner (decode hash).latitude (decode hash).longitude := by
  obtain ⟨bits, length, decoded⟩ := decode_cuts chars Cell.world
  obtain ⟨width, height, _⟩ := Cell.world_sized.cuts bits
  rw [← decoded] at width height
  have wide := halve_pos ((0 + bits.length + 1) / 2) (show (0 : ℚ) < 360 by norm_num)
  have tall := halve_pos ((0 + bits.length) / 2) (show (0 : ℚ) < 180 by norm_num)
  rw [decode, if_neg some]
  refine ⟨?_, ?_, ?_, ?_⟩ <;> dsimp only <;> linarith

/-- A code decodes to a box of the dimensions of its precision around its point and begins
    every longer code of the point, and the centre of a box has the code of the box. -/
theorem geo_hash_round_trip (lat lng : ℚ) (lats : -90 ≤ lat ∧ lat ≤ 90) (lngs : -180 ≤ lng ∧ lng ≤ 180)
    (precision : Nat) (small : 1 ≤ precision ∧ precision ≤ 12) (hash : List UInt8) (valid : Valid hash) :
    (∃ code, encode lat lng precision = some code ∧ (decode code).Contains lat lng ∧
      (decode code).size = dimensionsForPrecision precision ∧
      ∀ larger, precision < larger → larger ≤ 12 →
        ∃ longer, encode lat lng larger = some longer ∧ code <+: longer) ∧
    encode (decode hash).latitude (decode hash).longitude hash.length = some hash := by
  have inside : lat ≤ maxLat ∧ minLat ≤ lat ∧ lng ≤ maxLong ∧ minLong ≤ lng :=
    ⟨lats.2, lats.1, lngs.2, lngs.1⟩
  constructor
  · have run : encode lat lng precision = some (encodeLoop lat lng (precision * 5) 1 Scan.world) := by
      rw [encode_eq small, if_pos inside]
    have chars := encode_chars small run
    have length := encode_length small run
    have filled : encodeLoop lat lng (precision * 5) 1 Scan.world ≠ [] :=
      List.length_pos_iff.mp (by omega)
    refine ⟨_, run, ?_, by rw [decode_size chars filled, length], fun larger more limit => ?_⟩
    · obtain ⟨bits, _, chosen, decoded⟩ := decode_encode lat lng precision 0 Scan.world rfl
      have world : Cell.world.Holds lat lng := ⟨lats.1, lats.2, lngs.1, lngs.2⟩
      obtain ⟨south, north, west, east⟩ := world.cuts chosen
      rw [Nat.mul_comm] at decoded
      rw [decode, if_neg filled]
      dsimp only [Coord.Contains]
      rw [show Cell.world = Scan.world.cell from rfl, decoded]
      exact ⟨south, north, west, east⟩
    · refine ⟨encodeLoop lat lng (larger * 5) 1
        Scan.world, by rw [encode_eq (by omega), if_pos inside], ?_⟩
      have begins := encodeLoop_begins lat lng (precision * 5) (larger * 5 - precision * 5) 1 Scan.world
      rwa [show precision * 5 + (larger * 5 - precision * 5) = larger * 5 by omega] at begins
  · obtain ⟨short, chars⟩ := valid
    have filled : hash ≠ [] := List.length_pos_iff.mp short.1
    have inner := decode_inner chars filled
    obtain ⟨south, north, west, east⟩ := Cell.Inner.decoded chars inner
    have there := encode_decode 0 Scan.world rfl chars inner
    rw [encode_eq short, if_pos ⟨le_of_lt north, le_of_lt south, le_of_lt east, le_of_lt west⟩,
      Nat.mul_comm]
    exact congrArg some there

theorem geo_hash_round_trip_once :
    (∃ code, encode 0 0 1 = some code ∧ (decode code).Contains 0 0 ∧
    (decode code).size = dimensionsForPrecision 1 ∧
      ∀ larger, 1 < larger → larger ≤ 12 → ∃ longer, encode 0 0 larger = some longer ∧ code <+: longer) ∧
    encode (decode [119, 116, 109]).latitude (decode [119, 116, 109]).longitude 3 =
    some [119, 116, 109] :=
  geo_hash_round_trip 0 0 (by norm_num) (by norm_num) 1 (by decide) [119, 116, 109]
  ⟨by decide +kernel, by decide +kernel⟩

end
end EtdbGeoHash
