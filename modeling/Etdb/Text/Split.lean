import Mathlib.Data.List.Basic

/- etdb_str_split of etdb_string.c. A piece is a length and a place in the string that is cut, as
   etdb_str_t is; a write outside the array of pieces ends the run with none. -/
namespace EtdbString

structure Piece where
  len : Nat
  data : Nat
  deriving DecidableEq

namespace Piece

def bytes (s : List UInt8) (piece : Piece) : List UInt8 := (s.drop piece.data).take piece.len

def store (splits : List Piece) (pos : Nat) (piece : Piece) : Option (List Piece) :=
  if pos < splits.length then some (splits.set pos piece) else none

end Piece

/-- What is returned, the array and *split_num. -/
structure Cut where
  ret : Nat
  splits : List Piece
  splitNum : Nat
  deriving DecidableEq

/-- The loop from the byte `j` on, and the piece behind it. -/
def splitFrom (split : UInt8) (splitNum : Nat) :
    List UInt8 → Nat → Nat → Nat → List Piece → Option Cut
  | [], i, j, pos, splits =>
    if pos < splitNum then do
      let splits ← Piece.store splits pos ⟨j - i, i⟩
      some ⟨pos + 1, splits, pos + 1⟩
    else some ⟨splitNum, splits, splitNum⟩
  | c :: rest, i, j, pos, splits =>
    if c = split then
      if pos < splitNum then do
        let splits ← Piece.store splits pos ⟨j - i, i⟩
        splitFrom split splitNum rest (j + 1) (j + 1) (pos + 1) splits
      else some ⟨splitNum, splits, splitNum⟩
    else splitFrom split splitNum rest i (j + 1) pos splits

def strSplit (s : List UInt8) (split : UInt8) (splits : List Piece) (splitNum : Nat) : Option Cut :=
  splitFrom split splitNum s 0 0 0 splits

section
variable {s front cur rest : List UInt8} {split : UInt8} {splits : List Piece} {i num pos : Nat}

structure Cut.Stores (s : List UInt8) (splits : List Piece) (pos : Nat) (wanted : List (List UInt8))
    (cut : Cut) : Prop where
  ret : cut.ret = pos + wanted.length
  splitNum : cut.splitNum = pos + wanted.length
  splits : ∃ pieces : List Piece, pieces.map (Piece.bytes s) = wanted ∧
    (∀ piece ∈ pieces, piece.data + piece.len ≤ s.length) ∧
    cut.splits = splits.take pos ++ pieces ++ splits.drop (pos + wanted.length)

theorem Cut.Stores.full : Cut.Stores s splits pos [] ⟨pos, splits, pos⟩ where
  ret := rfl
  splitNum := rfl
  splits := ⟨[], rfl, fun _ member => absurd member List.not_mem_nil, by simp⟩

theorem Cut.Stores.cons {piece : Piece} {wanted : List (List UInt8)} {cut : Cut}
    (room : pos < splits.length) (inside : piece.data + piece.len ≤ s.length)
    (bytes : piece.bytes s = cur)
    (stores : Cut.Stores s (splits.set pos piece) (pos + 1) wanted cut) :
    Cut.Stores s splits pos (cur :: wanted) cut := by
  obtain ⟨ret, splitNum, pieces, others, within, array⟩ := stores
  refine ⟨?_, ?_, piece :: pieces, by rw [List.map_cons, others, bytes], ?_, ?_⟩
  · rw [ret, List.length_cons, Nat.add_assoc, Nat.add_comm 1]
  · rw [splitNum, List.length_cons, Nat.add_assoc, Nat.add_comm 1]
  · intro other member
    rcases List.mem_cons.mp member with rfl | later
    · exact inside
    · exact within other later
  · have before : (splits.set pos piece).take (pos + 1) = splits.take pos ++ [piece] := by
      rw [List.take_add_one, List.take_set_of_le (Nat.le_refl pos), List.getElem?_set_self room]
      rfl
    rw [array, before, List.drop_set_of_lt (by omega), List.length_cons, Nat.add_assoc,
      Nat.add_comm 1, List.append_assoc (splits.take pos), List.singleton_append]

theorem current_piece (whole : s = front ++ cur ++ rest) : ∃ piece : Piece,
    piece = ⟨front.length + cur.length - front.length, front.length⟩ ∧ piece.bytes s = cur ∧
    piece.data + piece.len ≤ s.length := by
  refine ⟨_, rfl, ?_, ?_⟩
  · rw [Piece.bytes, whole, Nat.add_sub_cancel_left, List.append_assoc, List.drop_left,
      List.take_left]
  · rw [whole, List.length_append, List.length_append]
    dsimp only
    omega

/-- By induction on the bytes that are left; `cur` is what the loop has seen of its piece. -/
theorem splitFrom_spec (whole : s = front ++ cur ++ rest) (uncut : split ∉ cur)
    (slots : num ≤ splits.length) (stored : pos ≤ num) : ∃ cut,
    splitFrom split num rest front.length (front.length + cur.length) pos splits = some cut ∧
    cut.Stores s splits pos (((cur ++ rest).splitOn split).take (num - pos)) := by
  obtain ⟨piece, shape, bytes, inside⟩ := current_piece whole
  induction rest generalizing front cur pos splits piece with
  | nil =>
    rw [List.append_nil, List.splitOn_eq_singleton uncut]
    by_cases room : pos < num
    · obtain ⟨more, left⟩ : ∃ more, num - pos = more + 1 := ⟨num - pos - 1, by omega⟩
      refine ⟨⟨pos + 1, splits.set pos piece, pos + 1⟩, ?_, ?_⟩
      · rw [splitFrom, if_pos room, ← shape, Piece.store, if_pos (by omega)]
        rfl
      · rw [left, List.take_succ_cons, List.take_nil]
        exact Cut.Stores.full.cons (by omega) inside bytes
    · obtain rfl : pos = num := by omega
      rw [Nat.sub_self, List.take_zero]
      exact ⟨_, if_neg room, Cut.Stores.full⟩
  | cons c rest ih =>
    by_cases same : c = split
    · subst same
      rw [List.splitOn_append_cons_self_of_not_mem uncut]
      by_cases room : pos < num
      · obtain ⟨more, left⟩ : ∃ more, num - pos = more + 1 := ⟨num - pos - 1, by omega⟩
        have whole' : s = (front ++ cur ++ [c]) ++ [] ++ rest := by
          rw [whole, List.append_nil, List.append_assoc _ [c], List.singleton_append]
        obtain ⟨next, shape', bytes', inside'⟩ := current_piece whole'
        have slots' : num ≤ (splits.set pos piece).length := by rwa [List.length_set]
        obtain ⟨cut, run, stores⟩ := ih whole' List.not_mem_nil slots' (Nat.succ_le_of_lt room) next
          shape' bytes' inside'
        refine ⟨cut, ?_, ?_⟩
        · rw [splitFrom, if_pos rfl, if_pos room, ← shape, Piece.store, if_pos (by omega)]
          rwa [List.length_append, List.length_append, List.length_singleton] at run
        · rw [left, List.take_succ_cons]
          rw [show num - (pos + 1) = more by omega] at stores
          exact stores.cons (by omega) inside bytes
      · obtain rfl : pos = num := by omega
        rw [Nat.sub_self, List.take_zero]
        exact ⟨_, (if_pos rfl).trans (if_neg room), Cut.Stores.full⟩
    · have whole' : s = front ++ (cur ++ [c]) ++ rest := by
        rw [whole, ← List.append_assoc, List.append_assoc _ [c], List.singleton_append]
      have uncut' : split ∉ cur ++ [c] := by
        rw [List.mem_append, List.mem_singleton, not_or]
        exact ⟨uncut, fun other => same other.symm⟩
      obtain ⟨next, shape', bytes', inside'⟩ := current_piece whole'
      obtain ⟨cut, run, stores⟩ := ih whole' uncut' slots stored next shape' bytes' inside'
      refine ⟨cut, ?_, by rwa [List.append_assoc, List.singleton_append] at stores⟩
      rw [splitFrom, if_neg same]
      rwa [List.length_append, List.length_singleton, ← Nat.add_assoc] at run

end

/-- The pieces go to the first slots, in order and each a part of the string; the other slots stay
    as they are. -/
theorem str_split_pieces (s : List UInt8) (split : UInt8) (splits : List Piece) (n : Nat)
    (slots : n ≤ splits.length) : ∃ pieces : List Piece,
    strSplit s split splits n = some
      ⟨min (s.splitOn split).length n, pieces ++ splits.drop (min (s.splitOn split).length n),
        min (s.splitOn split).length n⟩ ∧
    pieces.map (Piece.bytes s) = (s.splitOn split).take n ∧
    (∀ piece ∈ pieces, piece.data + piece.len ≤ s.length) := by
  obtain ⟨⟨ret, array, splitNum⟩, run, stores⟩ := splitFrom_spec (show s = [] ++ [] ++ s from rfl)
    List.not_mem_nil slots (Nat.zero_le n)
  obtain ⟨rfl, rfl, pieces, bytes, inside, rfl⟩ := stores
  rw [Nat.zero_add, Nat.sub_zero, List.nil_append, List.take_zero, List.nil_append,
    List.length_take, Nat.min_comm] at run
  exact ⟨pieces, run, bytes, inside⟩

/-- The comma in front, one between and one at the end, with room for two of the three pieces. -/
theorem str_split_pieces_once : ∃ pieces : List Piece,
    strSplit [44, 97, 44] 44 (List.replicate 3 ⟨0, 0⟩) 2 = some ⟨2, pieces ++ [⟨0, 0⟩], 2⟩ ∧
    pieces.map (Piece.bytes [44, 97, 44]) = [[], [97]] ∧
    (∀ piece ∈ pieces, piece.data + piece.len ≤ 3) :=
  str_split_pieces [44, 97, 44] 44 (List.replicate 3 ⟨0, 0⟩) 2 (by decide)

end EtdbString
