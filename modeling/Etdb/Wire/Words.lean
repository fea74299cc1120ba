import Etdb.Text.Split
import Etdb.Wire.Transfer

/- etdb_connect_send_cmd: a line goes out as the words in it. -/
namespace EtdbWire
open EtdbString (Piece strSplit)

def gap : UInt8 := 32

/-- The slots for the pieces of a line. -/
def maxPieces : Nat := 256

namespace Buf

def appendPieces (junk : Nat → UInt8) (cmd : List UInt8) : List Piece → Buf → Nat → Option (Nat × Buf)
  | [], buf, cmdNum => some (cmdNum, buf)
  | piece :: rest, buf, cmdNum =>
    if piece.len ≠ 0 then do
      let buf ← buf.appendRecord junk (piece.bytes cmd)
      appendPieces junk cmd rest buf (cmdNum + 1)
    else appendPieces junk cmd rest buf cmdNum

/-- etdb_connect_send_cmd, with what is on the stack in the slots. -/
def sendCmd (junk : Nat → UInt8) (slots : Nat → Piece) (buf : Buf) (cmd : List UInt8) :
    Option (Int × Buf) := do
  let cut ← strSplit cmd gap ((List.range maxPieces).map slots) maxPieces
  let (cmdNum, buf) ← buf.appendPieces junk cmd (cut.splits.take cut.splitNum) 0
  if cmdNum = 0 then some (-1, buf)
  else do
    let buf ← buf.appendRecord junk []
    some (0, buf)

end Buf

/-- The words of a line; what is behind the last slot is not looked at. -/
def words (line : List UInt8) : List (List UInt8) :=
  ((line.splitOn gap).take maxPieces).filter (· ≠ [])

section
variable {buf : Buf} {cmd : List UInt8}

theorem Buf.Roomy.appendPieces (roomy : buf.Roomy) (junk : Nat → UInt8) (pieces : List Piece)
    (inside : ∀ piece ∈ pieces, piece.data + piece.len ≤ cmd.length) (cmdNum : Nat)
    (small : buf.data + buf.size +
      (frames ((pieces.map (Piece.bytes cmd)).filter (· ≠ []))).length < 2 ^ 30) :
    ∃ buf', buf.appendPieces junk cmd pieces cmdNum =
        some (cmdNum + ((pieces.map (Piece.bytes cmd)).filter (· ≠ [])).length, buf') ∧ buf'.Roomy ∧
      buf'.data = buf.data ∧
      buf'.valid = buf.valid ++ frames ((pieces.map (Piece.bytes cmd)).filter (· ≠ [])) ∧
      buf'.size = buf.size + (frames ((pieces.map (Piece.bytes cmd)).filter (· ≠ []))).length ∧
      (((pieces.map (Piece.bytes cmd)).filter (· ≠ [])) = [] → buf' = buf) := by
  induction pieces generalizing buf cmdNum with
  | nil => exact ⟨buf, rfl, roomy, rfl, (List.append_nil _).symm, rfl, fun _ => rfl⟩
  | cons piece rest ih =>
    have width : (piece.bytes cmd).length = piece.len := by
      have within := inside piece List.mem_cons_self
      rw [Piece.bytes, List.length_take, List.length_drop]
      omega
    have later : ∀ piece ∈ rest, piece.data + piece.len ≤ cmd.length := fun other member =>
      inside other (List.mem_cons_of_mem piece member)
    by_cases empty : piece.len = 0
    · have none : piece.bytes cmd = [] := List.length_eq_zero_iff.mp (width.trans empty)
      rw [List.map_cons, none, List.filter_cons_of_neg (by simp)] at small ⊢
      obtain ⟨buf', run, rest'⟩ := ih roomy later cmdNum small
      exact ⟨buf', (if_neg (not_not_intro empty)).trans run, rest'⟩
    · have some : piece.bytes cmd ≠ [] := fun none => empty (by rw [← width, none]; rfl)
      rw [List.map_cons, List.filter_cons_of_pos (by simpa using some), frames_cons,
        List.length_append] at small ⊢
      have length := frame_length (piece.bytes cmd)
      obtain ⟨buf1, append, sound1, valid1, data1, size1, positive1, limit1⟩ :=
        appendRecord_spec junk (piece.bytes cmd) roomy.sound roomy.positive roomy.limit (by omega)
        (by omega)
      obtain ⟨buf', run, roomy', data, valid, size, _⟩ :=
        ih ⟨sound1, positive1, limit1⟩ later (cmdNum + 1) (by omega)
      refine ⟨buf', ?_, roomy', data.trans data1, ?_, ?_, fun none => by cases none⟩
      · rw [Buf.appendPieces, if_pos empty, append, Option.bind_eq_bind, Option.bind_some, run,
          List.length_cons, Nat.add_assoc, Nat.add_comm 1]
      · rw [valid, valid1, List.append_assoc]
      · rw [size, size1, Nat.add_assoc]

theorem split_words (slots : Nat → Piece) (cmd : List UInt8) : ∃ cut,
    strSplit cmd gap ((List.range maxPieces).map slots) maxPieces = some cut ∧
      (∀ piece ∈ cut.splits.take cut.splitNum, piece.data + piece.len ≤ cmd.length) ∧
      ((cut.splits.take cut.splitNum).map (Piece.bytes cmd)).filter (· ≠ []) = words cmd := by
  have length : ((List.range maxPieces).map slots).length = maxPieces := by
    rw [List.length_map, List.length_range]
  have start : cmd = [] ++ [] ++ cmd := rfl
  have uncut : gap ∉ ([] : List UInt8) := List.not_mem_nil
  obtain ⟨⟨ret, array, num⟩, run, stores⟩ :=
    EtdbString.splitFrom_spec start uncut length.ge (Nat.zero_le maxPieces)
  obtain ⟨_, rfl, pieces, bytes, inside, rfl⟩ := stores
  rw [Nat.sub_zero, List.nil_append] at bytes run
  have first : (List.take 0 ((List.range maxPieces).map slots) ++ pieces ++
      ((List.range maxPieces).map slots).drop (0 + ((cmd.splitOn gap).take maxPieces).length)).take
        (0 + ((cmd.splitOn gap).take maxPieces).length) = pieces := by
    rw [Nat.zero_add, ← bytes, List.length_map, List.take_zero, List.nil_append, List.take_left' rfl]
  refine ⟨_, run, ?_, ?_⟩
  · dsimp only
    rwa [first]
  · dsimp only
    rw [first, bytes, words]

/-- A line goes out as one message of its words; a line without words is refused and nothing
    goes out. -/
theorem Buf.Roomy.sendCmd (roomy : buf.Roomy) (junk : Nat → UInt8) (slots : Nat → Piece)
    (small : buf.data + buf.size + (message (words cmd)).length < 2 ^ 30) :
    words cmd = [] ∧ buf.sendCmd junk slots cmd = some (-1, buf) ∨
    words cmd ≠ [] ∧ ∃ buf', buf.sendCmd junk slots cmd = some (0, buf') ∧ buf'.Roomy ∧
      buf'.valid = buf.valid ++ message (words cmd) ∧
      buf'.size = buf.size + (message (words cmd)).length := by
  obtain ⟨cut, split, inside, found⟩ := split_words slots cmd
  rw [message_length] at small
  obtain ⟨buf1, append, roomy1, data1, valid1, size1, same⟩ :=
    roomy.appendPieces junk (cut.splits.take cut.splitNum) inside 0 (by rw [found]; omega)
  rw [found] at append valid1 size1 same
  rw [Nat.zero_add] at append
  rw [Buf.sendCmd, split, Option.bind_eq_bind, Option.bind_some, append,
    Option.bind_eq_bind, Option.bind_some]
  dsimp only
  by_cases none : words cmd = []
  · refine Or.inl ⟨none, ?_⟩
    rw [none, List.length_nil, if_pos rfl, same none]
  · have some : (words cmd).length ≠ 0 := fun zero => none (List.length_eq_zero_iff.mp zero)
    obtain ⟨buf', ended, sound', valid', _, size', positive', limit'⟩ :=
      appendRecord_spec junk [] roomy1.sound roomy1.positive roomy1.limit (by decide) (by omega)
    refine Or.inr ⟨none, buf', ?_, ⟨sound', positive', limit'⟩, ?_, ?_⟩
    · rw [if_neg some, ended]
      rfl
    · rw [valid', valid1, List.append_assoc]
      rfl
    · rw [size', size1, message_length, Nat.add_assoc]
      rfl

end
end EtdbWire
