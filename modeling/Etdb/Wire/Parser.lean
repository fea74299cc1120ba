import Etdb.Wire.Buffer
import Mathlib.Logic.Relation

/- etdb_resp_parse_req. The parser is given the memory from buf->data to the end of the
   block and the number of valid bytes at its start; nothing but `size` tells it where
   these end. Reading past the memory and an overflow of an int end the run with none. -/
namespace EtdbWire
open DecimalText

def newline : UInt8 := 10

def maxPacketSize : Nat := 32 * 1024 * 1024

inductive Answer where
  /-- 0: the records, each with its distance from buf->data, and the bytes consumed -/
  | ready (records : List (Nat × Nat)) (parsed : Nat)
  /-- 1 -/
  | notReady
  /-- -1 -/
  | refused
  deriving DecidableEq

/-- The loop over the newlines before a request; the result is their number. -/
def skipNewlines : List UInt8 → Nat → Option Nat
  | _, 0 => some 0
  | [], _ + 1 => none
  | c :: rest, size + 1 => if c = newline then (skipNewlines rest size).map (· + 1) else some 0

/-- memchr of a newline: its distance, or that there is none in the first `size` bytes. -/
def memchr : List UInt8 → Nat → Option (Option Nat)
  | _, 0 => some none
  | [], _ + 1 => none
  | c :: rest, size + 1 => if c = newline then some (some 0) else (memchr rest size).map
      (Option.map (· + 1))

def atoi (s : List UInt8) : Int := toInt (value s)

inductive Header where
  /-- no newline in the valid bytes -/
  | missing
  | refused
  /-- head_len, which is the distance of the body, and body_len -/
  | line (headLen bodyLen : Nat)
  deriving DecidableEq

/-- The length line at the start of the memory. A line that starts with a digit and is
    too long for the int head_len counts as an overflow. -/
def readHeader (rest : List UInt8) (size : Nat) : Option Header :=
  match memchr rest size with
  | none => none
  | some none => some .missing
  | some (some i) =>
    let headLen := i + 1
    if rest.head?.any isDigit then
      if 2 ^ 31 ≤ headLen then none
      else if 15 < headLen then some .refused
      else
        let bodyLen := atoi (rest.take (headLen - 1))
        if bodyLen < 0 then some .refused
        else if 2 ^ 31 ≤ headLen + bodyLen then none
        else some (.line headLen bodyLen.toNat)
    else some .refused

/-- The loop over the records. `size` is a size_t, so that the test for a negative rest
    never succeeds and is left out. -/
def parseLoop : Nat → List UInt8 → Nat → Nat → List (Nat × Nat) → Option Answer
  | 0, _, _, _, _ => none
  | turns + 1, rest, size, parsed, recv =>
    if size = 0 then some .notReady
    else
      match readHeader rest size with
      | none => none
      | some .missing => some .notReady
      | some .refused => some .refused
      | some (.line headLen bodyLen) =>
        let size := sizeT (size - (headLen + bodyLen : Nat))
        match rest[headLen]? with
        | none => none
        | some c =>
          if c = newline ∧ bodyLen = 0 then some (.ready recv (parsed + (headLen + bodyLen)))
          else if size = 0 then some .notReady
          else
            match rest.drop (headLen + bodyLen) with
            | [] => none
            | c :: more =>
              if c ≠ newline then some .notReady
              else if maxPacketSize < parsed + (headLen + bodyLen) + 1 then some .refused
              else parseLoop turns more (size - 1) (parsed + (headLen + bodyLen) + 1)
                (recv ++ [(parsed + headLen, bodyLen)])

/-- etdb_resp_parse_req; a record takes at least one byte of the memory. -/
def parseReq (rest : List UInt8) (size : Nat) : Option Answer :=
  match skipNewlines rest size with
  | none => none
  | some k => parseLoop (rest.length + 1) (rest.drop k) (size - k) k []

section
variable {v l : List UInt8} {size i n k body total bodyLen parsed turns : Nat} {recv : List (Nat × Nat)}

theorem skipNewlines_valid (v more : List UInt8) :
    skipNewlines (v ++ more) v.length = some (v.length - (v.dropWhile (· = newline)).length) := by
  induction v with
  | nil => cases more <;> rfl
  | cons c v ih =>
    rw [List.cons_append, List.length_cons, skipNewlines]
    by_cases line : c = newline
    · have shorter := (List.dropWhile_sublist (· = newline) (l := v)).length_le
      rw [if_pos line, ih, Option.map_some, List.dropWhile_cons_of_pos (by simpa using line)]
      congr 1
      omega
    · rw [if_neg line, List.dropWhile_cons_of_neg (by simpa using line), List.length_cons, Nat.sub_self]

theorem memchr_missing (none : newline ∉ v) (more : List UInt8) :
    memchr (v ++ more) v.length = some Option.none := by
  induction v with
  | nil => cases more <;> rfl
  | cons c v ih =>
    rw [List.mem_cons, not_or] at none
    rw [List.cons_append, List.length_cons, memchr, if_neg (Ne.symm none.1), ih none.2]
    rfl

theorem memchr_found (none : newline ∉ l) (more : List UInt8) (inside : l.length < size) :
    memchr (l ++ newline :: more) size = some (some l.length) := by
  induction l generalizing size with
  | nil =>
    obtain ⟨size, rfl⟩ : ∃ m, size = m + 1 := ⟨size - 1, by simp only [List.length_nil] at inside; omega⟩
    rfl
  | cons c l ih =>
    rw [List.mem_cons, not_or] at none
    rw [List.length_cons] at inside
    obtain ⟨size, rfl⟩ : ∃ m, size = m + 1 := ⟨size - 1, by omega⟩
    rw [List.cons_append, memchr, if_neg (Ne.symm none.1), ih none.2 (by omega)]
    rfl

theorem newline_not_digit : isDigit newline = false := rfl

theorem newline_not_in_spell (n : Nat) : newline ∉ spell n := by
  intro member
  have digit := spell_digits n newline member
  rw [newline_not_digit] at digit
  cases digit

theorem readHeader_spell (small : n < 2 ^ 30) (more : List UInt8) (inside : (spell n).length < size) :
    readHeader (spell n ++ newline :: more) size =
      some (.line ((spell n).length + 1) n) := by
  have short : (spell n).length ≤ 10 := spell_length (by omega) (by decide)
  obtain ⟨c, digits, spelled⟩ := List.exists_cons_of_ne_nil (spell_some n)
  have first : isDigit c = true := spell_digits n c (by rw [spelled]; exact List.mem_cons_self)
  have head : (spell n ++ newline :: more).head?.any isDigit = true := by
    rw [spelled]
    exact first
  have body : atoi ((spell n ++ newline :: more).take (spell n).length) = n := by
    rw [List.take_left, atoi, value_spell]
    exact Buf.toInt_eq (by omega) (by omega)
  unfold readHeader
  rw [memchr_found (newline_not_in_spell n) more inside]
  dsimp only
  rw [if_pos head, if_neg (by omega), if_neg (by omega), Nat.add_sub_cancel, body,
    if_neg (by omega), if_neg (by omega)]
  rfl

end
end EtdbWire
