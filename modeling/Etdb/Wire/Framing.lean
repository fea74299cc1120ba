import Etdb.Wire.Bounds

/- What a request that etdb_resp_parse_req takes looks like. A length line is looked at by
   its first byte and its length only, and atoi reads the digits that begin it and keeps
   what fits an int. -/
namespace EtdbWire
open DecimalText

structure Denotes (digits : List UInt8) (n : Nat) : Prop where
  some : digits ≠ []
  all : ∀ c ∈ digits, isDigit c = true
  number : value digits = n

/-- Records behind their lengths, each ended by a newline, and a last line that says 0. -/
inductive Framed : List UInt8 → List (List UInt8) → Prop where
  | last {digits : List UInt8} : Denotes digits 0 → Framed (digits ++ [newline]) []
  | record {digits s bytes : List UInt8} {strings : List (List UInt8)} : Denotes digits s.length →
      Framed bytes strings → Framed (digits ++ newline :: (s ++ newline :: bytes)) (s :: strings)

/-- What the encoder writes for the strings but its last newline, with zeros in front of the
    lengths. -/
inductive Reencoded : List UInt8 → List (List UInt8) → Prop where
  | last (zeros : Nat) : Reencoded (List.replicate zeros 48 ++ [48, newline]) []
  | record {s bytes : List UInt8} {strings : List (List UInt8)} (zeros : Nat) : Reencoded bytes strings →
      Reencoded (List.replicate zeros 48 ++ (frame s ++ bytes)) (s :: strings)

/-- The consumed bytes are newlines and the records handed out, which they encode. -/
def Accepted (rest : List UInt8) (records : List (Nat × Nat)) (parsed : Nat) : Prop :=
  (contents rest records).map List.length = records.map Prod.snd ∧
    ∃ k bytes, rest.take parsed = List.replicate k newline ++ bytes ∧
    Framed bytes (contents rest records) ∧
      Reencoded bytes (contents rest records)

def lengthText (rest : List UInt8) : List UInt8 := rest.takeWhile (· ≠ newline)

/-- A length line with nothing but digits, of a number below 2 ^ 31. -/
def PlainLine (rest : List UInt8) : Prop :=
  (∀ c ∈ lengthText rest, isDigit c = true) ∧ value (lengthText rest) < 2 ^ 31

/-- The parser goes from one length line to the next; a place is the memory from there on
    and the rest of the size. -/
def Passes (p q : List UInt8 × Nat) : Prop :=
  ∃ headLen bodyLen, readHeader p.1 p.2 = some (.line headLen bodyLen) ∧
    ¬ (p.1[headLen]? = some newline ∧ bodyLen = 0) ∧ p.1.drop (headLen + bodyLen) = newline :: q.1 ∧
    q.2 = sizeT (p.2 - (headLen + bodyLen : Nat)) - 1

def PlainLines (rest : List UInt8) (size : Nat) : Prop :=
  ∀ k, skipNewlines rest size = some k →
    ∀ q, Relation.ReflTransGen Passes (rest.drop k, size - k) q → PlainLine q.1

section
variable {rest whole more s l digits bytes bytes' : List UInt8} {strings : List (List UInt8)}
variable {size headLen bodyLen turns parsed total k n i : Nat} {recv records : List (Nat × Nat)}
    {c : UInt8}

theorem memchr_text (here : memchr rest size = some (some i)) :
    (lengthText rest).length = i ∧ rest = lengthText rest ++ newline :: rest.drop (i + 1) := by
  induction rest generalizing size i with
  | nil => cases size <;> cases here
  | cons c rest ih =>
    cases size with
    | zero => cases here
    | succ size =>
      unfold memchr at here
      split at here
      · rename_i line
        cases here
        simp [lengthText, line]
      · rename_i other
        obtain ⟨found, later, next⟩ := Option.map_eq_some_iff.mp here
        obtain ⟨j, rfl, rfl⟩ := Option.map_eq_some_iff.mp next
        obtain ⟨length, split⟩ := ih later
        have text : lengthText (c :: rest) = c :: lengthText rest :=
          List.takeWhile_cons_of_pos (by simpa using other)
        rw [text]
        exact ⟨by simp [length], congrArg (c :: ·) split⟩

theorem digit_not_newline (digit : isDigit c = true) : c ≠ newline := by
  rintro rfl
  rw [newline_not_digit] at digit
  cases digit

theorem text_head (first : rest.head?.any isDigit) : (lengthText rest).head?.any isDigit := by
  cases rest with
  | nil => cases first
  | cons c rest =>
    have text : lengthText (c :: rest) = c :: lengthText rest :=
      List.takeWhile_cons_of_pos (by simpa using digit_not_newline first)
    rw [text]
    exact first

theorem header_text (here : readHeader rest size = some (.line headLen bodyLen)) :
    headLen = (lengthText rest).length + 1 ∧ rest = lengthText rest ++ newline :: rest.drop headLen ∧
      (lengthText rest).head?.any isDigit ∧ (bodyLen : Int) = toInt (value (lengthText rest)) ∧
      bodyLen < 2 ^ 31 := by
  unfold readHeader at here
  cases line : memchr rest size with
  | none => simp [line] at here
  | some found =>
    cases found with
    | none => simp [line] at here
    | some i =>
      obtain ⟨length, split⟩ := memchr_text line
      simp only [line] at here
      split at here
      · rename_i first
        split at here
        · cases here
        · split at here
          · cases here
          · split at here
            · cases here
            · split at here
              · cases here
              · rename_i nonneg small
                obtain ⟨rfl, rfl⟩ := Header.line.inj (Option.some.inj here)
                have text : rest.take (i + 1 - 1) = lengthText rest := by
                  rw [Nat.add_sub_cancel, ← length]
                  exact (List.prefix_iff_eq_take.mp (List.takeWhile_prefix _)).symm
                rw [text] at nonneg small ⊢
                refine ⟨by rw [length], split, ?_, ?_, ?_⟩
                · exact text_head first
                · rw [atoi] at nonneg ⊢
                  omega
                · omega
      · cases here

theorem text_line {line : List UInt8} (free : ∀ c ∈ line, c ≠ newline) (more : List UInt8) :
    lengthText (line ++ newline :: more) = line := by
  rw [lengthText, List.takeWhile_append_of_pos fun c inside => by simpa using free c inside,
    List.takeWhile_cons_of_neg (by simp), List.append_nil]

theorem text_digits (all : ∀ c ∈ digits, isDigit c = true) (more : List UInt8) :
    lengthText (digits ++ newline :: more) = digits :=
    text_line (fun c inside => digit_not_newline (all c inside)) more

theorem PlainLine.number (plain : PlainLine rest)
    (line : (bodyLen : Int) = toInt (value (lengthText rest))) :
    value (lengthText rest) = bodyLen := by
  have small := plain.2
  rw [Buf.toInt_eq (by omega) (by omega)] at line
  omega

theorem Denotes.plain (denotes : Denotes digits n) (small : n < 2 ^ 31) (more : List UInt8) :
    PlainLine (digits ++ newline :: more) := by
  rw [PlainLine, text_digits denotes.all, denotes.number]
  exact ⟨denotes.all, small⟩

theorem plain_iff (here : readHeader rest size = some (.line headLen bodyLen)) :
    PlainLine rest ↔ Denotes (lengthText rest) bodyLen := by
  obtain ⟨_, split, first, line, small⟩ := header_text here
  constructor
  · intro plain
    refine ⟨?_, plain.1, plain.number line⟩
    intro none
    rw [none] at first
    cases first
  · intro denotes
    rw [split]
    exact denotes.plain small _

theorem frame_parts {a b l m : List UInt8} (first : ∀ c ∈ a, isDigit c = true)
    (second : ∀ c ∈ b, c ≠ newline)
    (same : a ++ newline :: l = b ++ newline :: m) : a = b ∧ l = m := by
  have equal : a = b := by rw [← text_line second m, ← same, text_digits first]
  subst equal
  exact ⟨rfl, (List.cons.inj (List.append_cancel_left same)).2⟩

theorem Passes.unique {p q r : List UInt8 × Nat} (first : Passes p q) (second : Passes p r) : q = r := by
  obtain ⟨headLen, bodyLen, line, _, tail, left⟩ := first
  obtain ⟨headLen', bodyLen', line', _, tail', left'⟩ := second
  rw [line] at line'
  obtain ⟨rfl, rfl⟩ := Header.line.inj (Option.some.inj line')
  rw [tail] at tail'
  exact Prod.ext (List.cons.inj tail').2 (left.trans left'.symm)

theorem plain_next {p q : List UInt8 × Nat} (passes : Passes p q) :
    (∀ r, Relation.ReflTransGen Passes p r → PlainLine r.1) ↔
      PlainLine p.1 ∧ ∀ r, Relation.ReflTransGen Passes q r → PlainLine r.1 := by
  constructor
  · intro all
    exact ⟨all p .refl, fun r reached => all r (.head passes reached)⟩
  · rintro ⟨here, later⟩ r reached
    rcases Relation.ReflTransGen.cases_head reached with rfl | ⟨q', first, reached'⟩
    · exact here
    · exact later r (first.unique passes ▸ reached')

theorem plain_stop {p : List UInt8 × Nat} (last : ∀ q, ¬ Passes p q) :
    (∀ r, Relation.ReflTransGen Passes p r → PlainLine r.1) ↔ PlainLine p.1 := by
  constructor
  · exact fun all => all p .refl
  · intro here r reached
    rcases Relation.ReflTransGen.cases_head reached with rfl | ⟨q, first, _⟩
    · exact here
    · exact absurd first (last q)

theorem text_free (rest : List UInt8) : ∀ c ∈ lengthText rest, c ≠ newline := by
  intro c inside
  simpa using List.mem_takeWhile_imp inside

theorem framed_last (l : List UInt8) : Framed (l ++ [newline]) [] ↔ Denotes l 0 := by
  refine ⟨fun framed => ?_, .last⟩
  generalize whole : l ++ [newline] = bytes at framed
  cases framed with
  | last denotes => rwa [List.append_cancel_right whole]

theorem framed_record (free : ∀ c ∈ l, c ≠ newline) :
    Framed (l ++ newline :: (s ++ newline :: bytes)) (s :: strings) ↔ Denotes l s.length ∧
    Framed bytes strings := by
  refine ⟨fun framed => ?_, fun ⟨denotes, later⟩ => .record denotes later⟩
  generalize whole : l ++ newline :: (s ++ newline :: bytes) = all at framed
  cases framed with
  | record denotes later =>
    obtain ⟨rfl, rest⟩ := frame_parts denotes.all free whole.symm
    obtain rfl := (List.cons.inj (List.append_cancel_left rest)).2
    exact ⟨denotes, later⟩

structure Taken (whole rest : List UInt8) (size : Nat) (new : List (Nat × Nat)) (len : Nat) : Prop where
  first : rest.head?.any isDigit
  some : 0 < len
  full : (contents whole new).map List.length = new.map Prod.snd
  framed : (∀ q, Relation.ReflTransGen Passes (rest, size) q → PlainLine q.1) ↔
    Framed (rest.take len) (contents whole new)

theorem first_digit (here : readHeader rest size = some (.line headLen bodyLen)) :
    rest.head?.any isDigit := by
  obtain ⟨_, split, first, _⟩ := header_text here
  cases text : lengthText rest with
  | nil =>
    rw [text] at first
    cases first
  | cons c more =>
    rw [text] at first
    rw [split, text]
    exact first

theorem taken_last (whole : List UInt8) (here : readHeader rest size = some (.line headLen 0))
    (behind : rest[headLen]? = some newline) : Taken whole rest size [] headLen := by
  obtain ⟨length, split, _⟩ := header_text here
  have bytes : rest.take headLen = lengthText rest ++ [newline] := by
    conv_lhs => rw [split, length]
    rw [List.take_append, List.take_of_length_le (by omega), Nat.add_sub_cancel_left]
    rfl
  refine ⟨first_digit here, by omega, rfl, ?_⟩
  rw [plain_stop, bytes]
  · exact (plain_iff here).trans (framed_last _).symm
  · rintro q ⟨headLen', bodyLen', line, other, _⟩
    rw [here] at line
    obtain ⟨rfl, rfl⟩ := Header.line.inj (Option.some.inj line)
    exact other ⟨behind, rfl⟩

theorem taken_record (here : readHeader rest size = some (.line headLen bodyLen))
    (other : ¬ (rest[headLen]? = some newline ∧ bodyLen = 0))
    (tail : rest.drop (headLen + bodyLen) = newline :: more)
    (place : whole.drop parsed = rest) {new : List (Nat × Nat)} {len : Nat}
    (later : Taken whole more (sizeT (size - (headLen + bodyLen : Nat)) - 1) new len) :
    Taken whole rest size ((parsed + headLen, bodyLen) :: new) (headLen + bodyLen + 1 + len) := by
  obtain ⟨length, split, _⟩ := header_text here
  have inside : headLen + bodyLen < rest.length := by
    by_contra past
    rw [List.drop_of_length_le (by omega)] at tail
    cases tail
  have body : ((rest.drop headLen).take bodyLen).length = bodyLen := by
    rw [List.length_take, List.length_drop]
    omega
  have record : (whole.drop (parsed + headLen)).take bodyLen = (rest.drop headLen).take bodyLen := by
    rw [← List.drop_drop, place]
  have strings : contents whole ((parsed + headLen, bodyLen) :: new) =
      (rest.drop headLen).take bodyLen :: contents whole new := congrArg (· :: contents whole new) record
  have bytes : rest.take (headLen + bodyLen + 1 + len) =
      lengthText rest ++ newline :: ((rest.drop headLen).take bodyLen ++ newline :: more.take len) := by
    have parts : rest = (lengthText
      rest ++ newline :: ((rest.drop headLen).take bodyLen ++ [newline])) ++ more := by
      have after : rest.drop headLen = (rest.drop headLen).take bodyLen ++ newline :: more := by
        rw [← tail, ← List.drop_drop, List.take_append_drop]
      conv_lhs => rw [split, after]
      simp
    have front : (lengthText rest ++ newline :: ((rest.drop headLen).take bodyLen ++ [newline])).length =
        headLen + bodyLen + 1 := by
      simp only [List.length_append, List.length_cons, List.length_nil, body]
      omega
    conv_lhs => rw [parts]
    rw [List.take_append, List.take_of_length_le (by omega), front, Nat.add_sub_cancel_left]
    simp
  have passes : Passes (rest, size) (more, sizeT (size - (headLen + bodyLen : Nat)) - 1) :=
    ⟨headLen, bodyLen, here, other, tail, rfl⟩
  refine ⟨first_digit here, by omega, ?_, ?_⟩
  · rw [strings, List.map_cons, List.map_cons, body, later.full]
  · rw [plain_next passes, strings, bytes, framed_record (text_free rest), body, later.framed]
    exact and_congr_left' (plain_iff here)

theorem loop_ready (run : parseLoop turns rest size parsed recv = some (.ready records total))
    (place : whole.drop parsed = rest) :
    ∃ new len, records = recv ++ new ∧ total = parsed + len ∧ Taken whole rest size new len := by
  induction turns generalizing rest size parsed recv with
  | zero => cases run
  | succ turns ih =>
    unfold parseLoop at run
    by_cases empty : size = 0
    · rw [if_pos empty] at run
      cases run
    rw [if_neg empty] at run
    cases here : readHeader rest size with
    | none => simp [here] at run
    | some header =>
      rw [here] at run
      cases header with
      | missing => cases run
      | refused => cases run
      | line headLen bodyLen =>
        dsimp only at run
        cases behind : rest[headLen]? with
        | none => simp [behind] at run
        | some c =>
          rw [behind] at run
          dsimp only at run
          split at run
          · rename_i last
            obtain ⟨rfl, rfl⟩ := last
            obtain ⟨rfl, rfl⟩ := Answer.ready.inj (Option.some.inj run)
            exact ⟨[], headLen, (List.append_nil _).symm, rfl, taken_last whole here behind⟩
          rename_i other
          split at run
          · cases run
          cases tail : rest.drop (headLen + bodyLen) with
          | nil => simp [tail] at run
          | cons d more =>
            rw [tail] at run
            dsimp only at run
            split at run
            · cases run
            rename_i line
            split at run
            · cases run
            rw [not_not.mp line] at tail
            have place' : whole.drop (parsed + (headLen + bodyLen) + 1) = more := by
              rw [← List.drop_drop, ← List.drop_drop, place, tail]
              rfl
            obtain ⟨new, len, rfl, rfl, later⟩ := ih run place'
            refine ⟨(parsed + headLen, bodyLen) :: new,
              headLen + bodyLen + 1 + len, by simp, by omega, ?_⟩
            exact taken_record here (by rw [behind]; simpa using other) tail place later

theorem skip_text (skip : skipNewlines rest size = some k) :
    rest.take k = List.replicate k newline := by
  induction rest generalizing size k with
  | nil =>
    cases size with
    | zero =>
      cases skip
      rfl
    | succ size => cases skip
  | cons c rest ih =>
    cases size with
    | zero =>
      cases skip
      rfl
    | succ size =>
      unfold skipNewlines at skip
      split at skip
      · rename_i line
        obtain ⟨j, later, rfl⟩ := Option.map_eq_some_iff.mp skip
        rw [List.take_succ_cons, ih later, line, List.replicate_succ]
      · cases skip
        rfl

theorem Framed.reencoded (framed : Framed bytes strings) : Reencoded bytes strings := by
  induction framed with
  | @last digits denotes =>
    obtain ⟨zeros, spelled⟩ := exists_zeros denotes.some denotes.all
    rw [denotes.number] at spelled
    rw [spelled, List.append_assoc]
    exact .last zeros
  | @record digits s bytes strings denotes _ later =>
    obtain ⟨zeros, spelled⟩ := exists_zeros denotes.some denotes.all
    rw [denotes.number] at spelled
    have record : digits ++ newline :: (s ++ newline :: bytes) = List.replicate zeros 48 ++
      (frame s ++ bytes) := by
      rw [spelled, frame]
      simp
    rw [record]
    exact .record zeros later

theorem Framed.line (framed : Framed bytes strings) :
    Denotes (lengthText bytes) (strings.head?.elim 0 List.length) := by
  cases framed with
  | last denotes =>
    rw [text_digits denotes.all]
    exact denotes
  | record denotes _ =>
    rw [text_digits denotes.all]
    exact denotes

theorem Framed.first (framed : Framed bytes strings) : bytes.head?.any isDigit := by
  have digit : ∀ {digits : List UInt8} {n : Nat} (more : List UInt8), Denotes digits n →
      (digits ++ more).head?.any isDigit := by
    intro digits n more denotes
    obtain ⟨c, rest, rfl⟩ := List.exists_cons_of_ne_nil denotes.some
    exact denotes.all c List.mem_cons_self
  cases framed with
  | last denotes => exact digit _ denotes
  | record denotes _ => exact digit _ denotes

theorem strip_newlines (first : bytes.head?.any isDigit) :
    (List.replicate k newline ++ bytes).dropWhile (· = newline) = bytes := by
  cases bytes with
  | nil => cases first
  | cons c rest =>
    rw [List.dropWhile_append_of_pos (by simp), List.dropWhile_cons_of_neg]
    simpa using digit_not_newline first

/-- On the answer 0 the consumed bytes are the encoding of the records when and only when
    every length line that the parser came to is a plain one. -/
theorem accepted_iff (rest : List UInt8) (size : Nat) (records : List (Nat × Nat)) (parsed : Nat)
    (run : parseReq rest size = some (.ready records parsed)) :
    Accepted rest records parsed ↔ PlainLines rest size := by
  unfold parseReq at run
  cases skip : skipNewlines rest size with
  | none => simp [skip] at run
  | some k =>
    rw [skip] at run
    obtain ⟨new, len, made, rfl, taken⟩ := loop_ready run (show rest.drop k = rest.drop k from rfl)
    rw [List.nil_append] at made
    subst made
    have bytes : rest.take (k + len) = List.replicate k newline ++ (rest.drop k).take len := by
      rw [List.take_add, skip_text skip]
    have first : ((rest.drop k).take len).head?.any isDigit := by
      rw [List.head?_take, if_neg (by have := taken.some; omega)]
      exact taken.first
    have plain : PlainLines rest size ↔ Framed ((rest.drop k).take len) (contents rest records) := by
      rw [← taken.framed, PlainLines, skip]
      simp
    rw [plain, Accepted, bytes]
    constructor
    · rintro ⟨_, k', bytes', same, framed, _⟩
      have stripped := congrArg (List.dropWhile (· = newline)) same
      rw [strip_newlines first, strip_newlines framed.first] at stripped
      rwa [stripped]
    · exact fun framed => ⟨taken.full, k, _, rfl, framed, framed.reencoded⟩

/-- A record behind a newline, with a zero in front of its length. -/
theorem accepted_iff_once : Accepted [10, 48, 49, 10, 97, 10, 48, 10, 10] [(4, 1)] 8 ↔
    PlainLines [10, 48, 49, 10, 97, 10, 48, 10, 10] 9 :=
  accepted_iff [10, 48, 49, 10, 97, 10, 48, 10, 10] 9 [(4, 1)] 8 (by decide +kernel)

theorem Accepted.line (accepted : Accepted rest records parsed) (first : rest.head?.any isDigit)
    (some : 0 < parsed) :
    Denotes (lengthText (rest.take parsed)) ((contents rest records).head?.elim 0 List.length) := by
  obtain ⟨_, k, bytes, same, framed, _⟩ := accepted
  have begins : (rest.take parsed).head?.any isDigit := by
    rw [List.head?_take, if_neg (by omega)]
    exact first
  have stripped := congrArg (List.dropWhile (· = newline)) same
  have whole := strip_newlines (k := 0) begins
  rw [List.replicate_zero, List.nil_append] at whole
  rw [strip_newlines framed.first, whole] at stripped
  rw [stripped]
  exact framed.line

theorem hostile_lengths :
    parseReq [49, 120, 10, 97, 10, 48, 10, 10] 8 = some (.ready [(3, 1)] 7) ∧
    ¬ Accepted [49, 120, 10, 97, 10, 48, 10, 10] [(3, 1)] 7 ∧
    parseReq [52, 50, 57, 52, 57, 54, 55, 50, 57, 55, 10, 97, 10, 48, 10, 10] 16 =
    some (.ready [(11, 1)] 15) ∧
    ¬ Accepted [52, 50, 57, 52, 57, 54, 55, 50, 57, 55, 10, 97, 10, 48, 10, 10] [(11, 1)] 15 := by
  refine ⟨by decide +kernel, fun accepted => ?_, by decide +kernel, fun accepted => ?_⟩
  · have line := (accepted.line (by decide) (by decide)).all
    revert line
    decide +kernel
  · have line := (accepted.line (by decide) (by decide)).number
    revert line
    decide +kernel

end
end EtdbWire
