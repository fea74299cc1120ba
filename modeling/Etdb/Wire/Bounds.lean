import Etdb.Wire.Messages

/- Which bytes the parser looks at. On memory that ends with the valid bytes a run is
   defined when it stays among them; it then runs alike whatever lies behind them. -/
namespace EtdbWire
open DecimalText

def Follows (total : Nat) (rest more : List UInt8) : Prop :=
  ∃ headLen bodyLen, readHeader rest rest.length = some (.line headLen bodyLen) ∧
    ¬ (rest[headLen]? = some newline ∧ bodyLen = 0) ∧ rest.drop (headLen + bodyLen) = newline :: more ∧
    total - more.length ≤ maxPacketSize

/-- No line, a refused line, or one with a byte behind it whose declared body ends among
    the valid bytes, its lengths adding up in an int. -/
def Closed (rest : List UInt8) : Prop :=
  match readHeader rest rest.length with
  | none => False
  | some (.line headLen bodyLen) => headLen < rest.length ∧ headLen + bodyLen ≤ rest.length
  | some _ => True

def AllClosed (total : Nat) (rest : List UInt8) : Prop :=
    ∀ r, Relation.ReflTransGen (Follows total) rest r → Closed r

def follower (total : Nat) (rest : List UInt8) : Option (List UInt8) :=
  match readHeader rest rest.length with
  | some (.line headLen bodyLen) =>
    if rest[headLen]? = some newline ∧ bodyLen = 0 then none
    else match rest.drop (headLen + bodyLen) with
      | [] => none
      | c :: more => if c = newline ∧ total - more.length ≤ maxPacketSize then some more else none
  | _ => none

def everywhere (test : List UInt8 → Bool) (total : Nat) : Nat → List UInt8 → Bool
  | 0, _ => true
  | turns + 1, rest => test rest && (follower total rest).all (everywhere test total turns)

def closes (rest : List UInt8) : Bool :=
  match readHeader rest rest.length with
  | none => false
  | some (.line headLen bodyLen) => headLen < rest.length ∧ headLen + bodyLen ≤ rest.length
  | some _ => true

def Answer.Within (size : Nat) : Answer → Prop
  | .ready records parsed => parsed ≤ size ∧ ∀ r ∈ records, r.1 + r.2 ≤ size
  | _ => True

section
variable {rest more stale r : List UInt8} {size total parsed turns headLen bodyLen i : Nat}
variable {recv : List (Nat × Nat)} {answer : Answer} {header : Header} {found : Option Nat}

theorem memchr_inside (here : memchr rest size = some (some i)) : i < size ∧ i < rest.length := by
  induction rest generalizing size i with
  | nil => cases size <;> cases here
  | cons c rest ih =>
    cases size with
    | zero => cases here
    | succ size =>
      unfold memchr at here
      split at here
      · cases here
        exact ⟨Nat.succ_pos _, Nat.succ_pos _⟩
      · cases later : memchr rest size with
        | none => simp [later] at here
        | some found =>
          cases found with
          | none => simp [later] at here
          | some j =>
            have inside := ih later
            simp only [later, Option.map_some, Option.some.injEq] at here
            rw [List.length_cons]
            omega

theorem memchr_extend (here : memchr rest size = some found) (stale : List UInt8) :
    memchr (rest ++ stale) size = some found := by
  induction rest generalizing size found with
  | nil =>
    cases size with
    | zero => cases here; cases stale <;> rfl
    | succ size => cases here
  | cons c rest ih =>
    cases size with
    | zero => exact here
    | succ size =>
      rw [List.cons_append, memchr]
      unfold memchr at here
      split
      · rename_i line
        rwa [if_pos line] at here
      · rename_i other
        rw [if_neg other] at here
        cases later : memchr rest size with
        | none => simp [later] at here
        | some found' =>
          rw [later] at here
          rw [ih later]
          exact here

theorem readHeader_line (here : readHeader rest size = some (.line headLen bodyLen)) :
    0 < headLen ∧ headLen ≤ rest.length ∧ headLen + bodyLen < 2 ^ 31 := by
  unfold readHeader at here
  cases line : memchr rest size with
  | none => simp [line] at here
  | some found =>
    cases found with
    | none => simp [line] at here
    | some i =>
      have inside := memchr_inside line
      simp only [line] at here
      split at here
      · split at here
        · cases here
        · split at here
          · cases here
          · split at here
            · cases here
            · split at here
              · cases here
              · cases here
                omega
      · cases here

theorem readHeader_extend (here : readHeader rest size = some header) (stale : List UInt8) :
    readHeader (rest ++ stale) size = some header := by
  unfold readHeader at here ⊢
  cases line : memchr rest size with
  | none => simp [line] at here
  | some found =>
    rw [memchr_extend line stale]
    cases found with
    | none => simpa [line] using here
    | some i =>
      have inside := memchr_inside line
      obtain ⟨c, l, rfl⟩ := List.exists_cons_of_ne_nil (show rest ≠ [] by rintro rfl; simp at inside)
      have text : (c :: l ++ stale).take (i + 1 - 1) = (c :: l).take (i + 1 - 1) :=
        List.take_append_of_le_length (by omega)
      rw [line] at here
      dsimp only at here ⊢
      rw [text]
      exact here

theorem follows_iff : Follows total rest more ↔ follower total rest = some more := by
  unfold Follows follower
  cases readHeader rest rest.length with
  | none => simp
  | some header =>
    cases header with
    | missing => simp
    | refused => simp
    | line headLen bodyLen =>
      simp only [Option.some.injEq, Header.line.injEq, ↓existsAndEq, true_and]
      by_cases last : rest[headLen]? = some newline ∧ bodyLen = 0
      · simp [last]
      · rw [if_neg last]
        cases rest.drop (headLen + bodyLen) with
        | nil => simp
        | cons c tail =>
          by_cases packet : c = newline ∧ total - tail.length ≤ maxPacketSize
          · simp only [last, not_false_eq_true, true_and, if_pos packet, List.cons.injEq,
              Option.some.injEq]
            constructor
            · intro same
              exact same.1.2
            · rintro rfl
              exact ⟨⟨packet.1, rfl⟩, packet.2⟩
          · simp only [if_neg packet, List.cons.injEq, reduceCtorEq, iff_false]
            rintro ⟨_, ⟨line, rfl⟩, fits⟩
            exact packet ⟨line, fits⟩

theorem Follows.shorter (follows : Follows total rest more) : more.length < rest.length := by
  obtain ⟨headLen, bodyLen, line, _, tail, _⟩ := follows
  have positive := (readHeader_line line).1
  have length := congrArg List.length tail
  rw [List.length_drop, List.length_cons] at length
  omega

theorem everywhere_iff {test : List UInt8 → Bool} (enough : rest.length < turns) :
    everywhere test total turns rest = true ↔
      ∀ r, Relation.ReflTransGen (Follows total) rest r → test r = true := by
  induction turns generalizing rest with
  | zero => omega
  | succ turns ih =>
    rw [everywhere, Bool.and_eq_true]
    constructor
    · intro tested r reached
      obtain ⟨here, later⟩ := tested
      rcases Relation.ReflTransGen.cases_head reached with rfl | ⟨more, follows, reached⟩
      · exact here
      · have shorter := follows.shorter
        rw [follows_iff.mp follows, Option.all_some, ih (by omega)] at later
        exact later r reached
    · intro tested
      refine ⟨tested rest .refl, ?_⟩
      cases next : follower total rest with
      | none => rfl
      | some more =>
        have follows := follows_iff.mpr next
        have shorter := follows.shorter
        rw [Option.all_some, ih (by omega)]
        exact fun r reached => tested r (.head follows reached)

theorem closes_iff : closes rest = true ↔ Closed rest := by
  unfold closes Closed
  cases readHeader rest rest.length with
  | none => simp
  | some header => cases header <;> simp

instance : Decidable (AllClosed total rest) :=
  decidable_of_iff (everywhere closes total (rest.length + 1) rest = true) <| by
    rw [everywhere_iff (Nat.lt_succ_self _)]
    exact forall₂_congr fun _ _ => closes_iff

theorem parseLoop_extend (run : parseLoop turns rest size parsed recv = some answer) (stale : List UInt8)
    (extra : Nat) : parseLoop (turns + extra) (rest ++ stale) size parsed recv = some answer := by
  induction turns generalizing rest size parsed recv with
  | zero => cases run
  | succ turns ih =>
    rw [Nat.succ_add, parseLoop]
    unfold parseLoop at run
    by_cases empty : size = 0
    · rwa [if_pos empty] at run ⊢
    · rw [if_neg empty] at run ⊢
      cases here : readHeader rest size with
      | none => simp [here] at run
      | some header =>
        rw [readHeader_extend here stale]
        rw [here] at run
        cases header with
        | missing => exact run
        | refused => exact run
        | line headLen bodyLen =>
          dsimp only at run ⊢
          cases behind : rest[headLen]? with
          | none => simp [behind] at run
          | some c =>
            have inside : headLen < rest.length := (List.getElem?_eq_some_iff.mp behind).1
            rw [List.getElem?_append_left inside, behind]
            rw [behind] at run
            dsimp only at run ⊢
            split
            · rename_i last
              rwa [if_pos last] at run
            · rename_i more
              rw [if_neg more] at run
              split
              · rename_i full
                rwa [if_pos full] at run
              · rename_i left
                rw [if_neg left] at run
                cases after : rest.drop (headLen + bodyLen) with
                | nil => simp [after] at run
                | cons d tail =>
                  have reach : headLen + bodyLen ≤ rest.length := by
                    by_contra past
                    rw [List.drop_of_length_le (by omega)] at after
                    cases after
                  rw [List.drop_append_of_le_length reach, after, List.cons_append]
                  rw [after] at run
                  dsimp only at run ⊢
                  split
                  · rename_i other
                    rwa [if_pos other] at run
                  · rename_i line
                    rw [if_neg line] at run
                    split
                    · rename_i long
                      rwa [if_pos long] at run
                    · rename_i short
                      rw [if_neg short] at run
                      exact ih run

theorem AllClosed.next (all : AllClosed total rest) (follows : Follows total rest more) :
    AllClosed total more :=
  fun r reached => all r (.head follows reached)

theorem AllClosed.stop (closed : Closed rest) (last : ∀ more, ¬ Follows total rest more) :
    AllClosed total rest := by
  intro r reached
  rcases Relation.ReflTransGen.cases_head reached with rfl | ⟨more, follows, _⟩
  · exact closed
  · exact absurd follows (last more)

theorem AllClosed.step (closed : Closed rest) (follows : Follows total rest more)
    (all : AllClosed total more) : AllClosed total rest := by
  intro r reached
  rcases Relation.ReflTransGen.cases_head reached with rfl | ⟨other, first, later⟩
  · exact closed
  · obtain ⟨headLen, bodyLen, line, _, tail, _⟩ := follows
    obtain ⟨headLen', bodyLen', line', _, tail', _⟩ := first
    rw [line] at line'
    cases line'
    rw [tail] at tail'
    obtain ⟨_, rfl⟩ := List.cons.inj tail'
    exact all r later

theorem parse_line (line : readHeader rest rest.length = some (.line headLen bodyLen))
    (body : headLen < rest.length) (reach : headLen + bodyLen ≤ rest.length)
    (small : rest.length < 2 ^ 64) (turns parsed : Nat) (recv : List (Nat × Nat)) (stale : List UInt8) :
    parseLoop (turns + 1) (rest ++ stale) rest.length parsed recv =
      if rest[headLen] = newline ∧ bodyLen = 0 then some (.ready recv (parsed + (headLen + bodyLen)))
      else match rest.drop (headLen + bodyLen) with
        | [] => some .notReady
        | c :: more =>
          if c ≠ newline then some .notReady
          else if maxPacketSize < parsed + (headLen + bodyLen) + 1 then some .refused
          else parseLoop turns (more ++ stale) more.length (parsed + (headLen + bodyLen) + 1)
            (recv ++ [(parsed + headLen, bodyLen)]) := by
  have left : sizeT ((rest.length : Int) - (headLen + bodyLen : Nat)) =
      rest.length - (headLen + bodyLen) := by
    unfold sizeT
    omega
  have tail_length : (rest.drop (headLen + bodyLen)).length = rest.length - (headLen + bodyLen) :=
    List.length_drop
  rw [parseLoop, if_neg (by omega), readHeader_extend line stale]
  dsimp only
  rw [List.getElem?_append_left body, List.getElem?_eq_getElem body, left]
  dsimp only
  by_cases last : rest[headLen] = newline ∧ bodyLen = 0
  · rw [if_pos last, if_pos last]
  · rw [if_neg last, if_neg last, List.drop_append_of_le_length reach]
    cases tail : rest.drop (headLen + bodyLen) with
    | nil =>
      rw [tail, List.length_nil] at tail_length
      exact if_pos tail_length.symm
    | cons c more =>
      rw [tail, List.length_cons] at tail_length
      rw [if_neg (by omega), List.cons_append, ← tail_length, Nat.add_sub_cancel]

theorem parse_follows (follows : Follows total rest more) (count : parsed + rest.length = total)
    (small : total < 2 ^ 64) (turns : Nat) (recv : List (Nat × Nat)) (stale : List UInt8) :
    ∃ record, record.1 + record.2 ≤ total ∧ more.length < rest.length ∧
      parseLoop (turns + 1) (rest ++ stale) rest.length parsed recv =
        parseLoop turns (more ++ stale) more.length (total - more.length) (recv ++ [record]) := by
  obtain ⟨headLen, bodyLen, line, last, tail, packet⟩ := follows
  obtain ⟨positive, fits, int⟩ := readHeader_line line
  have length : (rest.drop (headLen + bodyLen)).length = more.length + 1 := by rw [tail, List.length_cons]
  rw [List.length_drop] at length
  have body : headLen < rest.length := by omega
  rw [List.getElem?_eq_getElem body, Option.some.injEq] at last
  refine ⟨(parsed + headLen, bodyLen), by dsimp only; omega, by omega, ?_⟩
  rw [parse_line line body (by omega) (by omega), if_neg last, tail]
  dsimp only
  rw [if_neg (fun h => h rfl), if_neg (by omega),
    show parsed + (headLen + bodyLen) + 1 = total - more.length by omega]

theorem parse_stop (closed : Closed rest) (last : ∀ more, ¬ Follows total rest more)
    (count : parsed + rest.length = total) (small : total < 2 ^ 64)
    (inside : ∀ r ∈ recv, r.1 + r.2 ≤ total) (turns : Nat) (stale : List UInt8) : ∃ answer,
    parseLoop (turns + 1) (rest ++ stale) rest.length parsed recv = some answer ∧ answer.Within total := by
  by_cases empty : rest.length = 0
  · exact ⟨.notReady, if_pos empty, trivial⟩
  · unfold Closed at closed
    cases here : readHeader rest rest.length with
    | none =>
      rw [here] at closed
      exact absurd closed id
    | some header =>
      cases header with
      | missing => exact ⟨.notReady, by rw [parseLoop, if_neg empty, readHeader_extend here], trivial⟩
      | refused => exact ⟨.refused, by rw [parseLoop, if_neg empty, readHeader_extend here], trivial⟩
      | line headLen bodyLen =>
        rw [here] at closed
        obtain ⟨body, reach⟩ := closed
        rw [parse_line here body reach (by omega)]
        by_cases terminator : rest[headLen] = newline ∧ bodyLen = 0
        · exact ⟨_, if_pos terminator, by omega, inside⟩
        · rw [if_neg terminator]
          cases tail : rest.drop (headLen + bodyLen) with
          | nil => exact ⟨.notReady, rfl, trivial⟩
          | cons c more =>
            have length := congrArg List.length tail
            rw [List.length_drop, List.length_cons] at length
            by_cases other : c ≠ newline
            · exact ⟨.notReady, if_pos other, trivial⟩
            · have newline := not_not.mp other
              have long : maxPacketSize < parsed + (headLen + bodyLen) + 1 := by
                by_contra short
                exact last more ⟨headLen, bodyLen, here,
                  by rwa [List.getElem?_eq_getElem body, Option.some.injEq], by rw [tail, newline],
                  by omega⟩
              exact ⟨.refused, by dsimp only; rw [if_neg other, if_pos long], trivial⟩

theorem parse_leaves (cut : ¬ Closed rest) (small : rest.length < 2 ^ 64) (turns parsed : Nat)
    (recv : List (Nat × Nat)) : parseLoop (turns + 1) rest rest.length parsed recv = none := by
  unfold Closed at cut
  cases here : readHeader rest rest.length with
  | none =>
    rw [parseLoop]
    by_cases empty : rest.length = 0
    · obtain rfl := List.length_eq_zero_iff.mp empty
      cases here
    · rw [if_neg empty, here]
  | some header =>
    rw [here] at cut
    cases header with
    | missing => exact absurd trivial cut
    | refused => exact absurd trivial cut
    | line headLen bodyLen =>
      obtain ⟨positive, fits, int⟩ := readHeader_line here
      dsimp only at cut
      rw [parseLoop, if_neg (by omega), here]
      dsimp only
      by_cases body : headLen < rest.length
      · -- the size wraps, and the byte behind the record is not in the memory
        have left : sizeT ((rest.length : Int) - (headLen + bodyLen : Nat)) ≠ 0 := by
          unfold sizeT
          omega
        rw [List.getElem?_eq_getElem body]
        dsimp only
        rw [if_neg (by omega), if_neg left, List.drop_of_length_le (by omega)]
      · rw [List.getElem?_eq_none (by omega)]

/-- On the valid bytes alone, a run is defined when every line it comes to is closed, and
    only then; its records and what it consumes stay inside. -/
theorem parseLoop_closed (total : Nat) (rest : List UInt8) (parsed turns : Nat) (recv : List (Nat × Nat))
    (count : parsed + rest.length = total) (small : total < 2 ^ 64) (enough : rest.length < turns)
    (inside : ∀ r ∈ recv, r.1 + r.2 ≤ total) :
    (AllClosed total rest → ∃ answer, parseLoop turns rest rest.length parsed recv = some answer ∧
      answer.Within total) ∧
    ((∃ answer, parseLoop turns rest rest.length parsed recv = some answer) → AllClosed total rest) := by
  induction turns generalizing rest parsed recv with
  | zero => omega
  | succ turns ih =>
    by_cases closed : Closed rest
    · by_cases last : ∃ more, Follows total rest more
      · obtain ⟨more, follows⟩ := last
        obtain ⟨record, fits, shorter, run⟩ := parse_follows follows count small turns recv []
        rw [List.append_nil, List.append_nil] at run
        have inside' : ∀ r ∈ recv ++ [record], r.1 + r.2 ≤ total := by
          intro r member
          rcases List.mem_append.mp member with old | new
          · exact inside r old
          · rw [List.mem_singleton.mp new]
            exact fits
        obtain ⟨forward, backward⟩ :=
          ih more (total - more.length) (recv ++ [record]) (by omega) (by omega) inside'
        rw [run]
        exact ⟨fun all => forward (all.next follows),
          fun defined => AllClosed.step closed follows (backward defined)⟩
      · have nothing : ∀ more, ¬ Follows total rest more := fun more follows => last ⟨more, follows⟩
        have answered := parse_stop closed nothing count small inside turns []
        rw [List.append_nil] at answered
        exact ⟨fun _ => answered, fun _ => AllClosed.stop closed nothing⟩
    · have leaves := parse_leaves closed (by omega) turns parsed recv
      rw [leaves]
      constructor
      · intro all
        exact absurd (all rest .refl) closed
      · intro defined
        obtain ⟨answer, none⟩ := defined
        cases none

theorem parse_open {c : UInt8} (line : readHeader rest rest.length = some (.line headLen bodyLen))
    (cut : ¬ Closed rest) (behind : (rest ++ stale)[headLen + bodyLen]? = some c) (other : c ≠ newline)
    (small : rest.length < 2 ^ 64) (turns parsed : Nat) (recv : List (Nat × Nat)) :
    parseLoop (turns + 1) (rest ++ stale) rest.length parsed recv = some .notReady := by
  obtain ⟨positive, fits, int⟩ := readHeader_line line
  rw [Closed, line] at cut
  dsimp only at cut
  have reach : headLen + bodyLen < (rest ++ stale).length := (List.getElem?_eq_some_iff.mp behind).1
  have here : (rest ++ stale)[headLen]? = some (rest ++ stale)[headLen] :=
    List.getElem?_eq_getElem (by omega)
  rw [parseLoop, if_neg (by omega), readHeader_extend line stale]
  dsimp only
  rw [here]
  dsimp only
  by_cases whole : headLen + bodyLen = rest.length
  · -- the line ends with the valid bytes
    have nil : bodyLen = 0 := by omega
    subst nil
    have first : (rest ++ stale)[headLen] = c := Option.some.inj (here.symm.trans behind)
    have left : sizeT ((rest.length : Int) - (headLen + 0 : Nat)) = 0 := by
      unfold sizeT
      omega
    rw [if_neg (fun h => other (first ▸ h.1)), left, if_pos rfl]
  · have left : sizeT ((rest.length : Int) - (headLen + bodyLen : Nat)) ≠ 0 := by
      unfold sizeT
      omega
    have tail : (rest ++ stale).drop (headLen + bodyLen) = c :: (rest ++ stale).drop
      (headLen + bodyLen + 1) := by
      rw [List.drop_eq_getElem_cons reach]
      rw [List.getElem?_eq_getElem reach] at behind
      rw [Option.some.inj behind]
    rw [if_neg (by omega), if_neg left, tail]
    exact if_pos other

theorem parse_harmless (total : Nat) (rest : List UInt8) (parsed turns : Nat) (recv : List (Nat × Nat))
    (count : parsed + rest.length = total) (small : total < 2 ^ 64) (enough : rest.length < turns)
    (inside : ∀ r ∈ recv, r.1 + r.2 ≤ total)
    (harmless : ∀ r, Relation.ReflTransGen (Follows total) rest r → Closed r ∨ ∃ headLen bodyLen c,
      readHeader r r.length = some (.line headLen bodyLen) ∧
      (r ++ stale)[headLen + bodyLen]? = some c ∧ c ≠ newline) :
    ∃ answer, parseLoop turns (rest ++ stale) rest.length parsed recv = some answer ∧
    answer.Within total := by
  induction turns generalizing rest parsed recv with
  | zero => omega
  | succ turns ih =>
    by_cases closed : Closed rest
    · by_cases last : ∃ more, Follows total rest more
      · obtain ⟨more, follows⟩ := last
        obtain ⟨record, fits, shorter, run⟩ := parse_follows follows count small turns recv stale
        rw [run]
        refine ih more (total - more.length) (recv ++ [record]) (by omega) (by omega) ?_ fun r reached =>
          harmless r (.head follows reached)
        intro r member
        rcases List.mem_append.mp member with old | new
        · exact inside r old
        · rw [List.mem_singleton.mp new]
          exact fits
      · have nothing : ∀ more, ¬ Follows total rest more := fun more follows => last ⟨more, follows⟩
        exact parse_stop closed nothing count small inside turns stale
    · obtain ⟨headLen, bodyLen, c, line, behind, other⟩ := (harmless rest .refl).resolve_left closed
      exact ⟨_, parse_open line closed behind other (by omega) turns parsed recv, trivial⟩

end
namespace Buf

/-- The parser inspects only valid bytes: it runs on them alone, and so as it does in the
    block. Nothing of what it answers lies outside them, and the buffer stays in its block. -/
def Guarded (buf : Buf) : Prop :=
  ∃ answer, parseReq buf.valid buf.size = some answer ∧ buf.parse = some answer ∧ answer.Within buf.size ∧
    ∀ records parsed, answer = .ready records parsed →
      (buf.decr parsed).data + (buf.decr parsed).size ≤ buf.capacity

section
variable {buf : Buf}

theorem parse_alone (sound : buf.Sound) : parseReq buf.valid buf.size =
    parseLoop (buf.size + 1) (buf.valid.dropWhile (· = newline))
    (buf.valid.dropWhile (· = newline)).length
      (buf.size - (buf.valid.dropWhile (· = newline)).length) [] := by
  have length := sound.valid_length
  have alone : (Buf.mk buf.valid 0 buf.size).Sound := by
    have := sound.inside
    have := sound.small
    exact ⟨by dsimp only [capacity]; omega, by dsimp only [capacity]; omega⟩
  have valid : (Buf.mk buf.valid 0 buf.size).valid = buf.valid := by
    rw [Buf.valid, List.drop_zero, ← length, List.take_length]
  have run := parse_valid alone
  rw [valid] at run
  dsimp only [parse] at run
  rw [List.drop_zero, Nat.zero_add, length, List.drop_of_length_le (by omega), List.append_nil] at run
  exact run

theorem parse_extend (sound : buf.Sound) {answer : Answer}
    (run : parseReq buf.valid buf.size = some answer) : buf.parse = some answer := by
  have length := sound.valid_length
  rw [parse_alone sound] at run
  have more : (buf.mem.drop buf.data).length =
    buf.size + (buf.mem.drop (buf.data + buf.size)).length := by
    rw [buf.memory, List.length_append, length]
  rw [parse_valid sound, more, Nat.add_right_comm]
  exact parseLoop_extend run _ _

/-- The parser stays among the valid bytes when and only when each length line it comes
    to is refused, or followed by at least one byte and by the whole body it declares. -/
theorem parse_guarded_iff (buf : Buf) (sound : buf.Sound) :
    buf.Guarded ↔ AllClosed buf.size (buf.valid.dropWhile (· = newline)) := by
  have length := sound.valid_length
  have inside := sound.inside
  have small := sound.small
  have shorter := (List.dropWhile_sublist (· = newline) (l := buf.valid)).length_le
  obtain ⟨closed, defined⟩ := parseLoop_closed buf.size (buf.valid.dropWhile (· = newline))
    (buf.size - (buf.valid.dropWhile (· = newline)).length) (buf.size + 1) [] (by omega) (by omega)
    (by omega) (fun _ member => by cases member)
  constructor
  · rintro ⟨answer, run, _⟩
    rw [parse_alone sound] at run
    exact defined ⟨answer, run⟩
  · intro all
    obtain ⟨answer, run, within⟩ := closed all
    rw [← parse_alone sound] at run
    refine ⟨answer, run, parse_extend sound run, within, ?_⟩
    rintro records parsed rfl
    exact (sound.decr within.1).1.inside

/-- A record with a cut length line behind it, and a record whose body is cut, each before a
    byte that is not valid. -/
theorem parse_guarded_iff_once : (Buf.mk [49, 10, 97, 10, 53, 10] 0 5).Guarded ∧
    ¬ (Buf.mk [49, 10, 97, 10, 53, 10, 98, 99] 0 7).Guarded := by
  constructor
  · exact (parse_guarded_iff ⟨[49, 10, 97, 10, 53, 10], 0, 5⟩ ⟨by decide, by decide⟩).mpr
      (by decide +kernel)
  · intro guarded
    have closed := (parse_guarded_iff ⟨[49, 10, 97, 10, 53, 10, 98, 99], 0, 7⟩
      ⟨by decide, by decide⟩).mp guarded
    exact absurd closed (by decide +kernel)

theorem short_body_unguarded : ¬ (Buf.mk ([57, 10, 97, 98] ++ List.replicate 8188 0) 0 4).Guarded := by
  rintro ⟨answer, run, _⟩
  have none : parseReq (Buf.mk ([57, 10, 97, 98] ++ List.replicate 8188 0) 0 4).valid 4 = none := by
    decide +kernel
  rw [none] at run
  cases run

end
end Buf
end EtdbWire
