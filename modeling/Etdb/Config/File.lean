import Mathlib.Data.List.DropRight
import Etdb.Text.Numbers
import Etdb.Text.Split
import Etdb.Trie.Runs

/- etdb_file_config.c and etdb_trim: the pieces of the config file that fgets hands out are parsed
   one by one, and a trie holds for each key the place of its value. -/
namespace EtdbConfig
open EtdbTrie EtdbString

/- MAX_CONFIG_LINE_SIZE -/
def maxLine : Nat := 512

def blank : UInt8 := 32
def newline : UInt8 := 10
def hash : UInt8 := 35
def equals : UInt8 := 61

/-- What fgets has read of a piece, and the bytes of the file behind it. -/
def fgetsFrom : List UInt8 → List UInt8 → List (List UInt8)
  | cur, [] => if cur = [] then [] else [cur]
  | cur, c :: rest =>
    if c = newline ∨ cur.length + 1 = maxLine - 1 then (cur ++ [c]) :: fgetsFrom [] rest
    else fgetsFrom (cur ++ [c]) rest

/-- buf behind each call of fgets, up to its first zero. -/
def buffers (file : List UInt8) : List (List UInt8) :=
  (fgetsFrom [] file).map fun piece => piece.takeWhile (· ≠ 0)

/-- The place of the first byte that is not blank, from a place on and at most so far. -/
def skipBlanks (s : List UInt8) : Nat → Nat → Nat
  | 0, pos => pos
  | left + 1, pos => if s[pos]? = some blank then skipBlanks s left (pos + 1) else pos

def dropEnd (s : List UInt8) : Nat → Nat
  | 0 => 0
  | last + 1 => if s[last]? = some blank ∨ s[last]? = some newline then dropEnd s last else last + 1

/-- Backwards to a byte that is not blank; in front of the string there is nothing to read. -/
def backBlanks (s : List UInt8) : Nat → Option Nat
  | 0 => if s[0]? = some blank then none else some 0
  | pos + 1 => if s[pos + 1]? = some blank then backBlanks s pos else some (pos + 1)

/-- etdb_trim, on a part of a string; NULL is the place 0. -/
def trim (s : List UInt8) (str : Piece) : Option Piece :=
  let data := skipBlanks s str.len str.data
  if data = str.data + str.len then some ⟨0, 0⟩
  else do
    let last ← backBlanks s (str.data + str.len - 1)
    some ⟨last - data + 1, data⟩

def upper (c : UInt8) : UInt8 := if 97 ≤ c ∧ c ≤ 122 then c - 32 else c

/-- etdb_config_trie and the values it points to, in the order of their allocation. -/
structure Config where
  trie : Trie
  values : List (List UInt8)

namespace Config

/-- etdb_file_config_parse_line; `last` is one more than end. -/
def parseLine (config : Config) (buf : List UInt8) : Option Config := do
  let begin := skipBlanks buf (buf.length - 1) 0
  if buf[begin]? = some hash then some config
  else
    let last := dropEnd buf buf.length
    if last ≤ begin + 1 then some config
    else
      let real := (buf.drop begin).take (last - begin)
      let cut ← strSplit real equals [⟨0, 0⟩, ⟨0, 0⟩] 2
      if cut.splitNum = 2 then do
        let key ← cut.splits[0]? >>= trim real
        let value ← cut.splits[1]? >>= trim real
        let (_, trie) ← config.trie.update ((key.bytes real).map upper) config.values.length
        some ⟨trie, config.values ++ [value.bytes real]⟩
      else some config

def parseLines (config : Config) : List (List UInt8) → Option Config
  | [] => some config
  | buf :: rest => config.parseLine buf >>= fun config => config.parseLines rest

/-- etdb_init_file_config -/
def load (file : List UInt8) : Option Config := do
  let trie ← init []
  parseLines ⟨trie, []⟩ (buffers file)

def getInt (config : Config) (key : List UInt8) (ini : Int) : Option Int := do
  let id ← config.trie.exactMatchSearch key
  if id < 0 then some ini
  else do
    let value ← config.values[id.toNat]?
    some ((atoi value).getD ini)

def getString (config : Config) (key ini : List UInt8) : Option (List UInt8) := do
  let id ← config.trie.exactMatchSearch key
  if id < 0 then some ini
  else do
    let value ← config.values[id.toNat]?
    some (if value.length = 0 then ini else value.takeWhile (· ≠ 0))

end Config

/- What the lines of a config file say. -/

def strip (s : List UInt8) : List UInt8 := (s.dropWhile (· = blank)).rdropWhile (· = blank)

/-- A line without the blanks in front, and the blanks and newlines behind. -/
def real (line : List UInt8) : List UInt8 :=
  (line.dropWhile (· = blank)).rdropWhile fun c => c = blank ∨ c = newline

/-- The key and the value that a line sets: behind the second equals sign nothing is read, and a
    line of one character or without a key sets nothing. -/
def setting (line : List UInt8) : Option (List UInt8 × List UInt8) :=
  if (real line).head? = some hash ∨ (real line).length ≤ 1 then none
  else match (real line).splitOn equals with
    | key :: value :: _ => if strip key = [] then none else some ((strip key).map upper, strip value)
    | _ => none

def said (lines : List (List UInt8)) (key : List UInt8) : Option (List UInt8) :=
  ((lines.filterMap setting).reverse.find? fun e => e.1 = key).map Prod.snd

section
variable {s : List UInt8} {str : Piece} {k : Nat}

theorem rdropWhile_drop (p : UInt8 → Bool) (s : List UInt8) (k : Nat) :
    (s.drop k).rdropWhile p = (s.rdropWhile p).drop k := by
  induction s using List.reverseRecOn with
  | nil => rw [List.drop_nil, List.rdropWhile_nil, List.drop_nil]
  | append_singleton s x ih =>
    by_cases inside : k ≤ s.length
    · rw [List.drop_append_of_le_length inside, List.rdropWhile_concat, List.rdropWhile_concat, ih]
      split
      · rfl
      · rw [List.drop_append_of_le_length inside]
    · have short := (List.rdropWhile_prefix p (s ++ [x])).length_le
      rw [List.length_append, List.length_singleton] at short
      rw [List.drop_eq_nil_of_le (by rw [List.length_append, List.length_singleton]; omega),
        List.rdropWhile_nil, List.drop_eq_nil_of_le (by omega)]

theorem head_rdropWhile {p : UInt8 → Bool} {c : UInt8} (stays : p c = false) (s : List UInt8) :
    (s.rdropWhile p).head? = some c ↔ s.head? = some c := by
  obtain ⟨behind, whole⟩ := List.rdropWhile_prefix p s
  cases front : s.rdropWhile p with
  | nil =>
    refine ⟨fun none => (by cases none), fun first => ?_⟩
    have out := List.rdropWhile_eq_nil_iff.mp front c (List.mem_of_head? first)
    exact absurd (stays.symm.trans out) Bool.false_ne_true
  | cons d rest =>
    rw [front] at whole
    rw [← whole]
    rfl

theorem skipBlanks_spec (s : List UInt8) (left pos : Nat) :
    skipBlanks s left pos = pos + (((s.drop pos).take left).takeWhile (· = blank)).length := by
  induction left generalizing pos with
  | zero => rfl
  | succ left ih =>
    rw [skipBlanks]
    cases here : s[pos]? with
    | none =>
      rw [if_neg (by simp), List.drop_eq_nil_of_le (List.getElem?_eq_none_iff.mp here)]
      rfl
    | some c =>
      obtain ⟨inside, rfl⟩ := List.getElem?_eq_some_iff.mp here
      rw [List.drop_eq_getElem_cons inside, List.take_succ_cons, List.takeWhile_cons]
      by_cases same : s[pos] = blank
      · rw [if_pos (congrArg some same), if_pos (decide_eq_true same), ih, List.length_cons]
        omega
      · rw [if_neg fun equal => same (Option.some.inj equal), if_neg (by simpa using same)]
        rfl

theorem dropEnd_spec {last : Nat} (inside : last ≤ s.length) : dropEnd s last =
    ((s.take last).rdropWhile fun c => c = blank ∨ c = newline).length := by
  induction last with
  | zero => rfl
  | succ last ih =>
    have here : s[last]? = some s[last] := List.getElem?_eq_getElem (by omega)
    rw [dropEnd, here, List.take_add_one, here, Option.toList_some, List.rdropWhile_concat, ih (by omega)]
    simp only [Option.some.injEq, decide_eq_true_eq]
    split
    · rfl
    · rw [List.length_append, List.length_singleton, List.length_take, Nat.min_eq_left (by omega)]

theorem backBlanks_spec {pos : Nat} (inside : pos < s.length)
    (some : (s.take (pos + 1)).rdropWhile (· = blank) ≠ []) : ∃ last,
    backBlanks s pos = Option.some last ∧
      last ≤ pos ∧ (s.take (pos + 1)).rdropWhile (· = blank) = s.take (last + 1) := by
  induction pos with
  | zero =>
    have here : s[0]? = Option.some s[0] := List.getElem?_eq_getElem inside
    rw [List.take_add_one, here] at some ⊢
    rw [backBlanks, here]
    by_cases same : s[0] = blank
    · exact absurd (by simp [same]) some
    · exact ⟨0, if_neg (by simpa using same), le_rfl, by simp [same, List.take_add_one, here]⟩
  | succ pos ih =>
    have here : s[pos + 1]? = Option.some s[pos + 1] := List.getElem?_eq_getElem inside
    rw [List.take_add_one, here, Option.toList_some, List.rdropWhile_concat] at some ⊢
    rw [backBlanks, here]
    by_cases same : s[pos + 1] = blank
    · rw [if_pos (decide_eq_true same)] at some ⊢
      rw [if_pos (congrArg Option.some same)]
      obtain ⟨last, back, before, kept⟩ := ih (by omega) some
      exact ⟨last, back, Nat.le_succ_of_le before, kept⟩
    · rw [if_neg (by simpa using same), if_neg (by simpa using same)]
      refine ⟨pos + 1, rfl, le_rfl, ?_⟩
      rw [List.take_add_one (i := pos + 1), here]
      rfl

theorem drop_length_takeWhile (p : UInt8 → Bool) (s : List UInt8) :
    s.drop (s.takeWhile p).length = s.dropWhile p := calc
  s.drop (s.takeWhile p).length = (s.takeWhile p ++ s.dropWhile p).drop (s.takeWhile p).length := by
    rw [List.takeWhile_append_dropWhile]
  _ = s.dropWhile p := List.drop_left

theorem trim_spec (inside : str.data + str.len ≤ s.length) : ∃ left, trim s str = some left ∧
    left.bytes s = strip (str.bytes s) ∧ left.data + left.len ≤ s.length := by
  have front := skipBlanks_spec s str.len str.data
  rw [← Piece.bytes] at front
  have width : (str.bytes s).length = str.len := by
    rw [Piece.bytes, List.length_take, List.length_drop, Nat.min_eq_left (by omega)]
  have rest := drop_length_takeWhile (· = blank) (str.bytes s)
  have bound := (List.takeWhile_prefix (· = blank) (l := str.bytes s)).length_le
  obtain ⟨n, blanks⟩ : ∃ n, ((str.bytes s).takeWhile (· = blank)).length = n := ⟨_, rfl⟩
  rw [blanks] at front rest bound
  rw [trim, front, strip, ← rest]
  by_cases all : n = str.len
  · refine ⟨_, if_pos (by rw [all]), ?_, Nat.zero_le _⟩
    rw [all, ← width, List.drop_length, List.rdropWhile_nil]
    rfl
  · have part : (s.take (str.data + str.len)).drop (str.data + n) = (str.bytes s).drop n := by
      rw [← List.drop_drop, List.drop_take, Nat.add_sub_cancel_left, Piece.bytes]
    rw [← part, rdropWhile_drop]
    have some : ((s.take (str.data + str.len)).rdropWhile (· = blank)).drop (str.data + n) ≠ [] := by
      -- the byte that ended the blanks is not blank
      intro none
      rw [← rdropWhile_drop, part, rest, List.rdropWhile_eq_nil_iff, ← List.dropWhile_eq_nil_iff,
        List.dropWhile_idempotent, ← rest, List.drop_eq_nil_iff] at none
      omega
    obtain ⟨final, last_place⟩ : ∃ final, str.data + str.len = final + 1 :=
      ⟨str.data + str.len - 1, by omega⟩
    have within : final < s.length := by omega
    rw [last_place] at some ⊢
    obtain ⟨last, back, before, kept⟩ := backBlanks_spec within fun none =>
      some (by rw [none, List.drop_nil])
    rw [kept] at some ⊢
    have reached : str.data + n ≤ last := by
      by_contra beyond
      exact some (List.drop_eq_nil_of_le ((List.length_take_le _ _).trans (by omega)))
    refine ⟨⟨last - (str.data + n) + 1, str.data + n⟩, (if_neg (by omega)).trans
      (bind_run back rfl), ?_, ?_⟩
    · rw [List.drop_take, Piece.bytes, Nat.sub_add_comm reached]
    · dsimp only
      omega

/-- The last byte is not looked at, so a blank line is not skipped as a whole. -/
theorem begin_cases (line : List UInt8) : (∀ c ∈ line, c = blank) ∨
    line.drop (skipBlanks line (line.length - 1) 0) = line.dropWhile (· = blank) := by
  rw [skipBlanks_spec, List.drop_zero, Nat.zero_add, ← drop_length_takeWhile]
  rcases List.eq_nil_or_concat line with rfl | ⟨front, x, rfl⟩
  · exact Or.inl fun c inside => absurd inside List.not_mem_nil
  · rw [List.concat_eq_append, List.length_append, List.length_singleton, Nat.add_sub_cancel,
      List.take_left' rfl, List.takeWhile_append]
    by_cases all : (front.takeWhile (· = blank)).length = front.length
    · rw [if_pos all]
      have blanks := List.takeWhile_eq_self_iff.mp ((List.takeWhile_prefix _).eq_of_length all)
      by_cases same : x = blank
      · refine Or.inl fun c inside => ?_
        rcases List.mem_append.mp inside with early | final
        · simpa using blanks c early
        · rw [List.mem_singleton.mp final, same]
      · right
        rw [List.length_append, all]
        simp [same]
    · rw [if_neg all]
      exact Or.inr rfl

theorem line_real (buf : List UInt8) {begin : Nat}
    (start : begin = skipBlanks buf (buf.length - 1) 0) :
    real buf = (buf.drop begin).take (dropEnd buf buf.length - begin) ∧
    (real buf).length = dropEnd buf buf.length - begin ∧
    (buf[begin]? = some hash ↔ (real buf).head? = some hash) := by
  have last := dropEnd_spec (le_refl buf.length)
  rw [List.take_length] at last
  have short := (List.rdropWhile_prefix (fun c => c = blank ∨ c = newline) buf).length_le
  rcases begin_cases buf with blanks | front
  · have none : real buf = [] := by
      rw [real, List.dropWhile_eq_nil_iff.mpr fun c inside => decide_eq_true (blanks c inside),
        List.rdropWhile_nil]
    have out : buf.rdropWhile (fun c => c = blank ∨ c = newline) = [] :=
      List.rdropWhile_eq_nil_iff.mpr fun c inside => decide_eq_true (Or.inl (blanks c inside))
    rw [last, out, none]
    refine ⟨by simp, by simp, fun here => ?_, fun here => (by cases here)⟩
    exact absurd (blanks hash (List.mem_of_getElem? here)) (by decide)
  · rw [← start] at front
    have kept := List.prefix_iff_eq_take.mp
      (List.rdropWhile_prefix (fun c => c = blank ∨ c = newline) buf)
    rw [← last] at kept short
    have cut : real buf = (buf.drop begin).take (dropEnd buf buf.length - begin) := by
      rw [real, ← front, rdropWhile_drop, kept, List.drop_take]
    refine ⟨cut, by rw [cut, List.length_take, List.length_drop]; omega, ?_⟩
    rw [← List.head?_drop, front]
    exact (head_rdropWhile (by decide) _).symm

end

end EtdbConfig
