import Etdb.Config.Settings

/- A config file as it is written by hand: settings, comments and blank lines. -/
namespace EtdbConfig
open EtdbString

/-- A key and a value with the blanks before, between and behind them. -/
structure Entry where
  key : List UInt8
  value : List UInt8
  blanks : Fin 4 → Nat
  plain : ∀ c ∈ key ++ value, c ≠ 0 ∧ c ≠ newline ∧ c ≠ equals
  keyStripped : strip key = key
  valueStripped : strip value = value
  named : key ≠ []
  noComment : key.head? ≠ some hash

def spaces (n : Nat) : List UInt8 := List.replicate n blank

def Entry.text (e : Entry) : List UInt8 :=
  spaces (e.blanks 0) ++ (e.key ++ spaces (e.blanks 1) ++ equals :: (spaces (e.blanks 2) ++ e.value)) ++
    spaces (e.blanks 3)

inductive LineText where
  | entry (e : Entry)
  | comment (front : Nat) (text : List UInt8)
  | empty (blanks : Nat)

def LineText.text : LineText → List UInt8
  | .entry e => e.text
  | .comment front text => spaces front ++ hash :: text
  | .empty blanks => spaces blanks

/-- A line that fits into buf with its newline. -/
structure Line where
  content : LineText
  plain : ∀ c ∈ content.text, c ≠ 0 ∧ c ≠ newline
  short : content.text.length + 1 < maxLine

def Line.bytes (line : Line) : List UInt8 := line.content.text ++ [newline]

def Line.entry (line : Line) : Option Entry :=
  match line.content with
  | .entry e => some e
  | _ => none

section
variable {text body back rest cur : List UInt8} {front : Nat}

theorem fgetsFrom_line (plain : newline ∉ text) (short : cur.length + text.length + 1 < maxLine) :
    fgetsFrom cur (text ++ newline :: rest) = (cur ++ text ++ [newline]) :: fgetsFrom [] rest := by
  induction text generalizing cur with
  | nil => rw [List.nil_append, fgetsFrom, if_pos (Or.inl rfl), List.append_nil]
  | cons c text ih =>
    rw [List.length_cons] at short
    rw [List.cons_append, fgetsFrom, if_neg, ih (List.not_mem_of_not_mem_cons plain),
      List.append_assoc cur, List.singleton_append]
    · rw [List.length_append, List.length_singleton]
      omega
    · rintro (same | full)
      · exact plain (same ▸ List.mem_cons_self)
      · omega

theorem buffers_lines (lines : List Line) :
    buffers (lines.flatMap Line.bytes) = lines.map Line.bytes := by
  induction lines with
  | nil => rfl
  | cons line rest ih =>
    have whole : line.bytes.takeWhile (· ≠ 0) = line.bytes := by
      refine List.takeWhile_eq_self_iff.mpr fun c inside => decide_eq_true ?_
      rcases List.mem_append.mp inside with text | last
      · exact (line.plain c text).1
      · rw [List.mem_singleton.mp last]
        decide
    rw [List.flatMap_cons, Line.bytes, List.append_assoc, List.singleton_append, buffers, fgetsFrom_line
      (fun inside => (line.plain newline inside).2 rfl)
      (by rw [List.length_nil, Nat.zero_add]; exact line.short), List.map_cons, List.map_cons,
      List.nil_append]
    exact congrArg₂ List.cons whole ih

theorem dropWhile_spaces (front : Nat) (body : List UInt8) :
    (spaces front ++ body).dropWhile (· = blank) = body.dropWhile (· = blank) :=
  List.dropWhile_append_of_pos fun _ inside => decide_eq_true (List.eq_of_mem_replicate inside)

theorem rdropWhile_append_of_pos {p : UInt8 → Bool} (behind : ∀ c ∈ back, p c = true)
    (body : List UInt8) : (body ++ back).rdropWhile p = body.rdropWhile p := by
  induction back using List.reverseRecOn with
  | nil => rw [List.append_nil]
  | append_singleton back c ih =>
    rw [← List.append_assoc, List.rdropWhile_concat_pos _ _ _ (behind c (by simp)),
      ih fun d inside => behind d (List.mem_append_left _ inside)]

theorem rdropWhile_append_cons {p : UInt8 → Bool} {c : UInt8} (stays : p c = false)
    (body back : List UInt8) :
    (body ++ c :: back).rdropWhile p = body ++ c :: back.rdropWhile p := by
  induction back using List.reverseRecOn with
  | nil => exact List.rdropWhile_concat_neg _ _ _ (by simp [stays])
  | append_singleton back d ih =>
    rw [← List.cons_append, ← List.append_assoc, List.rdropWhile_concat, List.rdropWhile_concat, ih]
    split
    · rfl
    · rw [List.append_assoc, List.cons_append]

theorem strip_front (front : Nat) (s : List UInt8) : strip (spaces front ++ s) = strip s := by
  rw [strip, dropWhile_spaces, strip]

theorem strip_back (s : List UInt8) (n : Nat) : strip (s ++ spaces n) = strip s := by
  rw [strip, strip, List.dropWhile_append]
  split
  · rename_i all
    rw [List.isEmpty_iff.mp all, List.rdropWhile_nil, List.rdropWhile_eq_nil_iff]
    exact fun c inside => decide_eq_true (List.eq_of_mem_replicate (List.dropWhile_subset _ inside))
  · exact rdropWhile_append_of_pos (fun c inside => decide_eq_true (List.eq_of_mem_replicate inside)) _

theorem stripped_ends {s : List UInt8} (stripped : strip s = s) :
    s.dropWhile (· = blank) = s ∧ s.rdropWhile (· = blank) = s := by
  have front : s.dropWhile (· = blank) = s := by
    refine (List.dropWhile_suffix _).eq_of_length_le ?_
    conv_lhs => rw [← stripped]
    exact (List.rdropWhile_prefix _ _).length_le
  rw [strip, front] at stripped
  exact ⟨front, stripped⟩

theorem value_back {value : List UInt8} (stripped : strip value = value) (plain : newline ∉ value)
    (n : Nat) : strip ((spaces n ++ value).rdropWhile fun c => c = blank ∨ c = newline) = value ∧
    ∀ c ∈ (spaces n ++ value).rdropWhile fun c => c = blank ∨ c = newline, c ∈ spaces n ++ value := by
  refine ⟨?_, fun c inside => (List.rdropWhile_prefix _ _).subset inside⟩
  rcases List.eq_nil_or_concat value with rfl | ⟨front, c, rfl⟩
  · have none : (spaces n ++ []).rdropWhile (fun c => c = blank ∨ c = newline) = [] := by
      rw [List.append_nil, List.rdropWhile_eq_nil_iff]
      exact fun c inside => decide_eq_true (Or.inl (List.eq_of_mem_replicate inside))
    rw [none]
    rfl
  · rw [List.concat_eq_append] at stripped plain ⊢
    have last : c ≠ blank := by
      intro same
      have ends := List.rdropWhile_eq_self_iff.mp (stripped_ends stripped).2 (by simp)
      rw [List.getLast_concat] at ends
      exact ends (decide_eq_true same)
    have stays : ¬ (decide (c = blank ∨ c = newline)) = true := by
      rw [decide_eq_true_eq]
      rintro (same | same)
      · exact last same
      · exact plain (same ▸ by simp)
    rw [← List.append_assoc, List.rdropWhile_concat_neg (fun c => c = blank ∨ c = newline) _ c stays,
      List.append_assoc, strip_front]
    exact stripped

theorem entry_real (e : Entry) : real (e.text ++ [newline]) = e.key ++ spaces (e.blanks 1) ++ equals ::
    (spaces (e.blanks 2) ++ e.value).rdropWhile fun c => c = blank ∨ c = newline := by
  have behind : ∀ c ∈ spaces (e.blanks 3) ++ [newline], decide (c = blank ∨ c = newline) = true := by
    intro c inside
    rcases List.mem_append.mp inside with space | last
    · exact decide_eq_true (Or.inl (List.eq_of_mem_replicate space))
    · exact decide_eq_true (Or.inr (List.mem_singleton.mp last))
  have front (tail : List UInt8) : (e.key ++ tail).dropWhile (· = blank) = e.key ++ tail := by
    rw [List.dropWhile_append, (stripped_ends e.keyStripped).1, if_neg]
    exact fun none => e.named (List.isEmpty_iff.mp none)
  rw [real, Entry.text, List.append_assoc, List.append_assoc, dropWhile_spaces, List.append_assoc,
    List.append_assoc, front, ← List.append_assoc, ← List.append_assoc, rdropWhile_append_of_pos behind,
    rdropWhile_append_cons (by decide)]

theorem entry_setting (e : Entry) : setting (e.text ++ [newline]) = some (e.key.map upper, e.value) := by
  have plainKey : equals ∉ e.key ++ spaces (e.blanks 1) := by
    intro inside
    rcases List.mem_append.mp inside with key | space
    · exact (e.plain _ (List.mem_append_left _ key)).2.2 rfl
    · exact absurd (List.eq_of_mem_replicate space) (by decide)
  obtain ⟨value, plainValue⟩ := value_back e.valueStripped
    (fun inside => (e.plain _ (List.mem_append_right _ inside)).2.1 rfl) (e.blanks 2)
  have uncut : equals ∉ (spaces (e.blanks 2) ++ e.value).rdropWhile fun c => c = blank ∨ c = newline := by
    intro inside
    rcases List.mem_append.mp (plainValue _ inside) with space | value
    · exact absurd (List.eq_of_mem_replicate space) (by decide)
    · exact (e.plain _ (List.mem_append_right _ value)).2.2 rfl
  have pieces : (real (e.text ++ [newline])).splitOn equals = [e.key ++ spaces (e.blanks 1),
      (spaces (e.blanks 2) ++ e.value).rdropWhile fun c => c = blank ∨ c = newline] := by
    rw [entry_real, List.splitOn_append_cons_self_of_not_mem plainKey, List.splitOn_eq_singleton uncut]
  rw [setting_some _ _ pieces, strip_back, e.keyStripped, value, if_neg e.named]
  · obtain ⟨c, rest, key⟩ := List.exists_cons_of_ne_nil e.named
    have front := e.noComment
    rw [entry_real, key]
    rwa [key] at front
  · have some := List.length_pos_iff.mpr e.named
    rw [entry_real, List.length_append, List.length_append, List.length_cons]
    omega

theorem line_setting (line : Line) :
    setting line.bytes = line.entry.map fun e => (e.key.map upper, e.value) := by
  obtain ⟨content, _, _⟩ := line
  cases content with
  | entry e => exact entry_setting e
  | comment front text =>
    refine setting_none (Or.inl ?_)
    rw [real, head_rdropWhile (by decide), Line.bytes, LineText.text, List.append_assoc, dropWhile_spaces]
    rfl
  | empty blanks =>
    refine setting_none (Or.inr (Or.inl ?_))
    have none : real (spaces blanks ++ [newline]) = [] := by
      rw [real, dropWhile_spaces]
      rfl
    rw [Line.bytes, LineText.text, none]
    exact Nat.zero_le 1

/-- The entry of a key that is written last, whatever the case of its letters. -/
def written (lines : List Line) (key : List UInt8) : Option Entry :=
  (lines.filterMap Line.entry).reverse.find? fun e => e.key.map upper = key

theorem said_written (lines : List Line) (key : List UInt8) :
    said (lines.map Line.bytes) key = (written lines key).map Entry.value := by
  have entries : (lines.map Line.bytes).filterMap setting =
      (lines.filterMap Line.entry).map fun e => (e.key.map upper, e.value) := by
    rw [List.filterMap_map, List.map_filterMap]
    exact List.filterMap_congr fun line _ => line_setting line
  rw [said, entries, ← List.map_reverse, List.find?_map, Option.map_map, written]
  rfl

/-- A file of settings, comments and blank lines, spaced in any way, is read as it is meant:
    each key has the value that is written last for it. -/
theorem written_comes_back (lines : List Line) :
    ∃ config, Config.load (lines.flatMap Line.bytes) = some config ∧ ∀ key,
      (∀ ini, config.getString key ini = some (textOr ini ((written lines key).map Entry.value))) ∧
        ∀ ini, config.getInt key ini = some (numberOr ini ((written lines key).map Entry.value)) := by
  obtain ⟨config, run, holds⟩ := load_holds (lines.flatMap Line.bytes)
  refine ⟨config, run, fun key => ?_⟩
  rw [← said_written, ← buffers_lines]
  exact ⟨holds.getString key, holds.getInt key⟩

end
end EtdbConfig
