import Etdb.Lib.ByteTree
import Etdb.Trie.Operations

/- Keys as label sequences. The label 0 is kept for value slots, so that a NUL byte is
   spelled "%0" and '%' itself "%%"; no spelling is the beginning of another one. -/
namespace EtdbTrie
open ByteTree

def labelsOf (word : UInt8) : List UInt8 := (Trie.wordLabels word).1 :: (Trie.wordLabels word).2.toList

def encode (key : List UInt8) : List UInt8 := key.flatMap labelsOf

def pathOf (key : List UInt8) : Path := (encode key).reverse

section
variable {key key' rest rest' : List UInt8} {word word' : UInt8}

@[simp] theorem encode_nil : encode [] = [] := rfl
@[simp] theorem encode_cons (word : UInt8) (rest : List UInt8) :
    encode (word :: rest) = labelsOf word ++ encode rest := rfl
theorem encode_append (key rest : List UInt8) : encode (key ++ rest) = encode key ++ encode rest :=
  List.flatMap_append

theorem labelsOf_zero : labelsOf 0 = [Trie.percent, Trie.zeroDigit] := rfl
theorem labelsOf_percent : labelsOf Trie.percent = [Trie.percent, Trie.percent] := rfl
theorem labelsOf_plain (notZero : word ≠ 0) (notPercent : word ≠ Trie.percent) :
    labelsOf word = [word] := by
  simp [labelsOf, Trie.wordLabels, notZero, notPercent]

theorem wordLabels_proper (word : UInt8) :
    (Trie.wordLabels word).1 ≠ 0 ∧ ∀ label ∈ (Trie.wordLabels word).2, label ≠ 0 := by
  by_cases zero : word = 0
  · subst zero
    simp [Trie.wordLabels, Trie.percent, Trie.zeroDigit]
  · by_cases sign : word = Trie.percent
    · subst sign
      simp [Trie.wordLabels, Trie.percent]
    · simp [Trie.wordLabels, zero, sign]

theorem zero_not_labelsOf (word : UInt8) : 0 ∉ labelsOf word := by
  obtain ⟨first, again⟩ := wordLabels_proper word
  intro h
  rcases List.mem_cons.mp h with same | later
  · exact first same.symm
  · exact again 0 (by simpa using later) rfl

theorem zero_not_encode (key : List UInt8) : 0 ∉ encode key := by
  intro h
  obtain ⟨word, _, inside⟩ := List.mem_flatMap.mp h
  exact zero_not_labelsOf word inside

theorem encode_ne_nil (some : key ≠ []) : encode key ≠ [] := by
  cases key with
  | nil => exact absurd rfl some
  | cons word rest => simp [labelsOf]

/-- Two spellings that begin alike are the spellings of one byte. -/
theorem labelsOf_prefix {l m : List UInt8} (same : labelsOf word ++ l = labelsOf word' ++ m) :
    word = word' ∧ l = m := by
  by_cases zero : word = 0 <;> by_cases zero' : word' = 0
  · rw [zero, zero', labelsOf_zero] at same
    exact ⟨zero.trans zero'.symm, by simpa using same⟩
  · by_cases sign' : word' = Trie.percent
    · rw [zero, sign', labelsOf_zero, labelsOf_percent] at same
      simp [Trie.percent, Trie.zeroDigit] at same
    · rw [zero, labelsOf_zero, labelsOf_plain zero' sign'] at same
      exact absurd (List.cons.inj same).1.symm sign'
  · by_cases sign : word = Trie.percent
    · rw [zero', sign, labelsOf_zero, labelsOf_percent] at same
      simp [Trie.percent, Trie.zeroDigit] at same
    · rw [zero', labelsOf_zero, labelsOf_plain zero sign] at same
      exact absurd (List.cons.inj same).1 sign
  · by_cases sign : word = Trie.percent <;> by_cases sign' : word' = Trie.percent
    · rw [sign, sign', labelsOf_percent] at same
      exact ⟨sign.trans sign'.symm, by simpa using same⟩
    · rw [sign, labelsOf_percent, labelsOf_plain zero' sign'] at same
      exact absurd (List.cons.inj same).1.symm sign'
    · rw [sign', labelsOf_percent, labelsOf_plain zero sign] at same
      exact absurd (List.cons.inj same).1 sign
    · rw [labelsOf_plain zero sign, labelsOf_plain zero' sign'] at same
      simpa using same

theorem encode_prefix {l : List UInt8} (begins : encode key' = encode key ++ l) :
    ∃ rest, key' = key ++ rest ∧ l = encode rest := by
  induction key generalizing key' with
  | nil => exact ⟨key', rfl, begins.symm⟩
  | cons word key ih =>
    cases key' with
    | nil => simp [labelsOf] at begins
    | cons word' key' =>
      rw [encode_cons, encode_cons, List.append_assoc] at begins
      obtain ⟨rfl, same⟩ := labelsOf_prefix begins
      obtain ⟨rest, rfl, found⟩ := ih same
      exact ⟨rest, rfl, found⟩

theorem encode_injective (same : encode key = encode key') : key = key' := by
  obtain ⟨rest, rfl, none⟩ := encode_prefix (show encode key' = encode key ++ [] by simpa using same.symm)
  have empty : rest = [] := by
    by_contra some
    exact encode_ne_nil some none.symm
  simp [empty]

theorem pathOf_inj : pathOf key = pathOf key' ↔ key = key' :=
  ⟨fun same => encode_injective (List.reverse_injective same), fun same => by rw [same]⟩

theorem pathOf_cons (word : UInt8) (rest : List UInt8) (w : Path) :
    pathOf (word :: rest) ++ w = pathOf rest ++ ((labelsOf word).reverse ++ w) := by
  simp [pathOf]

theorem path_last (key : List UInt8) : (pathOf key).getLast? = (encode key).head? := by
  simp [pathOf]

end
end EtdbTrie
