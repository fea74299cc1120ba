import Mathlib.Data.List.Nodup
import Mathlib.Data.List.Perm.Subperm

/- Chains of bytes closed by 0: a successor function followed from a first byte.
   0 may stand first, as an ordinary member, but nowhere else. -/
namespace ByteChain
variable {succ succ' : UInt8 → UInt8}

def Chain (succ : UInt8 → UInt8) : UInt8 → List UInt8 → Prop
  | c, [] => succ c = 0
  | c, d :: ds => succ c = d ∧ d ≠ 0 ∧ Chain succ d ds

theorem chain_congr {c : UInt8} {l : List UInt8} (chain : Chain succ c l)
    (same : ∀ d ∈ c :: l, succ' d = succ d) : Chain succ' c l := by
  induction l generalizing c with
  | nil => exact (same c (by simp)).trans chain
  | cons d ds ih =>
    refine ⟨(same c (by simp)).trans chain.1, chain.2.1, ih chain.2.2 ?_⟩
    intro e he; exact same e (List.mem_cons_of_mem c he)

theorem chain_head {c : UInt8} {l : List UInt8} (chain : Chain succ c l) : succ c = l.headD 0 := by
  cases l with
  | nil => exact chain
  | cons d ds => exact chain.1

theorem zero_not_later {c : UInt8} {l : List UInt8} (chain : Chain succ c l) : 0 ∉ l := by
  induction l generalizing c with
  | nil => simp
  | cons d ds ih => simp [chain.2.1.symm, ih chain.2.2]

theorem chain_push {c x : UInt8} {l : List UInt8} (chain : Chain succ c l) (proper : c ≠ 0)
    (step : succ' x = c) (same : ∀ d ∈ c :: l, succ' d = succ d) : Chain succ' x (c :: l) :=
  ⟨step, proper, chain_congr chain same⟩

theorem chain_insert {c x : UInt8} {l : List UInt8} (chain : Chain succ c l) (proper : x ≠ 0)
    (stepIn : succ' c = x) (stepOut : succ' x = succ c) (same : ∀ d ∈ l, succ' d = succ d) :
    Chain succ' c (x :: l) := by
  refine ⟨stepIn, proper, ?_⟩
  cases l with
  | nil => exact stepOut.trans chain
  | cons d ds => exact ⟨stepOut.trans chain.1, chain.2.1, chain_congr chain.2.2 same⟩

/-- Cutting a later member out: its predecessor takes over its successor. -/
theorem chain_cut {c x p : UInt8} {before after : List UInt8}
    (chain : Chain succ c (before ++ x :: after)) (nodup : (c :: before ++ x :: after).Nodup)
    (last : (c :: before).getLast? = some p) (step : succ' p = succ x)
    (same : ∀ d ∈ c :: before ++ after, d ≠ p → succ' d = succ d) :
    Chain succ' c (before ++ after) := by
  induction before generalizing c with
  | nil =>
    have cp : c = p := by simpa using last
    subst cp
    have out : c ∉ after := fun h => (List.nodup_cons.mp nodup).1 (by simp [h])
    have rest := chain.2.2
    cases after with
    | nil => exact step.trans rest
    | cons d ds =>
      refine ⟨step.trans rest.1, rest.2.1, chain_congr rest.2.2 ?_⟩
      intro e he
      exact same e (by simp at he ⊢; tauto) (fun eq => out (eq ▸ he))
  | cons d ds ih =>
    have inside : p ∈ d :: ds := List.mem_of_getLast? (by simpa using last)
    have cp : c ≠ p := by
      rintro rfl
      exact (List.nodup_cons.mp nodup).1 (by simp at inside ⊢; tauto)
    refine ⟨(same c (by simp) cp).trans chain.1, chain.2.1, ?_⟩
    apply ih chain.2.2 (List.nodup_cons.mp nodup).2 (by simpa using last)
    intro e he; exact same e (List.mem_cons_of_mem c he)

theorem chain_of_links {c : UInt8} {l : List UInt8}
    (links : ∀ before d after, c :: l = before ++ d :: after → succ d = after.headD 0)
    (proper : 0 ∉ l) : Chain succ c l := by
  induction l generalizing c with
  | nil => exact links [] c [] rfl
  | cons d ds ih =>
    refine ⟨links [] c (d :: ds) rfl, fun zero => proper (by simp [zero]), ih ?_ ?_⟩
    · intro before e after split
      exact links (c :: before) e after (by simp [split])
    · intro member; exact proper (List.mem_cons_of_mem d member)

theorem distinct_bytes {l : List UInt8} (nodup : l.Nodup) : l.length ≤ 256 := by
  have images : (l.map UInt8.toNat).Nodup :=
    nodup.map (fun _ _ same => UInt8.toNat_inj.mp same)
  have inside : l.map UInt8.toNat ⊆ List.range 256 := by
    intro n hn
    obtain ⟨c, _, rfl⟩ := List.mem_map.mp hn
    exact List.mem_range.mpr c.toNat_lt
  simpa using (images.subperm inside).length_le

end ByteChain
