import Etdb.Trie.Runs
import Etdb.Server.Commands

/- The trie of command names finds every command under its name and nothing else. -/
namespace EtdbServer
open EtdbTrie ByteTree

section
variable {t : Trie} {T : ByteTree.Tree Int} {m : Entries} {entries : List (List UInt8 × Int)}
    {str : List UInt8}

def decoded (value : Int) : Option Command := do
  let commands ← modules[value.toNat >>> 16]?
  commands[value.toNat &&& 65535]?

theorem registerAll_spec (entries : List (List UInt8 × Int)) (good : Trie.Good t T)
    (models : Models T m) (nonneg : ∀ key v, m key = some v → 0 ≤ v)
    (valid : ∀ e ∈ entries, e.1 ≠ [] ∧ 0 ≤ e.2) :
    ∃ t' T' m', registerAll t entries = some t' ∧ Trie.Good t' T' ∧ Models T' m' ∧
    (∀ key v, m' key = some v → 0 ≤ v) ∧
      ((entries.map Prod.fst).Nodup →
        ∀ str, m' str = ((entries.find? fun e => e.1 = str).map Prod.snd).or (m str)) := by
  induction entries generalizing t T m with
  | nil => exact ⟨t, T, m, rfl, good, models, nonneg, fun _ str => rfl⟩
  | cons e rest ih =>
    obtain ⟨name, value⟩ := e
    obtain ⟨proper, high⟩ := valid (name, value) List.mem_cons_self
    obtain ⟨t1, run1, good1⟩ := Trie.update_spec (v := value) good proper
    have models1 := models.put good proper value
    have nonneg1 := nonneg_apply (c := .update name value) nonneg ⟨proper, high⟩
    rw [models.stored] at run1
    have previous : ¬ (m name).getD 0 < 0 := by
      cases held : m name with
      | none => decide
      | some v =>
        have := nonneg name v held
        simp only [Option.getD_some]
        omega
    obtain ⟨t2, T2, m2, run2, good2, models2, nonneg2, found⟩ := ih good1 models1 nonneg1
      (fun e inside => valid e (List.mem_cons_of_mem _ inside))
    refine ⟨t2, T2, m2, bind_run run1 ((if_neg previous).trans run2), good2, models2,
      nonneg2, fun nodup str => ?_⟩
    obtain ⟨fresh, nodup⟩ := List.nodup_cons.mp nodup
    rw [found nodup str]
    by_cases here : name = str
    · subst here
      have missing : rest.find? (fun e => e.1 = name) = none := by
        rw [List.find?_eq_none]
        intro e inside same
        exact fresh (List.mem_map.mpr ⟨e, inside, by simpa using same⟩)
      simp [missing, Entries.apply]
    · simp [here, Entries.apply, Function.update_of_ne (Ne.symm here)]

theorem registered_names : registrations.map Prod.fst = modules.flatten.map Command.name := by
  decide +kernel

theorem names_nodup : (registrations.map Prod.fst).Nodup := by decide +kernel

theorem registered_places : ∀ e ∈ registrations, e.1 ≠ [] ∧ 0 ≤ e.2 ∧ (decoded e.2).isSome ∧
    decoded e.2 = modules.flatten.find? fun cmd => cmd.name = e.1 := by decide +kernel

theorem find_command (str : List UInt8) :
    findCommand str = some (modules.flatten.find? fun cmd => cmd.name = str) := by
  obtain ⟨t0, start, good0⟩ := Trie.init_good
  obtain ⟨t, T, m, run, good, models, nonneg, found⟩ := registerAll_spec registrations good0 models_empty
    (fun _ _ held => by cases held)
    (fun e inside => ⟨(registered_places e inside).1, (registered_places e inside).2.1⟩)
  have held := found names_nodup str
  rw [Entries.empty, Option.or_none] at held
  refine bind_run (bind_run start run) ?_
  refine bind_run (models.search good nonneg str) ?_
  rw [held]
  cases place : registrations.find? fun e => e.1 = str with
  | none =>
    have missing : modules.flatten.find? (fun cmd => cmd.name = str) = none := by
      rw [List.find?_eq_none] at place ⊢
      intro cmd inside same
      have name : cmd.name ∈ registrations.map Prod.fst := by
        rw [registered_names]
        exact List.mem_map_of_mem inside
      obtain ⟨e, listed, equal⟩ := List.mem_map.mp name
      exact place e listed (by simpa [equal] using same)
    rw [missing]
    exact if_pos rfl
  | some e =>
    have inside := List.mem_of_find?_eq_some place
    have same : e.1 = str := by simpa using List.find?_some place
    obtain ⟨_, high, placed, decodes⟩ := registered_places e inside
    have proper : e.2 ≠ noValue := by
      rw [noValue]
      omega
    obtain ⟨cmd, here⟩ := Option.isSome_iff_exists.mp placed
    obtain ⟨commands, first, second⟩ := Option.bind_eq_some_iff.mp here
    rw [← same, ← decodes, here]
    refine (if_neg proper).trans ?_
    exact bind_run first (bind_run second rfl)

end
end EtdbServer
