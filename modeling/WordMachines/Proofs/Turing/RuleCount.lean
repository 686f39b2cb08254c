import Mathlib.Tactic
import WordMachines.Proofs.FinMap
import WordMachines.Proofs.Turing.Declarations

/-!
# Counting rules

Rules are counted row by row. Where rules mention nothing but what is declared, the row of a state
holds one rule for each cell of the tape alphabet that has an action, and no other; so the rules are
those that are found by going through the states and, for each of them, through the tape alphabet.
-/

namespace WordMachines

namespace Program

variable {α : Type} (p : Program α)

theorem row_of_mem_entries {q : MachineState} {row : FinMap (Cell α) (Action α)}
    (h : (q, row) ∈ p.rules.entries) : p.row q = row := by
  rw [Program.row, (p.rules.mem_entries_iff q row).mp h]
  rfl

theorem ruleCount_eq_sum_size : p.ruleCount = (p.states.map fun q => (p.row q).size).sum := by
  have hsizes : p.states.map (fun q => (p.row q).size) = p.rules.values.map FinMap.size := by
    rw [states, FinMap.keys, FinMap.values, List.map_map, List.map_map]
    apply List.map_congr_left
    rintro ⟨q, row⟩ he
    exact congrArg FinMap.size (p.row_of_mem_entries he)
  rw [hsizes]
  rfl

variable [DecidableEq α]

theorem mem_rulesOf_iff (q : MachineState) (c : Cell α) (r : Action α) :
    (c, r) ∈ p.rulesOf q ↔ c ∈ p.tapeAlphabet ∧ p.action? q c = some r := by
  simp only [rulesOf, List.mem_filterMap, Option.map_eq_some_iff, Prod.mk.injEq]
  constructor
  · rintro ⟨c', hc', r', hr', rfl, rfl⟩
    exact ⟨hc', hr'⟩
  · rintro ⟨hc, hr⟩
    exact ⟨c, hc, r, hr, rfl, rfl⟩

theorem map_fst_rulesOf (q : MachineState) :
    (p.rulesOf q).map Prod.fst = p.tapeAlphabet.filter fun c => (p.action? q c).isSome := by
  unfold rulesOf
  induction p.tapeAlphabet with
  | nil => rfl
  | cons c cs ih => cases h : p.action? q c <;> simp [h, ih]

theorem length_rulesOf (q : MachineState) :
    (p.rulesOf q).length = p.tapeAlphabet.countP fun c => (p.action? q c).isSome := by
  simp [rulesOf, List.length_filterMap_eq_countP]

variable {p}

/-- The rules of a state read different cells. -/
theorem nodup_reads (h : p.tapeAlphabet.Nodup) (q : MachineState) :
    ((p.rulesOf q).map Prod.fst).Nodup := by
  rw [map_fst_rulesOf]
  exact h.filter _

theorem nodup_rulesOf (h : p.tapeAlphabet.Nodup) (q : MachineState) : (p.rulesOf q).Nodup :=
  List.Nodup.of_map Prod.fst (nodup_reads h q)

/-- The rules listed for a state are those of its row. -/
theorem perm_rulesOf (hp : p.Closed) (h : p.tapeAlphabet.Nodup) (q : MachineState) :
    (p.rulesOf q).Perm (p.row q).entries := by
  have hentries : (p.row q).entries.Nodup := List.Nodup.of_map Prod.fst (p.row q).nodup
  rw [List.perm_ext_iff_of_nodup (nodup_rulesOf h q) hentries]
  rintro ⟨c, r⟩
  rw [mem_rulesOf_iff, FinMap.mem_entries_iff]
  constructor
  · exact And.right
  · intro haction
    exact ⟨(hp q c r haction).2.1, haction⟩

theorem ruleCount_eq_sum_length (hp : p.Closed) (h : p.tapeAlphabet.Nodup) :
    p.ruleCount = (p.states.map fun q => (p.rulesOf q).length).sum := by
  have hlengths : ∀ q ∈ p.states, (p.row q).size = (p.rulesOf q).length :=
    fun q _ => (perm_rulesOf hp h q).length_eq.symm
  rw [ruleCount_eq_sum_size, List.map_congr_left hlengths]

/-- The pairs with a rule, state by state and each time in the order of the tape alphabet. -/
def listedPairs (p : Program α) : List (MachineState × Cell α) :=
  p.states.flatMap fun q => (p.rulesOf q).map fun e => (q, e.1)

theorem mem_listedPairs_iff (hp : p.Closed) (q : MachineState) (c : Cell α) :
    (q, c) ∈ p.listedPairs ↔ (p.action? q c).isSome := by
  simp only [listedPairs, List.mem_flatMap, List.mem_map, Prod.exists, Prod.mk.injEq,
    mem_rulesOf_iff, Option.isSome_iff_exists]
  constructor
  · rintro ⟨q', -, c', r, ⟨-, hr⟩, rfl, rfl⟩
    exact ⟨r, hr⟩
  · rintro ⟨r, hr⟩
    obtain ⟨hq, hc, -, -⟩ := hp q c r hr
    exact ⟨q, hq, c, r, ⟨hc, hr⟩, rfl, rfl⟩

theorem nodup_listedPairs (h : p.tapeAlphabet.Nodup) : p.listedPairs.Nodup := by
  rw [listedPairs, List.nodup_flatMap]
  constructor
  · intro q _
    exact List.Nodup.of_map Prod.snd (by simpa [Function.comp_def] using nodup_reads h q)
  · -- the pairs of different states differ in the state
    apply p.rules.nodup_keys.imp
    intro q q' hne x hx hx'
    obtain ⟨_, -, rfl⟩ := List.mem_map.mp hx
    obtain ⟨_, -, heq⟩ := List.mem_map.mp hx'
    exact hne (Prod.ext_iff.mp heq).1.symm

theorem length_listedPairs (hp : p.Closed) (h : p.tapeAlphabet.Nodup) :
    p.listedPairs.length = p.ruleCount := by
  simp [ruleCount_eq_sum_length hp h, listedPairs, List.length_flatMap]

end Program
end WordMachines
