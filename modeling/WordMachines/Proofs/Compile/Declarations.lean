import Mathlib.Tactic
import WordMachines.Proofs.Turing.Declarations
import WordMachines.Turing.Compile

/-!
# What a compiled automaton declares

All states and cells of the program are declared before its first rule, and the rules mention no
other, since the table leads from declared states to declared states. So the order of the
declarations stands: the texts of the states, each where it is first read, then the two halting
states; the alphabet, then the blank.
-/

namespace WordMachines

namespace Dfa

variable {S A : Type} [Shown S] (d : Dfa S A)

theorem states_declarations :
    d.declarations.flatMap Program.Edit.states =
      (d.states.map shown).map .named ++ [.accept, .reject] := by
  have hstates : (d.states.map (.state ∘ .of)).flatMap (Program.Edit.states (α := A)) =
      (d.states.map shown).map .named := by
    rw [List.flatMap_map, List.map_map, List.map_eq_flatMap]
    rfl
  have hsymbols : (d.alphabet.map (.symbol ∘ .symbol)).flatMap Program.Edit.states = [] := by
    simp [Program.Edit.states]
  simp [declarations, hstates, hsymbols, Program.Edit.states]

theorem cells_declarations :
    d.declarations.flatMap Program.Edit.cells = d.alphabet.map .symbol ++ [.blank] := by
  have hstates : (d.states.map (.state ∘ .of)).flatMap (Program.Edit.cells (α := A)) = [] := by
    simp [Program.Edit.cells]
  have hsymbols : (d.alphabet.map (.symbol ∘ .symbol)).flatMap Program.Edit.cells =
      d.alphabet.map .symbol := by
    rw [List.flatMap_map, List.map_eq_flatMap]
    rfl
  simp [declarations, hstates, hsymbols, Program.Edit.cells]

variable [DecidableEq S] [DecidableEq A]

theorem mem_ruleEdits_iff (e : Program.Edit A) :
    e ∈ d.ruleEdits ↔ ∃ q ∈ d.states, e = d.blankRule q ∨ ∃ a ∈ d.alphabet, ∃ t,
      d.next? q a = some t ∧ e = .rule (.of q) (.symbol a) ⟨.symbol a, .right, .of t⟩ := by
  simp only [ruleEdits, List.mem_flatMap, List.mem_append, List.mem_filterMap, List.mem_singleton,
    symbolRule?, Option.map_eq_some_iff, eq_comm (a := e)]
  simp only [or_comm]

variable {d} in
/-- A rule leads from a declared state to a declared or a halting one. -/
theorem WellFormed.states_ruleEdits_subset (hd : d.WellFormed) :
    d.ruleEdits.flatMap Program.Edit.states ⊆ d.declarations.flatMap Program.Edit.states := by
  have hof : ∀ q ∈ d.states, MachineState.of q ∈ (d.states.map shown).map MachineState.named :=
    fun q hq => List.mem_map_of_mem (List.mem_map_of_mem hq)
  rw [states_declarations]
  intro s hs
  obtain ⟨e, he, hs⟩ := List.mem_flatMap.mp hs
  obtain ⟨q, hq, rfl | ⟨a, ha, t, ht, rfl⟩⟩ := (d.mem_ruleEdits_iff e).mp he
  · simp only [blankRule, Program.Edit.states, List.mem_cons, List.not_mem_nil, or_false] at hs
    rcases hs with rfl | rfl
    · exact List.mem_append_left _ (hof q hq)
    · split_ifs <;> simp
  · obtain ⟨u, hu, hnext⟩ := hd.total q hq a ha
    obtain rfl := Option.some.inj (hnext.symm.trans ht)
    simp only [Program.Edit.states, List.mem_cons, List.not_mem_nil, or_false] at hs
    rcases hs with rfl | rfl
    · exact List.mem_append_left _ (hof q hq)
    · exact List.mem_append_left _ (hof u hu)

theorem cells_ruleEdits_subset :
    d.ruleEdits.flatMap Program.Edit.cells ⊆ d.declarations.flatMap Program.Edit.cells := by
  rw [cells_declarations]
  intro c hc
  obtain ⟨e, he, hc⟩ := List.mem_flatMap.mp hc
  obtain ⟨q, hq, rfl | ⟨a, ha, t, ht, rfl⟩⟩ := (d.mem_ruleEdits_iff e).mp he
  · simp_all [blankRule, Program.Edit.cells]
  · simp_all [Program.Edit.cells]

end Dfa

namespace ValidDfa

variable {S A : Type} [DecidableEq S] [DecidableEq A] [Shown S] (d : ValidDfa S A)

theorem states_compile :
    d.compile.states = (d.states.map shown).eraseDups.map .named ++ [.accept, .reject] := by
  have hnamed : Function.Injective MachineState.named := fun _ _ => MachineState.named.inj
  rw [compile, Program.states_new_edits, List.flatMap_append,
    eraseDups_append_of_subset d.wellFormed.states_ruleEdits_subset, d.states_declarations,
    ← eraseDups_map hnamed, List.append_cons, eraseDups_concat, eraseDups_concat]
  simp [mention]

theorem tapeAlphabet_compile : d.compile.tapeAlphabet = d.alphabet.map .symbol ++ [.blank] := by
  have hsymbol : Function.Injective (Cell.symbol (α := A)) := fun _ _ => Cell.symbol.inj
  rw [compile, Program.tapeAlphabet_new_edits, List.flatMap_append,
    eraseDups_append_of_subset d.cells_ruleEdits_subset, d.cells_declarations, eraseDups_concat,
    eraseDups_of_nodup (d.wellFormed.alphabet_nodup.map hsymbol)]
  simp [mention]

theorem mem_states_compile_iff (t : String) :
    .named t ∈ d.compile.states ↔ ∃ q ∈ d.states, shown q = t := by
  simp [states_compile]

theorem mem_tapeAlphabet_compile_iff (c : Cell A) :
    c ∈ d.compile.tapeAlphabet ↔ ∀ a, c = .symbol a → a ∈ d.alphabet := by
  cases c <;> simp [tapeAlphabet_compile]

theorem closed_compile : d.compile.Closed :=
  Program.closed_new_edits _ _ _

theorem start_compile : d.compile.start = .of d.start := by
  simp [compile, Program.new]

theorem hasState_compile {q : S} (hq : q ∈ d.states) : d.compile.hasState (.of q) := by
  rw [← Program.mem_states_iff, MachineState.of, mem_states_compile_iff]
  exact ⟨q, hq, rfl⟩

/-- Rules write what they read, so they bring no symbol of their own. -/
theorem takes_compile_iff (a : A) : d.compile.takes a ↔ a ∈ d.alphabet := by
  simp [Program.takes, mem_tapeAlphabet_compile_iff]

theorem takes_compile {a : A} (ha : a ∈ d.alphabet) : d.compile.takes a :=
  (d.takes_compile_iff a).mpr ha

end ValidDfa
end WordMachines
