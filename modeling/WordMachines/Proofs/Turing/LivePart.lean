import Mathlib.Tactic
import WordMachines.Proofs.Turing.Renaming
import WordMachines.Proofs.Turing.Rules

/-!
# The live part of a program

A run looks at little of its program: at the start and whether it is declared, at the symbols that a
word may have, and at the rules of the states that do not halt. Programs with the same live part run
alike. So the name does not count, nor the order of declarations, nor a state declared besides, and
a rule in a halting state does no more than declare what it mentions.
-/

namespace WordMachines
namespace Program

variable {α : Type} [DecidableEq α]

/-- Programs that a run cannot tell apart. -/
structure SameLivePart (p q : Program α) : Prop where
  start_eq : q.start = p.start
  hasState_start : q.hasState q.start = p.hasState p.start
  takes_eq : ∀ a, q.takes a = p.takes a
  action?_eq : ∀ t c, q.action? (.named t) c = p.action? (.named t) c

variable {p q : Program α}

theorem SameLivePart.renamed (h : SameLivePart p q) : Renamed id p q where
  start_eq := h.start_eq
  hasState_start := h.hasState_start
  takes_eq := h.takes_eq
  action?_eq t c := by
    rw [Cell.map_id_eq_id, id_eq, h.action?_eq]
    cases p.action? (.named t) c with
    | none => rfl
    | some r => exact congrArg some r.map_id.symm

theorem SameLivePart.run_eq [Shown α] (h : SameLivePart p q) (w : List α) (n : ℕ) :
    q.run w n = p.run w n :=
  h.renamed.run_eq w n

namespace Edit

/-- What an edit declares, in edits that only declare. -/
def declarations (e : Edit α) : List (Edit α) := e.states.map .state ++ e.cells.map .symbol

omit [DecidableEq α] in
theorem exists_mem_declarations_states (e : Edit α) (t : MachineState) :
    (∃ d ∈ e.declarations, t ∈ d.states) ↔ t ∈ e.states := by
  constructor
  · rintro ⟨d, hd, ht⟩
    rcases List.mem_append.mp hd with hd | hd
    · obtain ⟨t', ht', rfl⟩ := List.mem_map.mp hd
      rwa [List.mem_singleton.mp ht]
    · obtain ⟨c, -, rfl⟩ := List.mem_map.mp hd
      cases ht
  · intro ht
    exact ⟨.state t, List.mem_append_left _ (List.mem_map_of_mem ht), List.mem_singleton_self t⟩

omit [DecidableEq α] in
theorem exists_mem_declarations_cells (e : Edit α) (c : Cell α) :
    (∃ d ∈ e.declarations, c ∈ d.cells) ↔ c ∈ e.cells := by
  constructor
  · rintro ⟨d, hd, hc⟩
    rcases List.mem_append.mp hd with hd | hd
    · obtain ⟨t, -, rfl⟩ := List.mem_map.mp hd
      cases hc
    · obtain ⟨c', hc', rfl⟩ := List.mem_map.mp hd
      rwa [List.mem_singleton.mp hc]
  · intro hc
    exact ⟨.symbol c, List.mem_append_right _ (List.mem_map_of_mem hc), List.mem_singleton_self c⟩

theorem action?_of_mem_declarations {e d : Edit α} (hd : d ∈ e.declarations) (t : MachineState)
    (c : Cell α) : d.action? t c = none := by
  rcases List.mem_append.mp hd with h | h
  · obtain ⟨t', -, rfl⟩ := List.mem_map.mp h
    rfl
  · obtain ⟨c', -, rfl⟩ := List.mem_map.mp h
    rfl

/-- The rules that edits give to a pair, the oldest first. -/
def rulesFor (es : List (Edit α)) (t : MachineState) (c : Cell α) : List (Action α) :=
  es.filterMap (·.action? t c)

end Edit

theorem action?_edits_eq_getLast? (p : Program α) (es : List (Edit α)) (t : MachineState)
    (c : Cell α) :
    (p.edits es).action? t c = (Edit.rulesFor es t c).getLast?.or (p.action? t c) := by
  rw [action?_edits, ← List.head?_filterMap, List.filterMap_reverse, List.head?_reverse,
    Edit.rulesFor]

/-- It is enough that the edits mention the same and give each live pair its rules in one order. -/
theorem sameLivePart_edits (p : Program α) {es es' : List (Edit α)}
    (hstates : (∃ e ∈ es', p.start ∈ e.states) ↔ ∃ e ∈ es, p.start ∈ e.states)
    (hcells : ∀ a, (∃ e ∈ es', .symbol a ∈ e.cells) ↔ ∃ e ∈ es, .symbol a ∈ e.cells)
    (hrules : ∀ t c, Edit.rulesFor es' (.named t) c = Edit.rulesFor es (.named t) c) :
    SameLivePart (p.edits es) (p.edits es') where
  start_eq := by rw [start_edits, start_edits]
  hasState_start := by
    rw [Bool.eq_iff_iff, start_edits, start_edits, hasState_edits, hasState_edits, hstates]
  takes_eq a := by
    simp only [takes, mem_tapeAlphabet_edits, hcells]
  action?_eq t c := by
    rw [action?_edits_eq_getLast?, action?_edits_eq_getLast?, hrules]

section Changes

variable (p : Program α) (es es' : List (Edit α))

/-- The edits before and after a change do not matter. -/
theorem sameLivePart_between {ds ds' : List (Edit α)}
    (hstates : (∃ d ∈ ds', p.start ∈ d.states) ↔ ∃ d ∈ ds, p.start ∈ d.states)
    (hcells : ∀ a, (∃ d ∈ ds', .symbol a ∈ d.cells) ↔ ∃ d ∈ ds, .symbol a ∈ d.cells)
    (hrules : ∀ t c, Edit.rulesFor ds' (.named t) c = Edit.rulesFor ds (.named t) c) :
    SameLivePart (p.edits (es ++ ds ++ es')) (p.edits (es ++ ds' ++ es')) := by
  apply p.sameLivePart_edits
  · simp only [List.mem_append, or_and_right, exists_or, hstates]
  · intro a
    simp only [List.mem_append, or_and_right, exists_or, hcells]
  · intro t c
    have hds := hrules t c
    unfold Edit.rulesFor at hds ⊢
    rw [List.filterMap_append, List.filterMap_append, List.filterMap_append,
      List.filterMap_append, hds]

theorem sameLivePart_halting_rule {t : MachineState} (ht : t.isHalting) (c : Cell α)
    (r : Action α) :
    SameLivePart (p.edits (es ++ [.rule t c r] ++ es'))
      (p.edits (es ++ (Edit.rule t c r).declarations ++ es')) := by
  apply p.sameLivePart_between
  · rw [Edit.exists_mem_declarations_states]
    simp
  · intro a
    rw [Edit.exists_mem_declarations_cells]
    simp
  · intro name c'
    have hne : MachineState.named name ≠ t := by
      rintro rfl
      cases ht
    have hdeclared : Edit.rulesFor (Edit.rule t c r).declarations (.named name) c' = [] := by
      apply List.filterMap_eq_nil_iff.mpr
      intro d hd
      exact Edit.action?_of_mem_declarations hd _ _
    rw [hdeclared]
    simp [Edit.rulesFor, Edit.action?, hne]

theorem sameLivePart_extra_state {t : MachineState} (ht : t ≠ p.start) :
    SameLivePart (p.edits (es ++ es')) (p.edits (es ++ [.state t] ++ es')) := by
  have hbetween : SameLivePart (p.edits (es ++ [] ++ es')) (p.edits (es ++ [.state t] ++ es')) := by
    apply p.sameLivePart_between
    · simp [Edit.states, ht.symm]
    · simp [Edit.cells]
    · intro name c
      rfl
  rwa [List.append_nil] at hbetween

variable {es es'} in
theorem sameLivePart_perm (h : es.Perm es')
    (hrules : ∀ t c, Edit.rulesFor es' (.named t) c = Edit.rulesFor es (.named t) c) :
    SameLivePart (p.edits es) (p.edits es') := by
  apply p.sameLivePart_edits
  · simp only [h.mem_iff]
  · simp only [h.mem_iff, implies_true]
  · exact hrules

end Changes

/-- A run depends on the start, the symbols of words and the rules of states that do not halt.
Whatever else an edit changes in a program makes no difference. -/
theorem run_depends_on_live_part [Shown α] :
    (∀ p q : Program α, SameLivePart p q → ∀ w n, q.run w n = p.run w n) ∧
      (∀ (p : Program α) (name : String) w n, { p with name }.run w n = p.run w n) ∧
      (∀ (p : Program α) es es' t c r, t.isHalting → ∀ w n,
        (p.edits (es ++ (Edit.rule t c r).declarations ++ es')).run w n =
          (p.edits (es ++ [.rule t c r] ++ es')).run w n) ∧
      (∀ (p : Program α) es es' t, t ≠ p.start → ∀ w n,
        (p.edits (es ++ [.state t] ++ es')).run w n = (p.edits (es ++ es')).run w n) ∧
      ∀ (p : Program α) (es es' : List (Edit α)), es.Perm es' →
        (∀ t c, Edit.rulesFor es' (.named t) c = Edit.rulesFor es (.named t) c) →
        ∀ w n, (p.edits es').run w n = (p.edits es).run w n := by
  refine ⟨?_, ?_, ?_, ?_, ?_⟩
  · intro p q h
    exact h.run_eq
  · intro p name
    have hname : SameLivePart p { p with name } := ⟨rfl, rfl, fun _ => rfl, fun _ _ => rfl⟩
    exact hname.run_eq
  · intro p es es' t c r ht
    exact (p.sameLivePart_halting_rule es es' ht c r).run_eq
  · intro p es es' t ht
    exact (p.sameLivePart_extra_state es es' ht).run_eq
  · intro p es es' hperm hrules
    exact (p.sameLivePart_perm hperm hrules).run_eq

def unwritten : Program Char := new "unwritten" (.named "q")

/-- Reads a word of the symbol a to its end and accepts. -/
def sparse : List (Edit Char) :=
  [.rule (.named "q") (.symbol 'a') ⟨.symbol 'a', .right, .named "q"⟩,
    .rule (.named "q") .blank ⟨.blank, .stay, .accept⟩]

def dormantRule : Edit Char := .rule .accept .blank ⟨.symbol 'b', .left, .named "q"⟩

/-- The same in another order, with rules in halting states and a state that is never entered. -/
def cluttered : List (Edit Char) :=
  [.symbol .blank, .rule .reject .blank ⟨.symbol 'a', .right, .named "q"⟩,
    .rule (.named "q") .blank ⟨.blank, .stay, .accept⟩,
    .rule .accept (.symbol 'a') ⟨.blank, .left, .named "idle"⟩,
    .rule (.named "q") (.symbol 'a') ⟨.symbol 'a', .right, .named "q"⟩]

theorem rulesFor_cluttered (t : String) (c : Cell Char) :
    Edit.rulesFor cluttered (.named t) c = Edit.rulesFor sparse (.named t) c := by
  unfold Edit.rulesFor cluttered sparse
  by_cases ht : t = "q"
  · subst ht
    cases c with
    | blank => rfl
    | symbol a =>
      by_cases ha : a = 'a'
      · subst ha
        rfl
      · simp only [List.filterMap_cons, List.filterMap_nil, Edit.action?, reduceCtorEq,
          Cell.symbol.injEq, ha, and_false, if_false]
  · simp only [List.filterMap_cons, List.filterMap_nil, Edit.action?, MachineState.named.injEq,
      reduceCtorEq, ht, false_and, if_false]

theorem cluttered_runs_like_sparse :
    (SameLivePart (unwritten.edits sparse) (unwritten.edits cluttered) ∧
        (unwritten.edits cluttered).run ['a'] 9 = (unwritten.edits sparse).run ['a'] 9) ∧
      (MachineState.accept.isHalting ∧
        (unwritten.edits (sparse ++ dormantRule.declarations ++ [])).run ['b'] 1 =
          (unwritten.edits (sparse ++ [dormantRule] ++ [])).run ['b'] 1) ∧
      (.named "idle" ≠ unwritten.start ∧
        (unwritten.edits ([] ++ [.state (.named "idle")] ++ sparse)).run ['a'] 0 =
          (unwritten.edits ([] ++ sparse)).run ['a'] 0) ∧
      dormantRule.declarations.Perm dormantRule.declarations.reverse ∧
        (∀ t c, Edit.rulesFor dormantRule.declarations.reverse (.named t) c =
          Edit.rulesFor dormantRule.declarations (.named t) c) ∧
        (unwritten.edits dormantRule.declarations.reverse).run ['b'] 2 =
          (unwritten.edits dormantRule.declarations).run ['b'] 2 := by
  obtain ⟨hlive, -, hhalting, hextra, hperm⟩ := run_depends_on_live_part (α := Char)
  have hsame : SameLivePart (unwritten.edits sparse) (unwritten.edits cluttered) := by
    apply unwritten.sameLivePart_edits
    · simp [unwritten, new, sparse, cluttered, Edit.states]
    · simp [sparse, cluttered, Edit.cells]
    · exact rulesFor_cluttered
  have hidle : .named "idle" ≠ unwritten.start := by decide
  have hreverse := (List.reverse_perm dormantRule.declarations).symm
  have hrules (t : String) (c : Cell Char) : Edit.rulesFor dormantRule.declarations.reverse
    (.named t) c = Edit.rulesFor dormantRule.declarations (.named t) c := rfl
  exact ⟨⟨hsame, hlive _ _ hsame _ _⟩, ⟨rfl, hhalting _ _ _ _ _ _ rfl _ _⟩,
    ⟨hidle, hextra _ _ _ _ hidle _ _⟩, hreverse, hrules, hperm _ _ _ hreverse hrules _ _⟩

end Program
end WordMachines
