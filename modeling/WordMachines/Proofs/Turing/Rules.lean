import Mathlib.Tactic
import WordMachines.Turing.Program

/-!
# What a program's edits leave behind

A pair of a state and a cell has the action of the last edit that gave that pair a rule. A state
is declared, and a cell is in the tape alphabet, once some edit has mentioned it.
-/

namespace WordMachines
namespace Program

variable {α : Type}

namespace Edit

/-- The states an edit declares, in this order. -/
def states : Edit α → List MachineState
  | .state q => [q]
  | .symbol _ => []
  | .rule q _ r => [q, r.next]

/-- The cells an edit declares, in this order. -/
def cells : Edit α → List (Cell α)
  | .state _ => []
  | .symbol c => [c]
  | .rule _ c r => [c, r.write]

/-- The action an edit gives to the pair of `q` and `c`. -/
def action? [DecidableEq α] (q : MachineState) (c : Cell α) : Edit α → Option (Action α)
  | .rule q' c' r => if q = q' ∧ c = c' then some r else none
  | _ => none

end Edit

theorem hasState_addState (p : Program α) (q q' : MachineState) :
    (p.addState q).hasState q' ↔ p.hasState q' ∨ q' = q := by
  unfold addState
  split_ifs with h
  · constructor
    · exact Or.inl
    · rintro (h' | rfl)
      · exact h'
      · exact h
  · rw [or_comm]
    exact FinMap.contains_insert p.rules q ∅ q'

@[simp] theorem tapeAlphabet_addState (p : Program α) (q : MachineState) :
    (p.addState q).tapeAlphabet = p.tapeAlphabet := by
  unfold addState
  split_ifs <;> rfl

/-- A new state gets an empty row, which is what an undeclared state reads as. -/
@[simp] theorem row_addState (p : Program α) (q q' : MachineState) :
    (p.addState q).row q' = p.row q' := by
  unfold addState
  split_ifs with h
  · rfl
  · by_cases hq : q' = q
    · subst hq
      have hnone : p.rules.get? q' = none := by simpa [hasState, FinMap.contains] using h
      simp [row, FinMap.get?_insert, hnone]
    · simp [row, FinMap.get?_insert, hq]

variable [DecidableEq α]

@[simp] theorem row_addSymbol (p : Program α) (c : Cell α) (q : MachineState) :
    (p.addSymbol c).row q = p.row q := by
  unfold addSymbol
  split_ifs <;> rfl

@[simp] theorem hasState_addSymbol (p : Program α) (c : Cell α) (q : MachineState) :
    (p.addSymbol c).hasState q = p.hasState q := by
  unfold addSymbol
  split_ifs <;> rfl

theorem mem_tapeAlphabet_addSymbol (p : Program α) (c c' : Cell α) :
    c' ∈ (p.addSymbol c).tapeAlphabet ↔ c' ∈ p.tapeAlphabet ∨ c' = c := by
  unfold addSymbol
  split_ifs with h
  · constructor
    · exact Or.inl
    · rintro (h' | rfl)
      · exact h'
      · exact h
  · simp

/-- The program with all that a rule mentions declared, before it has the rule. -/
def declareRule (p : Program α) (q : MachineState) (c : Cell α) (r : Action α) : Program α :=
  (((p.addState q).addState r.next).addSymbol c).addSymbol r.write

theorem addRule_eq (p : Program α) (q : MachineState) (c : Cell α) (r : Action α) :
    p.addRule q c r = { p.declareRule q c r with
      rules := (p.declareRule q c r).rules.insert q ((p.row q).insert c r) } := by
  have hrow : (p.declareRule q c r).row q = p.row q := by simp [declareRule]
  rw [← hrow]
  rfl

theorem action?_addRule (p : Program α) (q q' : MachineState) (c c' : Cell α) (r : Action α) :
    (p.addRule q c r).action? q' c' = if q' = q ∧ c' = c then some r else p.action? q' c' := by
  have hrow : (p.declareRule q c r).row q' = p.row q' := by simp [declareRule]
  rw [addRule_eq]
  by_cases hq : q' = q
  · subst hq
    by_cases hc : c' = c <;> simp [action?, row, FinMap.get?_insert, hc]
  · have hget := congrArg (·.get? c') hrow
    simpa [action?, row, FinMap.get?_insert, hq] using hget

theorem hasState_addRule (p : Program α) (q q' : MachineState) (c : Cell α) (r : Action α) :
    (p.addRule q c r).hasState q' ↔ p.hasState q' ∨ q' = q ∨ q' = r.next := by
  have hdeclared : (p.declareRule q c r).hasState q' ↔ p.hasState q' ∨ q' = q ∨ q' = r.next := by
    simp [declareRule, hasState_addState, or_assoc]
  have hinsert : (p.addRule q c r).hasState q' ↔ q' = q ∨ (p.declareRule q c r).hasState q' := by
    rw [addRule_eq]
    exact FinMap.contains_insert (p.declareRule q c r).rules q ((p.row q).insert c r) q'
  rw [hinsert, hdeclared, or_left_comm, or_self_left]

theorem mem_tapeAlphabet_addRule (p : Program α) (q : MachineState) (c c' : Cell α) (r : Action α) :
    c' ∈ (p.addRule q c r).tapeAlphabet ↔ c' ∈ p.tapeAlphabet ∨ c' = c ∨ c' = r.write := by
  simp [addRule_eq, declareRule, mem_tapeAlphabet_addSymbol, or_assoc]

variable (p : Program α)

theorem action?_edit (e : Edit α) (q : MachineState) (c : Cell α) :
    (p.edit e).action? q c = (e.action? q c).or (p.action? q c) := by
  cases e with
  | state q' => simp [edit, action?, Edit.action?]
  | symbol c' => simp [edit, action?, Edit.action?]
  | rule q' c' r =>
    simp only [edit, action?_addRule, Edit.action?]
    split_ifs <;> simp

theorem hasState_edit (e : Edit α) (q : MachineState) :
    (p.edit e).hasState q ↔ p.hasState q ∨ q ∈ e.states := by
  cases e with
  | state q' => simp [edit, hasState_addState, Edit.states]
  | symbol c => simp [edit, Edit.states]
  | rule q' c r => simp [edit, hasState_addRule, Edit.states]

theorem mem_tapeAlphabet_edit (e : Edit α) (c : Cell α) :
    c ∈ (p.edit e).tapeAlphabet ↔ c ∈ p.tapeAlphabet ∨ c ∈ e.cells := by
  cases e with
  | state q => simp [edit, Edit.cells]
  | symbol c' => simp [edit, mem_tapeAlphabet_addSymbol, Edit.cells]
  | rule q c' r => simp [edit, mem_tapeAlphabet_addRule, Edit.cells]

@[simp] theorem start_edit (e : Edit α) : (p.edit e).start = p.start := by
  cases e <;> simp only [edit, addRule, addState, addSymbol] <;> split_ifs <;> rfl

@[simp] theorem start_edits (es : List (Edit α)) : (p.edits es).start = p.start := by
  induction es generalizing p with
  | nil => rfl
  | cons e es ih => exact (ih (p.edit e)).trans (p.start_edit e)

@[simp] theorem name_edit (e : Edit α) : (p.edit e).name = p.name := by
  cases e <;> simp only [edit, addRule, addState, addSymbol] <;> split_ifs <;> rfl

@[simp] theorem name_edits (es : List (Edit α)) : (p.edits es).name = p.name := by
  induction es generalizing p with
  | nil => rfl
  | cons e es ih => exact (ih (p.edit e)).trans (p.name_edit e)

/-- The last rule given to a pair stays. -/
theorem action?_edits (es : List (Edit α)) (q : MachineState) (c : Cell α) :
    (p.edits es).action? q c = (es.reverse.findSome? (·.action? q c)).or (p.action? q c) := by
  induction es generalizing p with
  | nil => rfl
  | cons e es ih =>
    change ((p.edit e).edits es).action? q c = _
    rw [ih, action?_edit, List.reverse_cons, List.findSome?_append, Option.or_assoc]
    simp

theorem hasState_edits (es : List (Edit α)) (q : MachineState) :
    (p.edits es).hasState q ↔ p.hasState q ∨ ∃ e ∈ es, q ∈ e.states := by
  induction es generalizing p with
  | nil => simp [edits]
  | cons e es ih =>
    change ((p.edit e).edits es).hasState q ↔ _
    rw [ih, hasState_edit]
    simp [or_assoc]

theorem mem_tapeAlphabet_edits (es : List (Edit α)) (c : Cell α) :
    c ∈ (p.edits es).tapeAlphabet ↔ c ∈ p.tapeAlphabet ∨ ∃ e ∈ es, c ∈ e.cells := by
  induction es generalizing p with
  | nil => simp [edits]
  | cons e es ih =>
    change c ∈ ((p.edit e).edits es).tapeAlphabet ↔ _
    rw [ih, mem_tapeAlphabet_edit]
    simp [or_assoc]

end Program
end WordMachines
