import Mathlib.Tactic
import WordMachines.Proofs.Dfa.Validation
import WordMachines.Proofs.Turing.Renaming
import WordMachines.Proofs.Walk.Renaming
import WordMachines.Turing.Compile

/-!
# Compiled automata under other names

The compiler puts the symbols of an automaton into its program as they are and the states as their
texts. So an automaton whose new names read like the old ones has the old program on renamed
symbols, and with it the old runs. Numbers and characters may in this way be replaced by labels
throughout: `labels_stand_in`.
-/

namespace WordMachines

variable {α β : Type}

def Cell.embedding (g : α ↪ β) : Cell α ↪ Cell β := ⟨.map g, Cell.map_injective g.injective⟩

namespace Program

variable (g : α ↪ β)

def Edit.rename : Edit α → Edit β
  | .state q => .state q
  | .symbol c => .symbol (c.map g)
  | .rule q c r => .rule q (c.map g) (r.map g)

def renameRow (row : FinMap (Cell α) (Action α)) : FinMap (Cell β) (Action β) :=
  row.rename (Cell.embedding g) (Action.map g)

/-- States and rules keep their order. -/
def rename (p : Program α) : Program β where
  name := p.name
  start := p.start
  tapeAlphabet := p.tapeAlphabet.map (.map g)
  rules := p.rules.rename (.refl _) (renameRow g)

variable (p : Program α)

theorem states_rename : (p.rename g).states = p.states :=
  (p.rules.keys_rename (.refl _) _).trans (List.map_id _)

theorem hasState_rename (q : MachineState) : (p.rename g).hasState q = p.hasState q :=
  p.rules.contains_rename (.refl _) _ q

theorem rename_addState (q : MachineState) :
    (p.addState q).rename g = (p.rename g).addState q := by
  rw [addState, addState, hasState_rename]
  split_ifs
  · rfl
  · have hrules := p.rules.rename_insert (.refl _) (renameRow g) q ∅
    simp only [rename, hrules]
    rfl

theorem mem_tapeAlphabet_rename (c : Cell α) :
    c.map g ∈ (p.rename g).tapeAlphabet ↔ c ∈ p.tapeAlphabet :=
  List.mem_map_of_injective (Cell.map_injective g.injective)

theorem row_rename (q : MachineState) : (p.rename g).row q = renameRow g (p.row q) := by
  have hget : (p.rename g).rules.get? q = (p.rules.get? q).map (renameRow g) :=
    p.rules.get?_rename (.refl _) (renameRow g) q
  rw [row, hget, row]
  cases p.rules.get? q <;> rfl

variable [DecidableEq α] [DecidableEq β]

theorem action?_rename (q : MachineState) (c : Cell α) :
    (p.rename g).action? q (c.map g) = (p.action? q c).map (.map g) := by
  rw [action?, row_rename, action?]
  exact (p.row q).get?_rename (Cell.embedding g) (Action.map g) c

theorem rename_addSymbol (c : Cell α) :
    (p.addSymbol c).rename g = (p.rename g).addSymbol (c.map g) := by
  simp only [addSymbol, mem_tapeAlphabet_rename]
  split_ifs
  · rfl
  · simp only [rename, List.map_append, List.map_cons, List.map_nil]

theorem rename_insertRule (q : MachineState) (c : Cell α) (r : Action α) :
    { p with rules := p.rules.insert q ((p.row q).insert c r) }.rename g =
      { p.rename g with
        rules := (p.rename g).rules.insert q
          (((p.rename g).row q).insert (c.map g) (r.map g)) } := by
  have hrow : renameRow g ((p.row q).insert c r) =
      ((p.rename g).row q).insert (c.map g) (r.map g) := by
    rw [row_rename]
    exact (p.row q).rename_insert (Cell.embedding g) (Action.map g) c r
  have hrules := p.rules.rename_insert (.refl _) (renameRow g) q ((p.row q).insert c r)
  rw [hrow] at hrules
  exact congrArg (Program.mk p.name p.start (p.tapeAlphabet.map (.map g))) hrules

theorem rename_addRule (q : MachineState) (c : Cell α) (r : Action α) :
    (p.addRule q c r).rename g = (p.rename g).addRule q (c.map g) (r.map g) := by
  simp only [addRule, rename_insertRule, rename_addSymbol, rename_addState]
  rfl

theorem rename_edit (e : Edit α) : (p.edit e).rename g = (p.rename g).edit (e.rename g) := by
  cases e with
  | state q => exact p.rename_addState g q
  | symbol c => exact p.rename_addSymbol g c
  | rule q c r => exact p.rename_addRule g q c r

theorem rename_edits (es : List (Edit α)) :
    (p.edits es).rename g = (p.rename g).edits (es.map (.rename g)) := by
  induction es generalizing p with
  | nil => rfl
  | cons e es ih =>
    change ((p.edit e).edits es).rename g = ((p.rename g).edit (e.rename g)).edits _
    rw [ih, rename_edit]

theorem renamed_rename : Renamed g p (p.rename g) where
  start_eq := rfl
  hasState_start := p.hasState_rename g p.start
  takes_eq a := decide_eq_decide.mpr (p.mem_tapeAlphabet_rename g (.symbol a))
  action?_eq t c := p.action?_rename g (.named t) c

end Program

variable {S S' A A' : Type} [Shown S] [Shown S'] (f : S ↪ S') (g : A ↪ A')

theorem MachineState.of_rename {f : S ↪ S'} (hf : ∀ q, shown (f q) = shown q) (q : S) :
    of (f q) = of q :=
  congrArg named (hf q)

namespace Dfa

variable (d : Dfa S A) (hf : ∀ q, shown (f q) = shown q)
include hf

theorem declarations_rename :
    (d.rename f g).declarations = d.declarations.map (.rename g) := by
  have hof : Program.Edit.state (α := A') ∘ .of ∘ f = .rename g ∘ .state ∘ .of := by
    funext q
    exact congrArg Program.Edit.state (MachineState.of_rename hf q)
  simp only [declarations, rename, List.map_append, List.map_map, List.map_cons, List.map_nil,
    Function.comp_assoc, hof]
  rfl

variable [DecidableEq S] [DecidableEq S']

theorem blankRule_rename (q : S) :
    (d.rename f g).blankRule (f q) = (d.blankRule q).rename g := by
  rw [blankRule, isAccepting_rename, MachineState.of_rename hf]
  rfl

variable [DecidableEq A] [DecidableEq A']

theorem symbolRule?_rename (q : S) (a : A) :
    (d.rename f g).symbolRule? (f q) (g a) = (d.symbolRule? q a).map (.rename g) := by
  rw [symbolRule?, next?_rename, symbolRule?, Option.map_map, Option.map_map]
  congr 1
  funext t
  simp only [Function.comp_apply, MachineState.of_rename hf]
  rfl

theorem ruleEdits_rename : (d.rename f g).ruleEdits = d.ruleEdits.map (.rename g) := by
  rw [ruleEdits, ruleEdits, List.map_flatMap]
  change (d.states.map f).flatMap (fun q => (d.alphabet.map g).filterMap _ ++ _) = _
  rw [List.flatMap_map]
  apply List.flatMap_congr
  intro q _
  rw [List.map_append, List.filterMap_map, List.map_filterMap, blankRule_rename f g d hf]
  congr 2
  funext a
  exact d.symbolRule?_rename f g hf q a

end Dfa

namespace ValidDfa

variable [DecidableEq S] [DecidableEq S'] [DecidableEq A] [DecidableEq A'] (d : ValidDfa S A)
  (hf : ∀ q, shown (f q) = shown q)
include hf

theorem compile_rename : (d.rename f g).compile = d.compile.rename g := by
  rw [compile, compile, Program.rename_edits, List.map_append,
    ← d.declarations_rename f g hf, ← d.ruleEdits_rename f g hf, ← MachineState.of_rename hf]
  rfl

theorem run_compile_rename [Shown A] [Shown A'] (hg : ∀ a, shown (g a) = shown a) (w : List A)
    (n : ℕ) : (d.rename f g).compile.run (w.map g) n = (d.compile.run w n).map (.map g) := by
  rw [d.compile_rename f g hf]
  exact (d.compile.renamed_rename g).run_map hg w n

end ValidDfa

/-- An automaton over numbers and characters, and the one in which labels stand for them in all
parts, are told apart by nothing but the labels in what is answered. -/
theorem labels_stand_in :
    (∀ d : Dfa UInt32 Char, (d.rename numberLabel charLabel).firstDefect? = d.firstDefect? ∧
      ∀ w, (d.rename numberLabel charLabel).accepts (w.map charLabel) = d.accepts w) ∧
    ∀ d : ValidDfa UInt32 Char, ∃ e : ValidDfa Label Label,
      (d.toDfa.rename numberLabel charLabel).validate = .ok e ∧
      e.isEmpty = d.isEmpty ∧
      e.reachable = d.reachable.map numberLabel ∧
      e.shortestAccepted? = d.shortestAccepted?.map (List.map charLabel) ∧
      e.compile = d.compile.rename charLabel ∧ e.compile.states = d.compile.states ∧
      ∀ w n, e.compile.run (w.map charLabel) n = (d.compile.run w n).map (.map charLabel) := by
  have hstates (q : UInt32) : shown (numberLabel q) = shown q := rfl
  have hsymbols (a : Char) : shown (charLabel a) = shown a := rfl
  constructor
  · intro d
    exact ⟨d.firstDefect?_rename numberLabel charLabel hstates hsymbols,
      d.accepts_rename numberLabel charLabel⟩
  · intro d
    have hprogram := d.compile_rename numberLabel charLabel hstates
    refine ⟨d.rename numberLabel charLabel, (Dfa.validate_eq_ok_iff _ _).mpr rfl, ?_, ?_, ?_,
      hprogram, ?_, ?_⟩
    · exact d.isEmpty_rename numberLabel charLabel
    · exact d.reachable_rename numberLabel charLabel
    · exact d.shortestAccepted?_rename numberLabel charLabel
    · rw [hprogram, Program.states_rename]
    · exact d.run_compile_rename numberLabel charLabel hstates hsymbols

end WordMachines
