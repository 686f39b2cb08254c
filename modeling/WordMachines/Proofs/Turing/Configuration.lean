import Mathlib.Tactic
import Mathlib.Logic.Function.Iterate
import WordMachines.Proofs.Turing.Rules
import WordMachines.Proofs.Turing.Steps

/-!
# Configurations on the unbounded tape

In the textbooks a configuration has a cell for every place from the first one on, and the verdict
falls with the step that enters a halting state or finds no rule. A machine stands for the
configuration with its state, its head and its verdict, whose cells are blank beyond those stored.
One step of the machine is one step of the configuration, so they stay together for all time.
-/

namespace WordMachines

def MachineState.verdict? : MachineState → Option Verdict
  | named _ => none
  | accept => some .accept
  | reject => some .reject

structure Configuration (α : Type) where
  state : MachineState
  cells : ℕ → Cell α
  head : ℕ
  verdict? : Option Verdict

namespace Configuration

variable {α : Type}

def init (start : MachineState) (w : List α) : Configuration α :=
  ⟨start, fun i => w[i]?.elim .blank .symbol, 0, start.verdict?⟩

/-- At the first cell a move to the left leads nowhere. -/
def movedHead : Direction → ℕ → ℕ
  | .left, 0 => 0
  | .left, i + 1 => i
  | .right, i => i + 1
  | .stay, i => i

/-- Without a rule the configuration rejects and stays as it is; with a verdict it just stays. -/
def next (rules : MachineState → Cell α → Option (Action α)) (c : Configuration α) :
    Configuration α :=
  match c.verdict? with
  | some _ => c
  | none =>
    match rules c.state (c.cells c.head) with
    | none => { c with verdict? := some .reject }
    | some r =>
      { state := r.next
        cells := Function.update c.cells c.head r.write
        head := movedHead r.move c.head
        verdict? := r.next.verdict? }

def after (rules : MachineState → Cell α → Option (Action α)) (n : ℕ) (c : Configuration α) :
    Configuration α :=
  (next rules)^[n] c

variable {rules : MachineState → Cell α → Option (Action α)} {c : Configuration α}

theorem next_of_verdict {v : Verdict} (h : c.verdict? = some v) : c.next rules = c := by
  simp [next, h]

theorem next_of_no_rule (h : c.verdict? = none) (hr : rules c.state (c.cells c.head) = none) :
    c.next rules = { c with verdict? := some .reject } := by
  simp [next, h, hr]

theorem next_of_rule {r : Action α} (h : c.verdict? = none)
    (hr : rules c.state (c.cells c.head) = some r) :
    c.next rules = ⟨r.next, Function.update c.cells c.head r.write, movedHead r.move c.head,
      r.next.verdict?⟩ := by
  simp [next, h, hr]

end Configuration

namespace Tape

variable {α : Type} (t : Tape α)

theorem head_write_move (c : Cell α) (d : Direction) :
    ((t.write c).move d).head = Configuration.movedHead d t.head := by
  cases d with
  | left =>
    change t.head - 1 = _
    cases t.head <;> rfl
  | right => exact head_move_right (t.write c)
  | stay => rfl

theorem cellAt_write_move (c : Cell α) (d : Direction) :
    ((t.write c).move d).cellAt = Function.update t.cellAt t.head c := by
  funext i
  rw [cellAt_move, cellAt_write, Function.update_apply]

/-- Symbols are found on stored cells only. -/
theorem getElem?_eq_symbol_iff (i : ℕ) (a : α) :
    t.cells[i]? = some (.symbol a) ↔ t.cellAt i = .symbol a := by
  rw [cellAt]
  cases t.cells[i]? <;> simp

end Tape

namespace Machine

variable {α : Type}

def configuration (m : Machine α) : Configuration α :=
  ⟨m.state, m.tape.cellAt, m.tape.head, m.verdict?⟩

theorem verdict?_perform {m : Machine α} (h : m.verdict? = none) (r : Action α) :
    (m.perform r).verdict? = r.next.verdict? := by
  have hstuck : (m.perform r).stuck = false := (m.verdict?_eq_none_iff.mp h).1
  rw [verdict?, hstuck]
  rfl

theorem configuration_init (start : MachineState) (w : List α) :
    (init start w).configuration = .init start w := by
  have hcells : (Tape.ofWord w).cellAt = fun i => w[i]?.elim .blank .symbol :=
    funext (Tape.cellAt_ofWord w)
  have hverdict : (init start w).verdict? = start.verdict? := rfl
  rw [configuration, hverdict, Configuration.init, ← hcells, ← Tape.head_ofWord w]
  rfl

variable [DecidableEq α] (p : Program α) (m : Machine α)

theorem configuration_step :
    (m.step p).1.configuration = m.configuration.next p.action? := by
  have hread : m.configuration.cells m.configuration.head = m.tape.read :=
    m.tape.read_eq_cellAt.symm
  rcases step_cases p m with ⟨v, hv, hs⟩ | ⟨r, hv, hr, hs⟩ | ⟨hv, hr, hs⟩
  · rw [hs, Configuration.next_of_verdict (c := m.configuration) hv]
  · have hcells := m.tape.cellAt_write_move r.write r.move
    have hhead := m.tape.head_write_move r.write r.move
    have hnext := Configuration.next_of_rule (c := m.configuration) hv (by rw [hread]; exact hr)
    rw [hs, hnext, configuration, verdict?_perform hv]
    change Configuration.mk r.next ((m.tape.write r.write).move r.move).cellAt
      ((m.tape.write r.write).move r.move).head r.next.verdict? = _
    rw [hcells, hhead]
    rfl
  · have hnext := Configuration.next_of_no_rule (c := m.configuration) hv (by rw [hread]; exact hr)
    rw [hs, hnext]
    rfl

theorem configuration_after (n : ℕ) :
    (m.after p n).configuration = m.configuration.after p.action? n := by
  induction n with
  | zero => rfl
  | succ n ih =>
    rw [after_succ', configuration_step, ih, Configuration.after, Configuration.after,
      Function.iterate_succ_apply']

end Machine

namespace Program

variable {α : Type} [DecidableEq α] (name : String) (start : MachineState) (es : List (Edit α))

/-- The last rule given to a pair. -/
def Edit.lastRule? (q : MachineState) (c : Cell α) : Option (Action α) :=
  es.reverse.findSome? (·.action? q c)

theorem action?_new_edits : ((new name start).edits es).action? = Edit.lastRule? es := by
  funext q c
  rw [action?_edits]
  exact Option.or_none

variable [Shown α] {name start es} {w : List α} {m : Machine α}

/-- The machine of a program made by edits goes through the configurations of the last rules given.
The cells it stores hold every symbol of the unbounded tape at its place, and no other. -/
theorem configuration_after_edits
    (hm : Machine.start ((new name start).edits es) w = .ok m) (k : ℕ) :
    (m.after ((new name start).edits es) k).configuration =
        (Configuration.init start w).after (Edit.lastRule? es) k ∧
      ∀ i a, (m.after ((new name start).edits es) k).tape.cells[i]? = some (.symbol a) ↔
        ((Configuration.init start w).after (Edit.lastRule? es) k).cells i = .symbol a := by
  obtain ⟨-, -, rfl⟩ := (start_eq_ok_iff _ w m).mp hm
  have hstart : ((new name start).edits es).start = start := start_edits (new name start) es
  have hconfiguration := Machine.configuration_after ((new name start).edits es)
    (.init ((new name start).edits es).start w) k
  rw [Machine.configuration_init, action?_new_edits, hstart] at hconfiguration
  rw [hstart]
  refine ⟨hconfiguration, ?_⟩
  intro i a
  rw [Tape.getElem?_eq_symbol_iff, ← hconfiguration]
  rfl

/-- The head is held up at the first cell, then leaves the word behind, writes on a cell that was
not stored before and meets a state without rules. -/
def margins : List (Edit Char) :=
  [.rule (.named "q") (.symbol 'a') ⟨.symbol 'b', .left, .named "q"⟩,
    .rule (.named "q") (.symbol 'b') ⟨.blank, .right, .named "q"⟩,
    .rule (.named "q") .blank ⟨.symbol 'a', .right, .named "r"⟩]

theorem margins_after_four :
    ∃ m, Machine.start ((new "margins" (.named "q")).edits margins) ['a'] = .ok m ∧
      (m.after ((new "margins" (.named "q")).edits margins) 4).configuration =
        (Configuration.init (.named "q") ['a']).after (Edit.lastRule? margins) 4 ∧
      ((Configuration.init (.named "q") ['a']).after (Edit.lastRule? margins) 4).cells 1 =
        .symbol 'a' ∧
      (m.after ((new "margins" (.named "q")).edits margins) 4).verdict? = some .reject := by
  have hm : Machine.start ((new "margins" (.named "q")).edits margins) ['a'] =
      .ok (.init (.named "q") ['a']) := rfl
  obtain ⟨hconfiguration, hsymbols⟩ := configuration_after_edits hm 4
  exact ⟨_, hm, hconfiguration, (hsymbols 1 'a').mp (by decide +kernel), by decide +kernel⟩

end Program
end WordMachines
