import Mathlib.Tactic
import Mathlib.Logic.Function.Iterate
import WordMachines.Turing.Machine

/-!
# Machines after so many steps

A halted machine stays as it is, so a bounded run ends in the machine that the bound many steps
give, whether it halted before or not. The verdict is that of the machine reached, or a timeout if
it has not halted: `runFor_eq`.
-/

namespace WordMachines
namespace Machine

variable {α : Type}

theorem verdict?_ne_timeout (m : Machine α) : m.verdict? ≠ some .timeout := by
  unfold verdict?
  split_ifs
  · simp
  · cases m.state <;> simp

theorem verdict?_eq_none_iff (m : Machine α) :
    m.verdict? = none ↔ m.stuck = false ∧ m.state.isHalting = false := by
  unfold verdict?
  cases m.stuck <;> cases m.state <;> simp [MachineState.isHalting]

variable [DecidableEq α] (p : Program α)

/-- The machine after `n` steps; those after it has halted change nothing. -/
def after (n : ℕ) (m : Machine α) : Machine α := (fun m => (m.step p).1)^[n] m

@[simp] theorem after_zero (m : Machine α) : m.after p 0 = m := rfl

theorem after_succ (n : ℕ) (m : Machine α) : m.after p (n + 1) = (m.step p).1.after p n := rfl

theorem after_succ' (n : ℕ) (m : Machine α) : m.after p (n + 1) = ((m.after p n).step p).1 :=
  Function.iterate_succ_apply' _ n m

theorem after_add (n k : ℕ) (m : Machine α) : m.after p (n + k) = (m.after p k).after p n :=
  Function.iterate_add_apply _ n k m

variable {p} {m : Machine α}

theorem step_of_halted {v : Verdict} (h : m.verdict? = some v) : m.step p = (m, some v) := by
  simp [step, h]

theorem step_of_rule {r : Action α} (h : m.verdict? = none)
    (hr : p.action? m.state m.tape.read = some r) : m.step p = (m.perform r, none) := by
  simp [step, h, hr]

theorem step_of_no_rule (h : m.verdict? = none) (hr : p.action? m.state m.tape.read = none) :
    m.step p = (m.giveUp, some .reject) := by
  simp [step, h, hr]

variable (p m) in
/-- All that a step can do. -/
theorem step_cases :
    (∃ v, m.verdict? = some v ∧ m.step p = (m, some v)) ∨
      (∃ r, m.verdict? = none ∧ p.action? m.state m.tape.read = some r ∧
        m.step p = (m.perform r, none)) ∨
      m.verdict? = none ∧ p.action? m.state m.tape.read = none ∧
        m.step p = (m.giveUp, some .reject) := by
  cases hm : m.verdict? with
  | some v => exact Or.inl ⟨v, rfl, step_of_halted hm⟩
  | none =>
    cases hr : p.action? m.state m.tape.read with
    | some r => exact Or.inr (Or.inl ⟨r, rfl, rfl, step_of_rule hm hr⟩)
    | none => exact Or.inr (Or.inr ⟨rfl, rfl, step_of_no_rule hm hr⟩)

theorem after_of_halted {v : Verdict} (h : m.verdict? = some v) (n : ℕ) : m.after p n = m := by
  induction n with
  | zero => rfl
  | succ n ih => rw [after_succ, step_of_halted h, ih]

theorem after_of_le_of_halted {v : Verdict} {k n : ℕ} (h : (m.after p k).verdict? = some v)
    (hkn : k ≤ n) : m.after p n = m.after p k := by
  obtain ⟨i, rfl⟩ := Nat.exists_eq_add_of_le' hkn
  rw [after_add, after_of_halted h]

theorem verdict?_step {v : Verdict} (h : (m.step p).2 = some v) :
    (m.step p).1.verdict? = some v := by
  rcases step_cases p m with ⟨u, hu, hs⟩ | ⟨r, -, -, hs⟩ | ⟨-, -, hs⟩
  · rw [hs] at h ⊢
    exact hu.trans h
  · rw [hs] at h
    cases h
  · rw [hs] at h ⊢
    exact h

variable (p)

theorem runFor_eq (n : ℕ) (m : Machine α) :
    m.runFor p n = (m.after p n, (m.after p n).verdict?.getD .timeout) := by
  induction n generalizing m with
  | zero => rfl
  | succ n ih =>
    cases hm : m.verdict? with
    | some v => simp [runFor, after_of_halted hm, hm]
    | none =>
      rw [after_succ]
      cases hs : (m.step p).2 with
      | some v =>
        have hv := verdict?_step hs
        have hsplit : m.step p = ((m.step p).1, some v) := Prod.ext rfl hs
        rw [runFor, hm, hsplit]
        simp [after_of_halted hv, hv]
      | none =>
        have hsplit : m.step p = ((m.step p).1, none) := Prod.ext rfl hs
        rw [runFor, hm, hsplit]
        exact ih _

end Machine

namespace Program

variable {α : Type} [DecidableEq α] [Shown α] (p : Program α)

theorem start_eq_ok_iff (w : List α) (m : Machine α) :
    Machine.start p w = .ok m ↔
      p.hasState p.start ∧ (∀ a ∈ w, p.takes a) ∧ m = .init p.start w := by
  unfold Machine.start
  split_ifs with hstart
  · cases hfind : w.find? (!p.takes ·) with
    | some a =>
      have ha : ¬ p.takes a := by simpa using List.find?_some hfind
      have hmem := List.mem_of_find?_eq_some hfind
      simp only [reduceCtorEq, false_iff]
      rintro ⟨-, hw, -⟩
      exact ha (hw a hmem)
    | none =>
      have hw : ∀ a ∈ w, p.takes a := by simpa using hfind
      constructor
      · intro h
        exact ⟨hstart, hw, (Except.ok.inj h).symm⟩
      · rintro ⟨-, -, rfl⟩
        rfl
  · simp [hstart]

variable {p} {w : List α} {m : Machine α}

theorem stepCount_of_start (h : Machine.start p w = .ok m) : m.stepCount = 0 := by
  rw [((p.start_eq_ok_iff w m).mp h).2.2]
  rfl

/-- No step is lost in a whole run: the bound counts from the outset. -/
theorem run_of_start (h : Machine.start p w = .ok m) (n : ℕ) :
    p.run w n = .ok ((m.after p n).report ((m.after p n).verdict?.getD .timeout)) := by
  have hrun : m.run p n = (m.after p n, (m.after p n).verdict?.getD .timeout) := by
    rw [Machine.run, stepCount_of_start h, Nat.sub_zero, Machine.runFor_eq]
  rw [Program.run, h]
  change Except.ok ((m.run p n).1.report (m.run p n).2) = _
  rw [hrun]

end Program
end WordMachines
