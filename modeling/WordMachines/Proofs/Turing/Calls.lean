import Mathlib.Tactic
import WordMachines.Proofs.Turing.Bounds

/-!
# Machines driven by calls

A machine may be driven by single steps and by runs under bounds that count from its outset, in any
order. Whatever the calls, it has come as far along its one run as its count of steps says, every
one of which was taken without a verdict; and once it has halted, a call answers the verdict and
changes nothing.
-/

namespace WordMachines
namespace Machine

/-- What may be asked of a machine: one step, or a run until it has taken `bound` steps in all. -/
inductive Call
  | step
  | run (bound : ℕ)

/-- The machine has entered a halting state, or no rule applied at its last step. -/
inductive HaltedWith {α : Type} (m : Machine α) : Verdict → Prop
  | accepting (h : m.state = .accept) : HaltedWith m .accept
  | rejecting (h : m.state = .reject) : HaltedWith m .reject
  | withoutRule (h : m.stuck) : HaltedWith m .reject

theorem verdict?_eq_some_iff {α : Type} {m : Machine α}
    (h : m.stuck → m.state.isHalting = false) (v : Verdict) :
    m.verdict? = some v ↔ m.HaltedWith v := by
  constructor
  · intro hv
    unfold verdict? at hv
    split_ifs at hv with hstuck
    · obtain rfl := Option.some.inj hv
      exact .withoutRule hstuck
    · cases hstate : m.state <;> rw [hstate] at hv
      · cases hv
      · obtain rfl := Option.some.inj hv
        exact .accepting hstate
      · obtain rfl := Option.some.inj hv
        exact .rejecting hstate
  · rintro (hstate | hstate | hstuck)
    · have hstuck : ¬ m.stuck := by
        intro hstuck
        simpa [hstate, MachineState.isHalting] using h hstuck
      simp [verdict?, hstuck, hstate]
    · simp [verdict?, hstate]
    · simp [verdict?, hstuck]

section Calls

variable {α : Type} [DecidableEq α] (p : Program α)

/-- The machine after a call, and the verdict that the call answers. -/
def call (m : Machine α) : Call → Machine α × Option Verdict
  | .step => m.step p
  | .run bound => ((m.run p bound).1, some (m.run p bound).2)

def afterCalls (m : Machine α) (cs : List Call) : Machine α :=
  cs.foldl (fun m c => (m.call p c).1) m

variable (m : Machine α)

theorem run_eq (n : ℕ) :
    m.run p n = (m.after p (n - m.stepCount),
      (m.after p (n - m.stepCount)).verdict?.getD .timeout) := by
  rw [run, runFor_eq]

/-- Every call takes some number of steps, perhaps none. -/
theorem exists_call_eq_after (c : Call) : ∃ k, (m.call p c).1 = m.after p k := by
  cases c with
  | step => exact ⟨1, rfl⟩
  | run n => exact ⟨n - m.stepCount, by rw [call, run_eq]⟩

theorem exists_afterCalls_eq_after (cs : List Call) : ∃ k, m.afterCalls p cs = m.after p k := by
  induction cs generalizing m with
  | nil => exact ⟨0, rfl⟩
  | cons c cs ih =>
    obtain ⟨i, hi⟩ := exists_call_eq_after p m c
    obtain ⟨k, hk⟩ := ih (m.call p c).1
    refine ⟨k + i, ?_⟩
    rw [after_add, ← hi, ← hk]
    rfl

/-- Some of the steps taken may not have counted; those that did came first, and lead as far. -/
theorem exists_counted_steps (n : ℕ) :
    ∃ k, m.after p n = m.after p k ∧ (m.after p n).stepCount = m.stepCount + k ∧
      ∀ i < k, (m.after p i).verdict? = none := by
  induction n with
  | zero => exact ⟨0, rfl, rfl, fun i hi => absurd hi i.not_lt_zero⟩
  | succ n ih =>
    cases h : (m.after p n).verdict? with
    | none =>
      refine ⟨n + 1, rfl, ?_, ?_⟩
      · rw [after_succ', stepCount_step_of_running h, stepCount_after_of_running h]
        rfl
      · intro i hi
        exact verdict?_eq_none_of_le h (Nat.le_of_lt_succ hi)
    | some v =>
      rw [after_of_le_of_halted h n.le_succ]
      exact ih

/-- The machine `m` has come from `m₀` by the steps that it has counted, none of which was taken
after a verdict. -/
structure OnRun (m₀ m : Machine α) : Prop where
  after_eq : m₀.after p m.stepCount = m
  running : ∀ k < m.stepCount, (m₀.after p k).verdict? = none

variable {m} in
/-- The count of a machine that has counted nothing at first tells how far it has come. -/
theorem onRun_afterCalls (hm : m.stepCount = 0) (cs : List Call) :
    OnRun p m (m.afterCalls p cs) := by
  obtain ⟨n, hn⟩ := exists_afterCalls_eq_after p m cs
  obtain ⟨k, hsame, hcount, hrunning⟩ := exists_counted_steps p m n
  rw [hm, Nat.zero_add] at hcount
  rw [hn]
  exact ⟨by rw [hcount, hsame], by rwa [hcount]⟩

variable {m} in
theorem afterCalls_eq_after_stepCount (hm : m.stepCount = 0) (cs : List Call) :
    m.afterCalls p cs = m.after p (m.afterCalls p cs).stepCount :=
  (onRun_afterCalls p hm cs).after_eq.symm

variable {p m}

theorem run_of_halted {v : Verdict} (h : m.verdict? = some v) (n : ℕ) : m.run p n = (m, v) := by
  rw [run_eq, after_of_halted h, h]
  rfl

theorem call_of_halted {v : Verdict} (h : m.verdict? = some v) (c : Call) :
    m.call p c = (m, some v) := by
  cases c with
  | step => exact step_of_halted h
  | run n => rw [call, run_of_halted h]

theorem afterCalls_of_halted {v : Verdict} (h : m.verdict? = some v) (cs : List Call) :
    m.afterCalls p cs = m := by
  induction cs with
  | nil => rfl
  | cons c cs ih =>
    change (m.call p c).1.afterCalls p cs = m
    rw [call_of_halted h]
    exact ih

/-- A machine without a rule to apply is left in the state that had none. -/
theorem isHalting_of_stuck_step (h : m.stuck → m.state.isHalting = false)
    (hstuck : (m.step p).1.stuck) : (m.step p).1.state.isHalting = false := by
  rcases step_cases p m with ⟨v, -, hs⟩ | ⟨r, hv, -, hs⟩ | ⟨hv, -, hs⟩
  · rw [hs] at hstuck ⊢
    exact h hstuck
  · rw [hs] at hstuck
    have hm : m.stuck = false := (m.verdict?_eq_none_iff.mp hv).1
    exact absurd (hm.symm.trans hstuck) Bool.false_ne_true
  · rw [hs]
    exact (m.verdict?_eq_none_iff.mp hv).2

theorem isHalting_of_stuck_after (h : m.stuck → m.state.isHalting = false) (n : ℕ)
    (hstuck : (m.after p n).stuck) : (m.after p n).state.isHalting = false := by
  induction n with
  | zero => exact h hstuck
  | succ n ih =>
    rw [after_succ'] at hstuck ⊢
    exact isHalting_of_stuck_step ih hstuck

theorem call_answers (c : Call) {v : Verdict} (h : (m.call p c).2 = some v) (hv : v ≠ .timeout) :
    (m.call p c).1.verdict? = some v := by
  cases c with
  | step => exact verdict?_step h
  | run n =>
    simp only [call, run_eq, Option.some.injEq] at h ⊢
    cases hend : (m.after p (n - m.stepCount)).verdict? with
    | none =>
      rw [hend] at h
      exact absurd h.symm hv
    | some u =>
      rw [hend] at h
      exact congrArg some h

theorem run_run (n n' : ℕ) : (m.run p n).1.run p n' = m.run p (max n n') := by
  cases h : (m.run p n).1.verdict? with
  | some v =>
    have hsame : m.after p (max n n' - m.stepCount) = m.after p (n - m.stepCount) := by
      rw [run_eq] at h
      exact after_of_le_of_halted h (by omega)
    rw [run_of_halted h, run_eq p m (max n n'), hsame]
    rw [run_eq] at h ⊢
    rw [h]
    rfl
  | none =>
    -- nothing went uncounted, so the second bound counts on from where the first run stopped
    rw [run_eq] at h ⊢
    have hsteps : n' - (m.after p (n - m.stepCount)).stepCount + (n - m.stepCount) =
        max n n' - m.stepCount := by
      rw [stepCount_after_of_running h]
      omega
    rw [run_eq, ← after_add, hsteps, run_eq]

end Calls
end Machine

namespace Program

variable {α : Type} [DecidableEq α] [Shown α] {p : Program α} {w : List α} {m₀ m : Machine α}
  {cs : List Machine.Call}

/-- Calls of whatever kind and order drive one run. Two bounded runs are one under the greater
bound; a call that ends the run answers how it halted, and so does every later one. -/
theorem calls_drive_one_run (hm₀ : Machine.start p w = .ok m₀) (hm : m₀.afterCalls p cs = m) :
    (m = m₀.after p m.stepCount ∧ ∀ k < m.stepCount, (m₀.after p k).verdict? = none) ∧
      (∀ n n', (m.run p n).1.run p n' = m.run p (max n n')) ∧
      (∀ c v, (m.call p c).2 = some v → v ≠ .timeout → (m.call p c).1.HaltedWith v) ∧
      ∀ v, m.HaltedWith v → ∀ later c, (m.afterCalls p later).call p c = (m, some v) := by
  have hzero := stepCount_of_start hm₀
  have hstuck₀ : m₀.stuck → m₀.state.isHalting = false := by
    obtain ⟨-, -, rfl⟩ := (p.start_eq_ok_iff w m₀).mp hm₀
    exact fun h => absurd h Bool.false_ne_true
  obtain ⟨n, hn⟩ := m₀.exists_afterCalls_eq_after p cs
  rw [hm] at hn
  subst hn
  obtain ⟨k, hsame, hcount, hrunning⟩ := m₀.exists_counted_steps p n
  rw [hzero, Nat.zero_add] at hcount
  refine ⟨⟨by rw [hcount]; exact hsame, by rw [hcount]; exact hrunning⟩, Machine.run_run, ?_, ?_⟩
  · intro c v hanswer hv
    obtain ⟨i, hi⟩ := (m₀.after p n).exists_call_eq_after p c
    have hstuck := Machine.isHalting_of_stuck_after (p := p) hstuck₀ (i + n)
    rw [Machine.after_add, ← hi] at hstuck
    exact (Machine.verdict?_eq_some_iff hstuck v).mp (Machine.call_answers c hanswer hv)
  · intro v hv later c
    have hstuck := Machine.isHalting_of_stuck_after (p := p) hstuck₀ n
    have hverdict := (Machine.verdict?_eq_some_iff hstuck v).mpr hv
    rw [Machine.afterCalls_of_halted hverdict, Machine.call_of_halted hverdict]

/-- The second run finds its bound passed; the step after it misses a rule, and counts once. -/
theorem deadEnd_driven :
    ∃ m₀ m, Machine.start deadEnd ['a'] = .ok m₀ ∧
      m₀.afterCalls deadEnd [.run 1, .run 0, .step] = m ∧ m.HaltedWith .reject ∧
      m.stepCount = 2 ∧ m = m₀.after deadEnd 2 ∧
      (m.afterCalls deadEnd [.step]).call deadEnd (.run 7) = (m, some .reject) := by
  have hstart : Machine.start deadEnd ['a'] = .ok (.init (.named "q") ['a']) := rfl
  have hcalls : Machine.afterCalls deadEnd (.init (.named "q") ['a'])
    [.run 1, .run 0, .step] = _ := rfl
  obtain ⟨⟨hafter, -⟩, -, -, hlater⟩ := calls_drive_one_run hstart hcalls
  have hstuck := Machine.HaltedWith.withoutRule (m := Machine.afterCalls deadEnd
    (.init (.named "q") ['a']) [.run 1, .run 0, .step]) (by decide +kernel)
  have hsteps : (Machine.afterCalls deadEnd (.init (.named "q") ['a'])
    [.run 1, .run 0, .step]).stepCount = 2 := by decide +kernel
  rw [hsteps] at hafter
  exact ⟨_, _, hstart, hcalls, hstuck, hsteps, hafter, hlater _ hstuck _ _⟩

end Program
end WordMachines
