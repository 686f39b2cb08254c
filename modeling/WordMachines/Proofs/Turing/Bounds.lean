import Mathlib.Tactic
import WordMachines.Proofs.Turing.Steps

/-!
# Raising the bound

The snapshots a machine has taken stay as they are while it goes on, and a step is counted just if
no verdict stood before it. So a machine without a verdict has counted all its steps, and a run that
a lower bound cuts off is the beginning of the run that a higher one allows.
-/

namespace WordMachines
namespace Machine

variable {α : Type} [DecidableEq α] (p : Program α) (m : Machine α)

theorem trace_prefix_step : m.trace.toList <+: (m.step p).1.trace.toList := by
  rcases step_cases p m with ⟨v, -, hs⟩ | ⟨r, -, -, hs⟩ | ⟨-, -, hs⟩
  · rw [hs]
  · rw [hs]
    exact ⟨_, (Array.toList_push ..).symm⟩
  · rw [hs]
    exact ⟨_, (Array.toList_push ..).symm⟩

theorem trace_prefix_after {k n : ℕ} (h : k ≤ n) :
    (m.after p k).trace.toList <+: (m.after p n).trace.toList := by
  induction n, h using Nat.le_induction with
  | base => exact List.prefix_rfl
  | succ n _ ih =>
    rw [after_succ']
    exact ih.trans (trace_prefix_step p _)

variable {p m}

theorem stepCount_step_of_running (h : m.verdict? = none) :
    (m.step p).1.stepCount = m.stepCount + 1 := by
  rcases step_cases p m with ⟨v, hv, -⟩ | ⟨r, -, -, hs⟩ | ⟨-, -, hs⟩
  · simp [h] at hv
  · rw [hs]
    rfl
  · rw [hs]
    rfl

theorem size_trace_step (h : m.trace.size = m.stepCount + 1) :
    (m.step p).1.trace.size = (m.step p).1.stepCount + 1 := by
  rcases step_cases p m with ⟨v, -, hs⟩ | ⟨r, -, -, hs⟩ | ⟨-, -, hs⟩
  · rw [hs]
    exact h
  · rw [hs]
    exact (Array.size_push ..).trans (congrArg (· + 1) h)
  · rw [hs]
    exact (Array.size_push ..).trans (congrArg (· + 1) h)

theorem size_trace_after (h : m.trace.size = m.stepCount + 1) (n : ℕ) :
    (m.after p n).trace.size = (m.after p n).stepCount + 1 := by
  induction n with
  | zero => exact h
  | succ n ih =>
    rw [after_succ']
    exact size_trace_step ih

theorem verdict?_eq_none_of_le {k n : ℕ} (h : (m.after p n).verdict? = none) (hkn : k ≤ n) :
    (m.after p k).verdict? = none := by
  cases hk : (m.after p k).verdict? with
  | none => rfl
  | some v =>
    rw [after_of_le_of_halted hk hkn, hk] at h
    cases h

theorem stepCount_after_of_running {n : ℕ} (h : (m.after p n).verdict? = none) :
    (m.after p n).stepCount = m.stepCount + n := by
  induction n with
  | zero => rfl
  | succ n ih =>
    have hrunning := verdict?_eq_none_of_le h n.le_succ
    rw [after_succ', stepCount_step_of_running hrunning, ih hrunning]
    rfl

variable (p m) in
theorem stepCount_after_le (n : ℕ) : (m.after p n).stepCount ≤ m.stepCount + n := by
  induction n with
  | zero => exact le_rfl
  | succ n ih =>
    cases h : (m.after p n).verdict? with
    | none =>
      rw [after_succ', stepCount_step_of_running h]
      omega
    | some v =>
      rw [after_of_le_of_halted h n.le_succ]
      omega

end Machine

namespace Program

variable {α : Type} [DecidableEq α] [Shown α] (p : Program α)

theorem run_eq_error_iff (w : List α) (n : ℕ) (e : StartError) :
    p.run w n = .error e ↔ Machine.start p w = .error e := by
  cases h : Machine.start p w with
  | error e' =>
    have hrun : p.run w n = .error e' := by
      rw [run, h]
      rfl
    simp [hrun]
  | ok m => simp [run_of_start h]

/-- At some time the run on `w` has counted `n` steps, and it has neither entered a halting state
nor missed a rule. -/
def UndecidedAt (w : List α) (n : ℕ) : Prop :=
  ∃ m k, Machine.start p w = .ok m ∧ (m.after p k).stepCount = n ∧
    (m.after p k).state.isHalting = false ∧ (m.after p k).stuck = false

variable {p} {w : List α} {m : Machine α}

theorem stepCount_of_undecided (h : Machine.start p w = .ok m) {n : ℕ}
    (hn : (m.after p n).verdict? = none) : (m.after p n).stepCount = n := by
  rw [Machine.stepCount_after_of_running hn, stepCount_of_start h, Nat.zero_add]

theorem size_trace_of_undecided (h : Machine.start p w = .ok m) {n : ℕ}
    (hn : (m.after p n).verdict? = none) : (m.after p n).trace.size = n + 1 := by
  have hm : m.trace.size = m.stepCount + 1 := by
    rw [((p.start_eq_ok_iff w m).mp h).2.2]
    rfl
  rw [Machine.size_trace_after hm, stepCount_of_undecided h hn]

/-- What is traced under a higher bound begins with what was traced without a verdict. -/
theorem trace_eq_take (h : Machine.start p w = .ok m) {n n' : ℕ}
    (hn : (m.after p n).verdict? = none) (hnn' : n ≤ n') :
    (m.after p n).trace.toList = (m.after p n').trace.toList.take (n + 1) := by
  have htake := List.prefix_iff_eq_take.mp (Machine.trace_prefix_after p m hnn')
  rwa [Array.length_toList, size_trace_of_undecided h hn] at htake

theorem undecidedAt_iff (h : Machine.start p w = .ok m) (n : ℕ) :
    p.UndecidedAt w n ↔ (m.after p n).verdict? = none := by
  constructor
  · -- without a verdict no step went uncounted, so the count tells the time
    rintro ⟨m', k, hm', hn, hstate, hstuck⟩
    obtain rfl := Except.ok.inj (h.symm.trans hm')
    have hk := (Machine.verdict?_eq_none_iff _).mpr ⟨hstuck, hstate⟩
    rw [← hn, stepCount_of_undecided h hk]
    exact hk
  · intro hn
    obtain ⟨hstuck, hstate⟩ := (Machine.verdict?_eq_none_iff _).mp hn
    exact ⟨m, n, h, stepCount_of_undecided h hn, hstate, hstuck⟩

theorem run_eq_of_decided (h : Machine.start p w = .ok m) {n n' : ℕ} {v : Verdict}
    (hn : (m.after p n).verdict? = some v) (hnn' : n ≤ n') :
    p.run w n' = .ok ((m.after p n).report v) := by
  rw [run_of_start h, Machine.after_of_le_of_halted hn hnn', hn]
  rfl

theorem run_eq_of_undecided (h : Machine.start p w = .ok m) {n : ℕ}
    (hn : (m.after p n).verdict? = none) :
    p.run w n = .ok ((m.after p n).report .timeout) := by
  rw [run_of_start h, hn]
  rfl

/-- A higher bound changes nothing in a run with a verdict, and goes on with a run without. -/
theorem run_raise_bound {n n' : ℕ} (hn : n ≤ n') (w : List α) :
    (∀ e, p.run w n = .error e ↔ p.run w n' = .error e) ∧
      ∀ r, p.run w n = .ok r →
        r.stepCount ≤ n ∧
        (r.verdict ≠ .timeout → p.run w n' = .ok r) ∧
        (r.verdict = .timeout → r.stepCount = n ∧ r.trace.size = n + 1 ∧
          ∃ r', p.run w n' = .ok r' ∧ r.trace.toList = r'.trace.toList.take (n + 1)) ∧
        (r.verdict = .timeout ↔ p.UndecidedAt w n) := by
  constructor
  · intro e
    rw [run_eq_error_iff, run_eq_error_iff]
  · intro r hr
    cases hm : Machine.start p w with
    | error e =>
      rw [(p.run_eq_error_iff w n e).mpr hm] at hr
      cases hr
    | ok m =>
      have hle := m.stepCount_after_le p n
      rw [stepCount_of_start hm, Nat.zero_add] at hle
      rw [undecidedAt_iff hm]
      cases hv : (m.after p n).verdict? with
      | some v =>
        have hv' : v ≠ .timeout := by
          rintro rfl
          exact Machine.verdict?_ne_timeout _ hv
        obtain rfl := Except.ok.inj ((run_eq_of_decided hm hv le_rfl).symm.trans hr)
        refine ⟨hle, ?_, ?_, iff_of_false hv' (Option.some_ne_none v)⟩
        · intro _
          exact run_eq_of_decided hm hv hn
        · intro htimeout
          exact absurd htimeout hv'
      | none =>
        obtain rfl := Except.ok.inj ((run_eq_of_undecided hm hv).symm.trans hr)
        refine ⟨hle, ?_, ?_, iff_of_true rfl rfl⟩
        · intro hdecided
          exact absurd rfl hdecided
        · intro _
          exact ⟨stepCount_of_undecided hm hv, size_trace_of_undecided hm hv, _,
            run_of_start hm n', trace_eq_take hm hv hn⟩

/-- One rule, into a state without any. -/
def deadEnd : Program Char :=
  (new "dead-end" (.named "q")).addRule (.named "q") (.symbol 'a')
    ⟨.symbol 'a', .right, .named "dead"⟩

theorem deadEnd_cut_off :
    1 ≤ 2 ∧ ∃ r r', deadEnd.run ['a'] 1 = .ok r ∧ r.verdict = .timeout ∧
      deadEnd.run ['a'] 2 = .ok r' ∧ r'.verdict = .reject ∧
      r.trace.toList = r'.trace.toList.take 2 := by
  have hrun : deadEnd.run ['a'] 1 = .ok _ := rfl
  obtain ⟨-, -, hcut, -⟩ := (run_raise_bound (Nat.le_succ 1) ['a']).2 _ hrun
  obtain ⟨-, -, r', hrun', htrace⟩ := hcut (by decide +kernel)
  have hreject : (deadEnd.run ['a'] 2).toOption.map Report.verdict = some .reject := by
    decide +kernel
  rw [hrun'] at hreject
  exact ⟨by decide, _, r', hrun, by decide +kernel, hrun', Option.some.inj hreject, htrace⟩

end Program
end WordMachines
