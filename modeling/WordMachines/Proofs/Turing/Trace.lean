import Mathlib.Tactic
import WordMachines.Proofs.Turing.Calls

/-!
# What the trace records

As long as no verdict has stopped a machine, its trace holds one snapshot for each time from the
outset on, in order. Calls that come after a verdict add nothing, so the trace is a log of the steps
counted: every entry stays as it is, and the last shows the machine of now.
-/

namespace WordMachines

namespace Machine

variable {α : Type}

theorem snapshot_perform (m : Machine α) (r : Action α) :
    (m.perform r).snapshot = ⟨m.stepCount + 1, r.next, ((m.tape.write r.write).move r.move).window,
      ((m.tape.write r.write).move r.move).headOffset⟩ := rfl

theorem snapshot_giveUp (m : Machine α) :
    m.giveUp.snapshot = { m.snapshot with step := m.stepCount + 1 } := rfl

theorem trace_giveUp (m : Machine α) :
    m.giveUp.trace = m.trace.push { m.snapshot with step := m.stepCount + 1 } := rfl

variable [DecidableEq α] {p : Program α} {m : Machine α}

theorem trace_step_of_running (h : m.verdict? = none) :
    (m.step p).1.trace = m.trace.push (m.step p).1.snapshot := by
  rcases step_cases p m with ⟨v, hv, -⟩ | ⟨r, -, -, hs⟩ | ⟨-, -, hs⟩
  · simp [h] at hv
  · rw [hs]
    rfl
  · rw [hs]
    rfl

/-- The last step may bring a verdict; none of those before it has done so. -/
theorem trace_after_of_running (hm : m.trace.toList = [m.snapshot]) {n : ℕ}
    (h : ∀ i < n, (m.after p i).verdict? = none) :
    (m.after p n).trace.toList = (List.range (n + 1)).map fun i => (m.after p i).snapshot := by
  induction n with
  | zero => exact hm
  | succ n ih =>
    have hbefore := ih fun i hi => h i (hi.trans n.lt_succ_self)
    rw [after_succ', trace_step_of_running (h n n.lt_succ_self), Array.toList_push, hbefore,
      List.range_succ (n := n + 1), List.map_append, List.map_singleton, after_succ']

theorem getElem?_trace_after_of_running (hm : m.trace.toList = [m.snapshot]) {n : ℕ}
    (h : ∀ i < n, (m.after p i).verdict? = none) {i : ℕ} (hi : i ≤ n) :
    (m.after p n).trace[i]? = some (m.after p i).snapshot := by
  rw [← Array.getElem?_toList, trace_after_of_running hm h, List.getElem?_map,
    List.getElem?_range (Nat.lt_succ_of_le hi)]
  rfl

variable (p) in
theorem trace_prefix_afterCalls (m : Machine α) (cs : List Call) :
    m.trace.toList <+: (m.afterCalls p cs).trace.toList := by
  obtain ⟨n, hn⟩ := m.exists_afterCalls_eq_after p cs
  rw [hn]
  exact trace_prefix_after p m n.zero_le

/-- Nothing but a missing rule leaves a machine stuck that has not been so. -/
theorem step_of_stuck (h : m.verdict? = none) (hstuck : (m.step p).1.stuck) :
    (m.step p).1 = m.giveUp := by
  rcases step_cases p m with ⟨v, hv, -⟩ | ⟨r, -, -, hs⟩ | ⟨-, -, hs⟩
  · simp [h] at hv
  · have hm : m.stuck = false := (m.verdict?_eq_none_iff.mp h).1
    rw [hs] at hstuck
    exact absurd (hm.symm.trans hstuck) Bool.false_ne_true
  · rw [hs]

theorem trace_afterCalls_of_stuck (h : m.stuck) (cs : List Call) :
    (m.afterCalls p cs).trace = m.trace := by
  have hverdict : m.verdict? = some .reject := by simp [verdict?, h]
  rw [afterCalls_of_halted hverdict]

/-- Nothing has been counted, and the trace shows the outset only. -/
structure Fresh (m : Machine α) : Prop where
  stepCount_eq : m.stepCount = 0
  trace_eq : m.trace.toList = [m.snapshot]
  stuck_eq : m.stuck = false

omit [DecidableEq α] in
theorem fresh_init (start : MachineState) (w : List α) : (init start w).Fresh :=
  ⟨rfl, rfl, rfl⟩

variable {m₀ : Machine α} {i : ℕ}

namespace OnRun

theorem stepCount_after (h : OnRun p m₀ m) (hm₀ : m₀.Fresh) (hi : i ≤ m.stepCount) :
    (m₀.after p i).stepCount = i := by
  rcases hi.lt_or_eq with hlt | rfl
  · rw [stepCount_after_of_running (h.running i hlt), hm₀.stepCount_eq, Nat.zero_add]
  · rw [h.after_eq]

theorem getElem?_trace (h : OnRun p m₀ m) (hm₀ : m₀.Fresh) (hi : i ≤ m.stepCount) :
    m.trace[i]? = some (m₀.after p i).snapshot := by
  have hentry := getElem?_trace_after_of_running hm₀.trace_eq h.running hi
  rwa [h.after_eq] at hentry

theorem size_trace (h : OnRun p m₀ m) (hm₀ : m₀.Fresh) : m.trace.size = m.stepCount + 1 := by
  have hlength := congrArg List.length (trace_after_of_running hm₀.trace_eq h.running)
  rwa [h.after_eq, List.length_map, List.length_range] at hlength

theorem step_of_getElem? (h : OnRun p m₀ m) (hm₀ : m₀.Fresh) {s : Snapshot α}
    (hs : m.trace[i]? = some s) : s.step = i := by
  obtain ⟨hlt, -⟩ := Array.getElem?_eq_some_iff.mp hs
  have hi : i ≤ m.stepCount := by
    rw [h.size_trace hm₀] at hlt
    omega
  obtain rfl := Option.some.inj ((h.getElem?_trace hm₀ hi).symm.trans hs)
  exact h.stepCount_after hm₀ hi

theorem back?_trace (h : OnRun p m₀ m) (hm₀ : m₀.Fresh) : m.trace.back? = some m.snapshot := by
  have hlast := h.getElem?_trace hm₀ le_rfl
  rw [h.after_eq] at hlast
  rw [Array.back?_eq_getElem?, h.size_trace hm₀]
  exact hlast

/-- The step that found no rule was the last one counted. -/
theorem exists_of_stuck (h : OnRun p m₀ m) (hm₀ : m₀.Fresh) (hstuck : m.stuck) :
    ∃ i, ∃ s : Snapshot α, m.stepCount = i + 1 ∧ m.trace[i]? = some s ∧
      m.trace[i + 1]? = some { s with step := i + 1 } := by
  cases hk : m.stepCount with
  | zero =>
    have hsame := h.after_eq
    rw [hk, after_zero] at hsame
    rw [← hsame, hm₀.stuck_eq] at hstuck
    exact absurd hstuck Bool.false_ne_true
  | succ i =>
    have hlt : i < m.stepCount := by omega
    have hstep : ((m₀.after p i).step p).1 = m := by
      rw [← after_succ', ← hk]
      exact h.after_eq
    have hgiveUp := step_of_stuck (h.running i hlt) (hstep ▸ hstuck)
    have hlast := h.getElem?_trace hm₀ hk.ge
    rw [after_succ', hgiveUp, snapshot_giveUp, h.stepCount_after hm₀ hlt.le] at hlast
    exact ⟨i, _, rfl, h.getElem?_trace hm₀ hlt.le, hlast⟩

end OnRun
end Machine

namespace Program

variable {α : Type} [DecidableEq α] [Shown α] {p : Program α} {w : List α} {m₀ m : Machine α}
  {cs : List Machine.Call}

/-- The trace holds a snapshot for each number of steps and is only added to; a missing rule adds
one entry, and none follows. -/
theorem trace_logs_steps (hm₀ : Machine.start p w = .ok m₀) (hm : m₀.afterCalls p cs = m) :
    m.trace.size = m.stepCount + 1 ∧
      (∀ i (s : Snapshot α), m.trace[i]? = some s → s.step = i) ∧
      (m₀.after p m.stepCount = m ∧ ∀ i ≤ m.stepCount, (m₀.after p i).stepCount = i ∧
        m.trace[i]? = some (m₀.after p i).snapshot) ∧
      m.trace.back? = some m.snapshot ∧
      (∀ later, m.trace.toList <+: (m.afterCalls p later).trace.toList) ∧
      (m.verdict? = none → p.action? m.state m.tape.read = none →
        (m.step p).1.trace = m.trace.push { m.snapshot with step := m.stepCount + 1 } ∧
          ∀ later, ((m.step p).1.afterCalls p later).trace = (m.step p).1.trace) ∧
      (m.stuck → (∃ i, ∃ s : Snapshot α, m.stepCount = i + 1 ∧ m.trace[i]? = some s ∧
          m.trace[i + 1]? = some { s with step := i + 1 }) ∧
        ∀ later, (m.afterCalls p later).trace = m.trace) := by
  have hfresh : m₀.Fresh := by
    rw [((p.start_eq_ok_iff w m₀).mp hm₀).2.2]
    exact Machine.fresh_init _ _
  have hrun := Machine.onRun_afterCalls p hfresh.stepCount_eq cs
  rw [hm] at hrun
  refine ⟨hrun.size_trace hfresh, ?_, ⟨hrun.after_eq, ?_⟩, hrun.back?_trace hfresh,
    m.trace_prefix_afterCalls p, ?_, ?_⟩
  · intro i s
    exact hrun.step_of_getElem? hfresh
  · intro i hi
    exact ⟨hrun.stepCount_after hfresh hi, hrun.getElem?_trace hfresh hi⟩
  · intro hverdict hrule
    rw [Machine.step_of_no_rule hverdict hrule]
    exact ⟨m.trace_giveUp, Machine.trace_afterCalls_of_stuck rfl⟩
  · intro hstuck
    exact ⟨hrun.exists_of_stuck hfresh hstuck, Machine.trace_afterCalls_of_stuck hstuck⟩

/-- The second step misses a rule; the calls after it add nothing. -/
theorem deadEnd_logged :
    ∃ m₀ m m', Machine.start deadEnd ['a'] = .ok m₀ ∧ m₀.afterCalls deadEnd [.run 1] = m ∧
      m.verdict? = none ∧ deadEnd.action? m.state m.tape.read = none ∧
      (m.step deadEnd).1.trace = m.trace.push { m.snapshot with step := m.stepCount + 1 } ∧
      m₀.afterCalls deadEnd [.run 1, .step, .run 9] = m' ∧ m'.stuck ∧ m'.stepCount = 2 ∧
      m'.trace.size = 3 ∧ m'.trace[1]? = some (m₀.after deadEnd 1).snapshot ∧
      ∃ s : Snapshot Char, m'.trace[1]? = some s ∧ m'.trace[2]? = some { s with step := 2 } ∧
        (m'.afterCalls deadEnd [.run 5]).trace = m'.trace := by
  obtain ⟨m₀, hm₀⟩ : ∃ m₀, Machine.start deadEnd ['a'] = .ok m₀ := ⟨_, rfl⟩
  obtain ⟨m, hm⟩ : ∃ m, m₀.afterCalls deadEnd [.run 1] = m := ⟨_, rfl⟩
  obtain ⟨m', hm'⟩ : ∃ m', m₀.afterCalls deadEnd [.run 1, .step, .run 9] = m' := ⟨_, rfl⟩
  have hinit : m₀ = .init (.named "q") ['a'] := (Except.ok.inj hm₀).symm
  have hrunning : m.verdict? = none ∧ deadEnd.action? m.state m.tape.read = none := by
    rw [← hm, hinit]
    decide +kernel
  have hend : m'.stuck ∧ m'.stepCount = 2 := by
    rw [← hm', hinit]
    decide +kernel
  obtain ⟨hstuck, hcount⟩ := hend
  obtain ⟨-, -, -, -, -, hmissing, -⟩ := trace_logs_steps hm₀ hm
  obtain ⟨hsize, -, ⟨-, hentries⟩, -, -, -, hlast⟩ := trace_logs_steps hm₀ hm'
  obtain ⟨⟨i, s, hi, hs, hnext⟩, hlater⟩ := hlast hstuck
  obtain rfl : i = 1 := by omega
  exact ⟨m₀, m, m', hm₀, hm, hrunning.1, hrunning.2, (hmissing hrunning.1 hrunning.2).1, hm', hstuck,
    hcount, by omega, (hentries 1 (by omega)).2, s, hs, hnext, hlater _⟩

end Program
end WordMachines
