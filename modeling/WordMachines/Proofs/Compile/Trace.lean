import Mathlib.Tactic
import WordMachines.Proofs.Compile.Simulation
import WordMachines.Proofs.Turing.Trace
import WordMachines.Proofs.Turing.Window

/-!
# The trace of a compiled automaton

The machine of an automaton writes back what it reads, so every snapshot shows the word: with the
head on symbol after symbol, and at the end also the blank cell after the word. The states recorded
are those the automaton goes through, and the last snapshot is that of the verdict.
-/

namespace WordMachines

variable {A : Type}

section Window

variable {t : Tape A} {w : List A} {i : ℕ}

theorem windowEnds_fst_inputCells (hcells : t.cells = inputCells w i) : t.windowEnds.1 = 0 := by
  cases w with
  | nil =>
    have hblank : ∀ k, t.cellAt k = .blank := by
      intro k
      cases k <;> simp [Tape.cellAt, hcells, inputCells]
    rw [Tape.windowEnds_of_blank hblank]
  | cons a w =>
    have hfirst : t.cellAt 0 ≠ .blank := by simp [Tape.cellAt, hcells, inputCells]
    exact Nat.le_zero.mp (t.covers_windowEnds.symbol_mem 0 hfirst).1

/-- The last stored cell has either the last symbol or the head. -/
theorem length_le_windowEnds_snd (hcells : t.cells = inputCells w i) (hhead : t.head = i) :
    t.cells.length ≤ t.windowEnds.2 + 1 := by
  rcases Nat.lt_or_ge i w.length with hi | hi
  · rw [inputCells_of_lt hi] at hcells
    have hlast : t.cellAt (w.length - 1) ≠ .blank := by
      have hlt : w.length - 1 < w.length := by omega
      simp [Tape.cellAt, hcells, hlt]
    have hle := (t.covers_windowEnds.symbol_mem _ hlast).2
    rw [hcells, List.length_map]
    omega
  · have hlength : t.cells.length = w.length + 1 := by
      simp [hcells, inputCells, not_lt.mpr hi]
    have hle := t.head_le_windowEnds_snd
    omega

theorem window_eq_inputCells (hcells : t.cells = inputCells w i) (hhead : t.head = i) :
    t.window = inputCells w i := by
  rw [t.window_eq_cells (windowEnds_fst_inputCells hcells) (length_le_windowEnds_snd hcells hhead),
    hcells]

end Window

variable {S : Type} [DecidableEq S] [DecidableEq A] [Shown S]

namespace ValidDfa

variable (d : ValidDfa S A) {w : List A}

theorem snapshot_machineAfter (hw : w ⊆ d.alphabet) {i : ℕ} (hi : i ≤ w.length) :
    ∃ t, d.quotientRun? (shown d.start) (w.take i) = some t ∧
      (d.machineAfter w i).snapshot = ⟨i, .named t, inputCells w i, i⟩ := by
  have h := d.reading_machineAfter hw hi
  obtain ⟨t, hrun, hstate⟩ := h.state_eq
  have hwindow := window_eq_inputCells h.cells_eq h.head_eq
  have hoffset := Tape.headOffset_eq_head _ (windowEnds_fst_inputCells h.cells_eq)
  refine ⟨t, hrun, ?_⟩
  rw [Machine.snapshot, h.stepCount_eq, hstate, hwindow, hoffset, h.head_eq]

/-- The step that decides changes nothing on the tape. -/
theorem snapshot_decided (hw : w ⊆ d.alphabet) :
    (d.machineAfter w (w.length + 1)).snapshot =
      ⟨w.length + 1, if d.quotientAccepts w then .accept else .reject, inputCells w w.length,
        w.length⟩ := by
  have h := d.reading_machineAfter hw le_rfl
  obtain ⟨t, q, hrun, hstate, hq, -⟩ := h.exists_representative? hw
  rw [List.take_length] at hrun
  have hread := h.read_blank
  have hrule := d.action?_compile_blank hq
  rw [← hstate, ← hread] at hrule
  have hwindow := window_eq_inputCells h.cells_eq h.head_eq
  have hoffset := Tape.headOffset_eq_head _ (windowEnds_fst_inputCells h.cells_eq)
  rw [machineAfter_succ, Machine.step_of_rule h.verdict?_eq_none hrule, Machine.snapshot_perform,
    Tape.write_read, d.quotientAccepts_iff hrun hq, h.stepCount_eq]
  change Snapshot.mk _ _ (d.machineAfter w w.length).tape.window
    (d.machineAfter w w.length).tape.headOffset = _
  rw [hwindow, hoffset, h.head_eq]

theorem running_machineAfter (hw : w ⊆ d.alphabet) :
    ∀ i < w.length + 1, (d.machineAfter w i).verdict? = none := by
  intro i hi
  exact (d.reading_machineAfter hw (Nat.le_of_lt_succ hi)).verdict?_eq_none

theorem trace_machineAfter (hw : w ⊆ d.alphabet) {n : ℕ} (hn : w.length + 1 ≤ n) :
    (d.machineAfter w n).trace.toList =
      (List.range (w.length + 2)).map fun i => (d.machineAfter w i).snapshot := by
  have hend := (d.decided_machineAfter hw le_rfl).verdict_eq
  rw [machineAfter, Machine.after_of_le_of_halted hend hn]
  exact Machine.trace_after_of_running rfl (d.running_machineAfter hw)

theorem getElem?_trace_machineAfter (hw : w ⊆ d.alphabet) {n : ℕ} (hn : w.length + 1 ≤ n) {i : ℕ}
    (hi : i ≤ w.length + 1) :
    (d.machineAfter w n).trace[i]? = some (d.machineAfter w i).snapshot := by
  have hend := (d.decided_machineAfter hw le_rfl).verdict_eq
  rw [machineAfter, Machine.after_of_le_of_halted hend hn]
  exact Machine.getElem?_trace_after_of_running rfl (d.running_machineAfter hw) hi

theorem entry_of_reading (hd : ∀ q ∈ d.states, ∀ r ∈ d.states, shown q = shown r → q = r)
    (hw : w ⊆ d.alphabet) {n : ℕ} (hn : w.length + 1 ≤ n) {i : ℕ} (hi : i ≤ w.length) :
    ∃ q, d.run? d.start (w.take i) = some q ∧
      (d.machineAfter w n).trace[i]? = some ⟨i, .of q, inputCells w i, i⟩ := by
  have hsub : w.take i ⊆ d.alphabet := fun a ha => hw (List.mem_of_mem_take ha)
  obtain ⟨t, hquotient, hsnapshot⟩ := d.snapshot_machineAfter hw hi
  obtain ⟨q, -, hrun⟩ := d.wellFormed.exists_run? hsub d.wellFormed.start_mem
  rw [d.wellFormed.quotientRun?_eq hd hsub, hrun] at hquotient
  obtain rfl : shown q = t := Option.some.inj hquotient
  refine ⟨q, hrun, ?_⟩
  rw [d.getElem?_trace_machineAfter hw hn (by omega), hsnapshot]
  rfl

/-- With distinct texts the trace of a run that is not cut off replays the run of the automaton:
a snapshot for each part of the word that it has read, and one for the verdict. -/
theorem trace_replays [Shown A]
    (hd : ∀ q ∈ d.states, ∀ r ∈ d.states, shown q = shown r → q = r) (hw : w ⊆ d.alphabet) {n : ℕ}
    (hn : w.length + 1 ≤ n) :
    ∃ report, d.compile.run w n = .ok report ∧ report.trace.size = w.length + 2 ∧
      (∀ i < w.length, ∃ q, d.run? d.start (w.take i) = some q ∧
        report.trace[i]? = some ⟨i, .of q, w.map .symbol, i⟩) ∧
      (∃ q, d.run? d.start w = some q ∧ report.trace[w.length]? =
        some ⟨w.length, .of q, w.map .symbol ++ [.blank], w.length⟩) ∧
      report.trace[w.length + 1]? = some ⟨w.length + 1, if d.accepts w then .accept else .reject,
        w.map .symbol ++ [.blank], w.length⟩ := by
  refine ⟨_, d.run_compile_eq hw n, ?_, ?_, ?_, ?_⟩
  · have hsize := congrArg List.length (d.trace_machineAfter hw hn)
    rw [Array.length_toList, List.length_map, List.length_range] at hsize
    exact hsize
  · intro i hi
    obtain ⟨q, hrun, hentry⟩ := d.entry_of_reading hd hw hn hi.le
    rw [inputCells_of_lt hi] at hentry
    exact ⟨q, hrun, hentry⟩
  · obtain ⟨q, hrun, hentry⟩ := d.entry_of_reading hd hw hn le_rfl
    rw [List.take_length] at hrun
    rw [inputCells_length] at hentry
    exact ⟨q, hrun, hentry⟩
  · have hentry := d.getElem?_trace_machineAfter hw hn le_rfl
    rw [d.snapshot_decided hw, d.wellFormed.quotientAccepts_eq hd hw, inputCells_length] at hentry
    exact hentry

/-- The only symbol reads like the blank; words of even length are accepted. -/
def underscores : ValidDfa UInt32 Char where
  states := [0, 1]
  alphabet := ['_']
  transitions := .ofTriples [(0, '_', 1), (1, '_', 0)]
  start := 0
  accept := [0]
  wellFormed := (Dfa.firstDefect?_eq_none_iff _).mp (by decide +kernel)

theorem underscores_replayed :
    (∀ q ∈ underscores.states, ∀ r ∈ underscores.states, shown q = shown r → q = r) ∧
      ['_'] ⊆ underscores.alphabet ∧ ['_'].length + 1 ≤ 2 ∧
      ∃ report, underscores.compile.run ['_'] 2 = .ok report ∧ report.trace.size = 3 ∧
        report.trace[0]? = some ⟨0, .named "0", [.symbol '_'], 0⟩ ∧
        report.trace[1]? = some ⟨1, .named "1", [.symbol '_', .blank], 1⟩ ∧
        report.trace[2]? = some ⟨2, .reject, [.symbol '_', .blank], 1⟩ := by
  have htexts : ∀ q ∈ underscores.states, ∀ r ∈ underscores.states, shown q = shown r → q = r :=
    fun _ _ _ _ h => shown_uint32_injective h
  have hw : ['_'] ⊆ underscores.alphabet := by decide +kernel
  have hn : ['_'].length + 1 ≤ 2 := by decide
  obtain ⟨report, hrun, hsize, hfirst, ⟨q, hq, hlast⟩, hverdict⟩ :=
    underscores.trace_replays htexts hw hn
  obtain ⟨p, hp, hentry⟩ := hfirst 0 (by decide)
  obtain rfl : (0 : UInt32) = p := Option.some.inj hp
  obtain rfl : (1 : UInt32) = q := Option.some.inj (Eq.trans (by decide +kernel) hq)
  have hrejected : underscores.accepts ['_'] = false := by decide +kernel
  rw [hrejected] at hverdict
  exact ⟨htexts, hw, hn, report, hrun, hsize, hentry, hlast, hverdict⟩

end ValidDfa
end WordMachines
