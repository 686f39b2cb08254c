import Mathlib.Tactic
import WordMachines.Catalog
import WordMachines.Proofs.Compile.Quotient
import WordMachines.Proofs.Turing.Steps

/-!
# Compiled machines at work

After `i` steps on a word that long or longer, the machine of an automaton stands on cell `i`, the
tape is as it was, and its state is the text to which the first `i` symbols lead in the quotient.
The step after that decides. If states that read alike are equal, this is the run of the automaton
itself.
-/

namespace WordMachines

section Input

variable {A : Type}

/-- The cell after the word is stored once the head has come to it. -/
def inputCells (w : List A) (i : ℕ) : List (Cell A) :=
  w.map .symbol ++ if i < w.length then [] else [.blank]

theorem inputCells_of_lt {w : List A} {i : ℕ} (h : i < w.length) :
    inputCells w i = w.map .symbol := by
  simp [inputCells, h]

theorem inputCells_length (w : List A) : inputCells w w.length = w.map .symbol ++ [.blank] := by
  simp [inputCells]

theorem cells_ofWord (w : List A) : (Tape.ofWord w).cells = inputCells w 0 := by
  cases w <;> simp [Tape.ofWord, inputCells]

end Input

variable {S A : Type} [DecidableEq S] [DecidableEq A] [Shown S]

/-- The machine of `d` with `i` symbols of `w` behind it. -/
structure Reading (d : Dfa S A) (w : List A) (i : ℕ) (m : Machine A) : Prop where
  state_eq : ∃ t, d.quotientRun? (shown d.start) (w.take i) = some t ∧ m.state = .named t
  cells_eq : m.tape.cells = inputCells w i
  head_eq : m.tape.head = i
  stepCount_eq : m.stepCount = i
  stuck_eq : m.stuck = false

/-- The machine of `d` with a verdict on `w`. -/
structure Decided (d : Dfa S A) (w : List A) (m : Machine A) : Prop where
  verdict_eq : m.verdict? = some (if d.quotientAccepts w then .accept else .reject)
  cells_eq : m.tape.cells = inputCells w w.length
  stepCount_eq : m.stepCount = w.length + 1
  stuck_eq : m.stuck = false

theorem reading_init (d : Dfa S A) (w : List A) : Reading d w 0 (.init (.of d.start) w) where
  state_eq := ⟨shown d.start, rfl, rfl⟩
  cells_eq := cells_ofWord w
  head_eq := Tape.head_ofWord w
  stepCount_eq := rfl
  stuck_eq := rfl

namespace Reading

variable {d : ValidDfa S A} {w : List A} {i : ℕ} {m : Machine A}

theorem verdict?_eq_none (h : Reading d.toDfa w i m) : m.verdict? = none := by
  obtain ⟨t, -, hstate⟩ := h.state_eq
  simp [Machine.verdict?, h.stuck_eq, hstate]

theorem read_symbol (h : Reading d.toDfa w i m) (hi : i < w.length) :
    m.tape.read = .symbol w[i] := by
  apply Tape.read_eq_of_getElem?
  rw [h.cells_eq, h.head_eq, inputCells_of_lt hi, List.getElem?_map, List.getElem?_eq_getElem hi]
  rfl

theorem read_blank (h : Reading d.toDfa w w.length m) : m.tape.read = .blank := by
  apply Tape.read_eq_of_getElem?
  rw [h.cells_eq, h.head_eq, inputCells_length]
  simp

/-- The text reached so far has a representative, whose rules the machine follows. -/
theorem exists_representative? (h : Reading d.toDfa w i m) (hw : w ⊆ d.alphabet) :
    ∃ t q, d.quotientRun? (shown d.start) (w.take i) = some t ∧ m.state = .named t ∧
      d.representative? t = some q ∧ q ∈ d.states := by
  obtain ⟨t, hrun, hstate⟩ := h.state_eq
  obtain ⟨p, hp, hp_run⟩ :=
    d.wellFormed.exists_quotientRun? fun a ha => hw (List.mem_of_mem_take ha)
  obtain rfl : t = shown p := Option.some.inj (hrun.symm.trans hp_run)
  obtain ⟨q, hq⟩ := d.exists_representative? hp
  exact ⟨shown p, q, hrun, hstate, hq, (d.representative?_eq_some hq).1⟩

/-- A symbol is written back and the head goes on to the next cell. -/
theorem next (h : Reading d.toDfa w i m) (hw : w ⊆ d.alphabet) (hi : i < w.length) :
    ∃ r, d.compile.action? m.state m.tape.read = some r ∧
      Reading d.toDfa w (i + 1) (m.perform r) := by
  obtain ⟨t, q, hrun, hstate, hq, hmem⟩ := h.exists_representative? hw
  have ha : w[i] ∈ d.alphabet := hw (List.getElem_mem hi)
  obtain ⟨u, -, hu⟩ := d.wellFormed.total q hmem _ ha
  have hread := h.read_symbol hi
  refine ⟨⟨.symbol w[i], .right, .of u⟩, ?_, ?_⟩
  · rw [hstate, hread]
    exact d.action?_compile_symbol hq ha hu
  · have htape : m.tape.write (.symbol w[i]) = m.tape := by rw [← hread, Tape.write_read]
    refine ⟨⟨shown u, ?_, rfl⟩, ?_, ?_, congrArg (· + 1) h.stepCount_eq, h.stuck_eq⟩
    · rw [List.take_succ_eq_append_getElem hi, Dfa.quotientRun?_concat, hrun, Option.bind_some,
        Dfa.quotientNext?_eq hq, hu]
      rfl
    · change ((m.tape.write (.symbol w[i])).move .right).cells = _
      rw [htape, Tape.cells_move_right, h.cells_eq, h.head_eq, inputCells_of_lt hi]
      simp [inputCells]
    · change ((m.tape.write (.symbol w[i])).move .right).head = _
      rw [htape, Tape.head_move_right, h.head_eq]

/-- On the blank the machine halts as the representative of its text says. -/
theorem decide (h : Reading d.toDfa w w.length m) (hw : w ⊆ d.alphabet) :
    ∃ r, d.compile.action? m.state m.tape.read = some r ∧ Decided d.toDfa w (m.perform r) := by
  obtain ⟨t, q, hrun, hstate, hq, -⟩ := h.exists_representative? hw
  rw [List.take_length] at hrun
  have hread := h.read_blank
  refine ⟨⟨.blank, .stay, if d.isAccepting q then .accept else .reject⟩, ?_, ?_⟩
  · rw [hstate, hread]
    exact d.action?_compile_blank hq
  · refine ⟨?_, ?_, congrArg (· + 1) h.stepCount_eq, h.stuck_eq⟩
    · have haccepts := d.quotientAccepts_iff hrun hq
      cases hacc : d.isAccepting q <;>
        simp [Machine.verdict?, Machine.perform, Machine.record, h.stuck_eq, haccepts, hacc]
    · change (m.tape.write .blank).cells = _
      rw [← hread, Tape.write_read, h.cells_eq]

end Reading

namespace ValidDfa

variable (d : ValidDfa S A) {w : List A}

theorem start_compile_eq_ok [Shown A] (hw : w ⊆ d.alphabet) :
    Machine.start d.compile w = .ok (.init (.of d.start) w) := by
  rw [Program.start_eq_ok_iff, start_compile]
  refine ⟨d.hasState_compile d.wellFormed.start_mem, ?_, rfl⟩
  intro a ha
  exact d.takes_compile (hw ha)

/-- The machine of `d` after `i` steps on `w`. -/
def machineAfter (w : List A) (i : ℕ) : Machine A :=
  (Machine.init (.of d.start) w).after d.compile i

theorem machineAfter_succ (w : List A) (i : ℕ) :
    d.machineAfter w (i + 1) = ((d.machineAfter w i).step d.compile).1 :=
  Machine.after_succ' _ i _

theorem run_compile_eq [Shown A] (hw : w ⊆ d.alphabet) (n : ℕ) :
    d.compile.run w n = .ok ((d.machineAfter w n).report
      ((d.machineAfter w n).verdict?.getD .timeout)) :=
  Program.run_of_start (d.start_compile_eq_ok hw) n

theorem reading_machineAfter (hw : w ⊆ d.alphabet) {i : ℕ} (hi : i ≤ w.length) :
    Reading d.toDfa w i (d.machineAfter w i) := by
  induction i with
  | zero => exact reading_init d.toDfa w
  | succ i ih =>
    have h := ih (by omega)
    obtain ⟨r, hr, hnext⟩ := h.next hw (by omega)
    rw [machineAfter_succ, Machine.step_of_rule h.verdict?_eq_none hr]
    exact hnext

theorem exists_rule_machineAfter (hw : w ⊆ d.alphabet) {i : ℕ} (hi : i ≤ w.length) :
    ∃ r, d.compile.action? (d.machineAfter w i).state (d.machineAfter w i).tape.read = some r := by
  have h := d.reading_machineAfter hw hi
  rcases hi.lt_or_eq with hlt | rfl
  · obtain ⟨r, hr, -⟩ := h.next hw hlt
    exact ⟨r, hr⟩
  · obtain ⟨r, hr, -⟩ := h.decide hw
    exact ⟨r, hr⟩

theorem decided_machineAfter (hw : w ⊆ d.alphabet) {n : ℕ} (hn : w.length + 1 ≤ n) :
    Decided d.toDfa w (d.machineAfter w n) := by
  have h := d.reading_machineAfter hw le_rfl
  obtain ⟨r, hr, hdecided⟩ := h.decide hw
  have hlast : d.machineAfter w (w.length + 1) = (d.machineAfter w w.length).perform r := by
    rw [machineAfter_succ, Machine.step_of_rule h.verdict?_eq_none hr]
  rw [← hlast] at hdecided
  rw [machineAfter, Machine.after_of_le_of_halted hdecided.verdict_eq hn]
  exact hdecided

/-- Whether or not states read alike, the machine decides the language of the quotient, and no
look-up of a rule fails on the way. -/
theorem compile_decides_quotient [Shown A] (hw : w ⊆ d.alphabet) {n : ℕ}
    (hn : w.length + 1 ≤ n) :
    ∃ m, Machine.start d.compile w = .ok m ∧
      (∀ i ≤ w.length, (m.run d.compile i).1.verdict? = none ∧
        ∃ r, d.compile.action? (m.run d.compile i).1.state (m.run d.compile i).1.tape.read =
          some r) ∧
      (m.run d.compile n).1.stuck = false ∧
      ∃ report, d.compile.run w n = .ok report ∧ report.stepCount = w.length + 1 ∧
        report.verdict = if d.quotientAccepts w then .accept else .reject := by
  have hafter : ∀ i, ((Machine.init (.of d.start) w).run d.compile i).1 = d.machineAfter w i := by
    intro i
    rw [Machine.run, Machine.runFor_eq]
    rfl
  have hend := d.decided_machineAfter hw hn
  refine ⟨_, d.start_compile_eq_ok hw, ?_, ?_, _, d.run_compile_eq hw n, hend.stepCount_eq, ?_⟩
  · intro i hi
    rw [hafter]
    exact ⟨(d.reading_machineAfter hw hi).verdict?_eq_none, d.exists_rule_machineAfter hw hi⟩
  · rw [hafter]
    exact hend.stuck_eq
  · simp [Machine.report, hend.verdict_eq]

theorem twins_reject_one_symbol :
    ['a'] ⊆ twins.alphabet ∧ ['a'].length + 1 ≤ 2 ∧
      ∃ report, twins.compile.run ['a'] 2 = .ok report ∧ report.stepCount = 2 ∧
        report.verdict = .reject := by
  have hw : ['a'] ⊆ twins.alphabet := by decide
  have hn : ['a'].length + 1 ≤ 2 := by decide
  obtain ⟨-, -, -, -, report, hrun, hsteps, hverdict⟩ := twins.compile_decides_quotient hw hn
  exact ⟨hw, hn, report, hrun, hsteps, hverdict.trans (by decide)⟩

/-- With distinct texts the machine decides the language of the automaton. -/
theorem compile_decides [Shown A]
    (hd : ∀ q ∈ d.states, ∀ r ∈ d.states, shown q = shown r → q = r) (hw : w ⊆ d.alphabet)
    (n : ℕ) :
    ∃ report, d.compile.run w n = .ok report ∧
      (w.length + 1 ≤ n → report.verdict = (if d.accepts w then .accept else .reject) ∧
        report.stepCount = w.length + 1) ∧
      (n ≤ w.length → report.verdict = .timeout ∧ report.stepCount = n) ∧
      report.finalTape = w.map .symbol ++ if w.length ≤ n then [.blank] else [] := by
  refine ⟨_, d.run_compile_eq hw n, ?_, ?_, ?_⟩
  · intro hn
    have hend := d.decided_machineAfter hw hn
    have haccepts : d.quotientAccepts w = d.accepts w := by
      apply Dfa.quotientAccepts_eq
      intro v hv q hq
      have hmem := d.wellFormed.run?_mem (fun a ha => hw (hv.subset ha)) d.wellFormed.start_mem hq
      exact d.representative?_of_injective hd hmem
    rw [← haccepts]
    exact ⟨by simp [Machine.report, hend.verdict_eq], hend.stepCount_eq⟩
  · intro hn
    have h := d.reading_machineAfter hw hn
    exact ⟨by simp [Machine.report, h.verdict?_eq_none], h.stepCount_eq⟩
  · change (d.machineAfter w n).tape.cells = _
    rcases Nat.lt_or_ge w.length n with hn | hn
    · rw [(d.decided_machineAfter hw hn).cells_eq]
      simp [inputCells, hn.le]
    · rw [(d.reading_machineAfter hw hn).cells_eq]
      rcases hn.lt_or_eq with hlt | rfl
      · simp [inputCells, hlt, not_le.mpr hlt]
      · simp [inputCells]

/-- Only a word over the alphabet gets a report. -/
theorem subset_alphabet_of_run [Shown A] {n : ℕ} {report : Report A}
    (h : d.compile.run w n = .ok report) : w ⊆ d.alphabet := by
  cases hstart : Machine.start d.compile w with
  | error e =>
    rw [Program.run, hstart] at h
    cases h
  | ok m =>
    obtain ⟨-, htakes, -⟩ := (d.compile.start_eq_ok_iff w m).mp hstart
    exact fun a ha => (d.takes_compile_iff a).mp (htakes a ha)

/-- A run ends in acceptance just if its word is accepted and it has one step more than the word has
symbols. -/
theorem verdict_eq_accept_iff [Shown A]
    (hd : ∀ q ∈ d.states, ∀ r ∈ d.states, shown q = shown r → q = r) {n : ℕ} {report : Report A}
    (h : d.compile.run w n = .ok report) :
    report.verdict = .accept ↔ d.accepts w ∧ w.length + 1 ≤ n := by
  have hw := d.subset_alphabet_of_run h
  rw [d.run_compile_eq hw n] at h
  obtain rfl := Except.ok.inj h
  rcases Nat.lt_or_ge w.length n with hn | hn
  · have hverdict := (d.decided_machineAfter hw hn).verdict_eq
    rw [d.wellFormed.quotientAccepts_eq hd hw] at hverdict
    cases hacc : d.accepts w <;> simp [Machine.report, hverdict, hacc, Nat.succ_le_of_lt hn]
  · have hverdict := (d.reading_machineAfter hw hn).verdict?_eq_none
    simp [Machine.report, hverdict, hn]

theorem exists_accepting_run [Shown A]
    (hd : ∀ q ∈ d.states, ∀ r ∈ d.states, shown q = shown r → q = r) (hw : w ⊆ d.alphabet)
    (hacc : d.accepts w) {n : ℕ} (hn : w.length + 1 ≤ n) :
    ∃ report, d.compile.run w n = .ok report ∧ report.verdict = .accept ∧
      report.stepCount = w.length + 1 := by
  have hrun := d.run_compile_eq hw n
  refine ⟨_, hrun, ?_, (d.decided_machineAfter hw hn).stepCount_eq⟩
  exact (d.verdict_eq_accept_iff hd hrun).mpr ⟨hacc, hn⟩

/-- The example `parity`, as an automaton that may be compiled. -/
def parity : ValidDfa Label Label :=
  ⟨Catalog.parity.dfa, (Dfa.firstDefect?_eq_none_iff _).mp (by decide +kernel)⟩

theorem parity_accepts_abba :
    (∀ q ∈ parity.states, ∀ r ∈ parity.states, shown q = shown r → q = r) ∧
      Label.word "abba" ⊆ parity.alphabet ∧
      ∃ report, parity.compile.run (Label.word "abba") 5 = .ok report ∧
        report.verdict = .accept ∧ report.stepCount = 5 ∧
        report.finalTape = (Label.word "abba").map .symbol ++ [.blank] := by
  have htexts : ∀ q ∈ parity.states, ∀ r ∈ parity.states, shown q = shown r → q = r :=
    fun _ _ _ _ h => shown_label_injective h
  have hw : Label.word "abba" ⊆ parity.alphabet := by decide +kernel
  obtain ⟨report, hrun, hlong, -, htape⟩ := parity.compile_decides htexts hw 5
  have hverdict := hlong (by decide +kernel)
  refine ⟨htexts, hw, report, hrun, hverdict.1.trans ?_, hverdict.2.trans ?_, htape.trans ?_⟩
  · decide +kernel
  · decide +kernel
  · decide +kernel

end ValidDfa
end WordMachines
