import Mathlib.Tactic
import WordMachines.Proofs.Compile.Declarations
import WordMachines.Proofs.Compile.Quotient
import WordMachines.Proofs.Dfa.Validation
import WordMachines.Proofs.Turing.Bounds

/-!
# Words that are refused

Whether a word is run at all is decided before the first step, so the bound has no say in it. It is
decided by what the edits of the program mention: first its start state, then the symbols of the
word, in the order of the word. A rule mentions the symbol it writes no less than the one it reads.
A compiled program mentions its start state and the alphabet, and refuses what is foreign to that.
-/

namespace WordMachines

/-- `a` is the first symbol of `w` that is not known. -/
def FirstOutside {α : Type} (known : α → Prop) (w : List α) (a : α) : Prop :=
  ∃ i : ℕ, IsLeast {i : ℕ | ∃ b, ¬ known b ∧ w[i]? = some b} i ∧ w[i]? = some a

namespace Program

variable {α : Type} [DecidableEq α]

theorem find?_not_takes_eq_some_iff (p : Program α) (w : List α) (a : α) :
    w.find? (!p.takes ·) = some a ↔ FirstOutside (p.takes ·) w a := by
  simpa [FirstOutside] using find?_eq_some_iff_isLeast (!p.takes ·) w a

section NewEdits

variable (name : String) (start : MachineState) (es : List (Edit α))

theorem hasState_start_new_edits_iff :
    ((new name start).edits es).hasState ((new name start).edits es).start ↔
      ∃ e ∈ es, start ∈ e.states := by
  have hnew : (new name start : Program α).hasState start = false := rfl
  have hstart : ((new name start).edits es).start = start := start_edits _ es
  rw [hstart, hasState_edits, hnew]
  simp

theorem takes_new_edits_iff (a : α) :
    ((new name start).edits es).takes a ↔ ∃ e ∈ es, .symbol a ∈ e.cells := by
  simp [takes, mem_tapeAlphabet_edits, new]

end NewEdits

variable [Shown α]

section Outcomes

variable (p : Program α) (w : List α) (bound : ℕ)

theorem run_of_undeclared (h : ¬ p.hasState p.start) :
    p.run w bound = .error (.undeclaredStart (shown p.start)) := by
  rw [run_eq_error_iff, Machine.start, if_neg h]

theorem run_eq_error_iff_of_declared (h : p.hasState p.start) (fault : StartError) :
    p.run w bound = .error fault ↔
      ∃ a, FirstOutside (p.takes ·) w a ∧ fault = .unknownSymbol (shown a) := by
  simp only [run_eq_error_iff, Machine.start, if_pos h, ← find?_not_takes_eq_some_iff]
  cases w.find? (!p.takes ·) with
  | none => simp
  | some a => simp [eq_comm]

/-- A word is run if the start state is declared and the program takes all of its symbols. -/
theorem exists_report_iff :
    (∃ report, p.run w bound = .ok report) ↔ p.hasState p.start ∧ ∀ a ∈ w, p.takes a := by
  constructor
  · rintro ⟨report, hreport⟩
    cases hm : Machine.start p w with
    | error fault =>
      rw [(p.run_eq_error_iff w bound fault).mpr hm] at hreport
      cases hreport
    | ok m =>
      obtain ⟨hstart, hw, -⟩ := (p.start_eq_ok_iff w m).mp hm
      exact ⟨hstart, hw⟩
  · rintro ⟨hstart, hw⟩
    exact ⟨_, run_of_start ((p.start_eq_ok_iff w _).mpr ⟨hstart, hw, rfl⟩) bound⟩

theorem exists_error_iff :
    (∃ fault, p.run w bound = .error fault) ↔ ¬ ∃ report, p.run w bound = .ok report := by
  cases p.run w bound <;> simp

end Outcomes

end Program

namespace ValidDfa

variable {S A : Type} [DecidableEq S] [DecidableEq A] [Shown S] (d : ValidDfa S A)

theorem hasState_start_compile : d.compile.hasState d.compile.start := by
  rw [start_compile]
  exact d.hasState_compile d.wellFormed.start_mem

variable [Shown A]

theorem run_compile_eq_error_iff (w : List A) (bound : ℕ) (fault : StartError) :
    d.compile.run w bound = .error fault ↔
      ∃ a, FirstOutside (· ∈ d.alphabet) w a ∧ fault = .unknownSymbol (shown a) := by
  simp only [Program.run_eq_error_iff_of_declared _ _ _ d.hasState_start_compile, takes_compile_iff]

theorem exists_error_compile_iff (w : List A) (bound : ℕ) :
    (∃ fault, d.compile.run w bound = .error fault) ↔ ∃ a ∈ w, a ∉ d.alphabet := by
  simp [Program.exists_error_iff, Program.exists_report_iff, d.hasState_start_compile,
    takes_compile_iff]

end ValidDfa

namespace Program

variable {α : Type} [DecidableEq α] [Shown α] {p : Program α} {name : String}
  {start : MachineState} {es : List (Edit α)}

/-- A run is refused for a start state, or else for the first symbol of the word, that no edit
mentions, and for nothing else. -/
theorem run_refuses_unmentioned (hp : p = (new name start).edits es) (w : List α) (bound : ℕ) :
    (p.run w bound = .error (.undeclaredStart (shown start)) ↔ ∀ e ∈ es, start ∉ e.states) ∧
      ((∃ e ∈ es, start ∈ e.states) →
        (∀ fault, p.run w bound = .error fault ↔
          ∃ a, FirstOutside (fun b => ∃ e ∈ es, .symbol b ∈ e.cells) w a ∧
            fault = .unknownSymbol (shown a)) ∧
        ((∃ report, p.run w bound = .ok report) ↔ ∀ a ∈ w, ∃ e ∈ es, .symbol a ∈ e.cells)) ∧
      ∀ (S : Type) [DecidableEq S] [Shown S] (d : ValidDfa S α),
        (∀ fault, d.compile.run w bound = .error fault ↔
          ∃ a, FirstOutside (· ∈ d.alphabet) w a ∧ fault = .unknownSymbol (shown a)) ∧
        ((∃ fault, d.compile.run w bound = .error fault) ↔ ∃ a ∈ w, a ∉ d.alphabet) := by
  have hdeclared : p.hasState p.start ↔ ∃ e ∈ es, start ∈ e.states := by
    rw [hp]
    exact hasState_start_new_edits_iff name start es
  have htakes : ∀ a, p.takes a ↔ ∃ e ∈ es, .symbol a ∈ e.cells := by
    rw [hp]
    exact takes_new_edits_iff name start es
  have hstart : p.start = start := by
    rw [hp, start_edits]
    rfl
  refine ⟨?_, ?_, ?_⟩
  · constructor
    · intro hrun e he hmem
      obtain ⟨a, -, hfault⟩ :=
        (run_eq_error_iff_of_declared p w bound (hdeclared.mpr ⟨e, he, hmem⟩) _).mp hrun
      cases hfault
    · intro hnone
      rw [← hstart]
      apply run_of_undeclared
      rw [hdeclared]
      rintro ⟨e, he, hmem⟩
      exact hnone e he hmem
  · intro hmention
    have h := hdeclared.mpr hmention
    refine ⟨?_, ?_⟩
    · simpa only [htakes] using run_eq_error_iff_of_declared p w bound h
    · simp [exists_report_iff, h, htakes]
  · intro S _ _ d
    exact ⟨d.run_compile_eq_error_iff w bound, d.exists_error_compile_iff w bound⟩

/-- One symbol is written only, and one that reads like another is declared. -/
def writeOnly : List (Edit Mixed) :=
  [.rule (.named "q") .blank ⟨.symbol (.text "b"), .right, .named "r"⟩,
    .symbol (.symbol (.text "0"))]

/-- The second symbol of the first word is foreign though it reads like a declared one, and so is
the third, which comes too late. No step is allowed. -/
theorem writeOnly_refuses :
    ∃ p, p = (new "write-only" (.named "q")).edits writeOnly ∧
      p.run [.text "b", .number 0, .text "c"] 0 = .error (.unknownSymbol "0") ∧
      (∃ report, p.run [.text "b", .text "0"] 0 = .ok report) ∧
      ((new "write-only" .accept).edits writeOnly).run [.text "c"] 0 =
        .error (.undeclaredStart "ACCEPT") := by
  obtain ⟨p, hp⟩ : ∃ p, p = (new "write-only" (.named "q")).edits writeOnly := ⟨_, rfl⟩
  have hmention : ∃ e ∈ writeOnly, .named "q" ∈ e.states := by decide
  obtain ⟨-, hforeign, -⟩ := run_refuses_unmentioned hp [.text "b", .number 0, .text "c"] 0
  obtain ⟨-, htaken, -⟩ := run_refuses_unmentioned hp [.text "b", .text "0"] 0
  obtain ⟨u, hu⟩ : ∃ u, u = (new "write-only" .accept).edits writeOnly := ⟨_, rfl⟩
  obtain ⟨hundeclared, -, -⟩ := run_refuses_unmentioned hu [.text "c"] 0
  refine ⟨p, hp, ?_, ?_, ?_⟩
  · refine ((hforeign hmention).1 _).mpr ⟨.number 0, ⟨1, ⟨⟨_, ?_, rfl⟩, ?_⟩, rfl⟩, rfl⟩
    · decide
    · rintro i ⟨b, hb, hi⟩
      by_contra hlt
      obtain rfl : i = 0 := by omega
      obtain rfl := Option.some.inj hi
      exact hb (by decide)
  · exact (htaken hmention).2.mpr (by decide)
  · rw [← hu]
    exact hundeclared.mpr (by decide)

end Program
end WordMachines
