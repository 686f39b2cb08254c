import Mathlib.Tactic
import WordMachines.Proofs.CommandLine.Reports
import WordMachines.Proofs.Compile.Simulation
import WordMachines.Proofs.Dfa.Validation
import WordMachines.Proofs.Walk.Emptiness

/-!
# The commands side by side

Four commands begin with the same automaton. What `validate` calls invalid the others refuse
without a word; what `empty` finds out about the accepted words is what `run` shows of them. The
word that `empty` prints is a text. Taken apart again, one label for each code point, it is the
word that was found if every label of the alphabet is a single code point.
-/

namespace WordMachines

namespace Label

/-- Labels of one code point are told apart in the text that they make together. -/
theorem word_join {w : List Label} (h : ∀ a ∈ w, a.text.length = 1) :
    word (String.join (w.map text)) = w := by
  rw [word, String.toList_join]
  induction w with
  | nil => rfl
  | cons a w ih =>
    obtain ⟨ha, hw⟩ := List.forall_mem_cons.mp h
    obtain ⟨c, hc⟩ := List.length_eq_one_iff.mp (String.length_toList.trans ha)
    rw [List.map_cons, List.flatMap_cons, List.map_append, ih hw, hc, List.map_singleton,
      ofChar_of_toList hc, List.singleton_append]

theorem length_word (text : String) : (word text).length = text.length := by
  rw [word, List.length_map, String.length_toList]

end Label

namespace CommandLine

namespace Source

variable {wording : Wording} {input : String} {s : Source}

/-- The source is no example that does not exist. -/
def Known (input : String) (s : Source) : Prop :=
  ∀ unknown, s.load input ≠ .error (.example unknown)

/-- The automaton may not be analysed, and why: its text is no JSON, a value does not fit, a part is
missing, or it is not well formed. -/
inductive Refused (wording : Wording) (input : String) (s : Source) : String → Prop
  | breach {text : List Char} {fault : Json.Fault}
    (hfault : fault = .unfinished ∨ fault = .malformed)
    (h : s.load input = .error (.document text (.json fault))) :
    Refused wording input s (wording.breach text)
  | misfit {text : List Char} {m : Json.Misfit}
    (h : s.load input = .error (.document text (.json (.misfit m)))) :
    Refused wording input s (m.message ++ wording.place text)
  | absent {text : List Char} {part : Part}
    (h : s.load input = .error (.document text (.absent part))) :
    Refused wording input s ("Missing required field: " ++ part.name)
  | illFormed {d : Dfa Label Label} {defect : Defect} (h : s.load input = .ok d)
    (hd : d.FirstProblem defect) : Refused wording input s defect.message

theorem known_of_document (hs : ∀ name, s ≠ .exampleName name) (input : String) :
    s.Known input := by
  have hfault : ∀ text : List Char, ∀ unknown,
      (Dfa.ofDocument text).mapError (LoadFault.document text) ≠
        .error (α := Dfa Label Label) (.example unknown) := by
    intro text unknown
    cases Dfa.ofDocument (S := Label) (A := Label) text <;> simp [Except.mapError]
  cases s with
  | exampleName name => exact absurd rfl (hs name)
  | document text => exact hfault text.toList
  | standardInput => exact hfault input.toList

theorem loadValid?_eq_some_iff (d : ValidDfa Label Label) :
    s.loadValid? input = some d ↔ s.load input = .ok d.toDfa := by
  rw [loadValid?]
  cases s.load input with
  | error fault => simp
  | ok e =>
    change e.validate.toOption = some d ↔ Except.ok e = .ok d.toDfa
    rw [Except.ok.injEq, @eq_comm _ e, ← e.validate_eq_ok_iff]
    cases e.validate <;> simp [Except.toOption]

theorem refused_of_fault {text : List Char} {fault : DocumentFault}
    (h : s.load input = .error (.document text fault)) :
    s.Refused wording input (fault.message wording text) := by
  cases fault with
  | absent part => exact .absent h
  | json fault =>
    cases fault with
    | unfinished => exact .breach (.inl rfl) h
    | malformed => exact .breach (.inr rfl) h
    | misfit m => exact .misfit h

theorem valid_or_refused (hs : s.Known input) (wording : Wording) :
    (∃ d, s.loadValid? input = some d) ∨ ∃ reason, s.Refused wording input reason := by
  cases h : s.load input with
  | error fault =>
    rcases fault with unknown | ⟨text, fault⟩
    · exact absurd h (hs unknown)
    · exact Or.inr ⟨_, refused_of_fault h⟩
  | ok d =>
    cases hd : d.firstDefect? with
    | none =>
      have hvalid := d.firstDefect?_eq_none_iff.mp hd
      exact Or.inl ⟨⟨d, hvalid⟩, (loadValid?_eq_some_iff _).mpr h⟩
    | some defect => exact Or.inr ⟨_, .illFormed h ((d.firstDefect?_eq_some_iff defect).mp hd)⟩

theorem Refused.loadValid?_eq_none {reason : String} (h : s.Refused wording input reason) :
    s.loadValid? input = none := by
  cases h with
  | breach _ h => rw [loadValid?, h]
  | misfit h => rw [loadValid?, h]
  | absent h => rw [loadValid?, h]
  | @illFormed d defect h hd =>
    have hdefect : d.validate = .error defect := by
      rw [d.validate_eq_error_iff, d.firstDefect?_eq_some_iff]
      exact hd
    rw [loadValid?, h]
    simp [hdefect, Except.toOption]

end Source

variable {wording : Wording} {input : String} {s : Source} {d : ValidDfa Label Label}

theorem validateAnswer_of_valid (h : s.loadValid? input = some d) :
    validateAnswer wording input s = .success (line "valid") := by
  have hd : d.firstDefect? = none := d.firstDefect?_eq_none_iff.mpr d.wellFormed
  rw [validateAnswer, (Source.loadValid?_eq_some_iff d).mp h]
  simp [hd]

theorem validateAnswer_of_refused {reason : String} (h : s.Refused wording input reason) :
    validateAnswer wording input s = ⟨1, line ("invalid: " ++ reason)⟩ := by
  cases h with
  | breach hfault h =>
    rw [validateAnswer, h]
    rcases hfault with rfl | rfl <;> rfl
  | misfit h =>
    rw [validateAnswer, h]
    rfl
  | absent h =>
    rw [validateAnswer, h]
    rfl
  | @illFormed d defect h hd =>
    have hdefect : d.firstDefect? = some defect := (d.firstDefect?_eq_some_iff defect).mpr hd
    rw [validateAnswer, h]
    simp [hdefect]

theorem answer_empty (h : s.loadValid? input = some d) :
    (Task.empty s).answer wording input = emptyAnswer d := by
  rw [Task.answer, h]

theorem answer_run (h : s.loadValid? input = some d) (words : List String) (bound : ℕ)
    (mode : Mode) : (Task.run s words bound mode).answer wording input =
      runAnswer d.compile bound mode words := by
  rw [Task.answer, h]

/-- Only a valid automaton gets anything printed about it. -/
theorem exists_valid_of_answer_empty {output : String}
    (h : (Task.empty s).answer wording input = .success output) :
    ∃ d, s.loadValid? input = some d ∧ emptyAnswer d = .success output := by
  cases hd : s.loadValid? input with
  | none =>
    rw [Task.answer, hd] at h
    cases h
  | some d => exact ⟨d, rfl, (answer_empty hd).symm.trans h⟩

theorem success_line_inj {x y : String} : Answer.success (line x) = .success (line y) ↔ x = y := by
  simp [Answer.success, line]

theorem isEmpty_of_emptyAnswer (h : emptyAnswer d = .success (line "empty")) : d.isEmpty := by
  rw [emptyAnswer, success_line_inj] at h
  by_contra hempty
  rw [if_neg hempty] at h
  simp [← String.toList_inj] at h

theorem shortestAccepted?_of_emptyAnswer {text : String}
    (h : emptyAnswer d =
      .success (line ("non-empty (shortest accepted word: \"" ++ text ++ "\")"))) :
    ∃ w, d.shortestAccepted? = some w ∧ String.join (w.map Label.text) = text := by
  rw [emptyAnswer_eq, success_line_inj] at h
  cases hw : d.shortestAccepted? with
  | none =>
    rw [hw, Option.elim_none] at h
    simp [← String.toList_inj] at h
  | some w =>
    rw [hw, Option.elim_some, quoteWord] at h
    refine ⟨w, rfl, ?_⟩
    simpa [← String.toList_inj] using h

theorem validate_iff_succeed (hs : s.Known input) :
    (Task.validate s).answer wording input = .success (line "valid") ↔
      ((Task.empty s).answer wording input).status = 0 ∧
        ((Task.compile s).answer wording input).status = 0 := by
  rcases s.valid_or_refused hs wording with ⟨d, hd⟩ | ⟨reason, hreason⟩
  · apply iff_of_true (validateAnswer_of_valid hd)
    simp [Task.answer, hd, emptyAnswer, Answer.success]
  · apply iff_of_false
    · rw [Task.answer, validateAnswer_of_refused hreason]
      simp [Answer.success]
    · simp [Task.answer, hreason.loadValid?_eq_none, Answer.failure]

theorem refused_together (hs : s.Known input)
    (h : (Task.validate s).answer wording input ≠ .success (line "valid")) :
    ∃ reason, s.Refused wording input reason ∧
      (Task.validate s).answer wording input = ⟨1, line ("invalid: " ++ reason)⟩ ∧
      (Task.empty s).answer wording input = .failure ∧
      (Task.compile s).answer wording input = .failure := by
  rcases s.valid_or_refused hs wording with ⟨d, hd⟩ | ⟨reason, hreason⟩
  · exact absurd (validateAnswer_of_valid hd) h
  · have hnone := hreason.loadValid?_eq_none
    exact ⟨reason, hreason, validateAnswer_of_refused hreason, by rw [Task.answer, hnone],
      by rw [Task.answer, hnone]⟩

theorem texts_distinct (d : ValidDfa Label Label) :
    ∀ q ∈ d.states, ∀ r ∈ d.states, shown q = shown r → q = r :=
  fun _ _ _ _ h => shown_label_injective h

theorem verdict_ne_accept (hempty : d.isEmpty) {w : List Label} {bound : ℕ} {r : Report Label}
    (hrun : d.compile.run w bound = .ok r) : r.verdict ≠ .accept := by
  intro hverdict
  have haccepts := ((d.verdict_eq_accept_iff (texts_distinct d) hrun).mp hverdict).1
  exact d.isEmpty_iff_rejects.mp hempty w (d.subset_alphabet_of_run hrun) haccepts

theorem no_block_tells_acceptance (hempty : d.isEmpty) (bound : ℕ) (mode : Mode)
    (words : List String) :
    List.Forall₂ (fun word block =>
        (∃ verdict ∈ ["REJECT", "TIMEOUT"], ∃ steps, Tells word verdict steps mode block) ∧
          (mode ≠ .debug → ∀ steps, ¬ Tells word "ACCEPT" steps mode block))
      (words.takeWhile fun word => Label.word word ⊆ d.alphabet)
      (blocks mode (reports d.compile bound words)) := by
  have htaken : isRun d.compile bound = fun word => decide (Label.word word ⊆ d.alphabet) := by
    funext word
    rw [Bool.eq_iff_iff, isRun_compile_iff, decide_eq_true_iff]
  rw [← htaken]
  apply (forall₂_blocks mode words).imp
  rintro word block ⟨r, hrun, htells⟩
  have hverdict : shown r.verdict ∈ ["REJECT", "TIMEOUT"] := by
    cases hr : r.verdict with
    | accept => exact absurd hr (verdict_ne_accept hempty hrun)
    | reject => exact List.mem_cons_self
    | timeout => exact List.mem_cons_of_mem _ List.mem_cons_self
  refine ⟨⟨shown r.verdict, hverdict, r.stepCount, htells⟩, ?_⟩
  intro hmode steps haccept
  have hsame := htells.verdict_eq haccept hmode (delimiter_not_mem_shown mode r.verdict)
    (delimiter_not_mem_shown mode .accept)
  rw [hsame] at hverdict
  revert hverdict
  decide

theorem run_shown_word {w : List Label} (hw : d.shortestAccepted? = some w)
    (hlabels : ∀ a ∈ d.alphabet, a.text.length = 1) {bound : ℕ}
    (hbound : (String.join (w.map Label.text)).length + 1 ≤ bound) :
    ∃ r, d.compile.run (Label.word (String.join (w.map Label.text))) bound = .ok r ∧
      r.verdict = .accept ∧ r.stepCount = (String.join (w.map Label.text)).length + 1 := by
  rcases d.search_cases with ⟨-, hnone, -⟩ | ⟨v, -, hv, hleast, -⟩
  · rw [hw] at hnone
    cases hnone
  · obtain rfl : w = v := Option.some.inj (hw.symm.trans hv)
    have hword := Label.word_join fun a ha => hlabels a (hleast.subset ha)
    have hlength := congrArg List.length hword
    rw [Label.length_word] at hlength
    rw [hlength] at hbound ⊢
    rw [hword]
    exact d.exists_accepting_run (texts_distinct d) hleast.subset hleast.accepts hbound

/-- What one command says of an automaton the others bear out: all refuse it or none does, no run
accepts if it is empty, and the run on the word that is printed accepts. -/
theorem commands_agree (hs : s.Known input) (wording : Wording) :
    ((Task.validate s).answer wording input = .success (line "valid") ↔
        ((Task.empty s).answer wording input).status = 0 ∧
          ((Task.compile s).answer wording input).status = 0) ∧
      ((Task.validate s).answer wording input ≠ .success (line "valid") →
        ∃ reason, s.Refused wording input reason ∧
          (Task.validate s).answer wording input = ⟨1, line ("invalid: " ++ reason)⟩ ∧
          (Task.empty s).answer wording input = .failure ∧
          (Task.compile s).answer wording input = .failure) ∧
      ((Task.empty s).answer wording input = .success (line "empty") →
        ∃ d, s.loadValid? input = some d ∧ ∀ words bound mode, ∃ told,
          ((Task.run s words bound mode).answer wording input).output =
              (separator mode).intercalate told ∧
            List.Forall₂ (fun word block =>
                (∃ verdict ∈ ["REJECT", "TIMEOUT"], ∃ steps, Tells word verdict steps mode block) ∧
                  (mode ≠ .debug → ∀ steps, ¬ Tells word "ACCEPT" steps mode block))
              (words.takeWhile fun word => Label.word word ⊆ d.alphabet) told) ∧
      ∀ word d,
        (Task.empty s).answer wording input =
            .success (line ("non-empty (shortest accepted word: \"" ++ word ++ "\")")) →
          s.load input = .ok d → (∀ a ∈ d.alphabet, a.text.length = 1) →
          ∀ bound, word.length + 1 ≤ bound → ∀ mode, ∃ block,
            (Task.run s [word] bound mode).answer wording input = .success block ∧
              Tells word "ACCEPT" (word.length + 1) mode block := by
  refine ⟨validate_iff_succeed hs, refused_together hs, ?_, ?_⟩
  · intro h
    obtain ⟨d, hd, hanswer⟩ := exists_valid_of_answer_empty h
    have hempty := isEmpty_of_emptyAnswer hanswer
    refine ⟨d, hd, ?_⟩
    intro words bound mode
    refine ⟨_, ?_, no_block_tells_acceptance hempty bound mode words⟩
    rw [answer_run hd, output_runAnswer, printed]
  · intro word e h hload hlabels bound hbound mode
    obtain ⟨d, hd, hanswer⟩ := exists_valid_of_answer_empty h
    obtain rfl : e = d.toDfa :=
      Except.ok.inj (hload.symm.trans ((Source.loadValid?_eq_some_iff d).mp hd))
    obtain ⟨w, hw, rfl⟩ := shortestAccepted?_of_emptyAnswer hanswer
    obtain ⟨r, hrun, hverdict, hsteps⟩ := run_shown_word hw hlabels hbound
    have htells := tells_reportText (String.join (w.map Label.text)) r mode
    rw [hverdict, hsteps] at htells
    refine ⟨_, ?_, htells⟩
    rw [answer_run hd]
    exact runAnswer_singleton hrun mode

/-- The only symbol is one code point and two bytes; every word but the empty one is accepted. -/
def accented : Source := .document <|
  "\x7b\"states\": [0, 1], \"alphabet\": [\"é\"], \"transitions\": " ++
  "\x7b\"0\": \x7b\"é\": 1\x7d, \"1\": \x7b\"é\": 1\x7d\x7d, " ++
  "\"start_state\": 0, \"accept_states\": [1]\x7d"

theorem accented_agreed :
    accented.Known "" ∧
      (Task.empty accented).answer .bare "" =
        .success (line ("non-empty (shortest accepted word: \"" ++ "é" ++ "\")")) ∧
      ∃ d, accented.load "" = .ok d ∧ (∀ a ∈ d.alphabet, a.text.length = 1) ∧ "é".length + 1 ≤ 2 ∧
        ∃ block, (Task.run accented ["é"] 2 .plain).answer .bare "" = .success block ∧
          Tells "é" "ACCEPT" 2 .plain block := by
  have hknown : accented.Known "" := Source.known_of_document (fun _ => by simp [accented]) ""
  have hanswer : (Task.empty accented).answer .bare "" =
      .success (line ("non-empty (shortest accepted word: \"" ++ "é" ++ "\")")) := by
    decide +kernel
  have halphabet : (accented.load "").toOption.map Dfa.alphabet = some [⟨"é"⟩] := by
    decide +kernel
  cases hload : accented.load "" with
  | error fault =>
    rw [hload] at halphabet
    cases halphabet
  | ok d =>
    have hd : d.alphabet = [⟨"é"⟩] := by simpa [hload, Except.toOption] using halphabet
    have hlabels : ∀ a ∈ d.alphabet, a.text.length = 1 := by
      rw [hd]
      decide +kernel
    have hbound : "é".length + 1 ≤ 2 := by decide +kernel
    exact ⟨hknown, hanswer, d, rfl, hlabels, hbound,
      (commands_agree hknown .bare).2.2.2 "é" d hanswer hload hlabels 2 hbound .plain⟩

end CommandLine
end WordMachines
