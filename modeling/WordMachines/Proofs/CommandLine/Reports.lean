import Mathlib.Tactic
import WordMachines.CommandLine.Answer
import WordMachines.Proofs.Compile.Refusals

/-!
# What a run prints

The command `run` prints a block for each word, up to the first word that is refused, and puts a
separator between two blocks. A block tells the verdict and the number of steps.
-/

namespace WordMachines.CommandLine

open Json

/-- A block with a verdict and a number of steps for an input: lines of text, or one of JSON. -/
inductive Tells (word verdict : String) (steps : ℕ) : Mode → String → Prop
  | plain (tape : List (Cell Label)) : Tells word verdict steps .plain
      ("input: \"" ++ word ++ "\"\nverdict: " ++ verdict ++ "\nsteps: " ++ steps.repr ++
        "\ntape: " ++ cellsText tape ++ "\n")
  | debug (trace : List (Snapshot Label)) (tape : List (Cell Label)) :
    Tells word verdict steps .debug
      ("input: \"" ++ word ++ "\"\n" ++ String.join (trace.map fun s => s.text ++ "\n") ++
        "verdict: " ++ verdict ++ "\nsteps: " ++ steps.repr ++ "\ntape: " ++ cellsText tape ++ "\n")
  | json (tape : List (Cell Label)) (trace : List (Snapshot Label)) :
    Tells word verdict steps .json
      ("\x7b\"verdict\":\"" ++ verdict ++ "\",\"step_count\":" ++ steps.repr ++
        ",\"final_tape\":" ++ String.ofList (writeList (tape.map Cell.write)) ++
        ",\"trace\":" ++ String.ofList (writeList (trace.map Snapshot.write)) ++ "\x7d" ++ "\n")

theorem quoteWord_word (word : String) : quoteWord (Label.word word) = "\"" ++ word ++ "\"" := by
  have hletters : (Label.word word).map Label.text = word.toList.map String.singleton := by
    simp [Label.word, Label.ofChar]
  rw [quoteWord, hletters]
  simp [← String.toList_inj, String.toList_join, List.flatMap_map]

theorem writeText_shown (v : Verdict) :
    writeText (shown v) = "\"".toList ++ (shown v).toList ++ "\"".toList := by
  cases v <;> decide

theorem ofList_write (r : Report Label) : String.ofList r.write =
    "\x7b\"verdict\":\"" ++ shown r.verdict ++ "\",\"step_count\":" ++ r.stepCount.repr ++
      ",\"final_tape\":" ++ String.ofList (writeList (r.finalTape.map Cell.write)) ++
      ",\"trace\":" ++ String.ofList (writeList (r.trace.toList.map Snapshot.write)) ++ "\x7d" := by
  have hsteps : writeText "step_count" = "\"step_count\"".toList := by decide
  have hverdict : writeText "verdict" = "\"verdict\"".toList := by decide
  have htape : writeText "final_tape" = "\"final_tape\"".toList := by decide
  have htrace : writeText "trace" = "\"trace\"".toList := by decide
  simp [← String.toList_inj, Report.write, writeObject, writeJoined, hsteps, hverdict, htape,
    htrace, writeText_shown, Nat.repr_eq_ofList_toDigits]

theorem tells_reportText (word : String) (r : Report Label) (mode : Mode) :
    Tells word (shown r.verdict) r.stepCount mode (reportText mode (Label.word word) r) := by
  cases mode with
  | plain =>
    have hlines : reportText .plain (Label.word word) r =
        "input: \"" ++ word ++ "\"\nverdict: " ++ shown r.verdict ++ "\nsteps: " ++
          r.stepCount.repr ++ "\ntape: " ++ cellsText r.finalTape ++ "\n" := by
      simp [← String.toList_inj, reportText, line, quoteWord_word, Report.tapeText]
    rw [hlines]
    exact .plain r.finalTape
  | debug =>
    have hlines : reportText .debug (Label.word word) r =
        "input: \"" ++ word ++ "\"\n" ++ String.join (r.trace.toList.map fun s => s.text ++ "\n") ++
          "verdict: " ++ shown r.verdict ++ "\nsteps: " ++ r.stepCount.repr ++ "\ntape: " ++
          cellsText r.finalTape ++ "\n" := by
      simp [← String.toList_inj, reportText, line, quoteWord_word, Report.tapeText]
    rw [hlines]
    exact .debug r.trace.toList r.finalTape
  | json =>
    have hline : reportText .json (Label.word word) r = String.ofList r.write ++ "\n" := rfl
    rw [hline, ofList_write]
    exact .json r.finalTape r.trace.toList

example : reportText .plain (Label.word "é") ⟨.reject, 1, [.symbol ⟨"é"⟩, .blank], #[]⟩ =
    "input: \"é\"\nverdict: REJECT\nsteps: 1\ntape: é_\n" := by
  decide +kernel

example : reportText .json (Label.word "é") ⟨.reject, 1, [.symbol ⟨"é"⟩, .blank], #[]⟩ =
    "\x7b\"verdict\":\"REJECT\",\"step_count\":1,\"final_tape\":[\"é\",null]," ++
      "\"trace\":[]\x7d\n" := by
  decide +kernel

/-- What a block begins with, up to the verdict. -/
def lead (word : String) : Mode → String
  | .plain | .debug => "input: \"" ++ word ++ "\"\nverdict: "
  | .json => "\x7b\"verdict\":\""

/-- What ends the verdict in a block. -/
def delimiter : Mode → Char
  | .plain | .debug => '\n'
  | .json => '"'

theorem delimiter_not_mem_shown (mode : Mode) (v : Verdict) :
    delimiter mode ∉ (shown v).toList := by
  cases mode <;> cases v <;> decide

theorem eq_of_append_cons_eq {c : Char} {xs ys as bs : List Char} (hxs : c ∉ xs) (hys : c ∉ ys)
    (h : xs ++ c :: as = ys ++ c :: bs) : xs = ys := by
  have htake {zs : List Char} (hzs : c ∉ zs) (rest : List Char) :
      (zs ++ c :: rest).takeWhile (· ≠ c) = zs := by
    rw [List.takeWhile_append_of_pos, List.takeWhile_cons_of_neg, List.append_nil]
    · simp
    · intro z hz
      simpa using ne_of_mem_of_not_mem hz hzs
  rw [← htake hxs as, h, htake hys bs]

namespace Tells

variable {word verdict verdict' block : String} {steps steps' : ℕ} {mode : Mode}

theorem exists_rest (h : Tells word verdict steps mode block) (hmode : mode ≠ .debug) :
    ∃ rest, block = lead word mode ++ (verdict ++ (String.singleton (delimiter mode) ++ rest)) := by
  cases h with
  | plain tape =>
    use "steps: " ++ (steps.repr ++ ("\ntape: " ++ (cellsText tape ++ "\n")))
    simp [← String.toList_inj, lead, delimiter]
  | debug trace tape => exact absurd rfl hmode
  | json tape trace =>
    use ",\"step_count\":" ++ (steps.repr ++ (",\"final_tape\":" ++
      (String.ofList (writeList (tape.map Cell.write)) ++ (",\"trace\":" ++
        (String.ofList (writeList (trace.map Snapshot.write)) ++ "\x7d\n")))))
    simp [← String.toList_inj, lead, delimiter]

/-- A block tells one verdict, save in debug mode, where symbols with line breaks may make the trace
look like lines of the report. -/
theorem verdict_eq (h : Tells word verdict steps mode block)
    (h' : Tells word verdict' steps' mode block) (hmode : mode ≠ .debug)
    (hverdict : delimiter mode ∉ verdict.toList) (hverdict' : delimiter mode ∉ verdict'.toList) :
    verdict = verdict' := by
  obtain ⟨rest, rfl⟩ := h.exists_rest hmode
  obtain ⟨rest', hrest⟩ := h'.exists_rest hmode
  have hlists : verdict.toList ++ delimiter mode :: rest.toList =
      verdict'.toList ++ delimiter mode :: rest'.toList := by
    simpa [← String.toList_inj] using hrest
  exact String.toList_inj.mp (eq_of_append_cons_eq hverdict hverdict' hlists)

end Tells

variable (p : Program Label) (bound : ℕ)

/-- The program takes the word, so that it has a block. -/
def isRun (w : String) : Bool := (p.run (Label.word w) bound).isOk

/-- The words before the first that is refused, each with the report of its run. -/
def reports : List String → List (List Label × Report Label)
  | [] => []
  | w :: ws =>
    match p.run (Label.word w) bound with
    | .error _ => []
    | .ok r => (Label.word w, r) :: reports ws

def blocks (mode : Mode) (rs : List (List Label × Report Label)) : List String :=
  rs.map fun (w, r) => reportText mode w r

def printed (mode : Mode) (rs : List (List Label × Report Label)) : String :=
  (separator mode).intercalate (blocks mode rs)

variable {p bound}

theorem isRun_of_ok {w : String} {r : Report Label} (h : p.run (Label.word w) bound = .ok r) :
    isRun p bound w = true := by
  rw [isRun, h]
  rfl

theorem isRun_of_error {w : String} {e : StartError}
    (h : p.run (Label.word w) bound = .error e) : isRun p bound w = false := by
  rw [isRun, h]
  rfl

theorem isRun_iff {w : String} : isRun p bound w ↔ ∃ r, p.run (Label.word w) bound = .ok r := by
  cases hw : p.run (Label.word w) bound with
  | error e => simp [isRun_of_error hw]
  | ok r => simp [isRun_of_ok hw]

theorem not_isRun_iff {w : String} :
    ¬ isRun p bound w ↔ ∃ e, p.run (Label.word w) bound = .error e := by
  rw [isRun_iff]
  cases p.run (Label.word w) bound <;> simp

theorem isRun_compile_iff (d : ValidDfa Label Label) (bound : ℕ) (w : String) :
    isRun d.compile bound w ↔ Label.word w ⊆ d.alphabet := by
  rw [← not_iff_not, not_isRun_iff, d.exists_error_compile_iff]
  simp [List.subset_def]

theorem reports_cons_of_ok {w : String} {r : Report Label} (h : p.run (Label.word w) bound = .ok r)
    (ws : List String) : reports p bound (w :: ws) = (Label.word w, r) :: reports p bound ws := by
  rw [reports, h]

theorem reports_cons_of_error {w : String} {e : StartError}
    (h : p.run (Label.word w) bound = .error e) (ws : List String) :
    reports p bound (w :: ws) = [] := by
  rw [reports, h]

theorem forall₂_blocks (mode : Mode) (ws : List String) :
    List.Forall₂ (fun w block => ∃ r, p.run (Label.word w) bound = .ok r ∧
      Tells w (shown r.verdict) r.stepCount mode block)
      (ws.takeWhile (isRun p bound)) (blocks mode (reports p bound ws)) := by
  induction ws with
  | nil => exact .nil
  | cons w ws ih =>
    cases hw : p.run (Label.word w) bound with
    | error e =>
      rw [reports_cons_of_error hw, List.takeWhile_cons_of_neg (by simp [isRun_of_error hw])]
      exact .nil
    | ok r =>
      rw [reports_cons_of_ok hw, List.takeWhile_cons_of_pos (isRun_of_ok hw)]
      exact .cons ⟨r, hw, tells_reportText w r mode⟩ ih

/-- A block that is not the first brings the separator before it. -/
theorem output_rest (mode : Mode) (ws : List String) (block : String) :
    block ++ (runAnswer.rest p bound mode ws).output =
      (separator mode).intercalate (block :: blocks mode (reports p bound ws)) := by
  induction ws generalizing block with
  | nil => simp [runAnswer.rest, Answer.success, reports, blocks]
  | cons w ws ih =>
    cases hw : p.run (Label.word w) bound with
    | error e =>
      rw [reports_cons_of_error hw, runAnswer.rest, hw]
      simp [Answer.failure, blocks]
    | ok r =>
      have hblocks : blocks mode (reports p bound (w :: ws)) =
          reportText mode (Label.word w) r :: blocks mode (reports p bound ws) := by
        rw [reports_cons_of_ok hw]
        rfl
      rw [hblocks, String.intercalate_cons_of_ne_nil (List.cons_ne_nil _ _), ← ih,
        runAnswer.rest, hw]
      simp only [Answer.after, String.append_assoc]

theorem output_runAnswer (mode : Mode) (ws : List String) :
    (runAnswer p bound mode ws).output = printed mode (reports p bound ws) := by
  cases ws with
  | nil => rfl
  | cons w ws =>
    cases hw : p.run (Label.word w) bound with
    | error e =>
      rw [reports_cons_of_error hw, runAnswer, hw]
      rfl
    | ok r =>
      rw [reports_cons_of_ok hw, runAnswer, hw]
      exact output_rest mode ws _

theorem runAnswer_singleton {w : String} {r : Report Label}
    (h : p.run (Label.word w) bound = .ok r) (mode : Mode) :
    runAnswer p bound mode [w] = .success (reportText mode (Label.word w) r) := by
  rw [runAnswer, h]
  simp [runAnswer.rest, Answer.after, Answer.success]

end WordMachines.CommandLine
