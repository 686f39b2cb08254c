import Mathlib.Tactic
import WordMachines.Proofs.CommandLine.Agreement
import WordMachines.Proofs.Compile.Refusals
import WordMachines.Proofs.Dfa.ForeignWords

/-!
# The blocks that a run prints

The command `run` prints for each word what it would print for this word alone, with a separator
between two blocks. It goes on until a word has a code point that is no symbol, and then fails; what
it has printed is what it would print if the words ended there. A block ends its last line, so that
the separator makes an empty line, and a report in JSON is a single line.
-/

namespace WordMachines

open Json

def OnOneLine (cs : List Char) : Prop := '\n' ∉ cs

namespace OnOneLine

theorem append {cs ds : List Char} (hcs : OnOneLine cs) (hds : OnOneLine ds) :
    OnOneLine (cs ++ ds) := by
  rw [OnOneLine, List.mem_append, not_or]
  exact ⟨hcs, hds⟩

theorem cons {c : Char} (hc : c ≠ '\n') {cs : List Char} (hcs : OnOneLine cs) :
    OnOneLine (c :: cs) := by
  rw [OnOneLine, List.mem_cons, not_or]
  exact ⟨hc.symm, hcs⟩

theorem joined {items : List (List Char)} (h : ∀ x ∈ items, OnOneLine x) :
    OnOneLine (writeJoined items) := by
  induction items with
  | nil => exact List.not_mem_nil
  | cons x xs ih =>
    obtain ⟨hx, hxs⟩ := List.forall_mem_cons.mp h
    cases xs with
    | nil => exact hx
    | cons y ys => exact hx.append ((ih hxs).cons (by decide))

theorem list {items : List (List Char)} (h : ∀ x ∈ items, OnOneLine x) :
    OnOneLine (writeList items) :=
  ((joined h).append (by simp [OnOneLine])).cons (by decide)

theorem object {members : List (List Char × List Char)}
    (h : ∀ m ∈ members, OnOneLine m.1 ∧ OnOneLine m.2) : OnOneLine (writeObject members) := by
  have hmembers : ∀ x ∈ members.map fun m => m.1 ++ ':' :: m.2, OnOneLine x := by
    intro x hx
    obtain ⟨m, hm, rfl⟩ := List.mem_map.mp hx
    obtain ⟨hkey, hvalue⟩ := h m hm
    exact hkey.append (hvalue.cons (by decide))
  exact ((joined hmembers).append (by simp [OnOneLine])).cons (by decide)

end OnOneLine

theorem digitChar_ne_newline : ∀ n < 16, Nat.digitChar n ≠ '\n' := by decide

theorem onOneLine_controlEscape {c : Char} (h : c.toNat < 0x20) : OnOneLine (controlEscape c) := by
  have hhigh := digitChar_ne_newline (c.toNat / 16) (by omega)
  have hlow := digitChar_ne_newline (c.toNat % 16) (by omega)
  simp [OnOneLine, controlEscape, hhigh.symm, hlow.symm]

theorem onOneLine_escapeChar (c : Char) : OnOneLine (escapeChar c) := by
  unfold escapeChar
  split_ifs with hquote _ _ hnewline _ _ hcontrol
  · rcases hquote with rfl | rfl <;> simp [OnOneLine]
  · simp [OnOneLine]
  · simp [OnOneLine]
  · simp [OnOneLine]
  · simp [OnOneLine]
  · simp [OnOneLine]
  · exact onOneLine_controlEscape hcontrol
  · simp [OnOneLine, Ne.symm hnewline]

theorem onOneLine_writeText (text : String) : OnOneLine (writeText text) := by
  have hchars : OnOneLine (text.toList.flatMap escapeChar) := by
    intro hmem
    obtain ⟨c, -, hc⟩ := List.mem_flatMap.mp hmem
    exact onOneLine_escapeChar c hc
  exact (hchars.append (by simp [OnOneLine])).cons (by decide)

theorem onOneLine_toDigits (n : ℕ) : OnOneLine (Nat.toDigits 10 n) := by
  intro hmem
  exact absurd (Nat.isDigit_of_mem_toDigits (by omega) le_rfl hmem) (by decide)

theorem onOneLine_write_cell (c : Cell Label) : OnOneLine c.write := by
  cases c with
  | symbol a => exact onOneLine_writeText a.text
  | blank => simp [OnOneLine, Cell.write]

theorem onOneLine_write_cells (cs : List (Cell Label)) :
    OnOneLine (writeList (cs.map Cell.write)) := by
  apply OnOneLine.list
  intro x hx
  obtain ⟨c, -, rfl⟩ := List.mem_map.mp hx
  exact onOneLine_write_cell c

theorem onOneLine_write_snapshot (s : Snapshot Label) : OnOneLine s.write := by
  apply OnOneLine.object
  simp [onOneLine_writeText, onOneLine_toDigits, onOneLine_write_cells]

theorem onOneLine_write_snapshots (ss : List (Snapshot Label)) :
    OnOneLine (writeList (ss.map Snapshot.write)) := by
  apply OnOneLine.list
  intro x hx
  obtain ⟨s, -, rfl⟩ := List.mem_map.mp hx
  exact onOneLine_write_snapshot s

namespace CommandLine

variable {p : Program Label} {bound : ℕ}

theorem Tells.exists_eq_line {word verdict block : String} {steps : ℕ} {mode : Mode}
    (h : Tells word verdict steps mode block) (hverdict : OnOneLine verdict.toList) :
    ∃ text, block = line text ∧ (mode = .json → OnOneLine text.toList) := by
  cases h with
  | plain tape => exact ⟨_, rfl, nofun⟩
  | debug trace tape => exact ⟨_, rfl, nofun⟩
  | json tape trace =>
    have hsteps := onOneLine_toDigits steps
    have htape := onOneLine_write_cells tape
    have htrace := onOneLine_write_snapshots trace
    refine ⟨_, rfl, fun _ => ?_⟩
    rw [OnOneLine] at *
    simp [hverdict, hsteps, htape, htrace, Nat.repr_eq_ofList_toDigits]

theorem onOneLine_shown (v : Verdict) : OnOneLine (shown v).toList := by
  rw [OnOneLine]
  cases v <;> decide

theorem status_rest (mode : Mode) (ws : List String) :
    (runAnswer.rest p bound mode ws).status = if ws.all (isRun p bound) then 0 else 1 := by
  induction ws with
  | nil => rfl
  | cons w ws ih =>
    cases hw : p.run (Label.word w) bound with
    | error e => simp [runAnswer.rest, hw, Answer.failure, isRun_of_error hw]
    | ok r => simp [runAnswer.rest, hw, Answer.after, ih, isRun_of_ok hw]

theorem status_runAnswer (mode : Mode) (ws : List String) :
    (runAnswer p bound mode ws).status = if ws.all (isRun p bound) then 0 else 1 := by
  rw [← status_rest mode ws]
  cases ws with
  | nil => rfl
  | cons w ws =>
    rw [runAnswer, runAnswer.rest]
    cases p.run (Label.word w) bound <;> rfl

theorem blocks_reports {ws : List String} (h : ∀ w ∈ ws, isRun p bound w) (mode : Mode) :
    blocks mode (reports p bound ws) = ws.map fun w => (runAnswer p bound mode [w]).output := by
  induction ws with
  | nil => rfl
  | cons w ws ih =>
    obtain ⟨hw, hws⟩ := List.forall_mem_cons.mp h
    obtain ⟨r, hr⟩ := isRun_iff.mp hw
    rw [reports_cons_of_ok hr, List.map_cons, runAnswer_singleton hr, ← ih hws]
    rfl

/-- Nothing is reported from the first word on that is refused. -/
theorem reports_append_of_error {before : List String} {w : String} {e : StartError}
    (hw : p.run (Label.word w) bound = .error e) (after : List String) :
    reports p bound (before ++ w :: after) = reports p bound before := by
  induction before with
  | nil => exact reports_cons_of_error hw after
  | cons v before ih =>
    cases hv : p.run (Label.word v) bound with
    | error e' =>
      rw [List.cons_append, reports_cons_of_error hv, reports_cons_of_error hv]
    | ok r => rw [List.cons_append, reports_cons_of_ok hv, reports_cons_of_ok hv, ih]

theorem runAnswer_eq (mode : Mode) (ws : List String) :
    runAnswer p bound mode ws =
      ⟨if ws.all (isRun p bound) then 0 else 1, printed mode (reports p bound ws)⟩ := by
  rw [← status_runAnswer mode, ← output_runAnswer]

theorem runAnswer_of_isRun {ws : List String} (h : ∀ w ∈ ws, isRun p bound w) (mode : Mode) :
    runAnswer p bound mode ws = .success ((separator mode).intercalate
      (ws.map fun w => (runAnswer p bound mode [w]).output)) := by
  rw [runAnswer_eq, if_pos (List.all_eq_true.mpr h), printed, blocks_reports h, Answer.success]

theorem runAnswer_of_not_isRun {before : List String} {w : String} (hw : ¬ isRun p bound w)
    (after : List String) (mode : Mode) :
    runAnswer p bound mode (before ++ w :: after) =
      ⟨1, (runAnswer p bound mode before).output⟩ := by
  obtain ⟨e, he⟩ := not_isRun_iff.mp hw
  have hall : ¬ (before ++ w :: after).all (isRun p bound) := by simp [hw]
  rw [runAnswer_eq, if_neg hall, reports_append_of_error he, output_runAnswer]

variable {input : String} {s : Source} {d : ValidDfa Label Label}

/-- The block of a word is what the command prints for this word alone, the report of its run. -/
theorem run_prints_blocks (h : s.loadValid? input = some d) (wording : Wording) (bound : ℕ)
    (mode : Mode) (ws : List String) :
    ((∀ w ∈ ws, Label.word w ⊆ d.alphabet) →
        (Task.run s ws bound mode).answer wording input =
          .success ((if mode = .json then "" else line "").intercalate
            (ws.map fun w => ((Task.run s [w] bound mode).answer wording input).output))) ∧
      ((∃ w ∈ ws, ¬ Label.word w ⊆ d.alphabet) →
        ∃ before w after, ws = before ++ w :: after ∧
          (∀ v ∈ before, Label.word v ⊆ d.alphabet) ∧ ¬ Label.word w ⊆ d.alphabet ∧
          (Task.run s ws bound mode).answer wording input =
            ⟨1, ((Task.run s before bound mode).answer wording input).output⟩) ∧
      ∀ w, Label.word w ⊆ d.alphabet →
        ∃ r text, d.compile.run (Label.word w) bound = .ok r ∧
          reportText mode (Label.word w) r = line text ∧
          (Task.run s [w] bound mode).answer wording input = .success (line text) ∧
          (mode = .json → OnOneLine text.toList) := by
  have hseparator : separator mode = if mode = .json then "" else line "" := by
    cases mode <;> rfl
  simp only [answer_run h, ← isRun_compile_iff d bound, ← hseparator]
  refine ⟨fun hall => runAnswer_of_isRun hall mode, ?_, ?_⟩
  · intro hfails
    obtain ⟨before, w, after, rfl, hbefore, hw⟩ := exists_first_not hfails
    exact ⟨before, w, after, rfl, hbefore, hw, runAnswer_of_not_isRun hw after mode⟩
  · intro w hw
    obtain ⟨r, hr⟩ := isRun_iff.mp hw
    obtain ⟨text, htext, hline⟩ := (tells_reportText w r mode).exists_eq_line (onOneLine_shown _)
    exact ⟨r, text, hr, htext, by rw [runAnswer_singleton hr, htext], hline⟩

/-- The second word has a foreign symbol, and the third is not come to. -/
theorem accented_blocks :
    ∃ d, accented.loadValid? "" = some d ∧
      (∀ w ∈ ["é", "éé"], Label.word w ⊆ d.alphabet) ∧
      (∃ w ∈ ["é", "e", "éé"], ¬ Label.word w ⊆ d.alphabet) ∧
      (Task.run accented ["é", "éé"] 5 .plain).answer .bare "" = .success ((line "").intercalate
        (["é", "éé"].map fun w => ((Task.run accented [w] 5 .plain).answer .bare "").output)) ∧
      (Task.run accented ["é", "e", "éé"] 5 .plain).answer .bare "" =
        ⟨1, ((Task.run accented ["é"] 5 .plain).answer .bare "").output⟩ := by
  have halphabet : (accented.loadValid? "").map (·.alphabet) = some [⟨"é"⟩] := by
    decide +kernel
  obtain ⟨d, hload, hd⟩ := Option.map_eq_some_iff.mp halphabet
  have hknown : Label.word "é" ⊆ d.alphabet := by
    rw [hd]
    decide +kernel
  have hforeign : ¬ Label.word "e" ⊆ d.alphabet := by
    rw [hd]
    decide +kernel
  have hall : ∀ w ∈ ["é", "éé"], Label.word w ⊆ d.alphabet := by
    rw [hd]
    decide +kernel
  have hfails : ∃ w ∈ ["é", "e", "éé"], ¬ Label.word w ⊆ d.alphabet := ⟨"e", by simp, hforeign⟩
  have hblocks := (run_prints_blocks hload .bare 5 .plain ["é", "éé"]).1 hall
  rw [if_neg (by decide)] at hblocks
  refine ⟨d, hload, hall, hfails, hblocks, ?_⟩
  obtain ⟨before, w, after, hws, hbefore, hw, hanswer⟩ :=
    (run_prints_blocks hload .bare 5 .plain _).2.1 hfails
  rcases before with _ | ⟨v, _ | ⟨u, before⟩⟩
  · obtain ⟨rfl, -⟩ := List.cons.inj hws
    exact absurd hknown hw
  · obtain ⟨rfl, -⟩ := List.cons.inj hws
    exact hanswer
  · obtain ⟨-, htail⟩ := List.cons.inj hws
    obtain ⟨rfl, -⟩ := List.cons.inj htail
    exact absurd (hbefore "e" (by simp)) hforeign

end CommandLine

end WordMachines
