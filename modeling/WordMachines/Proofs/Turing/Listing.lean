import Mathlib.Tactic
import WordMachines.Proofs.Turing.RuleCount

/-!
# The listing of a program

The listing goes through the states and the tape alphabet, not through the rules. That it shows each
rule, and no rule twice, is due to the declarations: what a rule mentions is declared, and only
once. Nothing hangs on the texts, so states and cells may look alike.
-/

namespace WordMachines
namespace Program

variable {α : Type} [DecidableEq α] [Shown α]

/-- A heading, and a line for each rule of the state. -/
def stateText (p : Program α) (q : MachineState) : String :=
  "  " ++ shown q ++ ":\n" ++ String.join ((p.rulesOf q).map fun (c, r) =>
    "    " ++ shown c ++ " -> " ++ shown r.write ++ ", " ++ r.move.letter ++ ", " ++
      shown r.next ++ "\n")

theorem join_stateLines (p : Program α) (q : MachineState) :
    String.join ((p.stateLines q).map (· ++ "\n")) = p.stateText q := by
  simp [stateLines, stateText, ruleLine, Function.comp_def, String.append_assoc]

theorem join_flatMap_stateLines (p : Program α) (qs : List MachineState) :
    String.join ((qs.flatMap p.stateLines).map (· ++ "\n")) =
      String.join (qs.map p.stateText) := by
  induction qs with
  | nil => rfl
  | cons q qs ih => simp [join_stateLines, ih]

theorem listing_eq (p : Program α) :
    p.listing = "name: " ++ p.name ++ "\n" ++ "blank: _\n" ++ "start: " ++ shown p.start ++ "\n" ++
      "rules:\n" ++ String.join (p.states.map p.stateText) := by
  rw [listing, lines, List.map_append, String.join_append, join_flatMap_stateLines]
  apply String.toList_injective
  simp [Cell.blankText]

variable {p : Program α} {name : String} {start : MachineState} {es : List (Edit α)}

/-- Below its first four lines the listing shows each rule once, by the states and then by the cells
in the order of their declarations. -/
theorem listing_shows_each_rule_once (hp : p = (new name start).edits es) :
    p.listing = "name: " ++ name ++ "\n" ++ "blank: _\n" ++ "start: " ++ shown start ++ "\n" ++
        "rules:\n" ++ String.join (p.states.map fun q =>
          "  " ++ shown q ++ ":\n" ++ String.join ((p.rulesOf q).map fun (c, r) =>
            "    " ++ shown c ++ " -> " ++ shown r.write ++ ", " ++ r.move.letter ++ ", " ++
              shown r.next ++ "\n")) ∧
      (∀ q, (p.rulesOf q).map Prod.fst =
        p.tapeAlphabet.filter fun c => (p.action? q c).isSome) ∧
      (∀ q c r, (c, r) ∈ p.rulesOf q ↔ p.action? q c = some r) ∧
      p.listedPairs.Nodup ∧
      (∀ q c, (q, c) ∈ p.listedPairs ↔ (p.action? q c).isSome) ∧
      p.listedPairs.length = p.ruleCount := by
  have hcells : p.tapeAlphabet.Nodup := by
    rw [hp]
    exact nodup_tapeAlphabet_new_edits name start es
  have hclosed : p.Closed := by
    rw [hp]
    exact closed_new_edits name start es
  have hname : p.name = name := by
    rw [hp, name_edits]
    rfl
  have hstart : p.start = start := by
    rw [hp, start_edits]
    rfl
  refine ⟨?_, p.map_fst_rulesOf, ?_, nodup_listedPairs hcells, mem_listedPairs_iff hclosed,
    length_listedPairs hclosed hcells⟩
  · rw [listing_eq, hname, hstart]
    rfl
  · intro q c r
    rw [mem_rulesOf_iff]
    constructor
    · exact And.right
    · intro hr
      exact ⟨(hclosed q c r hr).2.1, hr⟩

/-- A state that reads like a halting one, and a symbol that reads like the blank. -/
def lookalikes : List (Edit Char) :=
  [.rule (.named "ACCEPT") (.symbol '_') ⟨.blank, .right, .accept⟩,
    .rule .accept .blank ⟨.blank, .stay, .accept⟩,
    .rule (.named "ACCEPT") .blank ⟨.symbol '_', .left, .named "ACCEPT"⟩,
    .rule .accept .blank ⟨.symbol '_', .stay, .reject⟩]

theorem lookalikes_listed :
    ∃ p, p = (new "lookalikes" (.named "ACCEPT")).edits lookalikes ∧
      p.listing = "name: lookalikes\nblank: _\nstart: ACCEPT\nrules:\n" ++
        "  ACCEPT:\n    _ -> _, R, ACCEPT\n    _ -> _, L, ACCEPT\n" ++
        "  ACCEPT:\n    _ -> _, S, REJECT\n" ++ "  REJECT:\n" ∧
      p.listedPairs = [(.named "ACCEPT", .symbol '_'), (.named "ACCEPT", .blank),
        (.accept, .blank)] ∧
      p.listedPairs.Nodup ∧ p.ruleCount = 3 := by
  obtain ⟨p, hp⟩ : ∃ p, p = (new "lookalikes" (.named "ACCEPT")).edits lookalikes := ⟨_, rfl⟩
  obtain ⟨hlisting, -, -, hnodup, -, hlength⟩ := listing_shows_each_rule_once hp
  have hpairs : p.listedPairs = [(.named "ACCEPT", .symbol '_'), (.named "ACCEPT", .blank),
      (.accept, .blank)] := by
    rw [hp]
    decide +kernel
  refine ⟨p, hp, ?_, hpairs, hnodup, ?_⟩
  · rw [hlisting, hp]
    decide +kernel
  · rw [← hlength, hpairs]
    rfl

end Program
end WordMachines
