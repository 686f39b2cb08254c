import Mathlib.Tactic
import WordMachines.Proofs.Compile.Quotient
import WordMachines.Proofs.Turing.RuleCount

/-!
# The shape of a compiled automaton

Each text of a state has a full row, one rule for each symbol and one for the blank, whichever of the
states with this text the rules are from, and the halting states have none. So there are as many
rules as texts, times one more than symbols.
-/

namespace WordMachines

namespace ValidDfa

variable {S A : Type} [DecidableEq S] [DecidableEq A] [Shown S] (d : ValidDfa S A)

theorem action?_compile_of_isHalting {s : MachineState} (hs : s.isHalting) (c : Cell A) :
    d.compile.action? s c = none := by
  have hnone : d.states.reverse.find? (s = .of ·) = none := by
    rw [List.find?_eq_none]
    rintro q - hq
    rw [of_decide_eq_true hq] at hs
    exact Bool.false_ne_true hs
  rw [action?_compile, hnone, Option.bind_none]

theorem exists_of_action?_compile {s : MachineState} {c : Cell A} {r : Action A}
    (h : d.compile.action? s c = some r) :
    ∃ q ∈ d.states, s = .of q ∧ d.actionOf? q c = some r := by
  rw [action?_compile] at h
  obtain ⟨q, hq, hr⟩ := Option.bind_eq_some_iff.mp h
  have hmem := List.mem_reverse.mp (List.mem_of_find?_eq_some hq)
  exact ⟨q, hmem, by simpa using List.find?_some hq, hr⟩

theorem action?_compile_isSome_iff (s : MachineState) (c : Cell A) :
    (d.compile.action? s c).isSome ↔
      (∃ t, s = .named t) ∧ s ∈ d.compile.states ∧ c ∈ d.compile.tapeAlphabet := by
  constructor
  · intro h
    obtain ⟨r, hr⟩ := Option.isSome_iff_exists.mp h
    obtain ⟨q, -, hs, -⟩ := d.exists_of_action?_compile hr
    obtain ⟨hstate, hcell, -, -⟩ := d.closed_compile s c r hr
    exact ⟨⟨shown q, hs⟩, hstate, hcell⟩
  · rintro ⟨⟨t, rfl⟩, hstate, hcell⟩
    obtain ⟨q, hq, rfl⟩ := (d.mem_states_compile_iff t).mp hstate
    obtain ⟨r, hr⟩ := d.exists_representative? hq
    have hmem := (d.representative?_eq_some hr).1
    rw [action?_compile_named, hr, Option.bind_some]
    exact d.actionOf?_isSome hmem ((d.mem_tapeAlphabet_compile_iff c).mp hcell)

/-- A rule for a symbol puts it back, moves on and keeps a state of the automaton. -/
theorem symbolRule_compile {s : MachineState} {a : A} {r : Action A}
    (h : d.compile.action? s (.symbol a) = some r) :
    r.write = .symbol a ∧ r.move = .right ∧ (∃ t, r.next = .named t) ∧
      r.next ∈ d.compile.states := by
  obtain ⟨q, -, -, hrule⟩ := d.exists_of_action?_compile h
  obtain ⟨-, -, -, hnext⟩ := d.closed_compile s _ r h
  simp only [Dfa.actionOf?] at hrule
  split_ifs at hrule
  obtain ⟨t, -, rfl⟩ := Option.map_eq_some_iff.mp hrule
  exact ⟨rfl, rfl, ⟨shown t, rfl⟩, hnext⟩

/-- A rule for the blank leaves tape and head alone and decides. -/
theorem blankRule_compile {s : MachineState} {r : Action A}
    (h : d.compile.action? s .blank = some r) :
    r.write = .blank ∧ r.move = .stay ∧ (r.next = .accept ∨ r.next = .reject) := by
  obtain ⟨q, -, -, hrule⟩ := d.exists_of_action?_compile h
  obtain rfl := Option.some.inj hrule
  refine ⟨rfl, rfl, ?_⟩
  by_cases hq : d.isAccepting q <;> simp [hq]

theorem row_compile_of_isHalting {s : MachineState} (hs : s.isHalting) : d.compile.row s = ∅ :=
  FinMap.eq_empty_of_get? (d.action?_compile_of_isHalting hs)

theorem nodup_tapeAlphabet_compile : d.compile.tapeAlphabet.Nodup :=
  Program.nodup_tapeAlphabet_new_edits _ _ _

theorem length_rulesOf_compile {t : String} (ht : .named t ∈ d.compile.states) :
    (d.compile.rulesOf (.named t)).length = d.alphabet.length + 1 := by
  have hall : ∀ c ∈ d.compile.tapeAlphabet, (d.compile.action? (.named t) c).isSome :=
    fun c hc => (d.action?_compile_isSome_iff _ c).mpr ⟨⟨t, rfl⟩, ht, hc⟩
  rw [Program.length_rulesOf, List.countP_eq_length.mpr hall, tapeAlphabet_compile]
  simp

theorem length_rulesOf_compile_of_isHalting {s : MachineState} (hs : s.isHalting) :
    (d.compile.rulesOf s).length = 0 := by
  simp [Program.length_rulesOf, d.action?_compile_of_isHalting hs]

theorem ruleCount_compile :
    d.compile.ruleCount = (d.states.map shown).eraseDups.length * (d.alphabet.length + 1) := by
  have hnamed : ∀ t ∈ (d.states.map shown).eraseDups,
      (d.compile.rulesOf (.named t)).length = d.alphabet.length + 1 := by
    intro t ht
    apply d.length_rulesOf_compile
    rw [mem_states_compile_iff]
    simpa using ht
  have haccept := d.length_rulesOf_compile_of_isHalting (s := .accept) rfl
  have hreject := d.length_rulesOf_compile_of_isHalting (s := .reject) rfl
  rw [Program.ruleCount_eq_sum_length d.closed_compile d.nodup_tapeAlphabet_compile, states_compile,
    List.map_append, List.map_map, List.sum_append, Function.comp_def,
    List.map_congr_left hnamed]
  simp [haccept, hreject]

/-- There is one rule for each text of a state and each cell: a symbol stays as it is and the head
moves on, and the blank decides. -/
theorem compile_shape :
    (d.compile.states = (d.states.map shown).eraseDups.map .named ++ [.accept, .reject] ∧
        d.compile.states.Nodup) ∧
      d.compile.tapeAlphabet = d.alphabet.map .symbol ++ [.blank] ∧
      (∀ s c, (d.compile.action? s c).isSome ↔
        (∃ t, s = .named t) ∧ s ∈ d.compile.states ∧ c ∈ d.compile.tapeAlphabet) ∧
      (d.compile.row .accept = ∅ ∧ d.compile.row .reject = ∅) ∧
      (∀ s a r, d.compile.action? s (.symbol a) = some r →
        r.write = .symbol a ∧ r.move = .right ∧ (∃ t, r.next = .named t) ∧
          r.next ∈ d.compile.states) ∧
      (∀ s r, d.compile.action? s .blank = some r →
        r.write = .blank ∧ r.move = .stay ∧ (r.next = .accept ∨ r.next = .reject)) ∧
      d.compile.ruleCount = (d.states.map shown).eraseDups.length * (d.alphabet.length + 1) := by
  refine ⟨⟨d.states_compile, d.compile.rules.nodup_keys⟩, d.tapeAlphabet_compile,
    d.action?_compile_isSome_iff, ⟨?_, ?_⟩, ?_, ?_, d.ruleCount_compile⟩
  · exact d.row_compile_of_isHalting rfl
  · exact d.row_compile_of_isHalting rfl
  · intro s a r
    exact d.symbolRule_compile
  · intro s r
    exact d.blankRule_compile

/-- Two states that read `1`, and one that reads like a halting state. -/
def namesakes : ValidDfa Mixed Char where
  states := [.number 1, .text "ACCEPT", .text "1"]
  alphabet := ['b', 'a']
  transitions := .ofTriples
    [(.number 1, 'a', .number 1), (.number 1, 'b', .text "1"), (.text "ACCEPT", 'a', .number 1),
      (.text "ACCEPT", 'b', .text "ACCEPT"), (.text "1", 'a', .text "ACCEPT"),
      (.text "1", 'b', .number 1)]
  start := .text "1"
  accept := [.text "1"]
  wellFormed := (Dfa.firstDefect?_eq_none_iff _).mp (by decide +kernel)

/-- Of the rules of the first state that reads `1` none is left: its own would stay there on `a`. -/
theorem namesakes_shape :
    namesakes.compile.states = [.named "1", .named "ACCEPT", .accept, .reject] ∧
      namesakes.compile.ruleCount = 6 ∧
      (∃ r, namesakes.compile.action? (.named "1") (.symbol 'a') = some r ∧ r.write = .symbol 'a' ∧
        r.move = .right ∧ r.next = .named "ACCEPT") ∧
      ∃ r, namesakes.compile.action? (.named "1") .blank = some r ∧ r.write = .blank ∧
        r.move = .stay ∧ r.next = .accept := by
  obtain ⟨⟨hstates, -⟩, hcells, hrules, -, hsymbol, hblank, hcount⟩ := namesakes.compile_shape
  have hstates' : namesakes.compile.states = [.named "1", .named "ACCEPT", .accept, .reject] :=
    hstates.trans (by decide +kernel)
  have hone : .named "1" ∈ namesakes.compile.states := by
    rw [hstates']
    decide
  have hmem : .symbol 'a' ∈ namesakes.compile.tapeAlphabet ∧
      .blank ∈ namesakes.compile.tapeAlphabet := by
    rw [hcells]
    decide
  obtain ⟨r, hr⟩ := Option.isSome_iff_exists.mp ((hrules _ _).mpr ⟨⟨"1", rfl⟩, hone, hmem.1⟩)
  obtain ⟨u, hu⟩ := Option.isSome_iff_exists.mp ((hrules _ _).mpr ⟨⟨"1", rfl⟩, hone, hmem.2⟩)
  have hnext : (namesakes.compile.action? (.named "1") (.symbol 'a')).map Action.next =
      some (.named "ACCEPT") := by decide +kernel
  have hhalt : (namesakes.compile.action? (.named "1") .blank).map Action.next =
      some .accept := by decide +kernel
  rw [hr] at hnext
  rw [hu] at hhalt
  obtain ⟨hwrite, hmove, -⟩ := hsymbol _ _ _ hr
  obtain ⟨hwrite', hmove', -⟩ := hblank _ _ hu
  exact ⟨hstates', hcount.trans (by decide +kernel),
    ⟨r, hr, hwrite, hmove, Option.some.inj hnext⟩, u, hu, hwrite', hmove', Option.some.inj hhalt⟩

end ValidDfa
end WordMachines
