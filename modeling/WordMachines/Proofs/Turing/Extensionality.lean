import Mathlib.Tactic
import WordMachines.Proofs.Turing.RuleCount

/-!
# Programs that are equal

The rules are kept in rows, and programs are compared row by row, empty rows included. Since a state
has a row just if it is declared, two programs are equal as soon as they declare the same states and
cells in the same order and give every pair of them the same action. So the order of two edits may
matter for what is declared first, but not for the rules, unless both are for one pair.
-/

namespace WordMachines

namespace FinMap

variable {α β : Type} [DecidableEq α]

theorem putEntry_of_lookup {k : α} {v : β} {es : List (α × β)} (h : es.lookup k = some v) :
    putEntry k v es = es := by
  induction es with
  | nil => cases h
  | cons e es ih =>
    obtain ⟨k', v'⟩ := e
    by_cases hk : k' = k
    · subst hk
      obtain rfl : v' = v := by simpa using h
      simp [putEntry]
    · rw [lookup_cons_of_ne (Ne.symm hk)] at h
      rw [putEntry, if_neg hk, ih h]

/-- To give a key the value it has changes nothing, not even the order of the keys. -/
theorem insert_of_get? {m : FinMap α β} {k : α} {v : β} (h : m.get? k = some v) :
    m.insert k v = m :=
  eq_of_entries_eq (putEntry_of_lookup h)

end FinMap

theorem foldl_mention_of_subset {β : Type} [DecidableEq β] {xs ys : List β} (h : ys ⊆ xs) :
    ys.foldl mention xs = xs := by
  induction ys with
  | nil => rfl
  | cons y ys ih =>
    obtain ⟨hy, hys⟩ := List.cons_subset.mp h
    rw [List.foldl_cons, mention, if_pos hy, ih hys]

namespace Program

variable {α : Type} (p : Program α)

theorem get?_rules_of_mem {q : MachineState} (hq : q ∈ p.states) :
    p.rules.get? q = some (p.row q) := by
  obtain ⟨row, hrow⟩ := Option.isSome_iff_exists.mp ((p.mem_states_iff q).mp hq)
  rw [Program.row, hrow, Option.getD_some]

theorem get?_rules_of_not_mem {q : MachineState} (hq : q ∉ p.states) : p.rules.get? q = none := by
  simpa [hasState, FinMap.contains] using mt (p.mem_states_iff q).mpr hq

variable [DecidableEq α]

theorem action?_of_not_mem {q : MachineState} (hq : q ∉ p.states) (c : Cell α) :
    p.action? q c = none := by
  rw [action?, Program.row, p.get?_rules_of_not_mem hq]
  rfl

/-- Rows need not be looked at as such, since the same states have one. -/
theorem rules_beq_iff {p p' : Program α} (h : p.states = p'.states) :
    p.rules == p'.rules ↔ ∀ q c, p.action? q c = p'.action? q c := by
  have hrows (q : MachineState) : p.row q == p'.row q ↔ ∀ c, p.action? q c = p'.action? q c := by
    rw [FinMap.beq_iff]
    exact forall_congr' fun c => beq_iff_eq
  rw [FinMap.beq_iff]
  apply forall_congr'
  intro q
  rw [← hrows]
  by_cases hq : q ∈ p.states
  · rw [p.get?_rules_of_mem hq, p'.get?_rules_of_mem (h ▸ hq)]
    rfl
  · have hq' : q ∉ p'.states := h ▸ hq
    have hnone : p.row q == p'.row q := by
      rw [hrows]
      intro c
      rw [p.action?_of_not_mem hq, p'.action?_of_not_mem hq']
    simp [p.get?_rules_of_not_mem hq, p'.get?_rules_of_not_mem hq', hnone]

theorem beq_iff (p p' : Program α) :
    p == p' ↔ p.name = p'.name ∧ p.start = p'.start ∧ p.states = p'.states ∧
      p.tapeAlphabet = p'.tapeAlphabet ∧ ∀ q c, p.action? q c = p'.action? q c := by
  change (p.name == p'.name && p.start == p'.start && p.states == p'.states &&
    p.tapeAlphabet == p'.tapeAlphabet && p.rules == p'.rules) = true ↔ _
  simp only [Bool.and_eq_true, beq_iff_eq, and_assoc]
  apply and_congr_right'
  apply and_congr_right'
  apply and_congr_right
  intro hstates
  exact and_congr_right' (rules_beq_iff hstates)

end Program

/-- With the states listed apart there is a third list to compare. -/
instance {α : Type} [DecidableEq α] : BEq (ListedProgram α) where
  beq p p' := p.states == p'.states && p.tapeAlphabet == p'.tapeAlphabet && p.rules == p'.rules

namespace Program

variable {α : Type} [DecidableEq α] (p : Program α)

theorem beq_iff_listed (p p' : Program α) :
    p == p' ↔ p.name = p'.name ∧ p.start = p'.start ∧ p.listed == p'.listed := by
  change (p.name == p'.name && p.start == p'.start && p.states == p'.states &&
    p.tapeAlphabet == p'.tapeAlphabet && p.rules == p'.rules) = true ↔ _ ∧ _ ∧
      (p.states == p'.states && p.tapeAlphabet == p'.tapeAlphabet && p.rules == p'.rules) = true
  simp only [Bool.and_eq_true, beq_iff_eq, and_assoc]

/-- All that the edit mentions is declared. -/
def Declares (e : Edit α) : Prop := e.states ⊆ p.states ∧ e.cells ⊆ p.tapeAlphabet

theorem declares_edit (e : Edit α) : (p.edit e).Declares e := by
  constructor
  · intro q hq
    rw [mem_states_iff, hasState_edit]
    exact Or.inr hq
  · intro c hc
    rw [mem_tapeAlphabet_edit]
    exact Or.inr hc

variable {p} {e e' : Edit α}

theorem states_edit_of_declares (h : p.Declares e) : (p.edit e).states = p.states := by
  rw [states_edit, foldl_mention_of_subset h.1]

theorem tapeAlphabet_edit_of_declares (h : p.Declares e) :
    (p.edit e).tapeAlphabet = p.tapeAlphabet := by
  rw [tapeAlphabet_edit, foldl_mention_of_subset h.2]

theorem Declares.edit (h : p.Declares e) (h' : p.Declares e') : (p.edit e).Declares e' := by
  unfold Declares
  rwa [states_edit_of_declares h, tapeAlphabet_edit_of_declares h]

/-- Edits that mention nothing new and give no pair two rules can be made in either order. -/
theorem edit_edit_beq (h : p.Declares e) (h' : p.Declares e')
    (hpairs : ∀ q c, e.action? q c = none ∨ e'.action? q c = none) :
    (p.edit e).edit e' == (p.edit e').edit e := by
  rw [beq_iff]
  refine ⟨by simp, by simp, ?_, ?_, ?_⟩
  · rw [states_edit_of_declares (h.edit h'), states_edit_of_declares (h'.edit h),
      states_edit_of_declares h, states_edit_of_declares h']
  · rw [tapeAlphabet_edit_of_declares (h.edit h'), tapeAlphabet_edit_of_declares (h'.edit h),
      tapeAlphabet_edit_of_declares h, tapeAlphabet_edit_of_declares h']
  · intro q c
    simp only [action?_edit]
    rcases hpairs q c with hnone | hnone <;> simp [hnone]

omit [DecidableEq α] in
theorem addState_of_mem {q : MachineState} (hq : q ∈ p.states) : p.addState q = p :=
  if_pos ((p.mem_states_iff q).mp hq)

theorem addSymbol_of_mem {c : Cell α} (hc : c ∈ p.tapeAlphabet) : p.addSymbol c = p := if_pos hc

theorem declareRule_of_declares {q : MachineState} {c : Cell α} {r : Action α}
    (h : p.Declares (.rule q c r)) : p.declareRule q c r = p := by
  obtain ⟨hstates, hcells⟩ := h
  have hq : q ∈ p.states := hstates (by simp [Edit.states])
  have hnext : r.next ∈ p.states := hstates (by simp [Edit.states])
  have hc : c ∈ p.tapeAlphabet := hcells (by simp [Edit.cells])
  have hwrite : r.write ∈ p.tapeAlphabet := hcells (by simp [Edit.cells])
  rw [declareRule, addState_of_mem hq, addState_of_mem hnext, addSymbol_of_mem hc,
    addSymbol_of_mem hwrite]

theorem addRule_of_action? {q : MachineState} {c : Cell α} {r : Action α}
    (h : p.Declares (.rule q c r)) (hr : p.action? q c = some r) : p.addRule q c r = p := by
  have hq : q ∈ p.states := h.1 (by simp [Edit.states])
  have hrow : (p.row q).insert c r = p.row q := FinMap.insert_of_get? hr
  have hrules : p.rules.insert q (p.row q) = p.rules :=
    FinMap.insert_of_get? (p.get?_rules_of_mem hq)
  rw [addRule_eq, declareRule_of_declares h, hrow, hrules]

/-- An edit made again at once changes nothing. -/
theorem edit_edit_self (p : Program α) (e : Edit α) : (p.edit e).edit e = p.edit e := by
  have hdeclared := p.declares_edit e
  cases e with
  | state q => exact addState_of_mem (hdeclared.1 (by simp [Edit.states]))
  | symbol c => exact addSymbol_of_mem (hdeclared.2 (by simp [Edit.cells]))
  | rule q c r =>
    apply addRule_of_action? hdeclared
    simp [edit, action?_addRule]

/-- The pair that an edit gives a rule. -/
def Edit.pair? : Edit α → Option (MachineState × Cell α)
  | .rule q c _ => some (q, c)
  | _ => none

theorem Edit.action?_eq_none_iff (e : Edit α) (q : MachineState) (c : Cell α) :
    e.action? q c = none ↔ ∀ r, e ≠ .rule q c r := by
  simp only [Option.eq_none_iff_forall_ne_some, ne_eq, action?_eq_some_iff]

omit [DecidableEq α] in
theorem Edit.mem_filterMap_pair? (es : List (Edit α)) (q : MachineState) (c : Cell α) :
    (q, c) ∈ es.filterMap Edit.pair? ↔ ∃ r, .rule q c r ∈ es := by
  rw [List.mem_filterMap]
  constructor
  · rintro ⟨e, he, hpair⟩
    cases e with
    | rule q' c' r =>
      cases hpair
      exact ⟨r, he⟩
    | _ => cases hpair
  · rintro ⟨r, hr⟩
    exact ⟨_, hr, rfl⟩

section NewEdits

variable (name : String) (start : MachineState) (es : List (Edit α))

/-- The rule is given by some edit, and no later one gives the pair another. -/
theorem action?_new_edits_eq_some_iff (q : MachineState) (c : Cell α) (r : Action α) :
    ((new name start).edits es).action? q c = some r ↔
      ∃ before after, es = before ++ .rule q c r :: after ∧ ∀ r', .rule q c r' ∉ after := by
  have hnew : (new name start : Program α).action? q c = none := rfl
  rw [action?_edits, hnew, Option.or_none, List.findSome?_eq_some_iff]
  simp only [Edit.action?_eq_some_iff, Edit.action?_eq_none_iff]
  constructor
  · rintro ⟨after, _, before, hes, rfl, hafter⟩
    refine ⟨before.reverse, after.reverse, ?_, ?_⟩
    · rw [← List.reverse_reverse es, hes]
      simp
    · intro r' hr'
      exact hafter _ (List.mem_reverse.mp hr') r' rfl
  · rintro ⟨before, after, rfl, hafter⟩
    refine ⟨after.reverse, _, before.reverse, by simp, rfl, ?_⟩
    rintro _ he r' rfl
    exact hafter r' (List.mem_reverse.mp he)

theorem action?_new_edits_eq_none_iff (q : MachineState) (c : Cell α) :
    ((new name start).edits es).action? q c = none ↔ ∀ r, .rule q c r ∉ es := by
  have hnew : (new name start : Program α).action? q c = none := rfl
  rw [action?_edits, hnew, Option.or_none, List.findSome?_eq_none_iff]
  simp only [Edit.action?_eq_none_iff, List.mem_reverse]
  constructor
  · intro h r hr
    exact h _ hr r rfl
  · rintro h _ he r rfl
    exact h r he

theorem ruleCount_new_edits :
    ((new name start).edits es).ruleCount = (es.filterMap Edit.pair?).toFinset.card := by
  have hclosed : ((new name start).edits es).Closed := closed_new_edits name start es
  have hcells := nodup_tapeAlphabet_new_edits name start es
  have hpairs : ((new name start).edits es).listedPairs.toFinset =
      (es.filterMap Edit.pair?).toFinset := by
    ext ⟨q, c⟩
    rw [List.mem_toFinset, List.mem_toFinset, mem_listedPairs_iff hclosed,
      Edit.mem_filterMap_pair?, Option.isSome_iff_ne_none, ne_eq, action?_new_edits_eq_none_iff]
    push Not
    rfl
  rw [← length_listedPairs hclosed hcells, ← hpairs,
    List.toFinset_card_of_nodup (nodup_listedPairs hcells)]

end NewEdits

variable {name : String} {start : MachineState} {es : List (Edit α)}

/-- Programs are equal if they have the same name and start, declare the same in the same order and
act alike, however their rules came about. -/
theorem rules_form_finite_map (hp : p = (new name start).edits es) :
    (∀ q c r, p.action? q c = some r ↔
        ∃ before after, es = before ++ .rule q c r :: after ∧ ∀ r', .rule q c r' ∉ after) ∧
      (∀ q c, p.action? q c = none ↔ ∀ r, .rule q c r ∉ es) ∧
      p.ruleCount = (es.filterMap Edit.pair?).toFinset.card ∧
      (∀ name' start' es' p', p' = (new name' start').edits es' →
        (p == p' ↔ p.name = p'.name ∧ p.start = p'.start ∧ p.states = p'.states ∧
          p.tapeAlphabet = p'.tapeAlphabet ∧ ∀ q c, p.action? q c = p'.action? q c) ∧
        (p == p' ↔ name = name' ∧ start = start' ∧
          (∅ : ListedProgram α).edits es == (∅ : ListedProgram α).edits es')) ∧
      (∀ q c r q' c' r', (q, c) ≠ (q', c') → p.Declares (.rule q c r) →
        p.Declares (.rule q' c' r') →
        (p.addRule q c r).addRule q' c' r' == (p.addRule q' c' r').addRule q c r) ∧
      ∀ e, (p.edit e).edit e = p.edit e := by
  refine ⟨?_, ?_, ?_, ?_, ?_, p.edit_edit_self⟩
  · rw [hp]
    exact action?_new_edits_eq_some_iff name start es
  · rw [hp]
    exact action?_new_edits_eq_none_iff name start es
  · rw [hp, ruleCount_new_edits]
  · rintro name' start' es' p' rfl
    refine ⟨p.beq_iff _, ?_⟩
    rw [hp, beq_iff_listed, listed_edits, listed_edits, name_edits, name_edits, start_edits,
      start_edits]
    rfl
  · intro q c r q' c' r' hne h h'
    apply edit_edit_beq h h'
    intro s b
    simp only [Edit.action?_eq_none_iff]
    by_contra hboth
    push Not at hboth
    obtain ⟨⟨_, hs⟩, _, hs'⟩ := hboth
    cases hs
    cases hs'
    exact hne rfl

/-- All that two rules for `q` mention, and a rule that is given again in between. -/
def seesaw : List (Edit Char) :=
  [.state (.named "q"), .symbol (.symbol 'a'), .rule (.named "r") .blank ⟨.blank, .stay, .accept⟩,
    .symbol .blank, .rule (.named "r") .blank ⟨.symbol 'a', .left, .named "q"⟩]

/-- The rules of `q` come in the order in which they are given, which equality does not see. It sees
a state that is declared for nothing. -/
theorem seesaw_commutes :
    ∃ p p₁ p₂ p₃, p = (new "seesaw" (.named "q")).edits seesaw ∧
      p₁ = (p.addRule (.named "q") .blank ⟨.blank, .right, .accept⟩).addRule (.named "q")
        (.symbol 'a') ⟨.symbol 'a', .stay, .named "r"⟩ ∧
      p₂ = (p.addRule (.named "q") (.symbol 'a') ⟨.symbol 'a', .stay, .named "r"⟩).addRule
        (.named "q") .blank ⟨.blank, .right, .accept⟩ ∧
      p₁ == p₂ ∧ (p₁.row (.named "q")).keys ≠ (p₂.row (.named "q")).keys ∧
      p.action? (.named "r") .blank = some ⟨.symbol 'a', .left, .named "q"⟩ ∧ p.ruleCount = 1 ∧
      p₃ = (new "seesaw" (.named "q")).edits (seesaw ++ [.state (.named "s")]) ∧ ¬ p == p₃ := by
  obtain ⟨p, hp⟩ : ∃ p, p = (new "seesaw" (.named "q")).edits seesaw := ⟨_, rfl⟩
  obtain ⟨haction, -, hcount, hequal, hcommute, -⟩ := rules_form_finite_map hp
  have hblank : p.Declares (.rule (.named "q") .blank ⟨.blank, .right, .accept⟩) := by
    rw [hp]
    exact ⟨by decide +kernel, by decide +kernel⟩
  have hsymbol : p.Declares (.rule (.named "q") (.symbol 'a')
      ⟨.symbol 'a', .stay, .named "r"⟩) := by
    rw [hp]
    exact ⟨by decide +kernel, by decide +kernel⟩
  refine ⟨p, _, _, _, hp, rfl, rfl, hcommute _ _ _ _ _ _ (by decide) hblank hsymbol, ?_, ?_, ?_,
    rfl, ?_⟩
  · rw [hp]
    decide +kernel
  · exact (haction _ _ _).mpr ⟨seesaw.take 4, [], rfl, by simp⟩
  · rw [hcount]
    decide +kernel
  · intro h
    obtain ⟨-, -, hstates, -⟩ := (hequal _ _ _ _ rfl).1.mp h
    rw [hp] at hstates
    revert hstates
    decide +kernel

end Program
end WordMachines
