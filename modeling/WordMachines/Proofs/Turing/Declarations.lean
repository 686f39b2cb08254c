import Mathlib.Tactic
import WordMachines.Proofs.Turing.Rules

/-!
# What a program declares

A program made by edits declares the states and the cells that they mention, each once and in the
order of first mention; and what its rules mention is declared. Here the states are read off the
rows of rules. A program may as well list them on their own: each edit keeps the list in step with
the rows, although the last thing it does to the rows leaves the list alone.
-/

namespace WordMachines

section FirstMentions

variable {β : Type} [DecidableEq β]

/-- The list with one more item at its end, unless it has the item. -/
def mention (xs : List β) (x : β) : List β := if x ∈ xs then xs else xs ++ [x]

theorem eraseDups_concat (xs : List β) (x : β) :
    (xs ++ [x]).eraseDups = mention xs.eraseDups x := by
  unfold mention
  rw [List.eraseDups_append]
  split_ifs with h
  · simp [List.removeAll, List.mem_eraseDups.mp h]
  · simp [List.removeAll, mt List.mem_eraseDups.mpr h, List.eraseDups_cons]

theorem foldl_mention (xs : List β) : xs.foldl mention [] = xs.eraseDups := by
  induction xs using List.reverseRecOn with
  | nil => rfl
  | append_singleton xs x ih => rw [List.foldl_concat, ih, eraseDups_concat]

theorem nodup_eraseDups (xs : List β) : xs.eraseDups.Nodup := by
  induction xs using List.reverseRecOn with
  | nil => exact List.nodup_nil
  | append_singleton xs x ih =>
    rw [eraseDups_concat]
    unfold mention
    split_ifs with h
    · exact ih
    · simpa using ih.concat h

theorem eraseDups_of_nodup {xs : List β} (h : xs.Nodup) : xs.eraseDups = xs := by
  induction xs using List.reverseRecOn with
  | nil => rfl
  | append_singleton xs x ih =>
    obtain ⟨hxs, -, hx⟩ := List.nodup_append.mp h
    have hnew : x ∉ xs := fun hmem => hx x hmem x (List.mem_singleton_self x) rfl
    rw [eraseDups_concat, ih hxs, mention, if_neg hnew]

/-- Items that have all been mentioned before change nothing. -/
theorem eraseDups_append_of_subset {xs ys : List β} (h : ys ⊆ xs) :
    (xs ++ ys).eraseDups = xs.eraseDups := by
  have hnone : ys.removeAll xs = [] := by
    simp only [List.removeAll, List.filter_eq_nil_iff]
    intro y hy
    simpa using h hy
  rw [List.eraseDups_append, hnone, List.eraseDups_nil, List.append_nil]

theorem eraseDups_map {γ : Type} [DecidableEq γ] {f : β → γ} (hf : f.Injective) (xs : List β) :
    (xs.map f).eraseDups = xs.eraseDups.map f := by
  induction xs using List.reverseRecOn with
  | nil => rfl
  | append_singleton xs x ih =>
    have hmem := List.mem_map_of_injective hf (a := x) (l := xs.eraseDups)
    rw [List.map_append, List.map_singleton, eraseDups_concat, eraseDups_concat, ih]
    unfold mention
    split_ifs with h h' h'
    · rfl
    · exact absurd (hmem.mp h) h'
    · exact absurd (hmem.mpr h') h
    · rw [List.map_append, List.map_singleton]

end FirstMentions

/-- A program that lists its states apart from the rows of rules. -/
structure ListedProgram (α : Type) where
  states : List MachineState
  tapeAlphabet : List (Cell α)
  rules : FinMap MachineState (FinMap (Cell α) (Action α))

namespace ListedProgram

variable {α : Type} [DecidableEq α] (p : ListedProgram α)

instance : EmptyCollection (ListedProgram α) := ⟨⟨[], [], ∅⟩⟩

/-- Whether a state is new is asked of the rules. -/
def addState (q : MachineState) : ListedProgram α :=
  if p.rules.contains q then p
  else { p with states := p.states ++ [q], rules := p.rules.insert q ∅ }

def addSymbol (c : Cell α) : ListedProgram α :=
  { p with tapeAlphabet := mention p.tapeAlphabet c }

/-- The rule goes into the row of its state, or into a new row that no list is told of. -/
def addRule (q : MachineState) (c : Cell α) (r : Action α) : ListedProgram α :=
  let p := (((p.addState q).addState r.next).addSymbol c).addSymbol r.write
  { p with rules := p.rules.insert q (((p.rules.get? q).getD ∅).insert c r) }

def edit : Program.Edit α → ListedProgram α
  | .state q => p.addState q
  | .symbol c => p.addSymbol c
  | .rule q c r => p.addRule q c r

def edits (es : List (Program.Edit α)) : ListedProgram α := es.foldl edit p

end ListedProgram

namespace Program

variable {α : Type} (p : Program α)

/-- The same program with its states listed. -/
def listed : ListedProgram α := ⟨p.states, p.tapeAlphabet, p.rules⟩

theorem mem_states_iff (q : MachineState) : q ∈ p.states ↔ p.hasState q :=
  (p.rules.contains_iff_mem_keys q).symm

theorem states_addState (q : MachineState) : (p.addState q).states = mention p.states q := by
  have hq := p.mem_states_iff q
  unfold addState mention
  split_ifs with h hmem hmem
  · rfl
  · exact absurd (hq.mpr h) hmem
  · exact absurd (hq.mp hmem) h
  · exact (p.rules.keys_insert q ∅).trans (if_neg hmem)

variable [DecidableEq α]

theorem states_addSymbol (c : Cell α) : (p.addSymbol c).states = p.states := by
  unfold addSymbol
  split_ifs <;> rfl

theorem tapeAlphabet_addSymbol (c : Cell α) :
    (p.addSymbol c).tapeAlphabet = mention p.tapeAlphabet c := by
  unfold addSymbol mention
  split_ifs <;> rfl

theorem states_declareRule (q : MachineState) (c : Cell α) (r : Action α) :
    (p.declareRule q c r).states = ((p.addState q).addState r.next).states := by
  rw [declareRule, states_addSymbol, states_addSymbol]

/-- The row that takes a rule is there before the rule. -/
theorem states_addRule (q : MachineState) (c : Cell α) (r : Action α) :
    (p.addRule q c r).states = (p.declareRule q c r).states := by
  have hq : q ∈ (p.declareRule q c r).states := by
    rw [mem_states_iff]
    simp [declareRule, hasState_addState]
  rw [addRule_eq]
  exact ((p.declareRule q c r).rules.keys_insert q _).trans (if_pos hq)

omit [DecidableEq α] in
theorem listed_addState (q : MachineState) : (p.addState q).listed = p.listed.addState q := by
  have hstates := p.states_addState q
  unfold ListedProgram.addState
  split_ifs with h
  · have hold : p.addState q = p := if_pos h
    rw [hold]
  · have hnew : p.addState q = { p with rules := p.rules.insert q ∅ } := if_neg h
    have hq : q ∉ p.states := mt (p.mem_states_iff q).mp h
    rw [mention, if_neg hq] at hstates
    rw [listed, hstates, hnew]
    rfl

theorem listed_addSymbol (c : Cell α) : (p.addSymbol c).listed = p.listed.addSymbol c := by
  have hcells := p.tapeAlphabet_addSymbol c
  unfold ListedProgram.addSymbol listed
  rw [hcells]
  unfold addSymbol
  split_ifs <;> rfl

theorem listed_addRule (q : MachineState) (c : Cell α) (r : Action α) :
    (p.addRule q c r).listed = p.listed.addRule q c r := by
  have hdeclare : (p.declareRule q c r).listed =
      (((p.listed.addState q).addState r.next).addSymbol c).addSymbol r.write := by
    rw [declareRule, listed_addSymbol, listed_addSymbol, listed_addState, listed_addState]
  rw [ListedProgram.addRule, ← hdeclare, listed, states_addRule]
  rfl

theorem listed_edit (e : Edit α) : (p.edit e).listed = p.listed.edit e := by
  cases e with
  | state q => exact p.listed_addState q
  | symbol c => exact p.listed_addSymbol c
  | rule q c r => exact p.listed_addRule q c r

theorem listed_edits (es : List (Edit α)) : (p.edits es).listed = p.listed.edits es := by
  induction es generalizing p with
  | nil => rfl
  | cons e es ih =>
    change ((p.edit e).edits es).listed = (p.listed.edit e).edits es
    rw [ih, listed_edit]

theorem states_edit (e : Edit α) : (p.edit e).states = e.states.foldl mention p.states := by
  cases e with
  | state q => exact p.states_addState q
  | symbol c => exact p.states_addSymbol c
  | rule q c r =>
    change (p.addRule q c r).states = mention (mention p.states q) r.next
    rw [states_addRule, states_declareRule, states_addState, states_addState]

theorem tapeAlphabet_edit (e : Edit α) :
    (p.edit e).tapeAlphabet = e.cells.foldl mention p.tapeAlphabet := by
  cases e with
  | state q => exact p.tapeAlphabet_addState q
  | symbol c => exact p.tapeAlphabet_addSymbol c
  | rule q c r =>
    change (p.declareRule q c r).tapeAlphabet = mention (mention p.tapeAlphabet c) r.write
    rw [declareRule, tapeAlphabet_addSymbol, tapeAlphabet_addSymbol, tapeAlphabet_addState,
      tapeAlphabet_addState]

/-- Where every edit mentions its items in turn, all edits mention theirs in turn. -/
theorem foldl_mention_edits {β : Type} [DecidableEq β] {view : Program α → List β}
    {items : Edit α → List β}
    (h : ∀ (p : Program α) e, view (p.edit e) = (items e).foldl mention (view p))
    (p : Program α) (es : List (Edit α)) :
    view (p.edits es) = (es.flatMap items).foldl mention (view p) := by
  induction es generalizing p with
  | nil => rfl
  | cons e es ih =>
    rw [List.flatMap_cons, List.foldl_append, ← h]
    exact ih (p.edit e)

theorem states_new_edits (name : String) (start : MachineState) (es : List (Edit α)) :
    ((new name start).edits es).states = (es.flatMap Edit.states).eraseDups := by
  rw [foldl_mention_edits fun p e => p.states_edit e]
  exact foldl_mention _

theorem tapeAlphabet_new_edits (name : String) (start : MachineState) (es : List (Edit α)) :
    ((new name start).edits es).tapeAlphabet = (es.flatMap Edit.cells).eraseDups := by
  rw [foldl_mention_edits fun p e => p.tapeAlphabet_edit e]
  exact foldl_mention _

theorem nodup_tapeAlphabet_new_edits (name : String) (start : MachineState) (es : List (Edit α)) :
    ((new name start).edits es).tapeAlphabet.Nodup := by
  rw [tapeAlphabet_new_edits]
  exact nodup_eraseDups _

theorem Edit.action?_eq_some_iff (e : Edit α) (q : MachineState) (c : Cell α) (r : Action α) :
    e.action? q c = some r ↔ e = .rule q c r := by
  cases e with
  | state q' => simp [action?]
  | symbol c' => simp [action?]
  | rule q' c' r' =>
    simp only [action?, Option.ite_none_right_eq_some, Option.some.injEq, rule.injEq]
    tauto

variable {p} in
theorem mem_edits_of_action? {es : List (Edit α)} {q : MachineState} {c : Cell α} {r : Action α}
    (hnew : p.action? q c = none) (h : (p.edits es).action? q c = some r) :
    Edit.rule q c r ∈ es := by
  rw [action?_edits, hnew, Option.or_none] at h
  obtain ⟨e, he, hrule⟩ := List.exists_of_findSome?_eq_some h
  rw [← (Edit.action?_eq_some_iff e q c r).mp hrule]
  exact List.mem_reverse.mp he

/-- Whatever a rule mentions is declared. -/
def Closed (p : Program α) : Prop :=
  ∀ q c r, p.action? q c = some r →
    q ∈ p.states ∧ c ∈ p.tapeAlphabet ∧ r.write ∈ p.tapeAlphabet ∧ r.next ∈ p.states

theorem closed_new_edits (name : String) (start : MachineState) (es : List (Edit α)) :
    ((new name start).edits es).Closed := by
  intro q c r haction
  have hrule : Edit.rule q c r ∈ es := mem_edits_of_action? rfl haction
  rw [states_new_edits, tapeAlphabet_new_edits]
  simp only [List.mem_eraseDups, List.mem_flatMap]
  exact ⟨⟨_, hrule, by simp [Edit.states]⟩, ⟨_, hrule, by simp [Edit.cells]⟩,
    ⟨_, hrule, by simp [Edit.cells]⟩, ⟨_, hrule, by simp [Edit.states]⟩⟩

variable {p} in
/-- A program declares what its edits mention, once and in the order of first mention, and its rules
mention nothing else. -/
theorem declares_what_edits_mention {name : String} {start : MachineState} {es : List (Edit α)}
    (hp : p = (new name start).edits es) :
    p.listed = (∅ : ListedProgram α).edits es ∧
      (p.states.Nodup ∧ ∀ q, q ∈ p.states ↔ (p.rules.get? q).isSome) ∧
      p.tapeAlphabet.Nodup ∧
      (∀ q row c r, (q, row) ∈ p.rules.entries → (c, r) ∈ row.entries →
        q ∈ p.states ∧ c ∈ p.tapeAlphabet ∧ r.write ∈ p.tapeAlphabet ∧ r.next ∈ p.states) ∧
      p.states = (es.flatMap Edit.states).eraseDups ∧
      p.tapeAlphabet = (es.flatMap Edit.cells).eraseDups ∧
      (∀ q, p.hasState q ↔ q ∈ p.states) ∧
      (∀ a, (p.takes a ↔ .symbol a ∈ p.tapeAlphabet) ∧
        (p.takes a ↔ ∃ e ∈ es, .symbol a ∈ e.cells)) ∧
      (p.hasState start ↔ ∃ e ∈ es, start ∈ e.states) := by
  have hstates := states_new_edits name start es
  have hcells := tapeAlphabet_new_edits name start es
  have hclosed := closed_new_edits name start es
  rw [← hp] at hstates hcells hclosed
  refine ⟨?_, ⟨p.rules.nodup_keys, ?_⟩, ?_, ?_, hstates, hcells, ?_, ?_, ?_⟩
  · rw [hp, listed_edits]
    rfl
  · exact p.mem_states_iff
  · rw [hcells]
    exact nodup_eraseDups _
  · intro q row c r hrow hr
    apply hclosed
    rw [action?, Program.row, (p.rules.mem_entries_iff q row).mp hrow]
    exact (row.mem_entries_iff c r).mp hr
  · intro q
    exact (p.mem_states_iff q).symm
  · intro a
    have htakes : p.takes a ↔ .symbol a ∈ p.tapeAlphabet := by simp [takes]
    refine ⟨htakes, ?_⟩
    rw [htakes, hcells, List.mem_eraseDups, List.mem_flatMap]
  · rw [← p.mem_states_iff, hstates, List.mem_eraseDups, List.mem_flatMap]

/-- A state and a symbol that only a rule mentions, and mentions that come again. -/
def mentions : List (Edit Char) :=
  [.rule (.named "q") .blank ⟨.symbol 'b', .right, .named "r"⟩, .state (.named "s"),
    .state (.named "q"), .symbol (.symbol 'b'),
    .rule (.named "s") (.symbol 'a') ⟨.blank, .stay, .accept⟩]

theorem mentions_declared :
    ∃ p row, p = (new "mentions" (.named "q")).edits mentions ∧
      (.named "q", row) ∈ p.rules.entries ∧
      (.blank, ⟨.symbol 'b', .right, .named "r"⟩) ∈ row.entries ∧
      .symbol 'b' ∈ p.tapeAlphabet ∧ .named "r" ∈ p.states ∧
      p.states = [.named "q", .named "r", .named "s", .accept] ∧
      p.tapeAlphabet = [.blank, .symbol 'b', .symbol 'a'] := by
  obtain ⟨p, hp⟩ : ∃ p, p = (new "mentions" (.named "q")).edits mentions := ⟨_, rfl⟩
  have hrow : p.rules.get? (.named "q") = some (p.row (.named "q")) := by
    rw [hp]
    rfl
  have hrule : (p.row (.named "q")).get? .blank = some ⟨.symbol 'b', .right, .named "r"⟩ := by
    rw [hp]
    rfl
  have hmem := (p.rules.mem_entries_iff _ _).mpr hrow
  have hmemRow := ((p.row (.named "q")).mem_entries_iff _ _).mpr hrule
  obtain ⟨-, -, -, hclosed, hstates, hcells, -⟩ := declares_what_edits_mention hp
  obtain ⟨-, -, hwrite, hnext⟩ := hclosed _ _ _ _ hmem hmemRow
  exact ⟨p, _, hp, hmem, hmemRow, hwrite, hnext, hstates.trans (by decide +kernel),
    hcells.trans (by decide +kernel)⟩

end Program
end WordMachines
