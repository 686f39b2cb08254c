import Mathlib.Tactic
import WordMachines.Proofs.Compile.Declarations

/-!
# The rules of a compiled automaton

The machine knows a state of the automaton by its text alone. Of the declared states with one text
the last is the representative: its rules are given after those of the others, for every symbol
and for the blank, so nothing of the others remains. `action?_compile` says which action each pair
has.
-/

namespace WordMachines

section Search

variable {β γ : Type}

theorem findSome?_ite_eq_bind (p : β → Bool) (f : β → Option γ) {xs : List β}
    (h : ∀ x ∈ xs, p x → (f x).isSome) :
    xs.findSome? (fun x => if p x then f x else none) = (xs.find? p).bind f := by
  induction xs with
  | nil => rfl
  | cons x xs ih =>
    have hxs := ih fun y hy => h y (List.mem_cons_of_mem x hy)
    by_cases hp : p x
    · obtain ⟨r, hr⟩ := Option.isSome_iff_exists.mp (h x (by simp) hp)
      simp [hp, hr]
    · simp [hp, hxs]

theorem findSome?_ite_eq_mem [DecidableEq β] (f : β → Option γ) (a : β) (xs : List β) :
    xs.findSome? (fun x => if a = x then f x else none) = if a ∈ xs then f a else none := by
  induction xs with
  | nil => rfl
  | cons x xs ih =>
    by_cases ha : a = x
    · subst ha
      cases hf : f a <;> simp [hf, ih]
    · simp [ha, ih]

theorem findSome?_flatMap {δ : Type} (f : δ → List β) (g : β → Option γ) (xs : List δ) :
    (xs.flatMap f).findSome? g = xs.findSome? fun x => (f x).findSome? g := by
  induction xs with
  | nil => rfl
  | cons x xs ih =>
    rw [List.flatMap_cons, List.findSome?_append, ih, List.findSome?_cons]
    cases (f x).findSome? g <;> rfl

theorem findSome?_filterMap {δ : Type} (f : δ → Option β) (g : β → Option γ) (xs : List δ) :
    (xs.filterMap f).findSome? g = xs.findSome? fun x => (f x).bind g := by
  induction xs with
  | nil => rfl
  | cons x xs ih =>
    cases hf : f x with
    | none => simp [hf, ih]
    | some y => simp [hf, ih, List.findSome?_cons]

end Search

namespace Dfa

variable {S A : Type} [Shown S] (d : Dfa S A)

/-- The last declared state with the text `t`. -/
def representative? (t : String) : Option S := d.states.reverse.find? (shown · = t)

theorem representative?_eq_some {t : String} {q : S} (h : d.representative? t = some q) :
    q ∈ d.states ∧ shown q = t := by
  constructor
  · exact List.mem_reverse.mp (List.mem_of_find?_eq_some h)
  · simpa using List.find?_some h

theorem exists_representative? {q : S} (hq : q ∈ d.states) :
    ∃ r, d.representative? (shown q) = some r := by
  rw [← Option.isSome_iff_exists, representative?, List.find?_isSome]
  exact ⟨q, List.mem_reverse.mpr hq, by simp⟩

theorem representative?_of_injective (hd : ∀ q ∈ d.states, ∀ r ∈ d.states, shown q = shown r → q = r)
    {q : S} (hq : q ∈ d.states) : d.representative? (shown q) = some q := by
  obtain ⟨r, hr⟩ := d.exists_representative? hq
  obtain ⟨hmem, htext⟩ := d.representative?_eq_some hr
  rw [hr, hd r hmem q hq htext]

theorem representative?_eq_some_iff
    (hd : ∀ q ∈ d.states, ∀ r ∈ d.states, shown q = shown r → q = r) {t : String} {q : S} :
    d.representative? t = some q ↔ q ∈ d.states ∧ shown q = t := by
  constructor
  · exact d.representative?_eq_some
  · rintro ⟨hq, rfl⟩
    exact d.representative?_of_injective hd hq

variable [DecidableEq S] [DecidableEq A]

/-- What the machine does in the state of `q`, if `q` is the representative of its text. -/
def actionOf? (q : S) : Cell A → Option (Action A)
  | .symbol a =>
    if a ∈ d.alphabet then (d.next? q a).map fun t => ⟨.symbol a, .right, .of t⟩ else none
  | .blank => some ⟨.blank, .stay, if d.isAccepting q then .accept else .reject⟩

def rulesFor (q : S) : List (Program.Edit A) :=
  d.alphabet.filterMap (d.symbolRule? q) ++ [d.blankRule q]

theorem action?_symbolRule (q : S) (s : MachineState) (c : Cell A) (a : A) :
    (d.symbolRule? q a).bind (·.action? s c) =
      if s = .of q ∧ c = .symbol a then
        (d.next? q a).map fun t => ⟨.symbol a, .right, .of t⟩
      else none := by
  unfold symbolRule?
  cases d.next? q a <;> simp [Program.Edit.action?]

theorem action?_blankRule (q : S) (s : MachineState) (c : Cell A) :
    (d.blankRule q).action? s c = if s = .of q ∧ c = .blank then
      some ⟨.blank, .stay, if d.isAccepting q then .accept else .reject⟩ else none := rfl

/-- Each block of rules covers its own state only, and that one completely. -/
theorem action?_rulesFor (q : S) (s : MachineState) (c : Cell A) :
    (d.rulesFor q).reverse.findSome? (·.action? s c) =
      if s = .of q then d.actionOf? q c else none := by
  rw [rulesFor, List.reverse_append, List.reverse_singleton, List.singleton_append,
    List.findSome?_cons, ← List.filterMap_reverse, findSome?_filterMap]
  simp only [action?_symbolRule, action?_blankRule]
  by_cases hs : s = .of q
  · cases c with
    | blank => simp [actionOf?, hs]
    | symbol a =>
      simp only [hs, actionOf?, reduceCtorEq, and_false, if_false, if_true, true_and,
        Cell.symbol.injEq]
      rw [findSome?_ite_eq_mem]
      simp
  · simp [hs]

omit [DecidableEq S] in
theorem action?_declarations (s : MachineState) (c : Cell A) :
    d.declarations.reverse.findSome? (·.action? s c) = none := by
  rw [List.findSome?_eq_none_iff]
  intro e he
  simp only [declarations, List.mem_reverse, List.mem_append, List.mem_map, List.mem_cons,
    List.not_mem_nil, or_false, Function.comp_apply] at he
  rcases he with ((⟨q, -, rfl⟩ | rfl | rfl) | ⟨a, -, rfl⟩) | rfl <;> rfl

theorem ruleEdits_eq : d.ruleEdits = d.states.flatMap d.rulesFor := rfl

end Dfa

namespace ValidDfa

variable {S A : Type} [DecidableEq S] [DecidableEq A] [Shown S] (d : ValidDfa S A)

theorem actionOf?_isSome {q : S} (hq : q ∈ d.states) {c : Cell A}
    (hc : ∀ a, c = .symbol a → a ∈ d.alphabet) : (d.actionOf? q c).isSome := by
  cases c with
  | blank => rfl
  | symbol a =>
    have ha := hc a rfl
    obtain ⟨t, -, ht⟩ := d.wellFormed.total q hq a ha
    simp [Dfa.actionOf?, ha, ht]

theorem action?_compile (s : MachineState) (c : Cell A) :
    d.compile.action? s c =
      (d.states.reverse.find? (s = .of ·)).bind (d.actionOf? · c) := by
  rw [compile, Program.action?_edits, List.reverse_append, List.findSome?_append,
    d.action?_declarations, d.ruleEdits_eq, List.reverse_flatMap, findSome?_flatMap]
  simp only [Function.comp_apply, d.action?_rulesFor]
  by_cases hc : ∀ a, c = .symbol a → a ∈ d.alphabet
  · have hsome : ∀ q ∈ d.states.reverse, decide (s = .of q) → (d.actionOf? q c).isSome :=
      fun q hq _ => d.actionOf?_isSome (List.mem_reverse.mp hq) hc
    have hfind := findSome?_ite_eq_bind (fun q => decide (s = .of q)) (d.actionOf? · c) hsome
    simp only [decide_eq_true_eq] at hfind
    rw [hfind]
    simp [Program.new, Program.action?, Program.row, FinMap.get?_empty]
  · -- a symbol that is not in the alphabet has no rule in any state
    push Not at hc
    obtain ⟨a, rfl, ha⟩ := hc
    simp [Dfa.actionOf?, ha, Program.new, Program.action?, Program.row, FinMap.get?_empty]

theorem action?_compile_named (t : String) (c : Cell A) :
    d.compile.action? (.named t) c = (d.representative? t).bind (d.actionOf? · c) := by
  rw [action?_compile, Dfa.representative?]
  simp [MachineState.of, eq_comm]

theorem action?_compile_symbol {t : String} {q u : S} {a : A} (hq : d.representative? t = some q)
    (ha : a ∈ d.alphabet) (hu : d.next? q a = some u) :
    d.compile.action? (.named t) (.symbol a) = some ⟨.symbol a, .right, .of u⟩ := by
  simp [action?_compile_named, hq, Dfa.actionOf?, ha, hu]

theorem action?_compile_blank {t : String} {q : S} (hq : d.representative? t = some q) :
    d.compile.action? (.named t) .blank =
      some ⟨.blank, .stay, if d.isAccepting q then .accept else .reject⟩ := by
  simp [action?_compile_named, hq, Dfa.actionOf?]

end ValidDfa

end WordMachines
