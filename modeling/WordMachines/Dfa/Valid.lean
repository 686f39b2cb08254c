import WordMachines.Dfa.Basic

/-!
# Well-formed automata

An automaton is well formed when its states and its symbols are listed without repetition, its
table leads from every declared state on every declared symbol to a declared state, and its start
and accepting states are declared. The table may hold more than that. `firstDefect?` names the
first rule broken, in that order; `firstDefect?_eq_none_iff` says that it finds none exactly in
the well-formed automata.
-/

namespace WordMachines

/-- What is wrong with an automaton; the fields are texts of states and symbols. -/
inductive Defect
  | duplicateState (state : String)
  | duplicateSymbol (symbol : String)
  | missingTransition (state symbol : String)
  | invalidTarget (state symbol target : String)
  | invalidStart (state : String)
  | invalidAccept (state : String)
  deriving DecidableEq

def Defect.message : Defect → String
  | duplicateState q => "Duplicate state: " ++ q
  | duplicateSymbol a => "Duplicate symbol: " ++ a
  | missingTransition q a => "No transition for state " ++ q ++ " on symbol " ++ a
  | invalidTarget q a t =>
    "Transition from state " ++ q ++ " on symbol " ++ a ++ " leads to unknown state " ++ t
  | invalidStart q => "Invalid start state: " ++ q
  | invalidAccept q => "Invalid accept state: " ++ q

section Repetition

variable {α : Type} [DecidableEq α]

/-- The first item that is among `seen` or the items before it. -/
def firstRepeatAfter (seen : List α) : List α → Option α
  | [] => none
  | x :: xs => if x ∈ seen then some x else firstRepeatAfter (x :: seen) xs

def firstRepeat (xs : List α) : Option α := firstRepeatAfter [] xs

theorem firstRepeatAfter_eq_none_iff (seen xs : List α) :
    firstRepeatAfter seen xs = none ↔ xs.Nodup ∧ ∀ x ∈ xs, x ∉ seen := by
  induction xs generalizing seen with
  | nil => simp [firstRepeatAfter]
  | cons x xs ih =>
    by_cases h : x ∈ seen
    · simp [firstRepeatAfter, h]
    · simp only [firstRepeatAfter, h, if_false, ih, List.nodup_cons, List.mem_cons, not_or]
      constructor
      · rintro ⟨hn, hs⟩
        refine ⟨⟨fun hx => (hs x hx).1 rfl, hn⟩, ?_⟩
        rintro y (rfl | hy)
        · exact h
        · exact (hs y hy).2
      · rintro ⟨⟨hx, hn⟩, hs⟩
        exact ⟨hn, fun y hy => ⟨fun e => hx (e ▸ hy), hs y (.inr hy)⟩⟩

theorem firstRepeat_eq_none_iff (xs : List α) : firstRepeat xs = none ↔ xs.Nodup := by
  simp [firstRepeat, firstRepeatAfter_eq_none_iff]

end Repetition

namespace Dfa

variable {S A : Type} [DecidableEq S] [DecidableEq A]

structure WellFormed (d : Dfa S A) : Prop where
  states_nodup : d.states.Nodup
  alphabet_nodup : d.alphabet.Nodup
  total : ∀ q ∈ d.states, ∀ a ∈ d.alphabet, ∃ t ∈ d.states, d.next? q a = some t
  start_mem : d.start ∈ d.states
  accept_subset : ∀ q ∈ d.accept, q ∈ d.states

variable [Shown S] [Shown A]

def transitionDefect? (d : Dfa S A) (q : S) (a : A) : Option Defect :=
  match d.next? q a with
  | none => some (.missingTransition (shown q) (shown a))
  | some t =>
    if t ∈ d.states then none else some (.invalidTarget (shown q) (shown a) (shown t))

/-- Transitions are looked at state by state, and within a state symbol by symbol. -/
def firstDefect? (d : Dfa S A) : Option Defect :=
  ((firstRepeat d.states).map fun q => .duplicateState (shown q))
    |>.or ((firstRepeat d.alphabet).map fun a => .duplicateSymbol (shown a))
    |>.or (d.states.findSome? fun q => d.alphabet.findSome? (d.transitionDefect? q))
    |>.or (if d.start ∈ d.states then none else some (.invalidStart (shown d.start)))
    |>.or ((d.accept.find? (· ∉ d.states)).map fun q => .invalidAccept (shown q))

theorem transitionDefect?_eq_none_iff (d : Dfa S A) (q : S) (a : A) :
    d.transitionDefect? q a = none ↔ ∃ t ∈ d.states, d.next? q a = some t := by
  unfold transitionDefect?
  split
  · rename_i h
    simp [h]
  · rename_i t h
    by_cases ht : t ∈ d.states <;> simp [h, ht]

theorem firstDefect?_eq_none_iff (d : Dfa S A) : d.firstDefect? = none ↔ d.WellFormed := by
  simp only [firstDefect?, Option.or_eq_none_iff, Option.map_eq_none_iff, firstRepeat_eq_none_iff,
    List.findSome?_eq_none_iff, transitionDefect?_eq_none_iff, List.find?_eq_none]
  constructor
  · rintro ⟨⟨⟨⟨hs, ha⟩, ht⟩, hq⟩, hf⟩
    exact ⟨hs, ha, ht, by simpa using hq, by simpa using hf⟩
  · rintro ⟨hs, ha, ht, hq, hf⟩
    exact ⟨⟨⟨⟨hs, ha⟩, ht⟩, by simpa using hq⟩, by simpa using hf⟩

end Dfa

/-- The automata that may be analysed and compiled. -/
structure ValidDfa (S A : Type) [DecidableEq S] [DecidableEq A] extends Dfa S A where
  wellFormed : toDfa.WellFormed

def Dfa.validate {S A : Type} [DecidableEq S] [DecidableEq A] [Shown S] [Shown A]
    (d : Dfa S A) : Except Defect (ValidDfa S A) :=
  match h : d.firstDefect? with
  | some defect => .error defect
  | none => .ok ⟨d, d.firstDefect?_eq_none_iff.mp h⟩

end WordMachines
