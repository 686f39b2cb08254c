import WordMachines.Dfa.Basic

/-!
# Automata in the making

A draft holds those of an automaton's five parts that have been given so far. It becomes an
automaton once all five are there; else the first absent part is named.
-/

namespace WordMachines

/-- The parts of an automaton, in the order in which an absent one is reported. -/
inductive Part
  | states
  | alphabet
  | transitions
  | start
  | accept
  deriving DecidableEq

namespace Part

def all : List Part := [states, alphabet, transitions, start, accept]

def name : Part → String
  | states => "states"
  | alphabet => "alphabet"
  | transitions => "transitions"
  | start => "start_state"
  | accept => "accept_states"

def ofName? (name : String) : Option Part := all.find? (·.name = name)

/-- What is said of a draft that lacks this part. -/
def absence (p : Part) : String := "Missing required field: " ++ p.name

end Part

structure Draft (S A : Type) where
  states : Option (List S) := none
  alphabet : Option (List A) := none
  transitions : Option (Table S A) := none
  start : Option S := none
  accept : Option (List S) := none

namespace Draft

variable {S A : Type}

def build (d : Draft S A) : Except Part (Dfa S A) :=
  match d.states, d.alphabet, d.transitions, d.start, d.accept with
  | none, _, _, _, _ => .error .states
  | _, none, _, _, _ => .error .alphabet
  | _, _, none, _, _ => .error .transitions
  | _, _, _, none, _ => .error .start
  | _, _, _, _, none => .error .accept
  | some states, some alphabet, some transitions, some start, some accept =>
    .ok { states, alphabet, transitions, start, accept }

/-- One change to a draft: a part is given anew, or the table grows by one transition. -/
inductive Edit (S A : Type)
  | states (qs : List S)
  | alphabet (as : List A)
  | transitions (t : Table S A)
  | transition (q : S) (a : A) (target : S)
  | start (q : S)
  | accept (qs : List S)

variable [DecidableEq S] [DecidableEq A]

/-- A single transition goes into the table given before it, or into a new one. -/
def edit (d : Draft S A) : Edit S A → Draft S A
  | .states qs => { d with states := some qs }
  | .alphabet as => { d with alphabet := some as }
  | .transitions t => { d with transitions := some t }
  | .transition q a target =>
    { d with transitions := some ((d.transitions.getD ∅).insert q a target) }
  | .start q => { d with start := some q }
  | .accept qs => { d with accept := some qs }

def ofEdits (es : List (Edit S A)) : Draft S A := es.foldl edit {}

end Draft

end WordMachines
