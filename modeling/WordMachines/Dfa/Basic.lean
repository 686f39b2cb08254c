import WordMachines.Dfa.Table
import WordMachines.Identifier

/-!
# Deterministic finite automata

An automaton as written down: nothing here asks the table to be total or the states to be
declared. A word is accepted when the table has a target for each of its symbols in turn and the
last target is an accepting state, whether or not those symbols and states are declared.
-/

namespace WordMachines

structure Dfa (S A : Type) where
  states : List S
  alphabet : List A
  transitions : Table S A
  start : S
  accept : List S

namespace Dfa

variable {S A : Type} [DecidableEq S]

def isAccepting (d : Dfa S A) (q : S) : Bool := q ∈ d.accept

variable [DecidableEq A]

/-- Lists are compared item by item, tables as finite maps. -/
instance : BEq (Dfa S A) where
  beq d e := d.states == e.states && d.alphabet == e.alphabet &&
    d.transitions == e.transitions && d.start == e.start && d.accept == e.accept

variable (d : Dfa S A)

def next? (q : S) (a : A) : Option S := d.transitions.get? q a

/-- The state that `w` leads to from `q`. -/
def run? (q : S) (w : List A) : Option S := w.foldlM d.next? q

def accepts (w : List A) : Bool := (d.run? d.start w).any d.isAccepting

end Dfa

end WordMachines
