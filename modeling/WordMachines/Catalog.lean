import WordMachines.Dfa.Basic

/-!
# Examples by name

Five small automata over labels to try things on. The last two are not well formed.
-/

namespace WordMachines

structure Example where
  name : String
  description : String
  dfa : Dfa Label Label

namespace Catalog

/-- An automaton from the texts of its states and symbols. -/
def labelled (states alphabet : List String) (triples : List (String × String × String))
    (start : String) (accept : List String) : Dfa Label Label where
  states := states.map .mk
  alphabet := alphabet.map .mk
  transitions := .ofTriples (triples.map fun (q, a, t) => (.mk q, .mk a, .mk t))
  start := .mk start
  accept := accept.map .mk

def parity : Example where
  name := "parity"
  description := "Accepts words whose counts of a and b are both even or both odd"
  dfa := labelled ["0", "1", "2", "3"] ["a", "b"]
    [("0", "a", "1"), ("0", "b", "2"), ("1", "a", "0"), ("1", "b", "3"),
      ("2", "a", "3"), ("2", "b", "0"), ("3", "a", "2"), ("3", "b", "1")]
    "0" ["0", "3"]

def reachable : Example where
  name := "reachable"
  description := "Accepts every word starting with a; the accepting state is reachable"
  dfa := labelled ["0", "1", "2"] ["a", "b"]
    [("0", "a", "1"), ("0", "b", "2"), ("1", "a", "1"), ("1", "b", "1"),
      ("2", "a", "2"), ("2", "b", "2")]
    "0" ["1"]

def unreachable : Example where
  name := "unreachable"
  description := "Has an accepting state that cannot be reached, so its language is empty"
  dfa := labelled ["0", "1", "2"] ["a", "b"]
    [("0", "a", "0"), ("0", "b", "0"), ("1", "a", "1"), ("1", "b", "1"),
      ("2", "a", "2"), ("2", "b", "2")]
    "0" ["1"]

def missingTransition : Example where
  name := "missing-transition"
  description := "Invalid: state q0 has no transition on b"
  dfa := labelled ["q0", "q1"] ["a", "b"]
    [("q0", "a", "q1"), ("q1", "a", "q0"), ("q1", "b", "q1")]
    "q0" ["q1"]

def badTarget : Example where
  name := "bad-target"
  description := "Invalid: a transition leads to an undeclared state"
  dfa := labelled ["s0", "s1"] ["a"]
    [("s0", "a", "BAD"), ("s1", "a", "s0")]
    "s0" ["s1"]

def examples : List Example := [parity, reachable, unreachable, missingTransition, badTarget]

/-- What was asked for in vain. -/
inductive Unknown
  | name (name : String)
  | index (i : Nat)
  deriving DecidableEq

def Unknown.message : Unknown → String
  | name n => "Unknown example: " ++ n
  | index i => "Unknown example: index " ++ i.repr

def byName (name : String) : Except Unknown Example :=
  match examples.find? (·.name = name) with
  | some e => .ok e
  | none => .error (.name name)

def byIndex (i : Nat) : Except Unknown Example :=
  match examples[i]? with
  | some e => .ok e
  | none => .error (.index i)

end Catalog

end WordMachines
