import WordMachines.Dfa.Walk

/-!
# All automata with two states over two letters

The automata with states `0` and `1` over `a` and `b` are numbered by seven bits, the most
significant first: the targets of `0` on `a`, of `0` on `b`, of `1` on `a` and of `1` on `b`, then
the start state, then whether `0` and whether `1` is accepting. An enumeration is a position in
their sequence.
-/

namespace WordMachines

namespace Enumeration

def total : Nat := 128

/-- The bit of `index` worth `2 ^ i`, as a state. -/
def bit (index i : Nat) : UInt32 := if index.testBit i then 1 else 0

/-- The automaton of the seven lowest bits of `index`. -/
def dfaOfBits (index : Nat) : Dfa UInt32 Char where
  states := [0, 1]
  alphabet := ['a', 'b']
  transitions := .ofTriples
    [(0, 'a', bit index 6), (0, 'b', bit index 5), (1, 'a', bit index 4), (1, 'b', bit index 3)]
  start := bit index 2
  accept := (if index.testBit 1 then [0] else []) ++ (if index.testBit 0 then [1] else [])

def dfa? (index : Nat) : Option (Dfa UInt32 Char) :=
  if index < total then some (dfaOfBits index) else none

end Enumeration

structure Enumeration where
  position : Nat := 0
  deriving DecidableEq

namespace Enumeration

def remaining (e : Enumeration) : Nat := total - e.position

/-- The automaton at the position, which then moves on. -/
def next (e : Enumeration) : Option (Dfa UInt32 Char) × Enumeration :=
  match dfa? e.position with
  | some d => (some d, ⟨e.position + 1⟩)
  | none => (none, e)

/-- Leaves out `n` automata, or what there is left, and takes the next. -/
def nth (e : Enumeration) (n : Nat) : Option (Dfa UInt32 Char) × Enumeration :=
  next ⟨min (e.position + n) total⟩

/-- The automata still to come. -/
def toList (e : Enumeration) : List (Dfa UInt32 Char) :=
  (List.range e.remaining).map fun i => dfaOfBits (e.position + i)

def isNonempty (d : Dfa UInt32 Char) : Bool :=
  match d.validate with
  | .ok d => !d.isEmpty
  | .error _ => false

/-- Goes on to the next automaton that `p` holds of, looking at no more than `fuel`. -/
def findFrom (p : Dfa UInt32 Char → Bool) :
    Nat → Enumeration → Option (Dfa UInt32 Char) × Enumeration
  | 0, e => (none, e)
  | fuel + 1, e =>
    match e.next with
    | (none, e) => (none, e)
    | (some d, e) => if p d then (some d, e) else findFrom p fuel e

/-- Goes on to the next automaton that accepts some word. -/
def nextNonempty (e : Enumeration) : Option (Dfa UInt32 Char) × Enumeration :=
  findFrom isNonempty (e.remaining + 1) e

end Enumeration

end WordMachines
