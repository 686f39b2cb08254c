import WordMachines.FinMap
import WordMachines.Turing.Tape

/-!
# Turing machine programs

A program gives some pairs of a state and a cell an action, at most one each. Its states and its
tape alphabet are listed in the order of their first mention; a declared state has a row of rules,
perhaps an empty one. Adding a rule declares what the rule mentions.
-/

namespace WordMachines

/-- The two halting states differ from every named one, whatever its name. -/
inductive MachineState
  | named (text : String)
  | accept
  | reject
  deriving DecidableEq

instance : Shown MachineState where
  shown
    | .named text => text
    | .accept => "ACCEPT"
    | .reject => "REJECT"

namespace MachineState

def isHalting : MachineState → Bool
  | named _ => false
  | accept => true
  | reject => true

/-- The state with the text of an identifier. -/
def of {α : Type} [Shown α] (q : α) : MachineState := named (shown q)

end MachineState

structure Action (α : Type) where
  write : Cell α
  move : Direction
  next : MachineState
  deriving DecidableEq

structure Program (α : Type) where
  name : String
  start : MachineState
  tapeAlphabet : List (Cell α)
  rules : FinMap MachineState (FinMap (Cell α) (Action α))

namespace Program

variable {α : Type}

/-- A program without states, symbols or rules: even its start state is not declared. -/
def new (name : String) (start : MachineState) : Program α := ⟨name, start, [], ∅⟩

def states (p : Program α) : List MachineState := p.rules.keys

def hasState (p : Program α) (q : MachineState) : Bool := p.rules.contains q

def ruleCount (p : Program α) : Nat := p.rules.innerSize

def addState (p : Program α) (q : MachineState) : Program α :=
  if p.hasState q then p else { p with rules := p.rules.insert q ∅ }

variable [DecidableEq α]

def row (p : Program α) (q : MachineState) : FinMap (Cell α) (Action α) := (p.rules.get? q).getD ∅

def action? (p : Program α) (q : MachineState) (c : Cell α) : Option (Action α) :=
  (p.row q).get? c

/-- Whether `a` may stand on the tape at the outset. -/
def takes (p : Program α) (a : α) : Bool := .symbol a ∈ p.tapeAlphabet

def addSymbol (p : Program α) (c : Cell α) : Program α :=
  if c ∈ p.tapeAlphabet then p else { p with tapeAlphabet := p.tapeAlphabet ++ [c] }

/-- A rule for the same state and cell gives way to the new one. -/
def addRule (p : Program α) (q : MachineState) (c : Cell α) (r : Action α) : Program α :=
  let p := (((p.addState q).addState r.next).addSymbol c).addSymbol r.write
  { p with rules := p.rules.insert q ((p.row q).insert c r) }

inductive Edit (α : Type)
  | state (q : MachineState)
  | symbol (c : Cell α)
  | rule (q : MachineState) (c : Cell α) (r : Action α)

def edit (p : Program α) : Edit α → Program α
  | .state q => p.addState q
  | .symbol c => p.addSymbol c
  | .rule q c r => p.addRule q c r

def edits (p : Program α) (es : List (Edit α)) : Program α := es.foldl edit p

/-- States and tape alphabets are compared as lists, rules as finite maps. -/
instance : BEq (Program α) where
  beq p q := p.name == q.name && p.start == q.start && p.states == q.states &&
    p.tapeAlphabet == q.tapeAlphabet && p.rules == q.rules

/-- The rules of a state in the order of the tape alphabet. -/
def rulesOf (p : Program α) (q : MachineState) : List (Cell α × Action α) :=
  p.tapeAlphabet.filterMap fun c => (p.action? q c).map (c, ·)

variable [Shown α]

def ruleLine (c : Cell α) (r : Action α) : String :=
  "    " ++ shown c ++ " -> " ++ shown r.write ++ ", " ++ r.move.letter ++ ", " ++ shown r.next

def stateLines (p : Program α) (q : MachineState) : List String :=
  ("  " ++ shown q ++ ":") :: (p.rulesOf q).map fun (c, r) => ruleLine c r

def lines (p : Program α) : List String :=
  ["name: " ++ p.name, "blank: " ++ Cell.blankText, "start: " ++ shown p.start, "rules:"] ++
    p.states.flatMap p.stateLines

def listing (p : Program α) : String := String.join (p.lines.map (· ++ "\n"))

end Program

end WordMachines
