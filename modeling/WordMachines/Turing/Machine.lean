import WordMachines.Turing.Snapshot

/-!
# Running a program

A machine is one run of a program on one word, as far as it has come. A step applies the rule for
the state and the cell under the head. Without such a rule the machine is stuck: it rejects, which
counts as a step and leaves state, head and tape alone. A halted machine takes no further step.
The trace holds a snapshot of the outset and one of each step.
-/

namespace WordMachines

inductive Verdict
  | accept
  | reject
  | timeout
  deriving DecidableEq

instance : Shown Verdict where
  shown
    | .accept => "ACCEPT"
    | .reject => "REJECT"
    | .timeout => "TIMEOUT"

/-- Why a word cannot be put on the tape; the fields are texts. -/
inductive StartError
  | undeclaredStart (state : String)
  | unknownSymbol (symbol : String)
  deriving DecidableEq

def StartError.message : StartError → String
  | undeclaredStart q => "Invalid state: " ++ q
  | unknownSymbol a => "Symbol " ++ a ++ " is not part of the tape alphabet"

structure Machine (α : Type) where
  state : MachineState
  tape : Tape α
  stepCount : Nat
  trace : Array (Snapshot α)
  /-- no rule applied at the last step -/
  stuck : Bool

namespace Machine

variable {α : Type}

def snapshot (m : Machine α) : Snapshot α :=
  ⟨m.stepCount, m.state, m.tape.window, m.tape.headOffset⟩

/-- The machine with its present state as the latest entry of the trace. -/
def record (m : Machine α) : Machine α := { m with trace := m.trace.push m.snapshot }

def verdict? (m : Machine α) : Option Verdict :=
  if m.stuck then some .reject
  else match m.state with
    | .named _ => none
    | .accept => some .accept
    | .reject => some .reject

def isHalted (m : Machine α) : Bool := m.verdict?.isSome

def init (start : MachineState) (w : List α) : Machine α :=
  record ⟨start, .ofWord w, 0, #[], false⟩

def perform (m : Machine α) (r : Action α) : Machine α :=
  record { m with
    state := r.next
    tape := (m.tape.write r.write).move r.move
    stepCount := m.stepCount + 1 }

def giveUp (m : Machine α) : Machine α :=
  record { m with stepCount := m.stepCount + 1, stuck := true }

variable [DecidableEq α] (p : Program α)

def start [Shown α] (w : List α) : Except StartError (Machine α) :=
  if p.hasState p.start then
    match w.find? (!p.takes ·) with
    | some a => .error (.unknownSymbol (shown a))
    | none => .ok (init p.start w)
  else .error (.undeclaredStart (shown p.start))

/-- The machine after one step, and the verdict if it turns out to have halted before the step or
for want of a rule. -/
def step (m : Machine α) : Machine α × Option Verdict :=
  match m.verdict? with
  | some v => (m, some v)
  | none =>
    match p.action? m.state m.tape.read with
    | some r => (m.perform r, none)
    | none => (m.giveUp, some .reject)

/-- At most `n` steps more. -/
def runFor : Nat → Machine α → Machine α × Verdict
  | 0, m => (m, m.verdict?.getD .timeout)
  | n + 1, m =>
    match m.verdict? with
    | some v => (m, v)
    | none =>
      match m.step p with
      | (m, some v) => (m, v)
      | (m, none) => runFor n m

/-- Runs until the machine halts or has taken `bound` steps since its outset. A verdict reached
with the last step allowed stands. -/
def run (bound : Nat) (m : Machine α) : Machine α × Verdict := runFor p (bound - m.stepCount) m

end Machine

structure Report (α : Type) where
  verdict : Verdict
  stepCount : Nat
  finalTape : List (Cell α)
  trace : Array (Snapshot α)
  deriving DecidableEq

def Machine.report {α : Type} (m : Machine α) (v : Verdict) : Report α :=
  ⟨v, m.stepCount, m.tape.cells, m.trace⟩

def defaultBound : Nat := 1000

def Program.run {α : Type} [DecidableEq α] [Shown α] (p : Program α) (w : List α) (bound : Nat) :
    Except StartError (Report α) := do
  let (m, v) := (← Machine.start p w).run p bound
  return m.report v

namespace Report

variable {α : Type} (r : Report α)

def tapeText [Shown α] : String := cellsText r.finalTape

open Json in
def write [Encode α] : List Char :=
  writeObject [
    (writeText "verdict", writeText (shown r.verdict)),
    (writeText "step_count", Nat.toDigits 10 r.stepCount),
    (writeText "final_tape", writeList (r.finalTape.map Cell.write)),
    (writeText "trace", writeList (r.trace.toList.map Snapshot.write))]

end Report

end WordMachines
