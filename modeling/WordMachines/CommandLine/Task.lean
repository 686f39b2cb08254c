import WordMachines.CommandLine.Arguments
import WordMachines.Turing.Machine

/-!
# What a command line asks for

A task is a command with all it needs. Of two sources for the automaton only one may be given, and
so for the two special ways to print a run. The bound on steps is taken from the environment if the
command line leaves it open.
-/

namespace WordMachines.CommandLine

/-- Where the automaton comes from. -/
inductive Source
  | exampleName (name : String)
  | document (text : String)
  | standardInput
  deriving DecidableEq

/-- How a run is printed. -/
inductive Mode
  | plain
  | debug
  | json
  deriving DecidableEq

inductive Task
  | validate (source : Source)
  | empty (source : Source)
  | compile (source : Source)
  | run (source : Source) (words : List String) (bound : Nat) (mode : Mode)
  | enumerate (limit : Option Nat)
  | examples
  deriving DecidableEq

/-- The environment variable that holds the bound on steps. -/
def boundVariable : String := "DFATM_MAX_STEPS"

namespace Settings

def source (s : Settings) : Except Stop Source :=
  match s.exampleName, s.document with
  | none, none => .ok .standardInput
  | some name, none => .ok (.exampleName name)
  | none, some text => .ok (.document text)
  | some _, some _ => .error .refused

def mode (s : Settings) : Except Stop Mode :=
  match s.debug, s.json with
  | false, false => .ok .plain
  | true, false => .ok .debug
  | false, true => .ok .json
  | true, true => .error .refused

def bound (s : Settings) (environment : String → Option String) : Except Stop Nat :=
  match s.maxSteps with
  | some n => .ok n
  | none =>
    match environment boundVariable with
    | some text => readCount text
    | none => .ok defaultBound

end Settings

namespace Task

def ofSettings (s : Settings) (environment : String → Option String) :
    Option Command → Except Stop Task
  | none => .error .refused
  | some .validate => do return validate (← s.source)
  | some .empty => do return empty (← s.source)
  | some .compile => do return compile (← s.source)
  | some .run => do
    return run (← s.source) s.inputs (← s.bound environment) (← s.mode)
  | some .enumerate => .ok (enumerate s.limit)
  | some .examples => .ok examples

def ofArguments (args : List String) (environment : String → Option String) :
    Except Stop Task := do
  let (command, s) ← readArguments none {} none args
  ofSettings s environment command

def source? : Task → Option Source
  | validate s | empty s | compile s | run s _ _ _ => some s
  | enumerate _ | examples => none

def readsInput (t : Task) : Bool := t.source? = some .standardInput

end Task

end WordMachines.CommandLine
