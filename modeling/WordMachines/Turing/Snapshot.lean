import WordMachines.Json.Identifier
import WordMachines.Turing.Program

/-!
# Snapshots of a run

A snapshot keeps the number of steps taken, the state, and the window of the tape with the place
of the head in it. Its text shows the window and, on the line below, a caret under the head: as
many spaces come before the caret as code points are shown before the cell of the head.
-/

namespace WordMachines

structure Snapshot (α : Type) where
  step : Nat
  state : MachineState
  window : List (Cell α)
  headOffset : Nat
  deriving DecidableEq

namespace Snapshot

variable {α : Type} (s : Snapshot α)

def caretColumn [Shown α] : Nat :=
  ((s.window.take s.headOffset).map fun c => (shown c).length).foldr (· + ·) 0

def text [Shown α] : String :=
  "step " ++ s.step.repr ++ ": state=" ++ shown s.state ++ " head=" ++ s.headOffset.repr ++ "\n" ++
    "  " ++ cellsText s.window ++ "\n" ++
    "  " ++ String.ofList (List.replicate s.caretColumn ' ') ++ "^"

end Snapshot

open Json

/-- The blank is `null`, which no symbol is. -/
def Cell.write {α : Type} [Encode α] : Cell α → List Char
  | symbol a => Encode.write a
  | blank => ['n', 'u', 'l', 'l']

def Snapshot.write {α : Type} [Encode α] (s : Snapshot α) : List Char :=
  writeObject [
    (writeText "step", Nat.toDigits 10 s.step),
    (writeText "state", writeText (shown s.state)),
    (writeText "window", writeList (s.window.map Cell.write)),
    (writeText "head_offset", Nat.toDigits 10 s.headOffset)]

/-- A direction is its name, or an object with its name as the only key and `null` as value. -/
def Direction.read : Reader Direction := fun cs =>
  match dropSpace cs with
  | [] => .error .unfinished
  | '"' :: rest => do
    let (name, rest) ← readText rest
    return (← ofText name, rest)
  | '{' :: rest => do
    let (name, rest) ← readKeyText (dropSpace rest)
    let d ← ofText name
    let (_, rest) ← readColon rest
    let (_, rest) ← readNull rest
    match dropSpace rest with
    | [] => throw .unfinished
    | '}' :: rest => return (d, rest)
    | _ => throw .malformed
  | _ => .error .malformed
where
  ofText (name : String) : Except Fault Direction :=
    match ofName? name with
    | some d => .ok d
    | none => .error (.misfit (.unknownVariant name (all.map Direction.name)))

end WordMachines
