import WordMachines.CommandLine.Answer

/-!
# The program

Hands the command line, its environment and, if the automaton is to come from there, standard
input to the library, prints the answer and exits with its status.
-/

namespace WordMachines.CommandLine

partial def readAll (stream : IO.FS.Stream) (text : String) : IO String := do
  let next ← stream.getLine
  if next.isEmpty then return text else readAll stream (text ++ next)

end WordMachines.CommandLine

open WordMachines.CommandLine in
def main (args : List String) : IO UInt32 := do
  let bound ← IO.getEnv boundVariable
  let environment := fun name => if name = boundVariable then bound else none
  let answered ← match Task.ofArguments args environment with
    | .ok task =>
      let input ← if task.readsInput then readAll (← IO.getStdin) "" else pure ""
      pure (task.answer .bare input)
    | .error stop => pure stop.answer
  IO.print answered.output
  return UInt32.ofNat answered.status
