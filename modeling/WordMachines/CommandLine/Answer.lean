import WordMachines.Catalog
import WordMachines.CommandLine.Task
import WordMachines.Dfa.Document
import WordMachines.Dfa.Walk
import WordMachines.Enumeration
import WordMachines.Turing.Compile

/-!
# What is answered to a command line

An answer is what is printed and the exit status: 0 for success, 1 for an automaton or a word that
will not do, 2 for a command line that is refused. What was printed before a failure stays.
-/

namespace WordMachines.CommandLine

structure Answer where
  status : Nat
  output : String
  deriving DecidableEq

namespace Answer

def success (output : String) : Answer := ⟨0, output⟩

def failure : Answer := ⟨1, ""⟩

def refusal : Answer := ⟨2, ""⟩

/-- The same answer with some output before its own. -/
def after (output : String) (a : Answer) : Answer := ⟨a.status, output ++ a.output⟩

end Answer

def line (text : String) : String := text ++ "\n"

inductive LoadFault
  | example (unknown : Catalog.Unknown)
  | document (text : List Char) (fault : DocumentFault)
  deriving DecidableEq

/-- The automaton of a source; `input` is what standard input holds. -/
def Source.load (input : String) : Source → Except LoadFault (Dfa Label Label)
  | exampleName name => (Catalog.byName name).map Example.dfa |>.mapError .example
  | document text => (Dfa.ofDocument text.toList).mapError (.document text.toList)
  | standardInput => (Dfa.ofDocument input.toList).mapError (.document input.toList)

/-- The automaton of a source if it is well formed; nothing tells why it is not. -/
def Source.loadValid? (input : String) (s : Source) : Option (ValidDfa Label Label) :=
  match s.load input with
  | .ok d => d.validate.toOption
  | .error _ => none

def quoteWord (w : List Label) : String :=
  "\"" ++ String.join (w.map Label.text) ++ "\""

/-- A text that is no document makes an invalid automaton; an unknown example makes none. -/
def validateAnswer (wording : Wording) (input : String) (s : Source) : Answer :=
  match s.load input with
  | .error (.example _) => .failure
  | .error (.document text fault) => ⟨1, line ("invalid: " ++ fault.message wording text)⟩
  | .ok d =>
    match d.firstDefect? with
    | some defect => ⟨1, line ("invalid: " ++ defect.message)⟩
    | none => .success (line "valid")

def emptyAnswer (d : ValidDfa Label Label) : Answer :=
  .success (line (
    if d.isEmpty then "empty"
    else "non-empty (shortest accepted word: " ++ quoteWord (d.shortestAccepted?.getD []) ++ ")"))

def reportText (mode : Mode) (w : List Label) (r : Report Label) : String :=
  match mode with
  | .json => line (String.ofList r.write)
  | _ =>
    line ("input: " ++ quoteWord w) ++
      (if mode = .debug then String.join (r.trace.toList.map fun s => line s.text) else "") ++
      line ("verdict: " ++ shown r.verdict) ++
      line ("steps: " ++ r.stepCount.repr) ++
      line ("tape: " ++ r.tapeText)

/-- What comes between the reports of two words. -/
def separator : Mode → String
  | .plain | .debug => "\n"
  | .json => ""

/-- Runs on one word after the other, up to the first with an unknown symbol. -/
def runAnswer (p : Program Label) (bound : Nat) (mode : Mode) : List String → Answer
  | [] => .success ""
  | w :: ws =>
    match p.run (Label.word w) bound with
    | .error _ => .failure
    | .ok r => (rest ws).after (reportText mode (Label.word w) r)
where
  /-- The reports that follow another one. -/
  rest : List String → Answer
  | [] => .success ""
  | w :: ws =>
    match p.run (Label.word w) bound with
    | .error _ => .failure
    | .ok r => (rest ws).after (separator mode ++ reportText mode (Label.word w) r)

def padLeft (width : Nat) (text : String) : String :=
  String.ofList (List.replicate (width - text.length) ' ') ++ text

def padRight (width : Nat) (text : String) : String :=
  text ++ String.ofList (List.replicate (width - text.length) ' ')

/-- Start, accepting states and transitions on one line. -/
def summary (d : Dfa UInt32 Char) : String :=
  let moves := d.states.flatMap fun q => d.alphabet.filterMap fun a =>
    (d.next? q a).map fun t => shown q ++ shown a ++ "->" ++ shown t
  "start=" ++ shown d.start ++ " accept=[" ++ ", ".intercalate (d.accept.map shown) ++ "] " ++
    " ".intercalate moves

def enumerateLine (index : Nat) (d : Dfa UInt32 Char) : String :=
  line (padLeft 3 index.repr ++ "  " ++ summary d ++ "  " ++
    if Enumeration.isNonempty d then "non-empty" else "empty")

def enumerateAnswer (limit : Option Nat) : Answer :=
  let all := (Enumeration.mk 0).toList
  let shownOnes := all.take (limit.getD all.length)
  .success (String.join (shownOnes.zipIdx.map fun (d, i) => enumerateLine i d))

def examplesAnswer : Answer :=
  .success (String.join (Catalog.examples.map fun e =>
    line (padRight 20 e.name ++ " " ++ e.description)))

def Task.answer (wording : Wording) (input : String) : Task → Answer
  | validate s => validateAnswer wording input s
  | empty s =>
    match s.loadValid? input with
    | some d => emptyAnswer d
    | none => .failure
  | compile s =>
    match s.loadValid? input with
    | some d => .success d.compile.listing
    | none => .failure
  | run s words bound mode =>
    match s.loadValid? input with
    | some d => runAnswer d.compile bound mode words
    | none => .failure
  | enumerate limit => enumerateAnswer limit
  | examples => examplesAnswer

/-- Help has no text of its own. -/
def Stop.answer : Stop → Answer
  | refused => .refusal
  | help => .success ""
  | version => .success (line "dfatm-cli 0.0.1")

/-- Run by itself, the program does not explain faults of JSON. -/
def answer (args : List String) (input : String) (environment : String → Option String) : Answer :=
  match Task.ofArguments args environment with
  | .ok task => task.answer .bare input
  | .error stop => stop.answer

end WordMachines.CommandLine
