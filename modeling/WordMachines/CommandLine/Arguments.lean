/-!
# Command lines

A command line names a command and gives it options. An option has a long name and perhaps a
letter. Its value stands in the same argument, after `=` or right after the letter, or it is the
next argument, which must then not begin with a hyphen unless it is the hyphen alone. Letters of
options without value may share a hyphen. Reading goes from left to right and stops at the first
thing that is wrong, or at a request for the version or for help.
-/

namespace WordMachines.CommandLine

inductive Command
  | validate
  | empty
  | compile
  | run
  | enumerate
  | examples
  deriving DecidableEq

inductive Opt
  | verbose
  | help
  | version
  | exampleName
  | document
  | input
  | maxSteps
  | debug
  | json
  | limit
  deriving DecidableEq

def Command.all : List Command := [.validate, .empty, .compile, .run, .enumerate, .examples]

def Command.name : Command → String
  | validate => "validate"
  | empty => "empty"
  | compile => "compile"
  | run => "run"
  | enumerate => "enumerate"
  | examples => "examples"

def Command.ofName? (name : String) : Option Command := all.find? (·.name = name)

namespace Opt

def long : Opt → String
  | verbose => "verbose"
  | help => "help"
  | version => "version"
  | exampleName => "example"
  | document => "dfa"
  | input => "input"
  | maxSteps => "max-steps"
  | debug => "debug"
  | json => "json"
  | limit => "limit"

def letter? : Opt → Option Char
  | verbose => some 'v'
  | help => some 'h'
  | version => some 'V'
  | exampleName => some 'e'
  | document => none
  | input => some 'i'
  | maxSteps => some 'm'
  | debug => some 'd'
  | json => none
  | limit => some 'l'

def takesValue : Opt → Bool
  | exampleName | document | input | maxSteps | limit => true
  | verbose | help | version | debug | json => false

/-- The options before the command, and those after it. -/
def known : Option Command → List Opt
  | none => [verbose, help, version]
  | some .validate | some .empty | some .compile => [verbose, help, exampleName, document]
  | some .run => [verbose, help, exampleName, document, input, maxSteps, debug, json]
  | some .enumerate => [verbose, help, limit]
  | some .examples => [verbose, help]

end Opt

/-- What has been given so far. -/
structure Settings where
  exampleName : Option String := none
  document : Option String := none
  inputs : List String := []
  maxSteps : Option Nat := none
  debug : Bool := false
  json : Bool := false
  limit : Option Nat := none

/-- Why reading ends before the command line does. -/
inductive Stop
  | refused
  | help
  | version
  deriving DecidableEq

/-- A decimal number of 64 bits; a plus sign may come first. -/
def readCount (text : String) : Except Stop Nat :=
  let digits := match text.toList with
    | '+' :: ds => ds
    | ds => ds
  let n := Nat.ofDigitChars 10 digits 0
  if digits ≠ [] ∧ digits.all Char.isDigit ∧ n < UInt64.size then .ok n else .error .refused

namespace Settings

/-- Input words may be given repeatedly, and so may verbosity, which changes nothing here; any
other option only once. The value is not looked at if the option takes none. -/
def give (s : Settings) (o : Opt) (value : String) : Except Stop Settings :=
  match o with
  | .verbose => .ok s
  | .help => .error .help
  | .version => .error .version
  | .exampleName =>
    if s.exampleName.isSome then .error .refused else .ok { s with exampleName := some value }
  | .document =>
    if s.document.isSome then .error .refused else .ok { s with document := some value }
  | .input => .ok { s with inputs := s.inputs ++ [value] }
  | .maxSteps => do
    if s.maxSteps.isSome then throw .refused
    return { s with maxSteps := some (← readCount value) }
  | .debug => if s.debug then .error .refused else .ok { s with debug := true }
  | .json => if s.json then .error .refused else .ok { s with json := true }
  | .limit => do
    if s.limit.isSome then throw .refused
    return { s with limit := some (← readCount value) }

/-- The options of one hyphen. The last may want the next argument for its value. -/
def giveLetters (s : Settings) (known : List Opt) : List Char → Except Stop (Settings × Option Opt)
  | [] => .ok (s, none)
  | c :: rest =>
    match known.find? (·.letter? = some c) with
    | none => .error .refused
    | some o =>
      if o.takesValue then
        match rest with
        | [] => .ok (s, some o)
        | '=' :: value => do return (← s.give o (String.ofList value), none)
        | value => do return (← s.give o (String.ofList value), none)
      else do
        giveLetters (← s.give o "") known rest

/-- The option behind two hyphens, which too may want the next argument for its value. -/
def giveLong (s : Settings) (known : List Opt) (arg : List Char) :
    Except Stop (Settings × Option Opt) :=
  let name := arg.takeWhile (· ≠ '=')
  match known.find? (·.long = String.ofList name), arg.drop name.length with
  | none, _ => .error .refused
  | some o, [] => if o.takesValue then .ok (s, some o) else do return (← s.give o "", none)
  | some o, _ :: value =>
    if o.takesValue then do return (← s.give o (String.ofList value), none) else .error .refused

end Settings

def isDetachedValue (arg : String) : Bool := arg = "-" || !arg.startsWith "-"

/-- What may follow the word `help`: nothing, a command, or the word itself. -/
def isHelpTopic : List String → Bool
  | [] => true
  | [topic] => topic = "help" || (Command.ofName? topic).isSome
  | _ => false

/-- The command and the settings of the arguments to come; `pending` is an option that still wants
its value. -/
def readArguments (command : Option Command) (s : Settings) (pending : Option Opt) :
    List String → Except Stop (Option Command × Settings)
  | [] => if pending.isSome then .error .refused else .ok (command, s)
  | arg :: rest =>
    match pending with
    | some o =>
      if isDetachedValue arg then do readArguments command (← s.give o arg) none rest
      else .error .refused
    | none =>
      match arg.toList with
      | ['-', '-'] => if rest = [] then .ok (command, s) else .error .refused
      | '-' :: '-' :: name => do
        let (s, pending) ← s.giveLong (Opt.known command) name
        readArguments command s pending rest
      | '-' :: c :: letters => do
        let (s, pending) ← s.giveLetters (Opt.known command) (c :: letters)
        readArguments command s pending rest
      | _ =>
        if command.isSome then .error .refused
        else match Command.ofName? arg with
          | some c => readArguments (some c) s none rest
          | none => .error (if arg = "help" ∧ isHelpTopic rest then .help else .refused)

end WordMachines.CommandLine
