import WordMachines.Dfa.Draft
import WordMachines.Json.Identifier

/-!
# Automata as JSON documents

A document is an object with a field for each part of an automaton; the table is an object of
rows, and a row an object from symbols to targets. Reading skips other fields, takes `null` for an
absent part, and lets the last of two equal row keys or symbol keys win. The list of the five
parts in their order is a document too. Whether all parts are there is asked when the object has
been read, and before what follows it is looked at. Reading does not validate.
-/

namespace WordMachines

open Json

/-- Why a text is no document of an automaton. -/
inductive DocumentFault
  | json (fault : Fault)
  | absent (part : Part)
  deriving DecidableEq

/-- The words of a reader of JSON that are not laid down here: for a text that breaks the grammar or
ends inside a value, and for the place of a value that does not fit. -/
structure Wording where
  breach : List Char → String
  place : List Char → String

/-- The words of a reader that explains nothing. -/
def Wording.bare : Wording := ⟨fun _ => "malformed JSON", fun _ => ""⟩

def DocumentFault.message (wording : Wording) (text : List Char) : DocumentFault → String
  | json .unfinished | json .malformed => wording.breach text
  | json (.misfit m) => m.message ++ wording.place text
  | absent part => part.absence

namespace Draft

variable {S A : Type}

section Writing

variable [Encode S] [Encode A]

def writeRow (row : FinMap A S) : List Char :=
  writeObject (row.entries.map fun e => (Encode.writeKey e.1, Encode.write e.2))

def writeTable (t : Table S A) : List Char :=
  writeObject (t.rows.entries.map fun e => (Encode.writeKey e.1, writeRow e.2))

def writePart (d : Dfa S A) : Part → List Char
  | .states => writeList (d.states.map Encode.write)
  | .alphabet => writeList (d.alphabet.map Encode.write)
  | .transitions => writeTable d.transitions
  | .start => Encode.write d.start
  | .accept => writeList (d.accept.map Encode.write)

end Writing

variable [DecidableEq S] [DecidableEq A] [Decode S] [Decode A]

def readMap {α β : Type} [DecidableEq α] [Decode α] (value : Reader β) : Reader (FinMap α β) :=
  fun cs =>
    match dropSpace cs with
    | '{' :: rest => readMembers '}' (readEntry Decode.readKey value FinMap.insert) ∅ rest
    | cs => refuse "a map" cs

def readTable : Reader (Table S A) := do return ⟨← readMap (readMap Decode.read)⟩

def readPart : Part → Reader (Edit S A)
  | .states => do return .states (← readList Decode.read)
  | .alphabet => do return .alphabet (← readList Decode.read)
  | .transitions => do return .transitions (← readTable)
  | .start => do return .start (← Decode.read)
  | .accept => do return .accept (← readList Decode.read)

/-- A part's value: an absent part is an edit that is not made. -/
def readValue (d : Draft S A) (p : Part) : Reader (Draft S A) := do
  match ← readOptional (readPart p) with
  | some e => return d.edit e
  | none => return d

def documentKind : String := "struct DfaBuilder"

/-- One field of the object; `seen` are the parts whose fields came before. -/
def readField (s : List Part × Draft S A) : Reader (List Part × Draft S A) := do
  let name ← readKeyText
  match Part.ofName? name with
  | none =>
    readColon
    skipValue
    return s
  | some p =>
    if p ∈ s.1 then throw (.misfit (.repeatedField name))
    readColon
    return (p :: s.1, ← readValue s.2 p)

/-- The items of a list of parts, of which `i` have been read. -/
def readItems (i : Nat) (d : Draft S A) : List Part → Reader (Draft S A)
  | [] => fun cs =>
    match dropSpace cs with
    | [] => .error .unfinished
    | ']' :: rest => .ok (d, rest)
    | _ => .error .malformed
  | p :: parts => fun cs =>
    match dropSpace cs with
    | [] => .error .unfinished
    | c :: rest =>
      if c = ']' then
        .error (.misfit (.tooShort i (documentKind ++ " with 5 elements")))
      else if i = 0 then do
        let (d, rest) ← readValue d p (c :: rest)
        readItems (i + 1) d parts rest
      else if c = ',' then
        match dropSpace rest with
        | [] => .error .unfinished
        | cs => do
          let (d, rest) ← readValue d p cs
          readItems (i + 1) d parts rest
      else .error .malformed

def read : Reader (Draft S A) := fun cs =>
  match dropSpace cs with
  | '{' :: rest => do
    let ((_, d), rest) ← readMembers '}' readField ([], {}) rest
    return (d, rest)
  | '[' :: rest => readItems 0 {} Part.all rest
  | cs => refuse documentKind cs

end Draft

namespace Dfa

variable {S A : Type}

/-- Parts in their order, rows and symbols in the order of the table. -/
def document [Encode S] [Encode A] (d : Dfa S A) : List Char :=
  writeObject (Part.all.map fun p => (writeText p.name, Draft.writePart d p))

variable [DecidableEq S] [DecidableEq A] [Decode S] [Decode A]

def ofDocument (text : List Char) : Except DocumentFault (Dfa S A) := do
  let (draft, rest) ← (Draft.read text).mapError .json
  let d ← draft.build.mapError .absent
  (finish rest).mapError .json
  return d

end Dfa

end WordMachines
