import WordMachines.Json.Reader
import WordMachines.Identifier

/-!
# Identifiers in JSON

An identifier is written in two ways: as a value, and as the key of an object, where JSON allows
strings only. A label is written as a string, and is also read from an integer, whose digits then
are its text. A 32-bit number is an integer, and as a key the text of one. A character is a string
of one code point.
-/

namespace WordMachines.Json

/-- `readKey` starts at the opening quote of the key. -/
class Decode (α : Type) where
  read : Reader α
  readKey : Reader α

/-- Keys are written with their quotes. -/
class Encode (α : Type) where
  write : α → List Char
  writeKey : α → List Char

def readString (wanted : String) : Reader String := fun cs =>
  match dropSpace cs with
  | '"' :: rest => readText rest
  | cs => refuse wanted cs

/-- A key, or the fault of a key that is not a string. -/
def readKeyText : Reader String := fun
  | [] => .error .unfinished
  | '"' :: rest => readText rest
  | _ => .error .malformed

def labelKind : String := "a string or integer label"

def readLabel : Reader Label := fun cs => do
  let (found, rest) ← readFound (dropSpace cs)
  match found with
  | .text s => return (⟨s⟩, rest)
  | .integer n => return (⟨intText n⟩, rest)
  | _ => throw (.misfit (.wrongType found labelKind))

instance : Decode Label where
  read := readLabel
  readKey := Label.mk <$> readKeyText

instance : Encode Label where
  write x := writeText x.text
  writeKey x := writeText x.text

def uint32Kind : String := "u32"

def uint32OfNumber : Number → Except Fault UInt32
  | .integer n =>
    if 0 ≤ n ∧ n < UInt32.size then .ok (.ofNat n.toNat)
    else .error (.misfit (.wrongValue (.integer n) uint32Kind))
  | .real negative x => .error (.misfit (.wrongType (.real negative x) uint32Kind))

def readUInt32 : Reader UInt32 := fun cs =>
  match dropSpace cs with
  | [] => .error .unfinished
  | c :: rest =>
    if c = '-' ∨ c.isDigit then do
      let (n, rest) ← readNumber (c :: rest)
      return (← uint32OfNumber n, rest)
    else refuse uint32Kind (c :: rest)

/-- The number is judged before the closing quote is looked for. -/
def readUInt32Key : Reader UInt32 := fun
  | '"' :: c :: rest =>
    if c = '-' ∨ c.isDigit then do
      let (n, rest) ← readNumber (c :: rest)
      let x ← uint32OfNumber n
      match rest with
      | '"' :: rest => return (x, rest)
      | _ => throw .malformed
    else .error .malformed
  | _ => .error .malformed

instance : Decode UInt32 where
  read := readUInt32
  readKey := readUInt32Key

instance : Encode UInt32 where
  write n := Nat.toDigits 10 n.toNat
  writeKey n := '"' :: (Nat.toDigits 10 n.toNat ++ ['"'])

def charKind : String := "a character"

def charOfText (s : String) : Except Fault Char :=
  match s.toList with
  | [c] => .ok c
  | _ => .error (.misfit (.wrongValue (.text s) charKind))

instance : Decode Char where
  read := do charOfText (← readString charKind)
  readKey := do charOfText (← readKeyText)

instance : Encode Char where
  write c := writeText (String.singleton c)
  writeKey c := writeText (String.singleton c)

def writeJoined : List (List Char) → List Char
  | [] => []
  | [x] => x
  | x :: xs => x ++ ',' :: writeJoined xs

def writeList (items : List (List Char)) : List Char := '[' :: (writeJoined items ++ [']'])

/-- Keys come quoted. -/
def writeObject (members : List (List Char × List Char)) : List Char :=
  '{' :: (writeJoined (members.map fun m => m.1 ++ ':' :: m.2) ++ ['}'])

end WordMachines.Json
