import WordMachines.Json.Binary64
import WordMachines.Json.Spelling

/-!
# What can be wrong with a JSON text

Reading goes from left to right and stops at the first fault: the text ends inside a value, or it
breaks the grammar, or a value is well written so far and not of the kind wanted there.
-/

namespace WordMachines.Json

/-- The first token of a value, as far as a message tells of it. -/
inductive Found
  | null
  | bool (b : Bool)
  | integer (n : Int)
  | real (negative : Bool) (magnitude : Binary64)
  | text (s : String)
  | list
  | object
  deriving DecidableEq

/-- `wanted` is how a reader describes the values it takes. -/
inductive Misfit
  | wrongType (found : Found) (wanted : String)
  | wrongValue (found : Found) (wanted : String)
  | tooShort (length : Nat) (wanted : String)
  | repeatedField (name : String)
  | unknownVariant (name : String) (known : List String)
  deriving DecidableEq

inductive Fault
  | unfinished
  | malformed
  | misfit (m : Misfit)
  deriving DecidableEq

def intDigits : Int → List Char
  | .ofNat n => Nat.toDigits 10 n
  | .negSucc n => '-' :: Nat.toDigits 10 (n + 1)

def intText (n : Int) : String := String.ofList (intDigits n)

namespace Found

def message : Found → String
  | null => "null"
  | bool true => "boolean `true`"
  | bool false => "boolean `false`"
  | integer n => "integer `" ++ intText n ++ "`"
  | real negative x =>
    "floating point `" ++ (if negative then "-" else "") ++ String.ofList x.text ++ "`"
  | text s => "string " ++ String.ofList (spell s)
  | list => "sequence"
  | object => "map"

end Found

namespace Misfit

def message : Misfit → String
  | wrongType found wanted => "invalid type: " ++ found.message ++ ", expected " ++ wanted
  | wrongValue found wanted => "invalid value: " ++ found.message ++ ", expected " ++ wanted
  | tooShort length wanted => "invalid length " ++ length.repr ++ ", expected " ++ wanted
  | repeatedField name => "duplicate field `" ++ name ++ "`"
  | unknownVariant name known =>
    "unknown variant `" ++ name ++ "`, expected one of " ++
      ", ".intercalate (known.map fun v => "`" ++ v ++ "`")

end Misfit

end WordMachines.Json
