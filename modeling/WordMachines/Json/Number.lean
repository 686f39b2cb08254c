import WordMachines.Json.Fault

/-!
# JSON numbers

A number is read in two steps: its parts by the grammar, then its value. Without fraction and
exponent it is an integer if it lies between `-2 ^ 63` and `2 ^ 64 - 1`, save that `-0` is a real.
Every other number is a real, computed from as many of its leading digits as stay below `2 ^ 64`
and a power of ten. A real too large for a double is a fault of grammar.
-/

namespace WordMachines.Json

/-- The parts of a number as written. The fraction is empty if there is no point. -/
structure Numeral where
  negative : Bool
  whole : List Char
  fraction : List Char
  exponent : Option (Bool × List Char)

namespace Numeral

/-- At least one digit; `cut` is the fault if the text ends before it. -/
def readDigits (cut : Fault) (cs : List Char) : Except Fault (List Char × List Char) :=
  match cs with
  | [] => .error cut
  | c :: _ =>
    if c.isDigit then .ok (cs.takeWhile Char.isDigit, cs.dropWhile Char.isDigit)
    else .error .malformed

def readWhole (cut : Fault) (cs : List Char) : Except Fault (List Char × List Char) := do
  let (ds, rest) ← readDigits cut cs
  if ds.length > 1 ∧ ds.head? = some '0' then throw .malformed
  return (ds, rest)

def readFraction (cut : Fault) : List Char → Except Fault (List Char × List Char)
  | '.' :: rest => readDigits cut rest
  | cs => .ok ([], cs)

def readExponent (cut : Fault) : List Char → Except Fault (Option (Bool × List Char) × List Char)
  | c :: rest =>
    if c = 'e' ∨ c = 'E' then do
      let (negative, rest) := match rest with
        | '+' :: rest => (false, rest)
        | '-' :: rest => (true, rest)
        | _ => (false, rest)
      let (ds, rest) ← readDigits cut rest
      return (some (negative, ds), rest)
    else .ok (none, c :: rest)
  | [] => .ok (none, [])

/-- `cut` is the fault if the text ends where a digit must follow. -/
def read (cut : Fault) (cs : List Char) : Except Fault (Numeral × List Char) := do
  let (negative, cs) := match cs with
    | '-' :: rest => (true, rest)
    | _ => (false, cs)
  let (whole, cs) ← readWhole cut cs
  let (fraction, cs) ← readFraction cut cs
  let (exponent, cs) ← readExponent cut cs
  return ({ negative, whole, fraction, exponent }, cs)

/-- Appends digits to `n` for as long as the result stays below `2 ^ 64`. -/
def absorb (n : Nat) : List Char → Nat × List Char
  | [] => (n, [])
  | c :: rest =>
    let n' := Nat.ofDigitChars 10 [c] n
    if n' < UInt64.size then absorb n' rest else (n, c :: rest)

def magnitude? (x : Numeral) : Option Binary64 :=
  let (n, left) := absorb 0 x.whole
  let (n, unused) := absorb n x.fraction
  let shift : Int := left.length - (x.fraction.length - unused.length : Nat)
  let e : Int := match x.exponent with
    | none => shift
    | some (negative, ds) =>
      let e := Nat.ofDigitChars 10 ds 0
      if negative then shift - e else shift + e
  (Binary64.ofQuotient n 1).bind (·.scaleTen e)

def integer? (x : Numeral) : Option Int :=
  let n := Nat.ofDigitChars 10 x.whole 0
  if x.fraction = [] ∧ x.exponent = none then
    if x.negative then if 0 < n ∧ n ≤ Nat.pow 2 63 then some (-n) else none
    else if n < UInt64.size then some n
    else none
  else none

end Numeral

inductive Number
  | integer (n : Int)
  | real (negative : Bool) (magnitude : Binary64)

def Number.found : Number → Found
  | integer n => .integer n
  | real negative x => .real negative x

def readNumber (cs : List Char) : Except Fault (Number × List Char) := do
  let (x, rest) ← Numeral.read .unfinished cs
  match x.integer? with
  | some n => return (.integer n, rest)
  | none =>
    match x.magnitude? with
    | some m => return (.real x.negative m, rest)
    | none => throw .malformed

/-- The value of a number passed over does not matter, and the text ending in it is no better
than any other character there. -/
def skipNumber (cs : List Char) : Except Fault (List Char) := do
  let (_, rest) ← Numeral.read .malformed cs
  return rest

end WordMachines.Json
