/-!
# Binary floating-point magnitudes

The magnitude of a finite double is `mantissa * 2 ^ exponent` with a mantissa below `2 ^ 53` and an
exponent of at least `-1074`. A quotient of natural numbers is rounded to the nearest magnitude, a
tie going to the even mantissa; products and quotients of magnitudes are rounded once. The text of
a magnitude has the fewest digits that round back to it and, of those, the nearest.
-/

namespace WordMachines.Json

structure Binary64 where
  mantissa : Nat
  exponent : Int
  deriving DecidableEq

/-- The nearest natural number to `num / den`, the even one in a tie. -/
def roundHalfEven (num den : Nat) : Nat :=
  let q := num / den
  let r := num % den
  if 2 * r < den then q
  else if 2 * r = den then q + q % 2
  else q + 1

namespace Binary64

def zero : Binary64 := ⟨0, -1074⟩

def isZero (x : Binary64) : Bool := x.mantissa == 0

/-- The pair of natural numbers whose quotient is `num / den * 2 ^ e`. -/
def scaleTwo (num den : Nat) (e : Int) : Nat × Nat :=
  if 0 ≤ e then (num * Nat.pow 2 e.toNat, den) else (num, den * Nat.pow 2 (-e).toNat)

/-- The integer `k` with `2 ^ k ≤ num / den < 2 ^ (k + 1)`, for positive `num` and `den`. -/
def floorLog2 (num den : Nat) : Int :=
  let k : Int := (num.log2 : Int) - den.log2
  let (n, d) := scaleTwo num den (-k)
  if n < d then k - 1 else k

/-- The magnitude nearest to `num / den`; none if that is too large to be finite. -/
def ofQuotient (num den : Nat) : Option Binary64 :=
  if num = 0 then some zero
  else
    let e := max (floorLog2 num den - 52) (-1074)
    let (n, d) := scaleTwo num den (-e)
    let m := roundHalfEven n d
    let x : Binary64 := if m = Nat.pow 2 53 then ⟨Nat.pow 2 52, e + 1⟩ else ⟨m, e⟩
    if x.exponent ≤ 971 then some x else none

def mul (x y : Binary64) : Option Binary64 :=
  let (n, d) := scaleTwo (x.mantissa * y.mantissa) 1 (x.exponent + y.exponent)
  ofQuotient n d

/-- The quotient by a nonzero magnitude. -/
def div (x y : Binary64) : Option Binary64 :=
  let (n, d) := scaleTwo x.mantissa y.mantissa (x.exponent - y.exponent)
  ofQuotient n d

def powTen (e : Nat) : Option Binary64 := ofQuotient (Nat.pow 10 e) 1

/-- `x / 10 ^ n`, in steps of at most `10 ^ 308`, each of them rounded. -/
def shrinkTen (x : Binary64) (n : Nat) : Option Binary64 :=
  if n ≤ 308 then (powTen n).bind x.div
  else if x.isZero then some x
  else do
    let y ← (powTen 308).bind x.div
    shrinkTen y (n - 308)
termination_by n

/-- `x * 10 ^ e` as it is computed from a rounded `x`; none if it overflows. -/
def scaleTen (x : Binary64) (e : Int) : Option Binary64 :=
  if e < 0 then shrinkTen x (-e).toNat
  else if e ≤ 308 then (powTen e.toNat).bind x.mul
  else if x.isZero then some x
  else none

/-- `digits * 10 ^ exponent` -/
structure Decimal where
  digits : Nat
  exponent : Int

/-- The pair of natural numbers whose quotient is `num / den * 10 ^ e`. -/
def scaleDec (num den : Nat) (e : Int) : Nat × Nat :=
  if 0 ≤ e then (num * Nat.pow 10 e.toNat, den) else (num, den * Nat.pow 10 (-e).toNat)

/-- The integer `k` with `10 ^ k ≤ num / den < 10 ^ (k + 1)`, for positive `num` and `den`. -/
def floorLog10 (num den : Nat) : Int :=
  let k : Int := ((Nat.toDigits 10 num).length : Int) - (Nat.toDigits 10 den).length
  let (n, d) := scaleDec num den (-k)
  if n < d then k - 1 else k

/-- Whether a positive decimal rounds to `x`. -/
def isRead (x : Binary64) (y : Decimal) : Bool :=
  let (n, d) := scaleDec y.digits 1 y.exponent
  ofQuotient n d = some x

/-- Of the two multiples of `10 ^ p` around `x` the nearer one that rounds to `x`. -/
def nearestOnGrid (x : Binary64) (p : Int) : Option Decimal :=
  let (n, d) := scaleTwo x.mantissa 1 x.exponent
  let (n, d) := scaleDec n d (-p)
  let low : Decimal := ⟨n / d, p⟩
  let high : Decimal := ⟨n / d + 1, p⟩
  let first := if roundHalfEven n d = n / d then low else high
  let second := if roundHalfEven n d = n / d then high else low
  [first, second].find? x.isRead

def dropZeros : Nat → Decimal → Decimal
  | 0, y => y
  | fuel + 1, y =>
    if y.digits % 10 = 0 then dropZeros fuel ⟨y.digits / 10, y.exponent + 1⟩ else y

/-- Seventeen digits always suffice. -/
def shortest (x : Binary64) : Decimal :=
  let (n, d) := scaleTwo x.mantissa 1 x.exponent
  let k := floorLog10 n d
  let found := (List.range 17).findSome? fun (i : Nat) => x.nearestOnGrid (k - i)
  dropZeros 17 (found.getD ⟨0, 0⟩)

/-- A sign, also for zero and above, then the digits. -/
def exponentText (e : Int) : List Char :=
  (if e < 0 then '-' else '+') :: Nat.toDigits 10 e.natAbs

/-- Positional with at least one digit on either side of the point for leading digits worth
`10 ^ -5` to `10 ^ 15`, else one digit before the point and an exponent. -/
def Decimal.text (y : Decimal) : List Char :=
  let digits := Nat.toDigits 10 y.digits
  let lead : Int := y.exponent + digits.length - 1
  if lead < -5 ∨ 15 < lead then
    let point := if digits.length = 1 then [] else '.' :: digits.drop 1
    digits.take 1 ++ point ++ 'e' :: exponentText lead
  else if 0 ≤ y.exponent then digits ++ List.replicate y.exponent.toNat '0' ++ ['.', '0']
  else if 0 ≤ lead then digits.take (lead + 1).toNat ++ '.' :: digits.drop (lead + 1).toNat
  else '0' :: '.' :: (List.replicate (-lead - 1).toNat '0' ++ digits)

def text (x : Binary64) : List Char :=
  if x.isZero then ['0', '.', '0'] else x.shortest.text

end Binary64

end WordMachines.Json
