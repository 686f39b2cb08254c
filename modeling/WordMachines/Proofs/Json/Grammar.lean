import Mathlib.Tactic
import WordMachines.Json.Reader

/-!
# The grammar of JSON

A JSON value is a tree. Beside the value the tree keeps what another text of the same value may
have otherwise: white space, escapes, and the way in which a number is written. So every text that
the grammar allows is the text of a tree.
-/

namespace WordMachines.Json

structure Space where
  chars : List Char
  all_isSpace : chars.all isSpace := by decide

def Space.none : Space := ⟨[], rfl⟩

structure HexDigit where
  char : Char
  value : ℕ
  hexValue?_eq : hexValue? char = some value := by decide

/-- Four hexadecimal digits. -/
structure CodeUnit where
  a : HexDigit
  b : HexDigit
  c : HexDigit
  d : HexDigit

namespace CodeUnit

def text (u : CodeUnit) : List Char := [u.a.char, u.b.char, u.c.char, u.d.char]

def value (u : CodeUnit) : ℕ := ((u.a.value * 16 + u.b.value) * 16 + u.c.value) * 16 + u.d.value

end CodeUnit

/-- The character that two halves of a surrogate pair stand for. -/
def pairedChar (lead trail : ℕ) : Char :=
  Char.ofNat (0x10000 + (lead - 0xD800) * 0x400 + (trail - 0xDC00))

/-- What may stand between the quotes of a string. -/
inductive Piece
  | plain (c : Char) (h : c ≠ '"' ∧ c ≠ '\\' ∧ 0x20 ≤ c.toNat)
  | escape (letter c : Char) (h : simpleEscape? letter = some c)
  | unit (u : CodeUnit)

namespace Piece

def text : Piece → List Char
  | plain c _ => [c]
  | escape letter _ _ => ['\\', letter]
  | unit u => '\\' :: 'u' :: u.text

/-- The characters that the pieces stand for. Half of a surrogate pair stands for nothing. -/
def chars? : List Piece → Option (List Char)
  | [] => some []
  | plain c _ :: ps => (chars? ps).map (c :: ·)
  | escape _ c _ :: ps => (chars? ps).map (c :: ·)
  | unit u :: ps =>
    if isTrailing u.value then none
    else if isLeading u.value then
      match ps with
      | unit v :: ps =>
        if isTrailing v.value then (chars? ps).map (pairedChar u.value v.value :: ·) else none
      | _ => none
    else (chars? ps).map (Char.ofNat u.value :: ·)

end Piece

/-- The pieces between double quotes. -/
def quoted (ps : List Piece) : List Char := '"' :: (ps.flatMap Piece.text ++ ['"'])

/-- The text that the pieces spell. -/
def spelled? (ps : List Piece) : Option String := (Piece.chars? ps).map String.ofList

structure Digits where
  chars : List Char
  ne_nil : chars ≠ [] := by decide
  all_isDigit : chars.all Char.isDigit := by decide

theorem Digits.isDigit_of_mem (ds : Digits) : ∀ c ∈ ds.chars, c.isDigit :=
  List.all_eq_true.mp ds.all_isDigit

structure Exponent where
  mark : Char
  mark_eq : mark = 'e' ∨ mark = 'E' := by decide
  /-- whether there is a sign, and whether that is a minus -/
  sign : Option Bool
  digits : Digits

namespace Exponent

def signText (e : Exponent) : List Char :=
  match e.sign with
  | none => []
  | some false => ['+']
  | some true => ['-']

def text (e : Exponent) : List Char := e.mark :: (e.signText ++ e.digits.chars)

end Exponent

structure NumberText where
  negative : Bool
  whole : Digits
  no_leading_zero : ¬(whole.chars.length > 1 ∧ whole.chars.head? = some '0') := by decide
  fraction : Option Digits
  exponent : Option Exponent

namespace NumberText

def fractionText (n : NumberText) : List Char := n.fraction.elim [] fun ds => '.' :: ds.chars

def exponentText (n : NumberText) : List Char := n.exponent.elim [] Exponent.text

def unsignedText (n : NumberText) : List Char :=
  n.whole.chars ++ (n.fractionText ++ n.exponentText)

def text (n : NumberText) : List Char :=
  if n.negative then '-' :: n.unsignedText else n.unsignedText

/-- The parts as they are read. -/
def numeral (n : NumberText) : Numeral where
  negative := n.negative
  whole := n.whole.chars
  fraction := n.fraction.elim [] Digits.chars
  exponent := n.exponent.map fun e => (e.sign.getD false, e.digits.chars)

end NumberText

inductive Scalar
  | null
  | bool (b : Bool)
  | string (ps : List Piece)
  | number (n : NumberText)

def Scalar.text : Scalar → List Char
  | null => ['n', 'u', 'l', 'l']
  | bool true => ['t', 'r', 'u', 'e']
  | bool false => ['f', 'a', 'l', 's', 'e']
  | string ps => quoted ps
  | number n => n.text

def Bracket.opening : Bracket → Char
  | list => '['
  | object => '{'

/-- What comes before the value of a member: of an object, its key and a colon. -/
inductive Head : Bracket → Type
  | item : Head .list
  | key (before : Space) (ps : List Piece) (after : Space) : Head .object

def Head.text : {b : Bracket} → Head b → List Char
  | _, item => []
  | _, key before ps after => before.chars ++ (quoted ps ++ (after.chars ++ [':']))

/-- A value, or the members between two brackets. -/
inductive Form
  | value
  | members (b : Bracket)

/-- White space stands around the values of members and between empty brackets. -/
inductive Tree : Form → Type
  | scalar (s : Scalar) : Tree .value
  | empty (b : Bracket) (inner : Space) : Tree .value
  | bracket (b : Bracket) (ms : Tree (.members b)) : Tree .value
  | last {b : Bracket} (h : Head b) (before : Space) (v : Tree .value) (after : Space) :
    Tree (.members b)
  | more {b : Bracket} (h : Head b) (before : Space) (v : Tree .value) (after : Space)
    (ms : Tree (.members b)) : Tree (.members b)

abbrev Fields := List (List Piece × Tree .value)

/-- Whether every key spells a text. -/
def keysSpelled (fs : Fields) : Bool := fs.all fun f => (spelled? f.1).isSome

namespace Tree

def text : {f : Form} → Tree f → List Char
  | _, scalar s => s.text
  | _, empty b inner => b.opening :: (inner.chars ++ [b.close])
  | _, bracket b ms => b.opening :: (ms.text ++ [b.close])
  | _, last h before v after => h.text ++ (before.chars ++ (v.text ++ after.chars))
  | _, more h before v after ms =>
    h.text ++ (before.chars ++ (v.text ++ (after.chars ++ ',' :: ms.text)))

/-- The text of a value with white space around it. -/
def padded (before after : Space) (v : Tree .value) : List Char :=
  before.chars ++ (v.text ++ after.chars)

def null : Tree .value := scalar .null

def isNull : {f : Form} → Tree f → Bool
  | _, scalar .null => true
  | _, _ => false

theorem eq_null {v : Tree .value} (h : v.isNull) : v = null := by
  cases v with
  | scalar s =>
    cases s with
    | null => rfl
    | _ => cases h
  | _ => cases h

/-- The brackets around a list or an object. -/
def bracket? : {f : Form} → Tree f → Option Bracket
  | _, empty b _ => some b
  | _, bracket b _ => some b
  | _, _ => none

/-- The keys and values of an object, in order. -/
def fields : {f : Form} → Tree f → Fields
  | _, bracket .object ms => ms.fields
  | _, last (.key _ ps _) _ v _ => [(ps, v)]
  | _, more (.key _ ps _) _ v _ ms => (ps, v) :: ms.fields
  | _, _ => []

/-- The items of a list, in order. -/
def items : {f : Form} → Tree f → List (Tree .value)
  | _, bracket .list ms => ms.items
  | _, last .item _ v _ => [v]
  | _, more .item _ v _ ms => v :: ms.items
  | _, _ => []

end Tree

end WordMachines.Json
