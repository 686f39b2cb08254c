import WordMachines.Json.Number
import WordMachines.Json.Text

/-!
# Reading JSON values of a wanted kind

A reader takes a value off the front of a text, white space before it included, and leaves the
rest. A value of another kind is refused on the strength of its first token. `skipValue` passes
over a value of any kind and any depth.
-/

namespace WordMachines.Json

abbrev Reader (α : Type) := StateT (List Char) (Except Fault) α

def isSpace (c : Char) : Bool := c = ' ' || c = '\t' || c = '\n' || c = '\r'

def dropSpace (cs : List Char) : List Char := cs.dropWhile isSpace

def readExactly : List Char → Reader Unit
  | [] => pure ()
  | c :: word => fun
    | [] => .error .unfinished
    | d :: rest => if c = d then readExactly word rest else .error .malformed

/-- The first token of a value, the whole of it unless it opens a list or an object. -/
def readFound : Reader Found := fun
  | [] => .error .unfinished
  | '"' :: rest => do
    let (s, rest) ← readText rest
    return (.text s, rest)
  | '[' :: rest => .ok (.list, rest)
  | '{' :: rest => .ok (.object, rest)
  | 'n' :: rest => do
    let (_, rest) ← readExactly ['u', 'l', 'l'] rest
    return (.null, rest)
  | 't' :: rest => do
    let (_, rest) ← readExactly ['r', 'u', 'e'] rest
    return (.bool true, rest)
  | 'f' :: rest => do
    let (_, rest) ← readExactly ['a', 'l', 's', 'e'] rest
    return (.bool false, rest)
  | c :: rest =>
    if c = '-' ∨ c.isDigit then do
      let (n, rest) ← readNumber (c :: rest)
      return (n.found, rest)
    else .error .malformed

def refuse {α : Type} (wanted : String) : Reader α := do
  throw (.misfit (.wrongType (← readFound) wanted))

def readNull : Reader Unit := fun cs =>
  match dropSpace cs with
  | 'n' :: rest => readExactly ['u', 'l', 'l'] rest
  | cs => refuse "unit" cs

/-- Reads `null` as nothing at all. -/
def readOptional {α : Type} (value : Reader α) : Reader (Option α) := fun cs =>
  match dropSpace cs with
  | 'n' :: rest => do
    let (_, rest) ← readExactly ['u', 'l', 'l'] rest
    return (none, rest)
  | cs => do
    let (x, rest) ← value cs
    return (some x, rest)

def readColon : Reader Unit := fun cs =>
  match dropSpace cs with
  | [] => .error .unfinished
  | ':' :: rest => .ok ((), rest)
  | _ => .error .malformed

section Members

variable {σ : Type} (close : Char) (member : σ → Reader σ)

/-- What follows a member: the closing bracket, or a comma and another member. -/
def readMore : Nat → σ → Reader σ
  | 0, _ => fun _ => .error .malformed
  | fuel + 1, s => fun cs =>
    match dropSpace cs with
    | [] => .error .unfinished
    | c :: rest =>
      if c = close then .ok (s, rest)
      else if c = ',' then
        match dropSpace rest with
        | [] => .error .unfinished
        | cs => do
          let (s, rest) ← member s cs
          readMore fuel s rest
      else .error .malformed

/-- The members of a list or an object whose opening bracket has been read. Each round takes a
comma at least, so that the number of characters is fuel enough. -/
def readMembers (s : σ) : Reader σ := fun cs =>
  match dropSpace cs with
  | [] => .error .unfinished
  | c :: rest =>
    if c = close then .ok (s, rest)
    else do
      let (s, rest) ← member s (c :: rest)
      readMore close member (rest.length + 1) s rest

end Members

def readList {α : Type} (item : Reader α) : Reader (List α) := fun cs =>
  match dropSpace cs with
  | '[' :: rest => readMembers ']' (fun xs => do return xs ++ [← item]) [] rest
  | cs => refuse "a sequence" cs

/-- `key` starts at the opening quote of a key. -/
def readEntry {α β σ : Type} (key : Reader α) (value : Reader β) (put : σ → α → β → σ) (s : σ) :
    Reader σ := do
  let k ← key
  readColon
  let v ← value
  return put s k v

inductive Bracket
  | list
  | object

def Bracket.close : Bracket → Char
  | list => ']'
  | object => '}'

/-- Where a skipped value has come to. -/
inductive Awaiting
  /-- a value -/
  | value
  /-- the first member of the innermost bracket, or its end -/
  | member
  /-- a comma or the end of the innermost bracket, or nothing if all are closed -/
  | separator

def skipScalar : List Char → Except Fault (List Char)
  | [] => .error .unfinished
  | '"' :: rest => skipText rest
  | 'n' :: rest => Prod.snd <$> readExactly ['u', 'l', 'l'] rest
  | 't' :: rest => Prod.snd <$> readExactly ['r', 'u', 'e'] rest
  | 'f' :: rest => Prod.snd <$> readExactly ['a', 'l', 's', 'e'] rest
  | c :: rest => if c = '-' ∨ c.isDigit then skipNumber (c :: rest) else .error .malformed

/-- Up to the value of a list's or an object's next member. -/
def skipKey : Bracket → List Char → Except Fault (List Char)
  | .list, cs => .ok cs
  | .object, cs =>
    match dropSpace cs with
    | [] => .error .unfinished
    | '"' :: rest => do
      let rest ← skipText rest
      let (_, rest) ← readColon rest
      return rest
    | _ => .error .malformed

/-- `open?` are the brackets not yet closed, the innermost first. -/
def skip : Nat → Awaiting → List Bracket → List Char → Except Fault (List Char)
  | 0, _, _, _ => .error .malformed
  | fuel + 1, .value, opened, cs =>
    match dropSpace cs with
    | '[' :: rest => skip fuel .member (.list :: opened) rest
    | '{' :: rest => skip fuel .member (.object :: opened) rest
    | cs => do
      let rest ← skipScalar cs
      skip fuel .separator opened rest
  | _ + 1, _, [], cs => .ok cs
  | fuel + 1, .member, b :: opened, cs =>
    match dropSpace cs with
    | [] => .error .unfinished
    | c :: rest =>
      if c = b.close then skip fuel .separator opened rest
      else do
        let rest ← skipKey b (c :: rest)
        skip fuel .value (b :: opened) rest
  | fuel + 1, .separator, b :: opened, cs =>
    match dropSpace cs with
    | [] => .error .unfinished
    | c :: rest =>
      if c = b.close then skip fuel .separator opened rest
      else if c = ',' then do
        let rest ← skipKey b rest
        skip fuel .value (b :: opened) rest
      else .error .malformed

/-- Two rounds take a character at least, save the last. -/
def skipValue : Reader Unit := fun cs => do
  let rest ← skip (2 * cs.length + 2) .value [] cs
  return ((), rest)

/-- Nothing but white space may follow a document. -/
def finish (cs : List Char) : Except Fault Unit :=
  if dropSpace cs = [] then .ok () else .error .malformed

/-- The value a whole text consists of. -/
def readWith {α : Type} (value : Reader α) (text : List Char) : Except Fault α := do
  let (x, rest) ← value text
  finish rest
  return x

end WordMachines.Json
