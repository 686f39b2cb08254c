import WordMachines.Json.Fault

/-!
# JSON strings

`writeText` puts a string between double quotes and escapes what JSON requires to be escaped and
nothing else. `readText` reads what follows the opening quote, up to the closing one; `skipText`
passes over it and leaves surrogate escapes unpaired. An escape of four hexadecimal digits is cut
off by the end of the text when fewer than four bytes are left. `readText_writeText` says that
reading gives back what was written.
-/

namespace WordMachines.Json

def controlEscape (c : Char) : List Char :=
  let n := c.toNat
  ['\\', 'u', '0', '0', Nat.digitChar (n / 16), Nat.digitChar (n % 16)]

def escapeChar (c : Char) : List Char :=
  if c = '"' ∨ c = '\\' then ['\\', c]
  else if c = '\x08' then ['\\', 'b']
  else if c = '\x0c' then ['\\', 'f']
  else if c = '\n' then ['\\', 'n']
  else if c = '\r' then ['\\', 'r']
  else if c = '\t' then ['\\', 't']
  else if c.toNat < 0x20 then controlEscape c
  else [c]

def writeText (s : String) : List Char := '"' :: (s.toList.flatMap escapeChar ++ ['"'])

def hexValue? (c : Char) : Option Nat :=
  if '0' ≤ c ∧ c ≤ '9' then some (c.toNat - '0'.toNat)
  else if 'a' ≤ c ∧ c ≤ 'f' then some (c.toNat - 'a'.toNat + 10)
  else if 'A' ≤ c ∧ c ≤ 'F' then some (c.toNat - 'A'.toNat + 10)
  else none

def readHex (cs : List Char) : Except Fault (Nat × List Char) :=
  match cs with
  | a :: b :: c :: d :: rest =>
    match hexValue? a, hexValue? b, hexValue? c, hexValue? d with
    | some a, some b, some c, some d => .ok (((a * 16 + b) * 16 + c) * 16 + d, rest)
    | _, _, _, _ => .error .malformed
  | _ => .error (if (cs.map Char.utf8Size).foldr (· + ·) 0 < 4 then .unfinished else .malformed)

def isLeading (n : Nat) : Bool := 0xD800 ≤ n && n < 0xDC00

def isTrailing (n : Nat) : Bool := 0xDC00 ≤ n && n < 0xE000

/-- The second half of a surrogate pair whose first half has been read. -/
def readTrailing (lead : Nat) : List Char → Except Fault (Char × List Char)
  | [] => .error .unfinished
  | ['\\'] => .error .unfinished
  | '\\' :: 'u' :: rest => do
    let (n, rest) ← readHex rest
    if isTrailing n then
      return (Char.ofNat (0x10000 + (lead - 0xD800) * 0x400 + (n - 0xDC00)), rest)
    else
      throw .malformed
  | _ => .error .malformed

/-- What follows `\u`. -/
def readCodePoint (cs : List Char) : Except Fault (Char × List Char) := do
  let (n, rest) ← readHex cs
  if isTrailing n then throw .malformed
  else if isLeading n then readTrailing n rest
  else return (Char.ofNat n, rest)

def simpleEscape? : Char → Option Char
  | '"' => some '"'
  | '\\' => some '\\'
  | '/' => some '/'
  | 'b' => some '\x08'
  | 'f' => some '\x0c'
  | 'n' => some '\n'
  | 'r' => some '\r'
  | 't' => some '\t'
  | _ => none

/-- What follows a backslash. -/
def readEscape : List Char → Except Fault (Char × List Char)
  | [] => .error .unfinished
  | 'u' :: rest => readCodePoint rest
  | c :: rest =>
    match simpleEscape? c with
    | some d => .ok (d, rest)
    | none => .error .malformed

def readChars : Nat → List Char → Except Fault (List Char × List Char)
  | 0, _ => .error .malformed
  | _ + 1, [] => .error .unfinished
  | fuel + 1, c :: rest =>
    if c = '"' then .ok ([], rest)
    else if c = '\\' then do
      let (d, rest) ← readEscape rest
      let (ds, rest) ← readChars fuel rest
      return (d :: ds, rest)
    else if c.toNat < 0x20 then .error .malformed
    else do
      let (ds, rest) ← readChars fuel rest
      return (c :: ds, rest)

/-- Each round takes a character, so that their number is fuel enough. -/
def readText (cs : List Char) : Except Fault (String × List Char) := do
  let (ds, rest) ← readChars (cs.length + 1) cs
  return (String.ofList ds, rest)

theorem hexValue?_digitChar : ∀ n < 16, hexValue? (Nat.digitChar n) = some n := by decide

theorem readEscape_control {c : Char} (h : c.toNat < 0x20) (rest : List Char) :
    readEscape ((controlEscape c).drop 1 ++ rest) = .ok (c, rest) := by
  have hhigh := hexValue?_digitChar (c.toNat / 16) (by omega)
  have hlow := hexValue?_digitChar (c.toNat % 16) (by omega)
  have hzero : hexValue? '0' = some 0 := by decide
  have hn : ((0 * 16 + 0) * 16 + c.toNat / 16) * 16 + c.toNat % 16 = c.toNat := by omega
  have ht : isTrailing c.toNat = false := by simp [isTrailing]; omega
  have hl : isLeading c.toNat = false := by simp [isLeading]; omega
  simp only [controlEscape, List.drop_succ_cons, List.drop_zero, List.cons_append, List.nil_append,
    readEscape, readCodePoint, readHex, hzero, hhigh, hlow, hn, bind, Except.bind, ht, hl,
    Bool.false_eq_true, if_false, pure, Except.pure, Char.ofNat_toNat]

theorem readEscape_simple {c d : Char} (hd : simpleEscape? d = some c) (rest : List Char) :
    readEscape (d :: rest) = .ok (c, rest) := by
  unfold readEscape
  split
  · contradiction
  · rename_i he
    rw [List.cons.injEq] at he
    rw [he.1] at hd
    simp [simpleEscape?] at hd
  · rename_i e _ _ he
    rw [List.cons.injEq] at he
    rw [← he.1, hd, he.2]

theorem readChars_backslash {c : Char} {cs rest : List Char}
    (h : readEscape (cs ++ rest) = .ok (c, rest)) (fuel : Nat) :
    readChars (fuel + 1) ('\\' :: (cs ++ rest)) =
      (readChars fuel rest).map fun r => (c :: r.1, r.2) := by
  simp only [readChars, h, bind, Except.bind, pure, Except.pure]
  cases readChars fuel rest <;> rfl

theorem readChars_escapeChar (c : Char) (fuel : Nat) (rest : List Char) :
    readChars (fuel + 1) (escapeChar c ++ rest) =
      (readChars fuel rest).map fun r => (c :: r.1, r.2) := by
  have simple (d : Char) (hd : simpleEscape? d = some c) :
      readChars (fuel + 1) ('\\' :: ([d] ++ rest)) =
        (readChars fuel rest).map fun r => (c :: r.1, r.2) :=
    readChars_backslash (readEscape_simple hd rest) fuel
  unfold escapeChar
  split
  · rename_i h
    exact simple c (by rcases h with rfl | rfl <;> rfl)
  split
  · subst c; exact simple 'b' rfl
  split
  · subst c; exact simple 'f' rfl
  split
  · subst c; exact simple 'n' rfl
  split
  · subst c; exact simple 'r' rfl
  split
  · subst c; exact simple 't' rfl
  split
  · rename_i h
    exact readChars_backslash (readEscape_control h rest) fuel
  · rename_i hq _ _ _ _ _ h
    have hq1 : c ≠ '"' := fun e => hq (.inl e)
    have hq2 : c ≠ '\\' := fun e => hq (.inr e)
    simp only [List.cons_append, List.nil_append, readChars, hq1, hq2, h, if_false, bind,
      Except.bind, pure, Except.pure]
    cases readChars fuel rest <;> rfl

theorem readChars_flatMap (cs : List Char) (fuel : Nat) (h : cs.length < fuel)
    (rest : List Char) :
    readChars fuel (cs.flatMap escapeChar ++ '"' :: rest) = .ok (cs, rest) := by
  induction cs generalizing fuel with
  | nil =>
    obtain ⟨n, rfl⟩ : ∃ n, fuel = n + 1 := ⟨fuel - 1, by simp at h; omega⟩
    simp [readChars]
  | cons c cs ih =>
    obtain ⟨n, rfl⟩ : ∃ n, fuel = n + 1 := ⟨fuel - 1, by simp at h; omega⟩
    rw [List.flatMap_cons, List.append_assoc, readChars_escapeChar,
      ih n (by simpa using h)]
    rfl

theorem length_le_flatMap (cs : List Char) : cs.length ≤ (cs.flatMap escapeChar).length := by
  induction cs with
  | nil => simp
  | cons c cs ih =>
    have hc : 1 ≤ (escapeChar c).length := by
      unfold escapeChar controlEscape
      repeat' split
      all_goals simp
    simp only [List.flatMap_cons, List.length_append, List.length_cons]
    omega

theorem readText_writeText (s : String) (rest : List Char) :
    readText ((writeText s).tail ++ rest) = .ok (s, rest) := by
  have hlen := length_le_flatMap s.toList
  have h := readChars_flatMap s.toList
    ((s.toList.flatMap escapeChar ++ '"' :: rest).length + 1)
    (by rw [List.length_append]; omega) rest
  simp only [writeText, List.tail_cons, List.append_assoc, List.cons_append, List.nil_append,
    readText, h, bind, Except.bind, pure, Except.pure, String.ofList_toList]

def skipEscape : List Char → Except Fault (List Char)
  | [] => .error .unfinished
  | 'u' :: rest => do
    let (_, rest) ← readHex rest
    return rest
  | c :: rest => if (simpleEscape? c).isSome then .ok rest else .error .malformed

def skipChars : Nat → List Char → Except Fault (List Char)
  | 0, _ => .error .malformed
  | _ + 1, [] => .error .unfinished
  | fuel + 1, c :: rest =>
    if c = '"' then .ok rest
    else if c = '\\' then do
      let rest ← skipEscape rest
      skipChars fuel rest
    else if c.toNat < 0x20 then .error .malformed
    else skipChars fuel rest

def skipText (cs : List Char) : Except Fault (List Char) := skipChars (cs.length + 1) cs

end WordMachines.Json
