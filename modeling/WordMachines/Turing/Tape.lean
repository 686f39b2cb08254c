import WordMachines.Identifier

/-!
# Tapes

A tape is unbounded to the right and blank almost everywhere. The cells from the first one to the
last one visited are stored, and the head is on a stored cell. The blank is no symbol, though it
may read like one.
-/

namespace WordMachines

inductive Cell (α : Type)
  | symbol (a : α)
  | blank
  deriving DecidableEq

namespace Cell

variable {α : Type}

def isBlank : Cell α → Bool
  | symbol _ => false
  | blank => true

def blankText : String := "_"

instance [Shown α] : Shown (Cell α) where
  shown
    | symbol a => shown a
    | blank => blankText

end Cell

/-- The cells side by side. -/
def cellsText {α : Type} [Shown α] (cells : List (Cell α)) : String :=
  String.join (cells.map shown)

inductive Direction
  | left
  | right
  | stay
  deriving DecidableEq

namespace Direction

def all : List Direction := [left, right, stay]

def name : Direction → String
  | left => "Left"
  | right => "Right"
  | stay => "Stay"

def letter : Direction → String
  | left => "L"
  | right => "R"
  | stay => "S"

def ofName? (name : String) : Option Direction := all.find? (·.name = name)

end Direction

structure Tape (α : Type) where
  cells : List (Cell α)
  head : Nat
  head_lt : head < cells.length

namespace Tape

variable {α : Type}

/-- The first cell holds the first symbol; without a word it is blank. -/
def ofWord : List α → Tape α
  | [] => ⟨[.blank], 0, by simp⟩
  | a :: w => ⟨(a :: w).map .symbol, 0, by simp⟩

/-- The cell at any place of the unbounded tape. -/
def cellAt (t : Tape α) (i : Nat) : Cell α := t.cells[i]?.getD .blank

def read (t : Tape α) : Cell α := t.cells.get ⟨t.head, t.head_lt⟩

def write (t : Tape α) (c : Cell α) : Tape α :=
  ⟨t.cells.set t.head c, t.head, by rw [List.length_set]; exact t.head_lt⟩

/-- There is no way left of the first cell. -/
def move (t : Tape α) : Direction → Tape α
  | .left => ⟨t.cells, t.head - 1, Nat.lt_of_le_of_lt (Nat.sub_le _ _) t.head_lt⟩
  | .stay => t
  | .right =>
    if h : t.head + 1 < t.cells.length then ⟨t.cells, t.head + 1, h⟩
    else ⟨t.cells ++ [.blank], t.head + 1, by simpa using t.head_lt⟩

@[simp] theorem head_ofWord (w : List α) : (ofWord w).head = 0 := by
  cases w <;> rfl

theorem cellAt_ofWord (w : List α) (i : Nat) :
    (ofWord w).cellAt i = w[i]?.elim .blank .symbol := by
  cases w with
  | nil => cases i <;> simp [ofWord, cellAt]
  | cons a w =>
    change ((a :: w).map Cell.symbol)[i]?.getD .blank = _
    rw [List.getElem?_map]
    cases (a :: w)[i]? <;> rfl

theorem read_eq_cellAt (t : Tape α) : t.read = t.cellAt t.head := by
  simp [read, cellAt, t.head_lt]

theorem cellAt_write (t : Tape α) (c : Cell α) (i : Nat) :
    (t.write c).cellAt i = if i = t.head then c else t.cellAt i := by
  by_cases h : i = t.head
  · simp [write, cellAt, h, t.head_lt]
  · have h' : t.head ≠ i := fun e => h e.symm
    simp [write, cellAt, h, h']

/-- A cell that is stored anew is blank, and so it was before. -/
@[simp] theorem cellAt_move (t : Tape α) (m : Direction) (i : Nat) :
    (t.move m).cellAt i = t.cellAt i := by
  cases m with
  | left => rfl
  | stay => rfl
  | right =>
    by_cases h : t.head + 1 < t.cells.length
    · simp [move, h, cellAt]
    · by_cases hi : i < t.cells.length
      · simp [move, h, cellAt, List.getElem?_append, hi]
      · have hi' : t.cells.length ≤ i := Nat.le_of_not_lt hi
        simp only [move, h, dif_neg, not_false_iff, cellAt, List.getElem?_append_right hi',
          List.getElem?_eq_none hi', Option.getD_none]
        cases hs : ([Cell.blank] : List (Cell α))[i - t.cells.length]? with
        | none => rfl
        | some c =>
          have hc := List.mem_of_getElem? hs
          simpa using hc

theorem read_eq_of_getElem? {t : Tape α} {c : Cell α} (h : t.cells[t.head]? = some c) :
    t.read = c := by
  simp [read_eq_cellAt, cellAt, h]

@[simp] theorem write_read (t : Tape α) : t.write t.read = t := by
  simp [write, read]

@[simp] theorem head_move_right (t : Tape α) : (t.move .right).head = t.head + 1 := by
  by_cases h : t.head + 1 < t.cells.length <;> simp [move, h]

theorem cells_move_right (t : Tape α) :
    (t.move .right).cells =
      t.cells ++ if t.head + 1 < t.cells.length then [] else [.blank] := by
  by_cases h : t.head + 1 < t.cells.length <;> simp [move, h]

def firstSymbol? (t : Tape α) : Option Nat := t.cells.findIdx? (!·.isBlank)

def lastSymbol? (t : Tape α) : Option Nat :=
  (t.cells.reverse.findIdx? (!·.isBlank)).map (t.cells.length - 1 - ·)

/-- The least stretch that holds the head and every symbol; from the first cell on if there is no
symbol. It is given by its two ends. -/
def windowEnds (t : Tape α) : Nat × Nat :=
  match t.firstSymbol?, t.lastSymbol? with
  | some first, some last => (min first t.head, max last t.head)
  | _, _ => (0, t.head)

def window (t : Tape α) : List (Cell α) :=
  (t.cells.take (t.windowEnds.2 + 1)).drop t.windowEnds.1

/-- The place of the head in the window. -/
def headOffset (t : Tape α) : Nat := t.head - t.windowEnds.1

end Tape

end WordMachines
