import WordMachines.FinMap

/-!
# Transition tables

A table gives some pairs of a state and a symbol a target, row by row: each state with a row has
a map from symbols to targets. A row may be empty, and `==` then tells the table with that row
from the table without it, although both give every pair the same target.
-/

namespace WordMachines

structure Table (S A : Type) where
  rows : FinMap S (FinMap A S)

namespace Table

variable {S A : Type}

instance : EmptyCollection (Table S A) := ⟨⟨∅⟩⟩

instance : Inhabited (Table S A) := ⟨∅⟩

/-- The number of pairs with a target. -/
def size (t : Table S A) : Nat := t.rows.innerSize

def isEmpty (t : Table S A) : Bool := t.size == 0

def triples (t : Table S A) : List (S × A × S) :=
  t.rows.entries.flatMap fun row => row.2.entries.map fun e => (row.1, e.1, e.2)

variable [DecidableEq S] [DecidableEq A]

def row (t : Table S A) (q : S) : FinMap A S := (t.rows.get? q).getD ∅

def get? (t : Table S A) (q : S) (a : A) : Option S := (t.row q).get? a

def contains (t : Table S A) (q : S) (a : A) : Bool := (t.get? q a).isSome

def insert (t : Table S A) (q : S) (a : A) (target : S) : Table S A :=
  ⟨t.rows.insert q ((t.row q).insert a target)⟩

/-- What the row answers to the insertion is the target that the pair had before. -/
def getThenInsert? (t : Table S A) (q : S) (a : A) (target : S) : Option S × Table S A :=
  let (previous, row) := (t.row q).getThenInsert? a target
  (previous, ⟨t.rows.insert q row⟩)

def insertAll (t : Table S A) (triples : List (S × A × S)) : Table S A :=
  triples.foldl (fun t e => t.insert e.1 e.2.1 e.2.2) t

/-- Of the targets listed for one pair the last stays. -/
def ofTriples (triples : List (S × A × S)) : Table S A := insertAll ∅ triples

instance : BEq (Table S A) := ⟨fun t u => t.rows == u.rows⟩

theorem getThenInsert?_eq (t : Table S A) (q : S) (a : A) (target : S) :
    t.getThenInsert? q a target = (t.get? q a, t.insert q a target) := rfl

@[simp] theorem get?_empty (q : S) (a : A) : (∅ : Table S A).get? q a = none := rfl

theorem get?_insert (t : Table S A) (q : S) (a : A) (target q' : S) (a' : A) :
    (t.insert q a target).get? q' a' =
      if q' = q ∧ a' = a then some target else t.get? q' a' := by
  by_cases hq : q' = q
  · subst hq
    by_cases ha : a' = a <;> simp [get?, insert, row, FinMap.get?_insert, ha]
  · simp [get?, insert, row, FinMap.get?_insert, hq]

end Table

end WordMachines
