import WordMachines.Dfa.Valid

/-!
# Breadth-first search

The walk starts at the start state and yields each reachable state once, nearest first; states at
the same distance come in the order in which the alphabet leads to them. Every state found keeps
the state and symbol that first led to it, and these pointers spell a shortest word to it. As only
declared states are ever found, as many rounds as there are states exhaust the walk.
-/

namespace WordMachines

/-- The queue holds the states found and not yet yielded, the longest-waiting first. -/
structure Walk (S A : Type) where
  queue : List S
  visited : List S
  parents : FinMap S (S × A)

namespace Walk

variable {S A : Type}

def init (start : S) : Walk S A := ⟨[start], [start], ∅⟩

variable [DecidableEq S]

/-- The target of `q` on `a` joins the queue, unless it has been found before. -/
def discover (q : S) (w : Walk S A) (a : A) (target : Option S) : Walk S A :=
  match target with
  | none => w
  | some t =>
    if t ∈ w.visited then w
    else
      { queue := w.queue ++ [t]
        visited := w.visited ++ [t]
        parents := w.parents.insert t (q, a) }

/-- The word that the pointers spell from the start to `q`, along at most `fuel` of them. -/
def wordTo (w : Walk S A) : Nat → S → List A
  | 0, _ => []
  | fuel + 1, q =>
    match w.parents.get? q with
    | none => []
    | some (p, a) => w.wordTo fuel p ++ [a]

/-- No path passes a pointer twice. -/
def pathTo (w : Walk S A) (q : S) : List A := w.wordTo w.parents.size q

end Walk

namespace Dfa

variable {S A : Type} [DecidableEq S] [DecidableEq A] (d : Dfa S A)

/-- The next state that the walk yields, after its successors have been found. -/
def visit? (w : Walk S A) : Option (S × Walk S A) :=
  match w.queue with
  | [] => none
  | q :: rest =>
    some (q, d.alphabet.foldl (fun w a => w.discover q a (d.next? q a)) { w with queue := rest })

/-- The states that at most `n` rounds yield. -/
def yielded : Nat → Walk S A → List S
  | 0, _ => []
  | n + 1, w =>
    match d.visit? w with
    | none => []
    | some (q, w) => q :: yielded n w

/-- The first state accepted among those that at most `n` rounds yield, with the walk so far. -/
def firstAccepting? : Nat → Walk S A → Option (S × Walk S A)
  | 0, _ => none
  | n + 1, w =>
    match d.visit? w with
    | none => none
    | some (q, w) => if d.isAccepting q then some (q, w) else firstAccepting? n w

end Dfa

namespace ValidDfa

variable {S A : Type} [DecidableEq S] [DecidableEq A] (d : ValidDfa S A)

def reachable : List S := d.yielded d.states.length (.init d.start)

/-- Whether no word at all is accepted. -/
def isEmpty : Bool := (d.firstAccepting? d.states.length (.init d.start)).isNone

def shortestAccepted? : Option (List A) :=
  (d.firstAccepting? d.states.length (.init d.start)).map fun (q, w) => w.pathTo q

end ValidDfa

end WordMachines
