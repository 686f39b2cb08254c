import Mathlib.Tactic
import WordMachines.Dfa.Walk
import WordMachines.Proofs.Dfa.Renaming

/-!
# The walk under other names

The walk asks of states only which are equal, and of symbols nothing but their order. So it finds
the renamed states in the old order, and its pointers spell the renamed words.
-/

namespace WordMachines

variable {S S' A A' : Type} (f : S ↪ S') (g : A ↪ A')

namespace Walk

variable (w : Walk S A)

def rename : Walk S' A' where
  queue := w.queue.map f
  visited := w.visited.map f
  parents := w.parents.rename f (Prod.map f g)

variable [DecidableEq S] [DecidableEq S']

theorem rename_discover (q : S) (a : A) (target : Option S) :
    (w.discover q a target).rename f g = (w.rename f g).discover (f q) (g a) (target.map f) := by
  cases target with
  | none => rfl
  | some t =>
    have hmem : f t ∈ w.visited.map f ↔ t ∈ w.visited := List.mem_map_of_injective f.injective
    simp only [discover, Option.map_some, rename, hmem]
    split_ifs
    · rfl
    · simp [FinMap.rename_insert]

theorem wordTo_rename (n : ℕ) (q : S) :
    (w.rename f g).wordTo n (f q) = (w.wordTo n q).map g := by
  induction n generalizing q with
  | zero => rfl
  | succ n ih =>
    have hget : (w.rename f g).parents.get? (f q) = (w.parents.get? q).map (Prod.map f g) :=
      w.parents.get?_rename f (Prod.map f g) q
    rw [wordTo, wordTo, hget]
    cases w.parents.get? q with
    | none => rfl
    | some pa =>
      obtain ⟨p, a⟩ := pa
      rw [Option.map_some, Prod.map_apply]
      simp only [ih, List.map_append, List.map_cons, List.map_nil]

theorem pathTo_rename (q : S) : (w.rename f g).pathTo (f q) = (w.pathTo q).map g := by
  have hsize : (w.rename f g).parents.size = w.parents.size := w.parents.size_rename f _
  rw [pathTo, hsize, wordTo_rename, pathTo]

end Walk

variable [DecidableEq S] [DecidableEq S'] [DecidableEq A] [DecidableEq A']

namespace Dfa

variable (d : Dfa S A)

theorem foldl_discover_rename (q : S) (as : List A) (w : Walk S A) :
    (as.map g).foldl (fun w a => w.discover (f q) a ((d.rename f g).next? (f q) a))
        (w.rename f g) =
      (as.foldl (fun w a => w.discover q a (d.next? q a)) w).rename f g := by
  induction as generalizing w with
  | nil => rfl
  | cons a as ih =>
    rw [List.map_cons, List.foldl_cons, next?_rename, ← Walk.rename_discover, ih, List.foldl_cons]

theorem visit?_rename (w : Walk S A) :
    (d.rename f g).visit? (w.rename f g) = (d.visit? w).map (Prod.map f (Walk.rename f g)) := by
  obtain ⟨queue, visited, parents⟩ := w
  cases queue with
  | nil => rfl
  | cons q rest =>
    have hfold := d.foldl_discover_rename f g q d.alphabet ⟨rest, visited, parents⟩
    exact congrArg (fun w => some (f q, w)) hfold

theorem yielded_rename (n : ℕ) (w : Walk S A) :
    (d.rename f g).yielded n (w.rename f g) = (d.yielded n w).map f := by
  induction n generalizing w with
  | zero => rfl
  | succ n ih =>
    rw [yielded, visit?_rename, yielded]
    cases d.visit? w with
    | none => rfl
    | some qw =>
      obtain ⟨q, w⟩ := qw
      rw [Option.map_some, Prod.map_apply]
      simp only [ih, List.map_cons]

theorem firstAccepting?_rename (n : ℕ) (w : Walk S A) :
    (d.rename f g).firstAccepting? n (w.rename f g) =
      (d.firstAccepting? n w).map (Prod.map f (Walk.rename f g)) := by
  induction n generalizing w with
  | zero => rfl
  | succ n ih =>
    rw [firstAccepting?, visit?_rename, firstAccepting?]
    cases d.visit? w with
    | none => rfl
    | some qw =>
      obtain ⟨q, w⟩ := qw
      rw [Option.map_some, Prod.map_apply]
      simp only [isAccepting_rename, ih]
      split_ifs <;> rfl

end Dfa

namespace ValidDfa

variable (d : ValidDfa S A)

theorem search_rename :
    (d.rename f g).firstAccepting? (d.rename f g).states.length (.init (d.rename f g).start) =
      (d.firstAccepting? d.states.length (.init d.start)).map (Prod.map f (Walk.rename f g)) := by
  have hrounds : (d.rename f g).states.length = d.states.length := List.length_map f
  rw [hrounds]
  exact d.firstAccepting?_rename f g d.states.length (.init d.start)

theorem reachable_rename : (d.rename f g).reachable = d.reachable.map f := by
  have hrounds : (d.rename f g).states.length = d.states.length := List.length_map f
  rw [reachable, hrounds]
  exact d.yielded_rename f g d.states.length (.init d.start)

theorem isEmpty_rename : (d.rename f g).isEmpty = d.isEmpty := by
  rw [isEmpty, search_rename, Option.isNone_map, isEmpty]

theorem shortestAccepted?_rename :
    (d.rename f g).shortestAccepted? = d.shortestAccepted?.map (List.map g) := by
  rw [shortestAccepted?, search_rename, Option.map_map, shortestAccepted?, Option.map_map]
  congr 1
  funext qw
  exact qw.2.pathTo_rename f g qw.1

end ValidDfa
end WordMachines
