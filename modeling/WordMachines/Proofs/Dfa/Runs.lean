import Mathlib.Tactic
import WordMachines.Dfa.Valid

/-!
# Runs of an automaton

Reading a word splits at every place of the word. In a well-formed automaton a word over the
alphabet leads from a declared state to a declared state, so that only words with foreign symbols
can leave the table.
-/

namespace WordMachines
namespace Dfa

variable {S A : Type} [DecidableEq S] [DecidableEq A] (d : Dfa S A)

@[simp] theorem run?_nil (q : S) : d.run? q [] = some q := rfl

theorem run?_cons (q : S) (a : A) (w : List A) :
    d.run? q (a :: w) = (d.next? q a).bind (d.run? · w) := by
  simp only [run?, List.foldlM_cons]
  rfl

theorem run?_append (q : S) (v w : List A) :
    d.run? q (v ++ w) = (d.run? q v).bind (d.run? · w) := by
  simp only [run?, List.foldlM_append]
  rfl

theorem run?_concat (q : S) (v : List A) (a : A) :
    d.run? q (v ++ [a]) = (d.run? q v).bind (d.next? · a) := by
  rw [run?_append]
  congr 1
  funext t
  rw [run?_cons]
  exact Option.bind_fun_some _

theorem accepts_iff (w : List A) :
    d.accepts w ↔ ∃ q, d.run? d.start w = some q ∧ d.isAccepting q := by
  rw [accepts, Option.any_eq_true]

variable {d}

/-- Totality and closure of the table, carried along a word. -/
theorem WellFormed.exists_run? (hd : d.WellFormed) {w : List A} (hw : w ⊆ d.alphabet) {q : S}
    (hq : q ∈ d.states) : ∃ t ∈ d.states, d.run? q w = some t := by
  induction w generalizing q with
  | nil => exact ⟨q, hq, rfl⟩
  | cons a w ih =>
    obtain ⟨ha, hw⟩ := List.cons_subset.mp hw
    obtain ⟨t, ht, hnext⟩ := hd.total q hq a ha
    obtain ⟨u, hu, hrun⟩ := ih hw ht
    exact ⟨u, hu, by rw [run?_cons, hnext]; exact hrun⟩

theorem WellFormed.run?_mem (hd : d.WellFormed) {w : List A} (hw : w ⊆ d.alphabet) {q t : S}
    (hq : q ∈ d.states) (h : d.run? q w = some t) : t ∈ d.states := by
  obtain ⟨u, hu, hrun⟩ := hd.exists_run? hw hq
  exact Option.some.inj (hrun.symm.trans h) ▸ hu

end Dfa
end WordMachines
