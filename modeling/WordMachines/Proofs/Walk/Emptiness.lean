import Mathlib.Tactic
import WordMachines.CommandLine.Answer
import WordMachines.Proofs.Walk.Shortest

/-!
# Deciding emptiness

However many rounds are allowed, once there is one for each state the walk meets an accepting state
just if some word over the alphabet is accepted. The same walk then gives a word, so the answer to
the command `empty` needs no word to fall back on.
-/

namespace WordMachines
namespace ValidDfa

variable {S A : Type} [DecidableEq S] [DecidableEq A] (d : ValidDfa S A)

theorem firstAccepting?_eq_none_iff {n : ℕ} (hn : d.states.length ≤ n) :
    d.firstAccepting? n (.init d.start) = none ↔ ∀ w ⊆ d.alphabet, ¬ d.accepts w := by
  have hsearch := (Underway.init d.toDfa).firstAccepting? d.wellFormed (n := n) (by simpa) (by simp)
  rcases hsearch with ⟨hnone, hrejects⟩ | ⟨q, w, hsome, hleast, -⟩
  · exact iff_of_true hnone hrejects
  · rw [hsome]
    apply iff_of_false (Option.some_ne_none _)
    intro hrejects
    exact hrejects (w.pathTo q) hleast.subset hleast.accepts

theorem isEmpty_iff_rejects : d.isEmpty ↔ ∀ w ⊆ d.alphabet, ¬ d.accepts w := by
  rw [isEmpty, Option.isNone_iff_eq_none]
  exact d.firstAccepting?_eq_none_iff le_rfl

theorem isEmpty_iff_shortestAccepted?_eq_none : d.isEmpty ↔ d.shortestAccepted? = none := by
  rw [isEmpty, shortestAccepted?, Option.isNone_iff_eq_none, Option.map_eq_none_iff]

end ValidDfa

open CommandLine

theorem emptyAnswer_eq (d : ValidDfa Label Label) :
    emptyAnswer d = .success (line (d.shortestAccepted?.elim "empty" fun w =>
      "non-empty (shortest accepted word: " ++ quoteWord w ++ ")")) := by
  rw [emptyAnswer]
  cases h : d.shortestAccepted? with
  | none => rw [if_pos (d.isEmpty_iff_shortestAccepted?_eq_none.mpr h), Option.elim_none]
  | some w =>
    have hempty : ¬ d.isEmpty := by simp [d.isEmpty_iff_shortestAccepted?_eq_none, h]
    rw [if_neg hempty, Option.getD_some, Option.elim_some]

/-- An automaton is found empty just if it rejects every word over its alphabet, and just if the
search for a word fails; so an answer that shows a word shows one that was found. -/
theorem isEmpty_decides :
    (∀ (S A : Type) [DecidableEq S] [DecidableEq A] (d : ValidDfa S A),
      (d.isEmpty ↔ ∀ w ⊆ d.alphabet, ¬ d.accepts w) ∧
        (d.isEmpty ↔ d.shortestAccepted? = none)) ∧
      ∀ d : ValidDfa Label Label,
        emptyAnswer d = .success (line (d.shortestAccepted?.elim "empty" fun w =>
          "non-empty (shortest accepted word: " ++ quoteWord w ++ ")")) := by
  constructor
  · intro S A _ _ d
    exact ⟨d.isEmpty_iff_rejects, d.isEmpty_iff_shortestAccepted?_eq_none⟩
  · exact emptyAnswer_eq

end WordMachines
