import Mathlib.Tactic
import WordMachines.Catalog
import WordMachines.Proofs.Walk.Rounds

/-!
# The least accepted word

As long as no state visited accepts, every accepted word ranks after one of those waiting. The
first accepting state visited therefore comes with the least accepted word, and if there is none
when nothing waits any more, no word is accepted.
-/

namespace WordMachines

variable {S A : Type} [DecidableEq S] [DecidableEq A]

/-- Of the words over the alphabet that are accepted, `v` has the least rank. -/
structure Dfa.IsLeastAccepted (d : Dfa S A) (v : List A) : Prop where
  subset : v ⊆ d.alphabet
  accepts : d.accepts v
  rank_le : ∀ u ⊆ d.alphabet, d.accepts u → d.rank v ≤ d.rank u

theorem Dfa.IsLeastAccepted.eq {d : Dfa S A} {u v : List A} (hu : d.IsLeastAccepted u)
    (hv : d.IsLeastAccepted v) : u = v :=
  Dfa.eq_of_rank_le_of_rank_le hu.subset (hu.rank_le v hv.subset hv.accepts)
    (hv.rank_le u hu.subset hu.accepts)

namespace Underway

variable {d : Dfa S A} {w : Walk S A} {done pending rest : List (Finding S A)} {e : Finding S A}

theorem exists_pending_le (h : Underway d w done pending)
    (hdone : ∀ f ∈ done, ¬ d.isAccepting f.state) {u : List A} (hu : u ⊆ d.alphabet)
    (hacc : d.accepts u) : ∃ f ∈ pending, d.rank f.word ≤ d.rank u := by
  rcases h.reached_or_pending hu with ⟨f, hf, hrun, -⟩ | hpending
  · obtain ⟨q, hq, haccepting⟩ := (d.accepts_iff u).mp hacc
    obtain rfl := Option.some.inj (hrun.symm.trans hq)
    exact absurd haccepting (hdone f hf)
  · exact hpending

theorem not_accepts_of_nothing_pending (h : Underway d w done [])
    (hdone : ∀ f ∈ done, ¬ d.isAccepting f.state) : ∀ u ⊆ d.alphabet, ¬ d.accepts u := by
  intro u hu hacc
  obtain ⟨f, hf, -⟩ := h.exists_pending_le hdone hu hacc
  exact List.not_mem_nil hf

theorem isLeastAccepted (h : Underway d w done (e :: rest))
    (hdone : ∀ f ∈ done, ¬ d.isAccepting f.state) (he : d.isAccepting e.state) :
    d.IsLeastAccepted e.word where
  subset := (h.charted.sound e (by simp)).1
  accepts := (d.accepts_iff e.word).mpr ⟨e.state, (h.charted.sound e (by simp)).2, he⟩
  rank_le := by
    intro u hu hacc
    obtain ⟨f, hf, hrank⟩ := h.exists_pending_le hdone hu hacc
    have hsorted := (List.pairwise_append.mp h.charted.sorted).2.1
    rcases List.mem_cons.mp hf with rfl | hf
    · exact hrank
    · exact ((List.pairwise_cons.mp hsorted).1 f hf).le.trans hrank

/-- With a round for each state the search either finds the least accepted word or rules all
words out. -/
theorem firstAccepting? (h : Underway d w done pending) (hd : d.WellFormed) {n : ℕ}
    (hn : d.states.length ≤ n + done.length) (hdone : ∀ f ∈ done, ¬ d.isAccepting f.state) :
    (d.firstAccepting? n w = none ∧ ∀ u ⊆ d.alphabet, ¬ d.accepts u) ∨
      ∃ q w', d.firstAccepting? n w = some (q, w') ∧ d.IsLeastAccepted (w'.pathTo q) ∧
        (w'.pathTo q).length < d.states.length := by
  induction n generalizing w done pending with
  | zero =>
    have hlen := h.length_le hd
    rw [List.length_append] at hlen
    obtain rfl : pending = [] := List.length_eq_zero_iff.mp (by omega)
    exact Or.inl ⟨rfl, h.not_accepts_of_nothing_pending hdone⟩
  | succ n ih =>
    cases pending with
    | nil =>
      have hnone : d.firstAccepting? (n + 1) w = none := by
        rw [Dfa.firstAccepting?, h.visit?_nil]
      exact Or.inl ⟨hnone, h.not_accepts_of_nothing_pending hdone⟩
    | cons e rest =>
      obtain ⟨w', new, hvisit, hnext⟩ := h.visit?_cons hd
      rw [Dfa.firstAccepting?, hvisit]
      by_cases hacc : d.isAccepting e.state
      · have he : e ∈ done ++ [e] ++ (rest ++ new) := by simp
        have hshort := (hnext.charted.short e he).trans_le (hnext.length_le hd)
        refine Or.inr ⟨e.state, w', by simp [hacc], ?_⟩
        rw [hnext.charted.pathTo_eq he]
        exact ⟨h.isLeastAccepted hdone hacc, hshort⟩
      · have hdone' : ∀ f ∈ done ++ [e], ¬ d.isAccepting f.state := by
          intro f hf
          rcases List.mem_append.mp hf with hf | hf
          · exact hdone f hf
          · rw [List.mem_singleton.mp hf]
            exact hacc
        simp only [hacc]
        exact ih hnext (by rw [List.length_append, List.length_singleton]; omega) hdone'

end Underway

namespace ValidDfa

variable (d : ValidDfa S A)

theorem search_cases :
    (d.isEmpty ∧ d.shortestAccepted? = none ∧ ∀ u ⊆ d.alphabet, ¬ d.accepts u) ∨
      ∃ v, ¬ d.isEmpty ∧ d.shortestAccepted? = some v ∧ d.IsLeastAccepted v ∧
        v.length < d.states.length := by
  have hsearch := (Underway.init d.toDfa).firstAccepting? d.wellFormed (n := d.states.length)
    (by simp) (by simp)
  rcases hsearch with ⟨hnone, hrejects⟩ | ⟨q, w, hsome, hleast, hshort⟩
  · exact Or.inl ⟨by simp [isEmpty, hnone], by simp [shortestAccepted?, hnone], hrejects⟩
  · exact Or.inr ⟨w.pathTo q, by simp [isEmpty, hsome], by simp [shortestAccepted?, hsome], hleast,
      hshort⟩

/-- The search answers with the accepted word that is shortest and, among those of its length,
first in the order of the alphabet; it answers nothing just if no word is accepted. -/
theorem shortestAccepted?_least :
    (∀ u ⊆ d.alphabet, d.accepts u →
      ∃ w, d.shortestAccepted? = some w ∧ w ⊆ d.alphabet ∧ d.accepts w ∧
        w.length < d.states.length ∧
        ∀ v ⊆ d.alphabet, d.accepts v →
          w.length ≤ v.length ∧ (v.length = w.length → v = w ∨ d.positions w < d.positions v)) ∧
      ((∀ u ⊆ d.alphabet, ¬ d.accepts u) → d.shortestAccepted? = none) := by
  constructor
  · intro u hu hacc
    rcases d.search_cases with ⟨-, -, hrejects⟩ | ⟨w, -, hsome, hleast, hshort⟩
    · exact absurd hacc (hrejects u hu)
    · refine ⟨w, hsome, hleast.subset, hleast.accepts, hshort, ?_⟩
      intro v hv hvacc
      have hrank := hleast.rank_le v hv hvacc
      refine ⟨Dfa.length_le_of_rank_le hrank, ?_⟩
      intro hlen
      rcases hrank.lt_or_eq with hlt | heq
      · rcases Dfa.rank_lt_iff.mp hlt with hlt | ⟨-, hpos⟩
        · omega
        · exact Or.inr hpos
      · exact Or.inl (Dfa.eq_of_rank_eq hleast.subset heq).symm
  · intro hrejects
    rcases d.search_cases with ⟨-, hnone, -⟩ | ⟨w, -, -, hleast, -⟩
    · exact hnone
    · exact absurd hleast.accepts (hrejects w hleast.subset)

/-- The example `reachable`, as an automaton that may be searched. -/
def reachableExample : ValidDfa Label Label :=
  ⟨Catalog.reachable.dfa, (Dfa.firstDefect?_eq_none_iff _).mp (by decide +kernel)⟩

theorem shortestAccepted?_reachableExample :
    Label.word "abb" ⊆ reachableExample.alphabet ∧ reachableExample.accepts (Label.word "abb") ∧
      ∃ w, reachableExample.shortestAccepted? = some w ∧ w ⊆ reachableExample.alphabet ∧
        reachableExample.accepts w ∧ w.length < 3 := by
  have hu : Label.word "abb" ⊆ reachableExample.alphabet := by decide +kernel
  have hacc : reachableExample.accepts (Label.word "abb") := by decide +kernel
  obtain ⟨w, hw, hsub, hwacc, hshort, -⟩ :=
    reachableExample.shortestAccepted?_least.1 (Label.word "abb") hu hacc
  exact ⟨hu, hacc, w, hw, hsub, hwacc, hshort⟩

end ValidDfa
end WordMachines
