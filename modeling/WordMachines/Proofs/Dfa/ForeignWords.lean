import Mathlib.Tactic
import WordMachines.Proofs.Dfa.Runs
import WordMachines.Proofs.Walk.Emptiness

/-!
# Words with foreign symbols

The table may have entries for symbols outside the alphabet. A word with such a symbol is accepted
if the part before its first foreign symbol leads to a state with an entry for it and the rest leads
on to an accepting state. Whether some word does so is not seen by the walk, which tries the symbols
of the alphabet only: `stray_accepts_foreign` is an automaton found empty that accepts a word.
-/

namespace WordMachines

theorem exists_first_not {α : Type} {p : α → Prop} [DecidablePred p] {xs : List α}
    (h : ∃ x ∈ xs, ¬ p x) :
    ∃ before x after, xs = before ++ x :: after ∧ (∀ y ∈ before, p y) ∧ ¬ p x := by
  have hfound : (xs.find? (¬ p ·)).isSome := by
    simpa [List.find?_isSome] using h
  obtain ⟨x, hx⟩ := Option.isSome_iff_exists.mp hfound
  obtain ⟨hfails, before, after, rfl, hbefore⟩ := List.find?_eq_some_iff_append.mp hx
  refine ⟨before, x, after, rfl, ?_, by simpa using hfails⟩
  intro y hy
  simpa using hbefore y hy

theorem exists_first_not_mem {α : Type} [DecidableEq α] {xs ys : List α} (h : ¬ xs ⊆ ys) :
    ∃ before x after, xs = before ++ x :: after ∧ before ⊆ ys ∧ x ∉ ys :=
  exists_first_not (by simpa [List.subset_def] using h)

namespace Dfa

variable {S A : Type} [DecidableEq S] [DecidableEq A] (d : Dfa S A)

/-- A foreign symbol leads to `t` from a state that a word over the alphabet reaches. -/
def Outlet (t : S) : Prop :=
  ∃ v ⊆ d.alphabet, ∃ q, d.run? d.start v = some q ∧ ∃ a ∉ d.alphabet, d.next? q a = some t

/-- Some word, over whatever symbols, leads from `t` to an accepting state. -/
def CanAccept (t : S) : Prop := ∃ u q, d.run? t u = some q ∧ d.isAccepting q

theorem accepts_append_cons_iff (v : List A) (a : A) (u : List A) :
    d.accepts (v ++ a :: u) ↔ ∃ q, d.run? d.start v = some q ∧ ∃ t, d.next? q a = some t ∧
      ∃ r, d.run? t u = some r ∧ d.isAccepting r := by
  simp only [accepts_iff, run?_append, run?_cons, Option.bind_eq_some_iff]
  constructor
  · rintro ⟨r, ⟨q, hq, t, ht, hr⟩, hacc⟩
    exact ⟨q, hq, t, ht, r, hr, hacc⟩
  · rintro ⟨q, hq, t, ht, r, hr, hacc⟩
    exact ⟨r, ⟨q, hq, t, ht, hr⟩, hacc⟩

theorem rejects_foreign_iff :
    (∀ w, ¬ w ⊆ d.alphabet → ¬ d.accepts w) ↔ ∀ t, d.Outlet t → ¬ d.CanAccept t := by
  constructor
  · rintro h t ⟨v, -, q, hq, a, ha, ht⟩ ⟨u, r, hr, hacc⟩
    have hforeign : ¬ v ++ a :: u ⊆ d.alphabet := by
      intro hsub
      exact ha (hsub (by simp))
    apply h _ hforeign
    rw [accepts_append_cons_iff]
    exact ⟨q, hq, t, ht, r, hr, hacc⟩
  · -- the part before the first foreign symbol is a word over the alphabet
    intro h w hw hacc
    obtain ⟨v, a, u, rfl, hv, ha⟩ := exists_first_not_mem hw
    obtain ⟨q, hq, t, ht, r, hr, hr_acc⟩ := (d.accepts_append_cons_iff v a u).mp hacc
    exact h t ⟨v, hv, q, hq, a, ha, ht⟩ ⟨u, r, hr, hr_acc⟩

variable {d}

/-- Only declared states are reached, so only their rows count. -/
theorem WellFormed.not_outlet (hd : d.WellFormed)
    (h : ∀ q ∈ d.states, ∀ a ∉ d.alphabet, d.next? q a = none) (t : S) : ¬ d.Outlet t := by
  rintro ⟨v, hv, q, hq, a, ha, ht⟩
  have hmem := hd.run?_mem hv hd.start_mem hq
  rw [h q hmem a ha] at ht
  cases ht

end Dfa

namespace ValidDfa

variable {S A : Type} [DecidableEq S] [DecidableEq A] (d : ValidDfa S A)

/-- When words with foreign symbols are rejected, and when no word at all is accepted. -/
theorem foreign_words_rejected_iff :
    ((∀ w, ¬ w ⊆ d.alphabet → ¬ d.accepts w) ↔ ∀ t, d.Outlet t → ¬ d.CanAccept t) ∧
      ((∀ w, ¬ d.accepts w) ↔ d.isEmpty ∧ ∀ t, d.Outlet t → ¬ d.CanAccept t) ∧
      ((∀ q ∈ d.states, ∀ a ∉ d.alphabet, d.next? q a = none) →
        ∀ w, d.accepts w → w ⊆ d.alphabet) := by
  have hforeign := d.rejects_foreign_iff
  refine ⟨hforeign, ?_, ?_⟩
  · rw [← hforeign, isEmpty_iff_rejects]
    constructor
    · intro h
      exact ⟨fun w _ => h w, fun w _ => h w⟩
    · rintro ⟨hover, hforeign⟩ w
      by_cases hw : w ⊆ d.alphabet
      · exact hover w hw
      · exact hforeign w hw
  · intro hrows w hacc
    have hrejects := hforeign.mpr fun t ht => absurd ht (d.wellFormed.not_outlet hrows t)
    by_contra hw
    exact hrejects w hw hacc

end ValidDfa

/-- The only way to the accepting state is an entry for a foreign symbol. -/
def stray : ValidDfa UInt32 Char where
  states := [0, 1]
  alphabet := ['a']
  transitions := .ofTriples [(0, 'a', 0), (1, 'a', 1), (0, 'z', 1)]
  start := 0
  accept := [1]
  wellFormed := (Dfa.firstDefect?_eq_none_iff _).mp (by decide +kernel)

theorem stray_accepts_foreign :
    stray.isEmpty ∧ stray.accepts ['z'] ∧ ¬ (∀ w, ¬ w ⊆ stray.alphabet → ¬ stray.accepts w) := by
  have hacc : stray.accepts ['z'] := by decide +kernel
  refine ⟨by decide +kernel, hacc, ?_⟩
  intro h
  exact h ['z'] (by decide +kernel) hacc

end WordMachines
