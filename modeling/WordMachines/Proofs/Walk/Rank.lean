import Mathlib.Tactic
import Mathlib.Data.List.Lex
import Mathlib.Data.Prod.Lex
import WordMachines.Proofs.Dfa.Runs

/-!
# Shortlex ranks of words

Words are ranked by length, and words of one length by the places of their symbols in the
alphabet, the first difference deciding. Adding a symbol on the right keeps the order of words that
differ; on one word it follows the alphabet.
-/

namespace WordMachines

/-- Once lists of one length differ, what follows does not matter. -/
theorem append_lt_append_of_length_eq {xs ys : List ℕ} (h : xs < ys)
    (hlen : xs.length = ys.length) (us vs : List ℕ) : xs ++ us < ys ++ vs := by
  induction h with
  | nil => simp at hlen
  | cons _ ih => exact List.Lex.cons (ih (by simpa using hlen))
  | rel hab => exact List.Lex.rel hab

namespace Dfa

variable {S A : Type} [DecidableEq A] (d : Dfa S A)

def positions (w : List A) : List ℕ := w.map d.alphabet.idxOf

def rank (w : List A) : ℕ ×ₗ List ℕ := toLex (w.length, d.positions w)

variable {d} {u v : List A}

@[simp] theorem positions_concat (w : List A) (a : A) :
    d.positions (w ++ [a]) = d.positions w ++ [d.alphabet.idxOf a] := by
  simp [positions]

@[simp] theorem length_positions (w : List A) : (d.positions w).length = w.length :=
  List.length_map _

theorem rank_lt_iff : d.rank u < d.rank v ↔
    u.length < v.length ∨ u.length = v.length ∧ d.positions u < d.positions v :=
  Prod.Lex.toLex_lt_toLex

theorem rank_le_iff : d.rank u ≤ d.rank v ↔
    u.length < v.length ∨ u.length = v.length ∧ d.positions u ≤ d.positions v :=
  Prod.Lex.toLex_le_toLex

theorem length_le_of_rank_le (h : d.rank u ≤ d.rank v) : u.length ≤ v.length := by
  rcases rank_le_iff.mp h with hlt | ⟨heq, -⟩
  · exact hlt.le
  · exact heq.le

theorem rank_lt_concat (w : List A) (a : A) : d.rank w < d.rank (w ++ [a]) :=
  rank_lt_iff.mpr (Or.inl (by simp))

theorem rank_nil_lt_concat (w : List A) (a : A) : d.rank [] < d.rank (w ++ [a]) :=
  rank_lt_iff.mpr (Or.inl (by simp))

theorem rank_concat_lt (h : d.rank u < d.rank v) (a b : A) :
    d.rank (u ++ [a]) < d.rank (v ++ [b]) := by
  rw [rank_lt_iff] at h ⊢
  rcases h with hlt | ⟨heq, hpos⟩
  · exact Or.inl (by simpa using hlt)
  · refine Or.inr ⟨by simpa using heq, ?_⟩
    rw [positions_concat, positions_concat]
    exact append_lt_append_of_length_eq hpos (by simpa using heq) _ _

theorem rank_concat_lt_of_idxOf_lt (w : List A) {a b : A}
    (h : d.alphabet.idxOf a < d.alphabet.idxOf b) : d.rank (w ++ [a]) < d.rank (w ++ [b]) := by
  rw [rank_lt_iff]
  refine Or.inr ⟨by simp, ?_⟩
  rw [positions_concat, positions_concat]
  exact List.append_left_lt (List.Lex.rel h)

/-- Over the alphabet a word is known by its positions. -/
theorem eq_of_positions_eq (hu : u ⊆ d.alphabet) (h : d.positions u = d.positions v) : u = v := by
  induction u generalizing v with
  | nil => exact (List.map_eq_nil_iff.mp h.symm).symm
  | cons a u ih =>
    obtain ⟨ha, hu⟩ := List.cons_subset.mp hu
    cases v with
    | nil => simp [positions] at h
    | cons b v =>
      obtain ⟨hab, huv⟩ := List.cons.inj h
      rw [(List.idxOf_inj ha).mp hab, ih hu huv]

theorem eq_of_rank_eq (hu : u ⊆ d.alphabet) (h : d.rank u = d.rank v) : u = v :=
  eq_of_positions_eq hu (Prod.ext_iff.mp (toLex_inj.mp h)).2

theorem eq_of_rank_le_of_rank_le (hu : u ⊆ d.alphabet) (huv : d.rank u ≤ d.rank v)
    (hvu : d.rank v ≤ d.rank u) : u = v :=
  eq_of_rank_eq hu (le_antisymm huv hvu)

theorem rank_concat_le (hu : u ⊆ d.alphabet) (h : d.rank u ≤ d.rank v) (a : A) :
    d.rank (u ++ [a]) ≤ d.rank (v ++ [a]) := by
  rcases h.lt_or_eq with hlt | heq
  · exact (rank_concat_lt hlt a a).le
  · rw [eq_of_rank_eq hu heq]

theorem pairwise_idxOf_lt (h : d.alphabet.Nodup) :
    d.alphabet.Pairwise fun a b => d.alphabet.idxOf a < d.alphabet.idxOf b := by
  rw [List.pairwise_iff_getElem]
  intro i j hi hj hij
  rw [h.idxOf_getElem i hi, h.idxOf_getElem j hj]
  exact hij

end Dfa
end WordMachines
