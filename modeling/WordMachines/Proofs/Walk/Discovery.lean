import Mathlib.Tactic
import WordMachines.Dfa.Walk
import WordMachines.Proofs.Walk.Rank

/-!
# What the walk has found

Each state found comes with the word that its pointers spell. The walk tries the words of the
states it has visited, each with every symbol added, in the order of their ranks; so the states
found are in the order of the ranks of their words, and no word tried leads to a state in front of
the word that found it.
-/

namespace WordMachines

/-- A state and the word by which the walk found it. -/
structure Finding (S A : Type) where
  state : S
  word : List A

section Record

variable {S A : Type} [DecidableEq S]

theorem Walk.discover_new {w : Walk S A} {t : S} (ht : t ∉ w.visited) (q : S) (a : A) :
    w.discover q a (some t) = ⟨w.queue ++ [t], w.visited ++ [t], w.parents.insert t (q, a)⟩ := by
  simp [discover, ht]

theorem Walk.discover_known {w : Walk S A} {t : S} (ht : t ∈ w.visited) (q : S) (a : A) :
    w.discover q a (some t) = w := by
  simp [discover, ht]

end Record

variable {S A : Type} [DecidableEq S] [DecidableEq A]

/-- Trying the words `tried` has led to the states of `found`, in this order. -/
structure Explored (d : Dfa S A) (found : List (Finding S A)) (tried : List (List A)) : Prop where
  head_eq : found.head? = some ⟨d.start, []⟩
  nodup : (found.map Finding.state).Nodup
  sound : ∀ f ∈ found, f.word ⊆ d.alphabet ∧ d.run? d.start f.word = some f.state
  sorted : found.Pairwise fun f g => d.rank f.word < d.rank g.word
  short : ∀ f ∈ found, f.word.length < found.length
  grown : ∀ f ∈ found, f = ⟨d.start, []⟩ ∨ f.word ∈ tried
  settled : ∀ u ∈ tried, ∃ f ∈ found, d.run? d.start u = some f.state ∧
    d.rank f.word ≤ d.rank u

/-- What the walk `w` has on record is what has been found. -/
structure Charted (d : Dfa S A) (w : Walk S A) (found : List (Finding S A))
    (tried : List (List A)) : Prop extends Explored d found tried where
  visited_eq : w.visited = found.map Finding.state
  keys_eq : w.parents.keys = (found.map Finding.state).tail
  parent : ∀ f ∈ found, f = ⟨d.start, []⟩ ∨ ∃ p ∈ found, ∃ a,
    f.word = p.word ++ [a] ∧ w.parents.get? f.state = some (p.state, a)

namespace Explored

variable {d : Dfa S A} {found : List (Finding S A)} {tried : List (List A)}

theorem init (d : Dfa S A) : Explored d [⟨d.start, []⟩] [] where
  head_eq := rfl
  nodup := List.nodup_singleton _
  sound := by simp
  sorted := List.pairwise_singleton _ _
  short := by simp
  grown := by simp
  settled := by simp

theorem start_mem (h : Explored d found tried) : ⟨d.start, []⟩ ∈ found :=
  List.mem_of_head? h.head_eq

theorem run?_concat (h : Explored d found tried) {e : Finding S A} (he : e ∈ found) (a : A) :
    d.run? d.start (e.word ++ [a]) = d.next? e.state a := by
  rw [Dfa.run?_concat, (h.sound e he).2]
  rfl

theorem rank_lt_of_tried (h : Explored d found tried) {v : List A} {a : A}
    (htried : ∀ u ∈ tried, d.rank u < d.rank (v ++ [a])) :
    ∀ f ∈ found, d.rank f.word < d.rank (v ++ [a]) := by
  intro f hf
  rcases h.grown f hf with rfl | hmem
  · exact Dfa.rank_nil_lt_concat v a
  · exact htried _ hmem

/-- A word that leads to a state found before changes nothing but that it has been tried. -/
theorem tryKnown (h : Explored d found tried) {e f : Finding S A} (he : e ∈ found) (hf : f ∈ found)
    {a : A} (hnext : d.next? e.state a = some f.state)
    (htried : ∀ u ∈ tried, d.rank u < d.rank (e.word ++ [a])) :
    Explored d found (tried ++ [e.word ++ [a]]) where
  head_eq := h.head_eq
  nodup := h.nodup
  sound := h.sound
  sorted := h.sorted
  short := h.short
  grown := fun g hg => (h.grown g hg).imp_right (List.mem_append_left _)
  settled := by
    intro u hu
    rcases List.mem_append.mp hu with hu | hu
    · exact h.settled u hu
    · obtain rfl := List.mem_singleton.mp hu
      exact ⟨f, hf, (h.run?_concat he a).trans hnext, (h.rank_lt_of_tried htried f hf).le⟩

/-- The last word tried has the greatest rank so far, so a state it finds goes to the end. -/
theorem tryNew (h : Explored d found tried) {e : Finding S A} (he : e ∈ found) {a : A}
    (ha : a ∈ d.alphabet) {t : S} (hnext : d.next? e.state a = some t)
    (htried : ∀ u ∈ tried, d.rank u < d.rank (e.word ++ [a]))
    (ht : t ∉ found.map Finding.state) :
    Explored d (found ++ [⟨t, e.word ++ [a]⟩]) (tried ++ [e.word ++ [a]]) where
  head_eq := by rw [List.head?_append, h.head_eq]; rfl
  nodup := by
    rw [List.map_append]
    exact h.nodup.append (List.nodup_singleton t) (List.disjoint_singleton.mpr ht)
  sound := by
    intro f hf
    rcases List.mem_append.mp hf with hf | hf
    · exact h.sound f hf
    · obtain rfl := List.mem_singleton.mp hf
      have hword : e.word ++ [a] ⊆ d.alphabet :=
        List.append_subset.mpr ⟨(h.sound e he).1, by simpa using ha⟩
      exact ⟨hword, (h.run?_concat he a).trans hnext⟩
  sorted := by
    rw [List.pairwise_append]
    refine ⟨h.sorted, List.pairwise_singleton _ _, ?_⟩
    intro f hf g hg
    obtain rfl := List.mem_singleton.mp hg
    exact h.rank_lt_of_tried htried f hf
  short := by
    intro f hf
    rw [List.length_append, List.length_singleton]
    rcases List.mem_append.mp hf with hf | hf
    · exact (h.short f hf).trans (Nat.lt_succ_self _)
    · obtain rfl := List.mem_singleton.mp hf
      simpa using h.short e he
  grown := by
    intro f hf
    rcases List.mem_append.mp hf with hf | hf
    · exact (h.grown f hf).imp_right (List.mem_append_left _)
    · obtain rfl := List.mem_singleton.mp hf
      exact Or.inr (by simp)
  settled := by
    intro u hu
    rcases List.mem_append.mp hu with hu | hu
    · obtain ⟨f, hf, hrun, hrank⟩ := h.settled u hu
      exact ⟨f, List.mem_append_left _ hf, hrun, hrank⟩
    · obtain rfl := List.mem_singleton.mp hu
      exact ⟨_, List.mem_append_right _ (List.mem_singleton_self _),
        (h.run?_concat he a).trans hnext, le_rfl⟩

end Explored

namespace Charted

variable {d : Dfa S A} {w : Walk S A} {found : List (Finding S A)} {tried : List (List A)}

theorem init (d : Dfa S A) : Charted d (.init d.start) [⟨d.start, []⟩] [] where
  toExplored := Explored.init d
  visited_eq := rfl
  keys_eq := rfl
  parent := by simp

theorem exists_rest (h : Charted d w found tried) :
    ∃ rest, found = ⟨d.start, []⟩ :: rest ∧ w.parents.keys = rest.map Finding.state := by
  obtain ⟨rest, hfound⟩ := List.head?_eq_some_iff.mp h.head_eq
  exact ⟨rest, hfound, by rw [h.keys_eq, hfound]; rfl⟩

/-- Nothing leads the walk back to the start, which it has found at the outset. -/
theorem parent_start (h : Charted d w found tried) : w.parents.get? d.start = none := by
  obtain ⟨rest, hfound, hkeys⟩ := h.exists_rest
  have hnodup := h.nodup
  rw [hfound, List.map_cons, List.nodup_cons, ← hkeys, ← FinMap.contains_iff_mem_keys] at hnodup
  simpa [FinMap.contains] using hnodup.1

theorem parents_size (h : Charted d w found tried) : w.parents.size + 1 = found.length := by
  obtain ⟨rest, hfound, hkeys⟩ := h.exists_rest
  rw [← FinMap.length_keys, hkeys, hfound]
  simp

theorem discover (h : Charted d w found tried) {e : Finding S A} (he : e ∈ found) {a : A}
    (ha : a ∈ d.alphabet) {t : S} (hnext : d.next? e.state a = some t)
    (htried : ∀ u ∈ tried, d.rank u < d.rank (e.word ++ [a])) :
    ∃ new, Charted d (w.discover e.state a (some t)) (found ++ new) (tried ++ [e.word ++ [a]]) ∧
      (w.discover e.state a (some t)).queue = w.queue ++ new.map Finding.state := by
  by_cases ht : t ∈ w.visited
  · rw [Walk.discover_known ht]
    rw [h.visited_eq] at ht
    obtain ⟨f, hf, rfl⟩ := List.mem_map.mp ht
    refine ⟨[], ?_, by simp⟩
    rw [List.append_nil]
    exact ⟨h.tryKnown he hf hnext htried, h.visited_eq, h.keys_eq, h.parent⟩
  · rw [Walk.discover_new ht]
    rw [h.visited_eq] at ht
    refine ⟨[⟨t, e.word ++ [a]⟩], ⟨h.tryNew he ha hnext htried ht, ?_, ?_, ?_⟩, rfl⟩
    · rw [h.visited_eq, List.map_append]
      rfl
    · have hkey : t ∉ w.parents.keys := by
        rw [h.keys_eq]
        exact fun hmem => ht (List.mem_of_mem_tail hmem)
      have hne : found.map Finding.state ≠ [] := List.ne_nil_of_mem (List.mem_map_of_mem he)
      rw [FinMap.keys_insert, if_neg hkey, h.keys_eq, List.map_append,
        List.tail_append_of_ne_nil hne]
      rfl
    · intro f hf
      rcases List.mem_append.mp hf with hf | hf
      · have hft : f.state ≠ t := fun heq => ht (heq ▸ List.mem_map_of_mem hf)
        rcases h.parent f hf with hroot | ⟨p, hp, b, hword, hget⟩
        · exact Or.inl hroot
        · exact Or.inr ⟨p, List.mem_append_left _ hp, b, hword, by
            rw [FinMap.get?_insert, if_neg hft, hget]⟩
      · obtain rfl := List.mem_singleton.mp hf
        exact Or.inr ⟨e, List.mem_append_left _ he, a, rfl, by
          rw [FinMap.get?_insert, if_pos rfl]⟩

end Charted
end WordMachines
