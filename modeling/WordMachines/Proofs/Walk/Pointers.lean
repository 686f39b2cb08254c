import Mathlib.Tactic
import WordMachines.Proofs.Walk.Reachable

/-!
# Where the pointers lead

At any time in the walk the pointers of a state that has been found lead back to the start and no
further. What they spell is the word that found the state, which no later round changes, so it is a
shortest one. The states waiting are in the order of their distances, and as each was found from one
that has been visited, no two of these distances differ by more than one.
-/

namespace WordMachines

section Spelling

variable {S A : Type} [DecidableEq S]

/-- Following the pointers from `q` comes to an end, and their symbols, the last one followed first,
are those of the word. -/
inductive Walk.Spells (w : Walk S A) : S → List A → Prop
  | root {q : S} (h : w.parents.get? q = none) : Spells w q []
  | pointer {q p : S} {a : A} {u : List A} (h : w.parents.get? q = some (p, a))
    (hp : Spells w p u) : Spells w q (u ++ [a])

theorem Walk.Spells.eq {w : Walk S A} {q : S} {u v : List A} (hu : w.Spells q u)
    (hv : w.Spells q v) : u = v := by
  induction hu generalizing v with
  | root h =>
    cases hv with
    | root => rfl
    | pointer h' => simp [h] at h'
  | pointer h _ ih =>
    cases hv with
    | root h' => simp [h] at h'
    | pointer h' hv =>
      obtain ⟨rfl, rfl⟩ : _ ∧ _ := by simpa [h] using h'
      rw [ih hv]

end Spelling

variable {S A : Type} [DecidableEq S] [DecidableEq A]

namespace Dfa

variable (d : Dfa S A)

/-- The least number of symbols of the alphabet that lead to `q`. -/
def IsDistance (q : S) (n : ℕ) : Prop :=
  IsLeast {k | ∃ u ⊆ d.alphabet, u.length = k ∧ d.run? d.start u = some q} n

variable {d} in
theorem IsLeastWordTo.isDistance {q : S} {w : List A} (h : d.IsLeastWordTo q w) :
    d.IsDistance q w.length := by
  refine ⟨⟨w, h.subset, rfl, h.run?_eq⟩, ?_⟩
  rintro k ⟨u, hu, rfl, hrun⟩
  exact length_le_of_rank_le (h.rank_le u hu hrun)

end Dfa

/-- The pointer of a state that was found by its word: where the rest of the word leads, and the
last symbol. -/
def Finding.pointer? (d : Dfa S A) (f : Finding S A) : Option (S × A) :=
  f.word.getLast?.bind fun a => (d.run? d.start f.word.dropLast).map (·, a)

namespace Charted

variable {d : Dfa S A} {w : Walk S A} {found : List (Finding S A)} {tried : List (List A)}

theorem get?_parents (h : Charted d w found tried) {f : Finding S A} (hf : f ∈ found) :
    w.parents.get? f.state = f.pointer? d := by
  rcases h.parent f hf with rfl | ⟨p, hp, a, hword, hget⟩
  · exact h.parent_start
  · simp [Finding.pointer?, hword, hget, (h.sound p hp).2]

theorem spells (h : Charted d w found tried) {v : List A} {q : S} (hv : ⟨q, v⟩ ∈ found) :
    w.Spells q v := by
  induction v using List.reverseRecOn generalizing q with
  | nil =>
    obtain rfl : d.start = q := Option.some.inj (h.sound _ hv).2
    exact .root h.parent_start
  | append_singleton v a ih =>
    rcases h.parent _ hv with hroot | ⟨⟨p, u⟩, hp, b, hword, hget⟩
    · simp at hroot
    · obtain ⟨rfl, hab⟩ := List.append_inj' hword rfl
      obtain rfl := List.singleton_inj.mp hab
      exact .pointer hget (ih hp)

theorem exists_pointer (h : Charted d w found tried) {f : Finding S A} (hf : f ∈ found)
    (hstart : f.state ≠ d.start) :
    ∃ p ∈ found, ∃ a ∈ d.alphabet, d.next? p.state a = some f.state ∧
      f.pointer? d = some (p.state, a) := by
  rcases h.parent f hf with rfl | ⟨p, hp, a, hword, hget⟩
  · exact absurd rfl hstart
  · obtain ⟨hsub, hrun⟩ := h.sound f hf
    rw [hword] at hsub hrun
    rw [h.run?_concat hp] at hrun
    exact ⟨p, hp, a, hsub (by simp), hrun, by rw [← h.get?_parents hf, hget]⟩

end Charted

namespace Underway

variable {d : Dfa S A} {w : Walk S A} {done pending rest : List (Finding S A)} {e : Finding S A}

/-- The walk keeps the word that found a state, and in the end it is the least one. -/
theorem isLeastWordTo_of_mem (h : Underway d w done pending) (hd : d.WellFormed)
    {f : Finding S A} (hf : f ∈ done ++ pending) : d.IsLeastWordTo f.state f.word := by
  obtain ⟨w', found, hend, hkeeps, -⟩ := h.yielded hd (Nat.le_add_right _ _)
  exact hend.isLeastWordTo (hkeeps.subset hf)

/-- What waits was found from a state visited, whose word does not rank after that of the first
state waiting. -/
theorem length_le_succ (h : Underway d w done (e :: rest)) {f : Finding S A}
    (hf : f ∈ done ++ e :: rest) : f.word.length ≤ e.word.length + 1 := by
  rcases h.charted.grown f hf with rfl | htried
  · exact Nat.zero_le _
  · obtain ⟨g, hg, hword⟩ := List.mem_flatMap.mp htried
    obtain ⟨a, -, hword⟩ := List.mem_map.mp hword
    have hlt := (List.pairwise_append.mp h.charted.sorted).2.2 g hg e (by simp)
    rw [← hword, List.length_append, List.length_singleton]
    exact Nat.succ_le_succ (Dfa.length_le_of_rank_le hlt.le)

theorem pairwise_length (h : Underway d w done pending) :
    pending.Pairwise fun f g =>
      f.word.length ≤ g.word.length ∧ g.word.length ≤ f.word.length + 1 := by
  have hsorted := (List.pairwise_append.mp h.charted.sorted).2.1
  cases pending with
  | nil => exact .nil
  | cons e rest =>
    have hfirst : ∀ f ∈ e :: rest, e.word.length ≤ f.word.length := by
      intro f hf
      rcases List.mem_cons.mp hf with rfl | hf
      · exact le_rfl
      · exact Dfa.length_le_of_rank_le ((List.pairwise_cons.mp hsorted).1 f hf).le
    apply hsorted.imp_of_mem
    intro f g hf hg hlt
    have hlast := h.length_le_succ (List.mem_append_right done hg)
    exact ⟨Dfa.length_le_of_rank_le hlt.le, hlast.trans (Nat.succ_le_succ (hfirst f hf))⟩

end Underway

namespace ValidDfa

variable (d : ValidDfa S A)

/-- The walk when it has been asked for a state `n` times. -/
def walk (n : ℕ) : Walk S A := d.afterRounds n (.init d.start)

theorem exists_underway (n : ℕ) :
    ∃ done pending, Underway d.toDfa (d.walk n) done pending ∧
      done.map Finding.state = d.yielded n (.init d.start) := by
  obtain ⟨done, pending, h, -, hstates, -⟩ :=
    (Underway.init d.toDfa).exists_afterRounds d.wellFormed n
  exact ⟨done, pending, h, hstates⟩

theorem spells_pathTo {n : ℕ} {q : S} (hq : q ∈ (d.walk n).visited) :
    (d.walk n).Spells q ((d.walk n).pathTo q) ∧ d.IsLeastWordTo q ((d.walk n).pathTo q) := by
  obtain ⟨done, pending, h, -⟩ := d.exists_underway n
  rw [h.charted.visited_eq] at hq
  obtain ⟨f, hf, rfl⟩ := List.mem_map.mp hq
  rw [h.charted.pathTo_eq hf]
  exact ⟨h.charted.spells hf, h.isLeastWordTo_of_mem d.wellFormed hf⟩

theorem parents_start (n : ℕ) : (d.walk n).parents.get? d.start = none := by
  obtain ⟨done, pending, h, -⟩ := d.exists_underway n
  exact h.charted.parent_start

theorem get?_parents_of_le {n m : ℕ} (hnm : n ≤ m) {q : S} (hq : q ∈ (d.walk n).visited) :
    (d.walk m).parents.get? q = (d.walk n).parents.get? q := by
  obtain ⟨k, rfl⟩ := Nat.exists_eq_add_of_le hnm
  obtain ⟨done, pending, h, -⟩ := d.exists_underway n
  obtain ⟨done', pending', hlater, hkeeps, -⟩ := h.exists_afterRounds d.wellFormed k
  rw [walk, ← d.afterRounds_add] at hlater
  rw [h.charted.visited_eq] at hq
  obtain ⟨f, hf, rfl⟩ := List.mem_map.mp hq
  rw [walk, hlater.charted.get?_parents (hkeeps.subset hf), h.charted.get?_parents hf]

theorem exists_parent {n : ℕ} {q : S} (hq : q ∈ (d.walk n).visited) (hstart : q ≠ d.start) :
    ∃ p ∈ (d.walk n).visited, ∃ a ∈ d.alphabet, d.next? p a = some q ∧
      (d.walk n).parents.get? q = some (p, a) := by
  obtain ⟨done, pending, h, -⟩ := d.exists_underway n
  rw [h.charted.visited_eq] at hq ⊢
  obtain ⟨f, hf, rfl⟩ := List.mem_map.mp hq
  obtain ⟨p, hp, a, ha, hnext, hpointer⟩ := h.charted.exists_pointer hf hstart
  exact ⟨p.state, List.mem_map_of_mem hp, a, ha, hnext, by rw [h.charted.get?_parents hf, hpointer]⟩

/-- What has been found has been yielded or is waiting, and not both. -/
theorem visited_walk (n : ℕ) :
    (d.walk n).visited = d.yielded n (.init d.start) ++ (d.walk n).queue ∧
      (d.walk n).visited.Nodup := by
  obtain ⟨done, pending, h, hdone⟩ := d.exists_underway n
  rw [h.charted.visited_eq, ← hdone, h.queue_eq, List.map_append]
  exact ⟨rfl, by simpa using h.charted.nodup⟩

theorem pairwise_queue (n : ℕ) :
    (d.walk n).queue.Pairwise fun q r =>
      ∀ k l, d.IsDistance q k → d.IsDistance r l → k ≤ l ∧ l ≤ k + 1 := by
  obtain ⟨done, pending, h, -⟩ := d.exists_underway n
  rw [h.queue_eq, List.pairwise_map]
  apply h.pairwise_length.imp_of_mem
  intro f g hf hg hlengths k l hk hl
  have hf := h.isLeastWordTo_of_mem d.wellFormed (List.mem_append_right done hf)
  have hg := h.isLeastWordTo_of_mem d.wellFormed (List.mem_append_right done hg)
  rw [hk.unique hf.isDistance, hl.unique hg.isDistance]
  exact hlengths

/-- At any time the pointers of a state found lead back to the start along a shortest word, and the
queue holds each state once, in the order of the distances. -/
theorem pointers_lead_back (n : ℕ) :
    (∀ q ∈ (d.walk n).visited,
        (∀ u, (d.walk n).Spells q u ↔ u = (d.walk n).pathTo q) ∧
          (d.walk n).pathTo q ⊆ d.alphabet ∧
          d.run? d.start ((d.walk n).pathTo q) = some q ∧
          d.IsDistance q ((d.walk n).pathTo q).length) ∧
      (d.walk n).parents.get? d.start = none ∧
      (∀ q ∈ (d.walk n).visited, q ≠ d.start →
        ∃ p ∈ (d.walk n).visited, ∃ a ∈ d.alphabet, d.next? p a = some q ∧
          ∀ m, n ≤ m → (d.walk m).parents.get? q = some (p, a)) ∧
      (d.walk n).visited = d.yielded n (.init d.start) ++ (d.walk n).queue ∧
      (d.walk n).queue.Nodup ∧
      (∀ q ∈ (d.walk n).queue, q ∉ d.yielded n (.init d.start)) ∧
      (d.walk n).queue.Pairwise fun q r =>
        ∀ k l, d.IsDistance q k → d.IsDistance r l → k ≤ l ∧ l ≤ k + 1 := by
  obtain ⟨hvisited, hnodup⟩ := d.visited_walk n
  rw [hvisited, List.nodup_append'] at hnodup
  refine ⟨?_, d.parents_start n, ?_, hvisited, hnodup.2.1, ?_, d.pairwise_queue n⟩
  · intro q hq
    obtain ⟨hspells, hleast⟩ := d.spells_pathTo hq
    refine ⟨?_, hleast.subset, hleast.run?_eq, hleast.isDistance⟩
    intro u
    constructor
    · intro hu
      exact hu.eq hspells
    · rintro rfl
      exact hspells
  · intro q hq hstart
    obtain ⟨p, hp, a, ha, hnext, hget⟩ := d.exists_parent hq hstart
    refine ⟨p, hp, a, ha, hnext, ?_⟩
    intro m hm
    rw [d.get?_parents_of_le hm hq, hget]
  · intro q hq hyielded
    exact hnodup.2.2 hyielded hq

theorem roundabout_led_back :
    (roundabout.walk 1).queue = [3, 1] ∧ (roundabout.walk 1).visited = [0, 3, 1] ∧
      (roundabout.walk 1).Spells 1 ['a'] ∧ roundabout.IsDistance 1 1 ∧
      (∃ p a, roundabout.next? p a = some 1 ∧
        (roundabout.walk 4).parents.get? 1 = some (p, a)) ∧
      ∀ k l, roundabout.IsDistance 3 k → roundabout.IsDistance 1 l → k ≤ l ∧ l ≤ k + 1 := by
  have hqueue : (roundabout.walk 1).queue = [3, 1] := by decide +kernel
  have hvisited : (roundabout.walk 1).visited = [0, 3, 1] := by decide +kernel
  have hpath : (roundabout.walk 1).pathTo 1 = ['a'] := by decide +kernel
  have hmem : 1 ∈ (roundabout.walk 1).visited := by simp [hvisited]
  obtain ⟨hpaths, -, hparents, -, -, -, hsorted⟩ := roundabout.pointers_lead_back 1
  obtain ⟨hspells, -, -, hdistance⟩ := hpaths 1 hmem
  obtain ⟨p, -, a, -, hnext, hkept⟩ := hparents 1 hmem (by decide +kernel)
  rw [hqueue] at hsorted
  rw [hpath] at hspells hdistance
  exact ⟨hqueue, hvisited, (hspells _).mpr rfl, hdistance, ⟨p, a, hnext, hkept 4 (by decide)⟩,
    (List.pairwise_cons.mp hsorted).1 1 (by simp)⟩

end ValidDfa
end WordMachines
