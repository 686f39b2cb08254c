import Mathlib.Tactic
import WordMachines.Proofs.Walk.Rounds

/-!
# The states that the walk yields

With a round for each declared state the walk comes to its end, where nothing is waiting any more.
What it has yielded by then is what it has found: each state that a word over the alphabet reaches,
and each once. The states come in the order of the least words that lead to them, and the word by
which the walk found a state is that word.
-/

namespace WordMachines

variable {S A : Type} [DecidableEq S] [DecidableEq A]

namespace Dfa

variable (d : Dfa S A)

/-- Of the words over the alphabet that lead to `q`, `w` has the least rank. -/
structure IsLeastWordTo (q : S) (w : List A) : Prop where
  subset : w ⊆ d.alphabet
  run?_eq : d.run? d.start w = some q
  rank_le : ∀ u ⊆ d.alphabet, d.run? d.start u = some q → d.rank w ≤ d.rank u

variable {d} in
theorem IsLeastWordTo.eq {q : S} {u v : List A} (hu : d.IsLeastWordTo q u)
    (hv : d.IsLeastWordTo q v) : u = v :=
  eq_of_rank_le_of_rank_le hu.subset (hu.rank_le v hv.subset hv.run?_eq)
    (hv.rank_le u hu.subset hu.run?_eq)

/-- What fewer rounds yield is the beginning of what more rounds yield. -/
theorem take_yielded (n k : ℕ) (w : Walk S A) :
    (d.yielded (n + k) w).take n = d.yielded n w := by
  induction n generalizing w with
  | zero => rfl
  | succ n ih =>
    rw [Nat.succ_add]
    cases hvisit : d.visit? w with
    | none => simp [yielded, hvisit]
    | some visit => simp [yielded, hvisit, ih]

end Dfa

namespace Underway

variable {d : Dfa S A} {w : Walk S A} {done pending found : List (Finding S A)}

/-- With nothing waiting any more, no word to a state ranks before the one that found it. -/
theorem isLeastWordTo (h : Underway d w found []) {f : Finding S A} (hf : f ∈ found) :
    d.IsLeastWordTo f.state f.word where
  subset := (h.charted.sound f (List.mem_append_left [] hf)).1
  run?_eq := (h.charted.sound f (List.mem_append_left [] hf)).2
  rank_le := by
    intro u hu hrun
    rcases h.reached_or_pending hu with ⟨g, hg, hgrun, hrank⟩ | ⟨g, hg, -⟩
    · have hstate : g.state = f.state := Option.some.inj (hgrun.symm.trans hrun)
      have hnodup : (found.map Finding.state).Nodup := by simpa using h.charted.nodup
      obtain rfl := List.inj_on_of_nodup_map hnodup hg hf hstate
      exact hrank
    · exact absurd hg List.not_mem_nil

/-- With a round for each state nothing is left waiting. -/
theorem yielded (h : Underway d w done pending) (hd : d.WellFormed) {n : ℕ}
    (hn : d.states.length ≤ n + done.length) :
    ∃ w' found, Underway d w' found [] ∧ done ++ pending <+: found ∧
      done.map Finding.state ++ d.yielded n w = found.map Finding.state := by
  obtain ⟨found, pending', hend, hkeeps, hstates, hrounds⟩ := h.exists_afterRounds hd n
  have hlen := hend.length_le hd
  rw [List.length_append] at hlen
  obtain rfl : pending' = [] := by
    rcases hrounds with hnil | hcount
    · exact hnil
    · exact List.length_eq_zero_iff.mp (by omega)
  rw [List.append_nil] at hkeeps
  exact ⟨d.afterRounds n w, found, hend, hkeeps, hstates.symm⟩

end Underway

namespace ValidDfa

variable (d : ValidDfa S A)

theorem exists_reachable_eq :
    ∃ w found, Underway d.toDfa w found [] ∧ d.reachable = found.map Finding.state := by
  obtain ⟨w, found, hend, -, hfound⟩ :=
    (Underway.init d.toDfa).yielded d.wellFormed (Nat.le_add_right _ _)
  exact ⟨w, found, hend, hfound⟩

theorem nodup_reachable : d.reachable.Nodup := by
  obtain ⟨w, found, hend, hreachable⟩ := d.exists_reachable_eq
  have hnodup := hend.charted.nodup
  rw [List.append_nil] at hnodup
  rw [hreachable]
  exact hnodup

theorem mem_reachable_iff (q : S) :
    q ∈ d.reachable ↔ ∃ w ⊆ d.alphabet, d.run? d.start w = some q := by
  obtain ⟨w, found, hend, hreachable⟩ := d.exists_reachable_eq
  rw [hreachable, List.mem_map]
  constructor
  · rintro ⟨f, hf, rfl⟩
    obtain ⟨hword, hrun⟩ := hend.charted.sound f (List.mem_append_left [] hf)
    exact ⟨f.word, hword, hrun⟩
  · rintro ⟨u, hu, hrun⟩
    rcases hend.reached_or_pending hu with ⟨f, hf, hstate, -⟩ | ⟨f, hf, -⟩
    · exact ⟨f, hf, Option.some.inj (hstate.symm.trans hrun)⟩
    · exact absurd hf List.not_mem_nil

theorem reachable_subset : d.reachable ⊆ d.states := by
  intro q hq
  obtain ⟨w, hw, hrun⟩ := (d.mem_reachable_iff q).mp hq
  exact d.wellFormed.run?_mem hw d.wellFormed.start_mem hrun

theorem length_reachable_le : d.reachable.length ≤ d.states.length :=
  (List.subperm_of_subset d.nodup_reachable d.reachable_subset).length_le

/-- A round more than there are states to yield finds nothing waiting. -/
theorem yielded_eq_reachable {n : ℕ} (hn : d.reachable.length ≤ n) :
    d.yielded n (.init d.start) = d.reachable := by
  rcases le_total n d.states.length with hle | hle
  · obtain ⟨k, hk⟩ := Nat.exists_eq_add_of_le hle
    have htake : d.reachable.take n = d.yielded n (.init d.start) := by
      rw [reachable, hk, d.take_yielded]
    rw [← htake, List.take_of_length_le hn]
  · obtain ⟨w, found, hend, -, hfound⟩ :=
      (Underway.init d.toDfa).yielded d.wellFormed (n := n) (by simpa using hle)
    have hlength : (d.yielded n (.init d.start)).length ≤ d.states.length := by
      have hle := hend.length_le d.wellFormed
      have hmap := congrArg List.length hfound
      simp only [List.map_nil, List.nil_append, List.length_map, List.append_nil] at hle hmap
      omega
    obtain ⟨k, rfl⟩ := Nat.exists_eq_add_of_le hle
    have htake := d.take_yielded d.states.length k (.init d.start)
    rw [reachable, ← htake, List.take_of_length_le hlength]

theorem head?_reachable : d.reachable.head? = some d.start := by
  obtain ⟨w, found, hend, hreachable⟩ := d.exists_reachable_eq
  have hhead := hend.charted.head_eq
  rw [List.append_nil] at hhead
  rw [hreachable, List.head?_map, hhead]
  rfl

theorem exists_leastWordTo {q : S} (hq : q ∈ d.reachable) : ∃ w, d.IsLeastWordTo q w := by
  obtain ⟨w, found, hend, hreachable⟩ := d.exists_reachable_eq
  rw [hreachable, List.mem_map] at hq
  obtain ⟨f, hf, rfl⟩ := hq
  exact ⟨f.word, hend.isLeastWordTo hf⟩

theorem pairwise_reachable : d.reachable.Pairwise fun q r =>
    ∀ u v, d.IsLeastWordTo q u → d.IsLeastWordTo r v → d.rank u < d.rank v := by
  obtain ⟨w, found, hend, hreachable⟩ := d.exists_reachable_eq
  have hsorted := hend.charted.sorted
  rw [List.append_nil] at hsorted
  rw [hreachable, List.pairwise_map]
  apply hsorted.imp_of_mem
  intro f g hf hg hlt u v hu hv
  rw [hu.eq (hend.isLeastWordTo hf), hv.eq (hend.isLeastWordTo hg)]
  exact hlt

/-- The walk yields each reachable state once, in the order of the least words that lead to them,
and then ends. -/
theorem reachable_in_order_of_words :
    d.reachable.Nodup ∧
      (∀ q, q ∈ d.reachable ↔ ∃ w ⊆ d.alphabet, d.run? d.start w = some q) ∧
      (d.reachable ⊆ d.states ∧ d.reachable.length ≤ d.states.length) ∧
      (∀ n, d.reachable.length ≤ n → d.yielded n (.init d.start) = d.reachable) ∧
      d.reachable.head? = some d.start ∧
      (∀ q ∈ d.reachable, ∃! w, d.IsLeastWordTo q w) ∧
      d.reachable.Pairwise fun q r => ∀ u v, d.IsLeastWordTo q u → d.IsLeastWordTo r v →
        d.rank u < d.rank v ∧ u.length ≤ v.length := by
  refine ⟨d.nodup_reachable, d.mem_reachable_iff, ⟨d.reachable_subset, d.length_reachable_le⟩, ?_,
    d.head?_reachable, ?_, ?_⟩
  · intro n hn
    exact d.yielded_eq_reachable hn
  · intro q hq
    obtain ⟨w, hw⟩ := d.exists_leastWordTo hq
    exact ⟨w, hw, fun u hu => hu.eq hw⟩
  · apply d.pairwise_reachable.imp
    intro q r hlt u v hu hv
    have hrank := hlt u v hu hv
    exact ⟨hrank, Dfa.length_le_of_rank_le hrank.le⟩

/-- State 3 is found before 1, state 2 leads back to the start, and nothing leads to state 4. -/
def roundabout : ValidDfa UInt32 Char where
  states := [0, 1, 2, 3, 4]
  alphabet := ['b', 'a']
  transitions := .ofTriples
    [(0, 'a', 1), (0, 'b', 3), (1, 'a', 1), (1, 'b', 2), (2, 'a', 0), (2, 'b', 3), (3, 'a', 3),
      (3, 'b', 1), (4, 'a', 0), (4, 'b', 4)]
  start := 0
  accept := []
  wellFormed := (Dfa.firstDefect?_eq_none_iff _).mp (by decide +kernel)

theorem roundabout_in_order :
    roundabout.reachable = [0, 3, 1, 2] ∧ roundabout.yielded 9 (.init 0) = [0, 3, 1, 2] ∧
      ∃ u v, roundabout.IsLeastWordTo 3 u ∧ roundabout.IsLeastWordTo 1 v ∧
        roundabout.rank u < roundabout.rank v ∧ u.length ≤ v.length := by
  have hreachable : roundabout.reachable = [0, 3, 1, 2] := by decide +kernel
  obtain ⟨-, -, -, hend, -, hleast, hsorted⟩ := roundabout.reachable_in_order_of_words
  have hrounds : roundabout.yielded 9 (.init 0) = roundabout.reachable :=
    hend 9 (by rw [hreachable]; decide)
  obtain ⟨u, hu, -⟩ := hleast 3 (by rw [hreachable]; decide)
  obtain ⟨v, hv, -⟩ := hleast 1 (by rw [hreachable]; decide)
  rw [hreachable] at hsorted
  have horder := (List.pairwise_cons.mp (List.pairwise_cons.mp hsorted).2).1 1 (by decide) u v hu hv
  exact ⟨hreachable, hrounds.trans hreachable, u, v, hu, hv, horder⟩

end ValidDfa
end WordMachines
