import Mathlib.Tactic
import WordMachines.Proofs.Walk.Discovery

/-!
# The rounds of the walk

A round takes the state that has waited longest and tries its word with every symbol added. Of all
words, those that no word found has reached yet rank after some word still waiting; so whatever
waits in front is reached by no word of lesser rank than its own.
-/

namespace WordMachines

variable {S A : Type} [DecidableEq S] [DecidableEq A]

namespace Charted

variable {d : Dfa S A} {w : Walk S A} {found : List (Finding S A)} {tried : List (List A)}

/-- The pointers spell the word by which a state was found. -/
theorem wordTo_eq (h : Charted d w found tried) {v : List A} {q : S} {n : ℕ}
    (hv : ⟨q, v⟩ ∈ found) (hn : v.length ≤ n) : w.wordTo n q = v := by
  induction v using List.reverseRecOn generalizing q n with
  | nil =>
    have hq : d.start = q := Option.some.inj (h.sound _ hv).2
    subst hq
    cases n with
    | zero => rfl
    | succ n => rw [Walk.wordTo, h.parent_start]
  | append_singleton v a ih =>
    rcases h.parent _ hv with hroot | ⟨⟨p, u⟩, hp, b, hword, hget⟩
    · simp at hroot
    · obtain ⟨rfl, hab⟩ := List.append_inj' hword rfl
      obtain rfl := List.singleton_inj.mp hab
      rw [List.length_append, List.length_singleton] at hn
      obtain ⟨m, rfl⟩ := Nat.exists_eq_succ_of_ne_zero (by omega : n ≠ 0)
      rw [Walk.wordTo, hget]
      change w.wordTo m p ++ [a] = v ++ [a]
      rw [ih hp (by omega)]

theorem pathTo_eq (h : Charted d w found tried) {f : Finding S A} (hf : f ∈ found) :
    w.pathTo f.state = f.word := by
  have hlen := h.short f hf
  rw [← h.parents_size] at hlen
  exact h.wordTo_eq hf (by omega)

/-- All symbols of a list in the order of the alphabet are tried after one word. -/
theorem discoverAll (h : Charted d w found tried) (hd : d.WellFormed) {e : Finding S A}
    (he : e ∈ found) {as : List A} (has : as ⊆ d.alphabet)
    (hsorted : as.Pairwise fun a b => d.alphabet.idxOf a < d.alphabet.idxOf b)
    (htried : ∀ u ∈ tried, ∀ a ∈ as, d.rank u < d.rank (e.word ++ [a])) :
    ∃ new,
      Charted d (as.foldl (fun w a => w.discover e.state a (d.next? e.state a)) w) (found ++ new)
        (tried ++ as.map (e.word ++ [·])) ∧
      (as.foldl (fun w a => w.discover e.state a (d.next? e.state a)) w).queue =
        w.queue ++ new.map Finding.state := by
  induction as generalizing w found tried with
  | nil => exact ⟨[], by simpa using h, by simp⟩
  | cons a as ih =>
    obtain ⟨ha, has⟩ := List.cons_subset.mp has
    obtain ⟨hfirst, hsorted⟩ := List.pairwise_cons.mp hsorted
    have hmem : e.state ∈ d.states := hd.run?_mem (h.sound e he).1 hd.start_mem (h.sound e he).2
    obtain ⟨t, -, hnext⟩ := hd.total e.state hmem a ha
    obtain ⟨new, hcharted, hqueue⟩ :=
      h.discover he ha hnext fun u hu => htried u hu a (by simp)
    have htried' : ∀ u ∈ tried ++ [e.word ++ [a]], ∀ b ∈ as, d.rank u < d.rank (e.word ++ [b]) := by
      intro u hu b hb
      rcases List.mem_append.mp hu with hu | hu
      · exact htried u hu b (List.mem_cons_of_mem a hb)
      · obtain rfl := List.mem_singleton.mp hu
        exact Dfa.rank_concat_lt_of_idxOf_lt e.word (hfirst b hb)
    obtain ⟨more, hcharted, hqueue'⟩ :=
      ih hcharted (List.mem_append_left _ he) has hsorted htried'
    rw [List.foldl_cons, hnext]
    refine ⟨new ++ more, ?_, ?_⟩
    · simpa using hcharted
    · rw [hqueue', hqueue, List.map_append, List.append_assoc]

end Charted

theorem Dfa.visit?_of_queue {d : Dfa S A} {w : Walk S A} {q : S} {rest : List S}
    (h : w.queue = q :: rest) :
    d.visit? w = some (q, d.alphabet.foldl (fun w a => w.discover q a (d.next? q a))
      { w with queue := rest }) := by
  rw [visit?, h]

/-- The words tried once the states of `done` have been visited. -/
def extensions (d : Dfa S A) (done : List (Finding S A)) : List (List A) :=
  done.flatMap fun f => d.alphabet.map (f.word ++ [·])

/-- The walk `w` has visited `done`, and the states of `pending` are waiting. -/
structure Underway (d : Dfa S A) (w : Walk S A) (done pending : List (Finding S A)) : Prop where
  charted : Charted d w (done ++ pending) (extensions d done)
  queue_eq : w.queue = pending.map Finding.state

namespace Underway

variable {d : Dfa S A} {w : Walk S A} {done pending rest : List (Finding S A)} {e : Finding S A}

theorem init (d : Dfa S A) : Underway d (.init d.start) [] [⟨d.start, []⟩] where
  charted := Charted.init d
  queue_eq := rfl

theorem state_mem (h : Underway d w done pending) (hd : d.WellFormed) :
    ∀ f ∈ done ++ pending, f.state ∈ d.states := by
  intro f hf
  obtain ⟨hword, hrun⟩ := h.charted.sound f hf
  exact hd.run?_mem hword hd.start_mem hrun

theorem length_le (h : Underway d w done pending) (hd : d.WellFormed) :
    (done ++ pending).length ≤ d.states.length := by
  have hsub : (done ++ pending).map Finding.state ⊆ d.states := by
    intro q hq
    obtain ⟨f, hf, rfl⟩ := List.mem_map.mp hq
    exact h.state_mem hd f hf
  simpa using (List.subperm_of_subset h.charted.nodup hsub).length_le

theorem visit?_nil (h : Underway d w done []) : d.visit? w = none := by
  rw [Dfa.visit?, h.queue_eq]
  rfl

theorem visit?_cons (h : Underway d w done (e :: rest)) (hd : d.WellFormed) :
    ∃ w' new, d.visit? w = some (e.state, w') ∧ Underway d w' (done ++ [e]) (rest ++ new) := by
  have htried : ∀ u ∈ extensions d done, ∀ a ∈ d.alphabet, d.rank u < d.rank (e.word ++ [a]) := by
    intro u hu a _
    obtain ⟨f, hf, hu⟩ := List.mem_flatMap.mp hu
    obtain ⟨b, -, rfl⟩ := List.mem_map.mp hu
    have hlt := (List.pairwise_append.mp h.charted.sorted).2.2 f hf e (by simp)
    exact Dfa.rank_concat_lt hlt b a
  have hpopped : Charted d { w with queue := rest.map Finding.state } (done ++ e :: rest)
      (extensions d done) :=
    ⟨h.charted.toExplored, h.charted.visited_eq, h.charted.keys_eq, h.charted.parent⟩
  obtain ⟨new, hcharted, hqueue⟩ := hpopped.discoverAll hd (List.mem_append_right done (by simp))
    (List.Subset.refl _) (Dfa.pairwise_idxOf_lt hd.alphabet_nodup) htried
  have hvisit := Dfa.visit?_of_queue (d := d) h.queue_eq
  refine ⟨_, new, hvisit, ⟨?_, ?_⟩⟩
  · simpa [extensions] using hcharted
  · rw [hqueue, List.map_append]

/-- Each word over the alphabet is either overtaken by a word found, or still to come. -/
theorem reached_or_pending (h : Underway d w done pending) {u : List A} (hu : u ⊆ d.alphabet) :
    (∃ f ∈ done, d.run? d.start u = some f.state ∧ d.rank f.word ≤ d.rank u) ∨
      ∃ f ∈ pending, d.rank f.word ≤ d.rank u := by
  have hsplit : ∀ {v : List A}, (∃ f ∈ done ++ pending, d.run? d.start v = some f.state ∧
      d.rank f.word ≤ d.rank v) →
      (∃ f ∈ done, d.run? d.start v = some f.state ∧ d.rank f.word ≤ d.rank v) ∨
        ∃ f ∈ pending, d.rank f.word ≤ d.rank v := by
    rintro v ⟨f, hf, hrun, hrank⟩
    rcases List.mem_append.mp hf with hf | hf
    · exact Or.inl ⟨f, hf, hrun, hrank⟩
    · exact Or.inr ⟨f, hf, hrank⟩
  induction u using List.reverseRecOn with
  | nil => exact hsplit ⟨_, h.charted.start_mem, rfl, le_rfl⟩
  | append_singleton v a ih =>
    obtain ⟨hv, ha⟩ := List.append_subset.mp hu
    rcases ih hv with ⟨f, hf, hrun, hrank⟩ | ⟨f, hf, hrank⟩
    · have hfound : f ∈ done ++ pending := List.mem_append_left _ hf
      have htried : f.word ++ [a] ∈ extensions d done :=
        List.mem_flatMap.mpr ⟨f, hf, List.mem_map.mpr ⟨a, ha (by simp), rfl⟩⟩
      obtain ⟨g, hg, hgrun, hgrank⟩ := h.charted.settled _ htried
      apply hsplit
      refine ⟨g, hg, ?_, hgrank.trans (Dfa.rank_concat_le (h.charted.sound f hfound).1 hrank a)⟩
      rw [Dfa.run?_concat, hrun, ← hgrun, h.charted.run?_concat hfound]
      rfl
    · exact Or.inr ⟨f, hf, hrank.trans (Dfa.rank_lt_concat v a).le⟩

end Underway

/-- The walk `n` rounds later. With nothing waiting a round changes nothing. -/
def Dfa.afterRounds (d : Dfa S A) : ℕ → Walk S A → Walk S A
  | 0, w => w
  | n + 1, w =>
    match d.visit? w with
    | none => w
    | some (_, w) => d.afterRounds n w

theorem Dfa.afterRounds_of_none {d : Dfa S A} {w : Walk S A} (h : d.visit? w = none) (n : ℕ) :
    d.afterRounds n w = w := by
  cases n with
  | zero => rfl
  | succ n => rw [afterRounds, h]

theorem Dfa.afterRounds_add (d : Dfa S A) (n k : ℕ) (w : Walk S A) :
    d.afterRounds (n + k) w = d.afterRounds k (d.afterRounds n w) := by
  induction n generalizing w with
  | zero => rw [Nat.zero_add, afterRounds]
  | succ n ih =>
    rw [Nat.succ_add, afterRounds, afterRounds]
    cases hvisit : d.visit? w with
    | none => exact (afterRounds_of_none hvisit k).symm
    | some visit => exact ih visit.2

/-- Later rounds only add to what has been found, and there is no end to them but that nothing is
waiting any more. -/
theorem Underway.exists_afterRounds {d : Dfa S A} {w : Walk S A} {done pending : List (Finding S A)}
    (h : Underway d w done pending) (hd : d.WellFormed) (n : ℕ) :
    ∃ done' pending', Underway d (d.afterRounds n w) done' pending' ∧
      done ++ pending <+: done' ++ pending' ∧
      done'.map Finding.state = done.map Finding.state ++ d.yielded n w ∧
      (pending' = [] ∨ done'.length = done.length + n) := by
  induction n generalizing w done pending with
  | zero => exact ⟨done, pending, h, List.prefix_rfl, (List.append_nil _).symm, Or.inr rfl⟩
  | succ n ih =>
    cases pending with
    | nil =>
      rw [Dfa.afterRounds, Dfa.yielded, h.visit?_nil]
      exact ⟨done, [], h, List.prefix_rfl, (List.append_nil _).symm, Or.inl rfl⟩
    | cons e rest =>
      obtain ⟨w', new, hvisit, hnext⟩ := h.visit?_cons hd
      obtain ⟨done', pending', hlater, hkeeps, hstates, hend⟩ := ih hnext
      rw [Dfa.afterRounds, Dfa.yielded, hvisit]
      refine ⟨done', pending', hlater, ?_, ?_, ?_⟩
      · have hgrown : done ++ e :: rest <+: done ++ [e] ++ (rest ++ new) := ⟨new, by simp⟩
        exact hgrown.trans hkeeps
      · simpa using hstates
      · rw [List.length_append, List.length_singleton] at hend
        exact hend.imp_right fun hlen => by omega

end WordMachines
