import Mathlib.Tactic
import WordMachines.Proofs.Compile.Simulation
import WordMachines.Proofs.Walk.Shortest

/-!
# Emptiness by search and by machine

The search tells states apart by identity, the machine by text. The two agree on emptiness when
the quotient accepts the least accepted word, or no word if there is none; they agree for every
choice of accepting states exactly when each state that a word reaches is the representative of
its text. `twins_disagree` is a case where they part.
-/

namespace WordMachines

variable {S A : Type} [DecidableEq S] [DecidableEq A] [Shown S] [Shown A]

namespace ValidDfa

/-- The machine accepts `w` within the steps that the decision takes. -/
def MachineAccepts (d : ValidDfa S A) (w : List A) : Prop :=
  ∃ report, d.compile.run w (w.length + 1) = .ok report ∧ report.verdict = .accept

/-- The search finds the language empty just when the machine accepts no word, and the machine
accepts the word that the search finds. -/
structure EmptinessAgrees (d : ValidDfa S A) : Prop where
  isEmpty_iff : d.isEmpty ↔ ¬ ∃ w, w ⊆ d.alphabet ∧ d.MachineAccepts w
  shortest : ∀ w, d.shortestAccepted? = some w → d.MachineAccepts w

/-- The same table with other accepting states. -/
def withAccept (d : ValidDfa S A) (accept : List S) (h : ∀ q ∈ accept, q ∈ d.states) :
    ValidDfa S A where
  toDfa := { d.toDfa with accept }
  wellFormed := { d.wellFormed with accept_subset := h }

variable (d : ValidDfa S A)

theorem machineAccepts_iff {w : List A} (hw : w ⊆ d.alphabet) :
    d.MachineAccepts w ↔ d.quotientAccepts w := by
  have hend := d.decided_machineAfter hw le_rfl
  rw [MachineAccepts, d.run_compile_eq hw, hend.verdict_eq]
  cases d.quotientAccepts w <;> simp [Machine.report]

theorem emptinessAgrees_iff_quotient :
    d.EmptinessAgrees ↔
      (∀ v, d.IsLeastAccepted v → d.quotientAccepts v) ∧
        ((∀ u ⊆ d.alphabet, ¬ d.accepts u) → ∀ u ⊆ d.alphabet, ¬ d.quotientAccepts u) := by
  rcases d.search_cases with ⟨hempty, hnone, hrejects⟩ | ⟨v, hempty, hsome, hleast, -⟩
  · constructor
    · intro h
      constructor
      · intro v hv
        exact absurd hv.accepts (hrejects v hv.subset)
      · intro _ u hu hacc
        exact h.isEmpty_iff.mp hempty ⟨u, hu, (d.machineAccepts_iff hu).mpr hacc⟩
    · rintro ⟨-, hquotient⟩
      have hmachine : ¬ ∃ u, u ⊆ d.alphabet ∧ d.MachineAccepts u := by
        rintro ⟨u, hu, hacc⟩
        exact hquotient hrejects u hu ((d.machineAccepts_iff hu).mp hacc)
      exact ⟨iff_of_true hempty hmachine, by simp [hnone]⟩
  · constructor
    · intro h
      constructor
      · intro u hu
        obtain rfl := hu.eq hleast
        exact (d.machineAccepts_iff hu.subset).mp (h.shortest u hsome)
      · intro hrejects
        exact absurd hleast.accepts (hrejects v hleast.subset)
    · rintro ⟨hquotient, -⟩
      have hacc := (d.machineAccepts_iff hleast.subset).mpr (hquotient v hleast)
      have hmachine : ∃ u, u ⊆ d.alphabet ∧ d.MachineAccepts u := ⟨v, hleast.subset, hacc⟩
      refine ⟨iff_of_false hempty (not_not_intro hmachine), ?_⟩
      intro w hw
      obtain rfl := Option.some.inj (hsome.symm.trans hw)
      exact hacc

/-- Where every reachable state is the representative of its text, search and machine agree. -/
theorem emptinessAgrees_of_representatives
    (h : ∀ w ⊆ d.alphabet, ∀ q, d.run? d.start w = some q → d.IsRepresentative q) :
    d.EmptinessAgrees := by
  have hsame : ∀ u ⊆ d.alphabet, d.quotientAccepts u = d.accepts u := by
    intro u hu
    apply Dfa.quotientAccepts_eq
    intro v hv q hq
    exact h v (fun a ha => hu (hv.subset ha)) q hq
  rw [emptinessAgrees_iff_quotient]
  constructor
  · intro v hv
    rw [hsame v hv.subset]
    exact hv.accepts
  · intro hrejects u hu
    rw [hsame u hu]
    exact hrejects u hu

section OneAccepting

variable {q : S} (h : ∀ p ∈ [q], p ∈ d.states)

omit [Shown S] [Shown A] in
theorem accepts_withAccept (w : List A) :
    (d.withAccept [q] h).accepts w ↔ d.run? d.start w = some q := by
  rw [Dfa.accepts_iff]
  change (∃ p, d.run? d.start w = some p ∧ decide (p ∈ [q])) ↔ _
  simp

omit [Shown A] in
theorem quotientAccepts_withAccept (w : List A) :
    (d.withAccept [q] h).quotientAccepts w ↔
      (d.quotientRun? (shown d.start) w).bind d.representative? = some q := by
  change ((d.quotientRun? (shown d.start) w).bind d.representative?).any
    (fun p => decide (p ∈ [q])) ↔ _
  rw [Option.any_eq_true]
  simp

end OneAccepting

/-- If a state that a word reaches is not the representative of its text, the two part once that
state is the only accepting one. -/
theorem isRepresentative_of_agrees
    (h : ∀ accept, (hsub : ∀ q ∈ accept, q ∈ d.states) → (d.withAccept accept hsub).EmptinessAgrees)
    {w : List A} (hw : w ⊆ d.alphabet) {q : S} (hq : d.run? d.start w = some q) :
    d.IsRepresentative q := by
  -- a least word to `q` is no longer than `w`, so the states on its way are representatives
  induction hlen : w.length using Nat.strong_induction_on generalizing w q with
  | _ n ih =>
    have hmem := d.wellFormed.run?_mem hw d.wellFormed.start_mem hq
    have hsub : ∀ p ∈ [q], p ∈ d.states := by simpa using hmem
    have hwacc := (d.accepts_withAccept hsub w).mpr hq
    rcases (d.withAccept [q] hsub).search_cases with ⟨-, -, hrejects⟩ | ⟨v, -, hsome, hleast, -⟩
    · exact absurd hwacc (hrejects w hw)
    · have hshort := Dfa.length_le_of_rank_le (hleast.rank_le w hw hwacc)
      have hv := (d.accepts_withAccept hsub v).mp hleast.accepts
      have hrun : d.quotientRun? (shown d.start) v = (d.run? d.start v).map shown := by
        apply Dfa.quotientRun?_eq
        intro u hu hlt r hr
        exact ih u.length (by omega) (fun a ha => hleast.subset (hu.subset ha)) hr rfl
      have hmachine := (h [q] hsub).shortest v hsome
      rw [machineAccepts_iff _ hleast.subset, quotientAccepts_withAccept, hrun, hv] at hmachine
      exact hmachine

/-- When search and machine agree: of one automaton, and of one table with all choices of
accepting states. -/
theorem emptinessAgrees_iff :
    (d.EmptinessAgrees ↔
      (∀ v, d.IsLeastAccepted v → d.quotientAccepts v) ∧
        ((∀ u ⊆ d.alphabet, ¬ d.accepts u) → ∀ u ⊆ d.alphabet, ¬ d.quotientAccepts u)) ∧
    ((∀ accept, (h : ∀ q ∈ accept, q ∈ d.states) → (d.withAccept accept h).EmptinessAgrees) ↔
      ∀ w ⊆ d.alphabet, ∀ q, d.run? d.start w = some q → d.IsRepresentative q) := by
  refine ⟨d.emptinessAgrees_iff_quotient, ?_, ?_⟩
  · intro h w hw q hq
    exact d.isRepresentative_of_agrees h hw hq
  · intro h accept hsub
    exact (d.withAccept accept hsub).emptinessAgrees_of_representatives h

/-- The search finds the empty word, which the machine rejects. -/
theorem twins_disagree :
    twins.shortestAccepted? = some [] ∧
      (∃ report, twins.compile.run [] 1 = .ok report ∧ report.verdict = .reject) ∧
      ¬ twins.EmptinessAgrees := by
  have hsearch : twins.shortestAccepted? = some [] := by decide
  have hrejects : ¬ twins.MachineAccepts [] := by
    rw [machineAccepts_iff twins (List.nil_subset _)]
    decide
  have hend := twins.decided_machineAfter (List.nil_subset twins.alphabet) (n := 1) (by decide)
  refine ⟨hsearch, ⟨_, twins.run_compile_eq (List.nil_subset _) 1, ?_⟩, ?_⟩
  · rw [hend.verdict_eq]
    decide
  · intro h
    exact hrejects (h.shortest [] hsearch)

end ValidDfa
end WordMachines
