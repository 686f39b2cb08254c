import Mathlib.Tactic
import WordMachines.Proofs.Dfa.Validation
import WordMachines.Proofs.Walk.Rounds
import WordMachines.Turing.Compile
import WordMachines.Turing.Machine

/-!
# The declared part of the table

Two automata that differ in table entries for undeclared states or symbols only are told apart by
no analysis: they are refused for the same problem or not at all, the walk goes the same way through
both, their programs are one, and they accept the same words over the alphabet. For the walk and for
runs this rests on validation: from declared states declared symbols lead to declared states.
-/

namespace WordMachines

theorem findSome?_congr {β γ : Type} {f g : β → Option γ} {xs : List β}
    (h : ∀ x ∈ xs, f x = g x) : xs.findSome? f = xs.findSome? g := by
  induction xs with
  | nil => rfl
  | cons x xs ih =>
    rw [List.findSome?_cons, List.findSome?_cons, h x List.mem_cons_self,
      ih fun y hy => h y (List.mem_cons_of_mem x hy)]

namespace Dfa

variable {S A : Type} [DecidableEq S] [DecidableEq A]

/-- All parts are the same, save table entries for undeclared states or symbols. -/
structure SameDeclared (d e : Dfa S A) : Prop where
  states_eq : d.states = e.states
  alphabet_eq : d.alphabet = e.alphabet
  start_eq : d.start = e.start
  accept_eq : d.accept = e.accept
  next?_eq : ∀ q ∈ e.states, ∀ a ∈ e.alphabet, d.next? q a = e.next? q a

namespace SameDeclared

variable {d e : Dfa S A} (h : SameDeclared d e)
include h

theorem isAccepting_eq : d.isAccepting = e.isAccepting := by
  funext q
  rw [isAccepting, h.accept_eq, isAccepting]

theorem transitionDefect?_eq [Shown S] [Shown A] {q : S} (hq : q ∈ e.states) {a : A}
    (ha : a ∈ e.alphabet) : d.transitionDefect? q a = e.transitionDefect? q a := by
  rw [transitionDefect?, h.next?_eq q hq a ha, h.states_eq, transitionDefect?]

theorem firstDefect?_eq [Shown S] [Shown A] : d.firstDefect? = e.firstDefect? := by
  have htable : (e.states.findSome? fun q => e.alphabet.findSome? (d.transitionDefect? q)) =
      e.states.findSome? fun q => e.alphabet.findSome? (e.transitionDefect? q) := by
    apply findSome?_congr
    intro q hq
    apply findSome?_congr
    intro a ha
    exact h.transitionDefect?_eq hq ha
  rw [firstDefect?, h.states_eq, h.alphabet_eq, h.start_eq, h.accept_eq, htable, firstDefect?]

theorem run?_eq (he : e.WellFormed) {w : List A} (hw : w ⊆ e.alphabet) {q : S}
    (hq : q ∈ e.states) : d.run? q w = e.run? q w := by
  induction w generalizing q with
  | nil => rfl
  | cons a w ih =>
    obtain ⟨ha, hw⟩ := List.cons_subset.mp hw
    obtain ⟨t, ht, hnext⟩ := he.total q hq a ha
    rw [run?_cons, run?_cons, h.next?_eq q hq a ha, hnext]
    exact ih hw ht

theorem accepts_eq (he : e.WellFormed) {w : List A} (hw : w ⊆ e.alphabet) :
    d.accepts w = e.accepts w := by
  rw [accepts, h.start_eq, h.run?_eq he hw he.start_mem, h.isAccepting_eq, accepts]

theorem visit?_eq {w : Walk S A} (hqueue : ∀ q ∈ w.queue, q ∈ e.states) :
    d.visit? w = e.visit? w := by
  unfold visit?
  cases hw : w.queue with
  | nil => rfl
  | cons q rest =>
    have hq : q ∈ e.states := hqueue q (by rw [hw]; exact List.mem_cons_self)
    simp only [h.alphabet_eq, Option.some.injEq, Prod.mk.injEq, true_and]
    apply List.foldl_ext
    intro w a ha
    rw [h.next?_eq q hq a ha]

variable {w : Walk S A} {done pending : List (Finding S A)}

theorem visit?_eq_of_underway (he : e.WellFormed) (hw : Underway e w done pending) :
    d.visit? w = e.visit? w := by
  apply h.visit?_eq
  intro q hq
  rw [hw.queue_eq] at hq
  obtain ⟨f, hf, rfl⟩ := List.mem_map.mp hq
  exact hw.state_mem he f (List.mem_append_right done hf)

theorem yielded_eq (he : e.WellFormed) (hw : Underway e w done pending) (n : ℕ) :
    d.yielded n w = e.yielded n w := by
  induction n generalizing w done pending with
  | zero => rfl
  | succ n ih =>
    rw [yielded, yielded, h.visit?_eq_of_underway he hw]
    cases pending with
    | nil => rw [hw.visit?_nil]
    | cons f rest =>
      obtain ⟨w', new, hvisit, hnext⟩ := hw.visit?_cons he
      rw [hvisit]
      exact congrArg (f.state :: ·) (ih hnext)

theorem firstAccepting?_eq (he : e.WellFormed) (hw : Underway e w done pending) (n : ℕ) :
    d.firstAccepting? n w = e.firstAccepting? n w := by
  induction n generalizing w done pending with
  | zero => rfl
  | succ n ih =>
    rw [firstAccepting?, firstAccepting?, h.visit?_eq_of_underway he hw, h.isAccepting_eq]
    cases pending with
    | nil => rw [hw.visit?_nil]
    | cons f rest =>
      obtain ⟨w', new, hvisit, hnext⟩ := hw.visit?_cons he
      rw [hvisit]
      simp only [ih hnext]

theorem declarations_eq [Shown S] : d.declarations = e.declarations := by
  rw [declarations, h.states_eq, h.alphabet_eq, declarations]

theorem ruleEdits_eq [Shown S] : d.ruleEdits = e.ruleEdits := by
  rw [ruleEdits, h.states_eq, h.alphabet_eq, ruleEdits]
  apply List.flatMap_congr
  intro q hq
  have hrules :
      e.alphabet.filterMap (d.symbolRule? q) = e.alphabet.filterMap (e.symbolRule? q) := by
    apply List.filterMap_congr
    intro a ha
    rw [symbolRule?, h.next?_eq q hq a ha, symbolRule?]
  rw [hrules, blankRule, h.isAccepting_eq, blankRule]

end SameDeclared
section Validated

variable [Shown S] [Shown A] {d e : Dfa S A}

/-- Table entries for undeclared states or symbols have no part in what validation says, nor in any
analysis, program or run of a validated automaton. -/
theorem undeclared_entries_ignored (h : SameDeclared d e) :
    d.firstDefect? = e.firstDefect? ∧
      ∀ v, d.validate = .ok v → ∃ u, e.validate = .ok u ∧
        v.isEmpty = u.isEmpty ∧ v.reachable = u.reachable ∧
        v.shortestAccepted? = u.shortestAccepted? ∧ v.compile = u.compile ∧
        (∀ w ⊆ u.alphabet, v.accepts w = u.accepts w) ∧
        ∀ w n, v.compile.run w n = u.compile.run w n := by
  refine ⟨h.firstDefect?_eq, ?_⟩
  intro v hv
  obtain rfl := (d.validate_eq_ok_iff v).mp hv
  have he : e.WellFormed := by
    rw [← firstDefect?_eq_none_iff, ← h.firstDefect?_eq, firstDefect?_eq_none_iff]
    exact v.wellFormed
  have hunderway := Underway.init e
  have hsearch : v.firstAccepting? v.states.length (.init v.start) =
      e.firstAccepting? e.states.length (.init e.start) := by
    rw [h.states_eq, h.start_eq]
    exact h.firstAccepting?_eq he hunderway _
  have hprogram : v.compile = ValidDfa.compile ⟨e, he⟩ := by
    rw [ValidDfa.compile, h.start_eq, h.declarations_eq, h.ruleEdits_eq, ValidDfa.compile]
  refine ⟨⟨e, he⟩, (e.validate_eq_ok_iff _).mpr rfl, ?_, ?_, ?_, hprogram, ?_, ?_⟩
  · rw [ValidDfa.isEmpty, hsearch, ValidDfa.isEmpty]
  · rw [ValidDfa.reachable, h.states_eq, h.start_eq]
    exact h.yielded_eq he hunderway _
  · rw [ValidDfa.shortestAccepted?, hsearch, ValidDfa.shortestAccepted?]
  · intro w hw
    exact h.accepts_eq he hw
  · intro w n
    rw [hprogram]

end Validated

/-- A row for a state that is not declared, and an entry for a foreign symbol that leads to it. -/
def cluttered : Dfa UInt32 Char where
  states := [0, 1]
  alphabet := ['a']
  transitions := .ofTriples [(0, 'a', 1), (1, 'a', 0), (0, 'z', 7), (7, 'a', 1)]
  start := 0
  accept := [1]

def tidy : Dfa UInt32 Char :=
  { cluttered with transitions := .ofTriples [(0, 'a', 1), (1, 'a', 0)] }

theorem cluttered_wellFormed : cluttered.WellFormed :=
  (firstDefect?_eq_none_iff _).mp (by decide +kernel)

theorem cluttered_like_tidy :
    SameDeclared cluttered tidy ∧ cluttered.next? 0 'z' ≠ tidy.next? 0 'z' ∧
      ∃ v u, cluttered.validate = .ok v ∧ tidy.validate = .ok u ∧ v.compile = u.compile ∧
        v.shortestAccepted? = u.shortestAccepted? ∧ u.shortestAccepted? = some ['a'] := by
  have hsame : SameDeclared cluttered tidy := by
    refine ⟨rfl, rfl, rfl, rfl, ?_⟩
    intro q hq a ha
    obtain rfl := List.mem_singleton.mp ha
    rcases List.mem_pair.mp hq with rfl | rfl <;> rfl
  have hvalid := (cluttered.validate_eq_ok_iff ⟨cluttered, cluttered_wellFormed⟩).mpr rfl
  obtain ⟨u, hu, -, -, hshortest, hprogram, -, -⟩ :=
    (undeclared_entries_ignored hsame).2 _ hvalid
  refine ⟨hsame, by decide +kernel, _, u, hvalid, hu, hprogram, hshortest, ?_⟩
  rw [← hshortest]
  decide +kernel

end Dfa
end WordMachines
