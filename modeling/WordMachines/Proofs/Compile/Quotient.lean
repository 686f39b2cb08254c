import Mathlib.Tactic
import WordMachines.Proofs.Compile.Rules
import WordMachines.Proofs.Dfa.Runs

/-!
# Automata read by text

The quotient of an automaton has the texts of its states for states; a text moves and accepts as
its representative does. Where every state on the way is the representative of its text, the
quotient goes where the automaton goes; elsewhere it may part from it, as it does for `twins`.
-/

namespace WordMachines
namespace Dfa

variable {S A : Type} [DecidableEq S] [DecidableEq A] [Shown S] (d : Dfa S A)

def quotientNext? (t : String) (a : A) : Option String :=
  (d.representative? t).bind fun q => (d.next? q a).map shown

/-- The text that `w` leads to from `t`. -/
def quotientRun? (t : String) (w : List A) : Option String := w.foldlM d.quotientNext? t

def quotientAccepts (w : List A) : Bool :=
  ((d.quotientRun? (shown d.start) w).bind d.representative?).any d.isAccepting

/-- No state declared after `q` reads like `q`. -/
def IsRepresentative (q : S) : Prop := d.representative? (shown q) = some q

variable {d}

theorem quotientNext?_eq {t : String} {q : S} (hq : d.representative? t = some q) (a : A) :
    d.quotientNext? t a = (d.next? q a).map shown := by
  rw [quotientNext?, hq, Option.bind_some]

variable (d)

theorem quotientRun?_concat (t : String) (v : List A) (a : A) :
    d.quotientRun? t (v ++ [a]) = (d.quotientRun? t v).bind (d.quotientNext? · a) := by
  simp only [quotientRun?, List.foldlM_append, List.foldlM_cons, List.foldlM_nil, bind_pure]
  rfl

theorem quotientAccepts_iff {w : List A} {t : String} {q : S}
    (hrun : d.quotientRun? (shown d.start) w = some t) (hq : d.representative? t = some q) :
    d.quotientAccepts w = d.isAccepting q := by
  simp [quotientAccepts, hrun, hq]

variable {d}

/-- Over the alphabet the quotient never leaves the texts of the declared states. -/
theorem WellFormed.exists_quotientRun? (hd : d.WellFormed) {w : List A} (hw : w ⊆ d.alphabet) :
    ∃ q ∈ d.states, d.quotientRun? (shown d.start) w = some (shown q) := by
  induction w using List.reverseRecOn with
  | nil => exact ⟨d.start, hd.start_mem, rfl⟩
  | append_singleton v a ih =>
    obtain ⟨hv, ha⟩ := List.append_subset.mp hw
    obtain ⟨q, hq, hrun⟩ := ih hv
    obtain ⟨r, hr⟩ := d.exists_representative? hq
    obtain ⟨u, hu, hnext⟩ := hd.total r (d.representative?_eq_some hr).1 a (ha (by simp))
    refine ⟨u, hu, ?_⟩
    rw [quotientRun?_concat, hrun, Option.bind_some, quotientNext?_eq hr, hnext]
    rfl

/-- Only the states before the last symbol are left, so only they have to be representatives. -/
theorem quotientRun?_eq {w : List A}
    (h : ∀ v, v <+: w → v.length < w.length → ∀ q, d.run? d.start v = some q →
      d.IsRepresentative q) :
    d.quotientRun? (shown d.start) w = (d.run? d.start w).map shown := by
  induction w using List.reverseRecOn with
  | nil => rfl
  | append_singleton v a ih =>
    have hv : d.quotientRun? (shown d.start) v = (d.run? d.start v).map shown := by
      apply ih
      intro u hu hlen
      exact h u (hu.trans (List.prefix_append v [a])) (by simp; omega)
    rw [quotientRun?_concat, run?_concat, hv]
    cases hrun : d.run? d.start v with
    | none => rfl
    | some q =>
      have hq := h v (List.prefix_append v [a]) (by simp) q hrun
      exact quotientNext?_eq hq a

/-- Where every state met is the representative of its text, nothing is lost in the quotient. -/
theorem quotientAccepts_eq {w : List A}
    (h : ∀ v, v <+: w → ∀ q, d.run? d.start v = some q → d.IsRepresentative q) :
    d.quotientAccepts w = d.accepts w := by
  have hrun := quotientRun?_eq fun v hv _ => h v hv
  rw [quotientAccepts, accepts, hrun]
  cases hw : d.run? d.start w with
  | none => rfl
  | some q =>
    have hq : d.representative? (shown q) = some q := h w List.prefix_rfl q hw
    simp [hq]

section Distinct

variable (h : d.WellFormed) (hd : ∀ q ∈ d.states, ∀ r ∈ d.states, shown q = shown r → q = r)
  {w : List A} (hw : w ⊆ d.alphabet)
include h hd hw

theorem WellFormed.isRepresentative {q : S} (hq : d.run? d.start w = some q) :
    d.IsRepresentative q :=
  d.representative?_of_injective hd (h.run?_mem hw h.start_mem hq)

theorem WellFormed.quotientRun?_eq :
    d.quotientRun? (shown d.start) w = (d.run? d.start w).map shown := by
  apply Dfa.quotientRun?_eq
  intro v hv _ q hq
  exact h.isRepresentative hd (fun a ha => hw (hv.subset ha)) hq

theorem WellFormed.quotientAccepts_eq : d.quotientAccepts w = d.accepts w := by
  apply Dfa.quotientAccepts_eq
  intro v hv q hq
  exact h.isRepresentative hd (fun a ha => hw (hv.subset ha)) hq

end Distinct

end Dfa

/-- Numbers and texts side by side: the number 1 is not the text "1", but reads like it. -/
inductive Mixed
  | number (n : ℕ)
  | text (s : String)
  deriving DecidableEq

instance : Shown Mixed where
  shown
    | .number n => n.repr
    | .text s => s

/-- The number accepts every word; the text, which represents both, accepts none. -/
def twins : ValidDfa Mixed Char where
  states := [.number 1, .text "1"]
  alphabet := ['a']
  transitions := .ofTriples [(.number 1, 'a', .number 1), (.text "1", 'a', .text "1")]
  start := .number 1
  accept := [.number 1]
  wellFormed := (Dfa.firstDefect?_eq_none_iff _).mp (by decide +kernel)

end WordMachines
