import Mathlib.Tactic
import WordMachines.Dfa.Draft

/-!
# Drafts part by part

A draft is its five parts. Edits of different parts can be made in either order, so that edits of
which no two are of the same part make the same draft in every order. It can be built if every part
is there, and else it lacks the first part that is not.
-/

namespace WordMachines
namespace Draft

variable {S A : Type}

/-- The edit that gives a draft this part of `d`. -/
def editTo (d : Dfa S A) : Part → Edit S A
  | .states => .states d.states
  | .alphabet => .alphabet d.alphabet
  | .transitions => .transitions d.transitions
  | .start => .start d.start
  | .accept => .accept d.accept

/-- The edit that gives what the draft has for a part. -/
def part? (d : Draft S A) : Part → Option (Edit S A)
  | .states => d.states.map .states
  | .alphabet => d.alphabet.map .alphabet
  | .transitions => d.transitions.map .transitions
  | .start => d.start.map .start
  | .accept => d.accept.map .accept

namespace Edit

/-- The part that an edit changes. -/
def part : Edit S A → Part
  | states _ => .states
  | alphabet _ => .alphabet
  | transitions _ => .transitions
  | transition .. => .transitions
  | start _ => .start
  | accept _ => .accept

/-- Whether the part is given as a whole, whatever it was before. -/
def isWhole : Edit S A → Bool
  | transition .. => false
  | _ => true

end Edit

theorem ext_part? {d d' : Draft S A} (h : ∀ p, d.part? p = d'.part? p) : d = d' := by
  have hstates := h .states
  have halphabet := h .alphabet
  have htransitions := h .transitions
  have hstart := h .start
  have haccept := h .accept
  simp only [part?] at hstates halphabet htransitions hstart haccept
  cases d
  cases d'
  rw [mk.injEq]
  exact ⟨Option.map_injective (fun _ _ => Edit.states.inj) hstates,
    Option.map_injective (fun _ _ => Edit.alphabet.inj) halphabet,
    Option.map_injective (fun _ _ => Edit.transitions.inj) htransitions,
    Option.map_injective (fun _ _ => Edit.start.inj) hstart,
    Option.map_injective (fun _ _ => Edit.accept.inj) haccept⟩

theorem build_eq_ok_iff (d : Draft S A) (x : Dfa S A) :
    d.build = .ok x ↔ ∀ p, d.part? p = some (editTo x p) := by
  have hforall (P : Part → Prop) :
      (∀ p, P p) ↔ P .states ∧ P .alphabet ∧ P .transitions ∧ P .start ∧ P .accept := by
    constructor
    · intro h
      exact ⟨h _, h _, h _, h _, h _⟩
    · rintro ⟨hstates, halphabet, htransitions, hstart, haccept⟩ p
      cases p <;> assumption
  rw [hforall]
  cases x
  obtain ⟨_ | states, _ | alphabet, _ | transitions, _ | start, _ | accept⟩ := d <;>
    simp [build, part?, editTo]

theorem build_eq_error_iff (d : Draft S A) (p : Part) :
    d.build = .error p ↔ Part.all.find? (fun q => (d.part? q).isNone) = some p := by
  obtain ⟨_ | states, _ | alphabet, _ | transitions, _ | start, _ | accept⟩ := d <;>
    simp [build, Part.all, part?]

variable [DecidableEq S] [DecidableEq A]

theorem part?_edit (d : Draft S A) {e : Edit S A} (he : e.isWhole) (p : Part) :
    (d.edit e).part? p = if e.part = p then some e else d.part? p := by
  cases e <;> cases p <;> first | rfl | cases he

theorem edit_comm (d : Draft S A) {e e' : Edit S A} (h : e.part ≠ e'.part) :
    (d.edit e).edit e' = (d.edit e').edit e := by
  cases e <;> cases e' <;> first | rfl | exact absurd rfl h

theorem part?_foldl_edit {es : List (Edit S A)} (hwhole : ∀ e ∈ es, e.isWhole)
    (hnodup : (es.map Edit.part).Nodup) (d : Draft S A) (p : Part) :
    (es.foldl edit d).part? p = (es.find? (·.part = p)).or (d.part? p) := by
  induction es generalizing d with
  | nil => rfl
  | cons e es ih =>
    obtain ⟨he, hwhole⟩ := List.forall_mem_cons.mp hwhole
    rw [List.map_cons, List.nodup_cons] at hnodup
    rw [List.foldl_cons, ih hwhole hnodup.2, part?_edit d he, List.find?_cons]
    by_cases hp : e.part = p
    · have hlater : es.find? (·.part = p) = none := by
        rw [List.find?_eq_none]
        intro e' he' hp'
        exact hnodup.1 (List.mem_map.mpr ⟨e', he', (of_decide_eq_true hp').trans hp.symm⟩)
      simp [hp, hlater]
    · simp [hp]

/-- A part is what the only edit of it gives. -/
theorem part?_ofEdits_eq_some_iff {es : List (Edit S A)} (hwhole : ∀ e ∈ es, e.isWhole)
    (hnodup : (es.map Edit.part).Nodup) (p : Part) (e : Edit S A) :
    (ofEdits es).part? p = some e ↔ e ∈ es ∧ e.part = p := by
  have hnone : ({} : Draft S A).part? p = none := by cases p <;> rfl
  rw [ofEdits, part?_foldl_edit hwhole hnodup, hnone, Option.or_none]
  constructor
  · intro h
    exact ⟨List.mem_of_find?_eq_some h, by simpa using List.find?_some h⟩
  · rintro ⟨he, rfl⟩
    obtain ⟨e', he'⟩ : ∃ e', es.find? (·.part = e.part) = some e' := by
      rw [← Option.isSome_iff_exists, List.find?_isSome]
      exact ⟨e, he, by simp⟩
    have hpart : e'.part = e.part := by simpa using List.find?_some he'
    rw [he', List.inj_on_of_nodup_map hnodup (List.mem_of_find?_eq_some he') he hpart]

theorem ofEdits_perm {es es' : List (Edit S A)} (h : es.Perm es')
    (hnodup : (es.map Edit.part).Nodup) : ofEdits es = ofEdits es' := by
  apply h.foldl_eq'
  intro e he e' he' d
  by_cases hpart : e.part = e'.part
  · rw [List.inj_on_of_nodup_map hnodup he he' hpart]
  · exact edit_comm d hpart

end Draft
end WordMachines
