import Mathlib.Tactic
import WordMachines.Proofs.Dfa.Draft
import WordMachines.Proofs.Dfa.Equality

/-!
# Drafts after any edits

A draft may be given a part as often as one likes; what it was given last counts. The table is the
exception, for it is not only given but also added to. What counts there is the table given last
with the transitions added since, or the transitions alone if no table was ever given.
-/

namespace WordMachines
namespace Draft

variable {S A : Type}

def lastEdit? (es : List (Edit S A)) (p : Part) : Option (Edit S A) :=
  (es.filter (·.part = p)).getLast?

/-- The transition that an edit adds. -/
def Edit.triple? : Edit S A → Option (S × A × S)
  | transition q a target => some (q, a, target)
  | _ => none

theorem lastEdit?_concat (es : List (Edit S A)) (e : Edit S A) (p : Part) :
    lastEdit? (es ++ [e]) p = if e.part = p then some e else lastEdit? es p := by
  by_cases h : e.part = p <;> simp [lastEdit?, h]

theorem forall_not_mem_concat {es : List (Edit S A)} {e : Edit S A}
    (hes : ∀ u, .transitions u ∉ es) (he : ∀ u, e ≠ .transitions u) (u : Table S A) :
    .transitions u ∉ es ++ [e] := by
  rw [List.mem_append, List.mem_singleton, not_or]
  exact ⟨hes u, (he u).symm⟩

variable [DecidableEq S] [DecidableEq A]

theorem ofEdits_concat (es : List (Edit S A)) (e : Edit S A) :
    ofEdits (es ++ [e]) = (ofEdits es).edit e := by
  simp [ofEdits]

theorem part?_edit_of_ne (d : Draft S A) {e : Edit S A} {p : Part} (h : e.part ≠ p) :
    (d.edit e).part? p = d.part? p := by
  cases e <;> cases p <;> first | rfl | exact absurd rfl h

theorem isSome_part?_ofEdits (es : List (Edit S A)) (p : Part) :
    ((ofEdits es).part? p).isSome ↔ p ∈ es.map Edit.part := by
  induction es using List.reverseRecOn with
  | nil => cases p <;> simp [ofEdits, part?]
  | append_singleton es e ih =>
    rw [ofEdits_concat, List.map_append, List.mem_append, List.map_singleton, List.mem_singleton]
    by_cases h : e.part = p
    · subst h
      cases e <;> simp [edit, part?, Edit.part]
    · rw [part?_edit_of_ne _ h, ih]
      simp [Ne.symm h]

theorem part?_ofEdits_eq_last {p : Part} (hp : p ≠ .transitions) (es : List (Edit S A)) :
    (ofEdits es).part? p = lastEdit? es p := by
  induction es using List.reverseRecOn with
  | nil => cases p <;> rfl
  | append_singleton es e ih =>
    rw [ofEdits_concat, lastEdit?_concat]
    by_cases h : e.part = p
    · have he : e.isWhole := by
        cases e <;> first | rfl | exact absurd h.symm hp
      rw [part?_edit _ he]
      simp [h]
    · rw [part?_edit_of_ne _ h, if_neg h, ih]

/-- The edits after the one that gives the table last make it into `t`; if none gives a table, they
all make the empty table into `t`. -/
inductive MakesTable : List (Edit S A) → Table S A → Prop
  | given (before : List (Edit S A)) (t : Table S A) {after : List (Edit S A)}
    (h : ∀ u, .transitions u ∉ after) :
    MakesTable (before ++ .transitions t :: after) (t.insertAll (after.filterMap Edit.triple?))
  | grown {es : List (Edit S A)} (h : ∀ u, .transitions u ∉ es) :
    MakesTable es (Table.insertAll ∅ (es.filterMap Edit.triple?))

theorem insertAll_concat (t : Table S A) (es : List (Edit S A)) (e : Edit S A) :
    t.insertAll ((es ++ [e]).filterMap Edit.triple?) =
      (t.insertAll (es.filterMap Edit.triple?)).insertAll e.triple?.toList := by
  rw [List.filterMap_append, Table.insertAll, List.foldl_append]
  cases e <;> rfl

theorem MakesTable.concat {es : List (Edit S A)} {t : Table S A} (h : MakesTable es t)
    {e : Edit S A} (he : ∀ u, e ≠ .transitions u) :
    MakesTable (es ++ [e]) (t.insertAll e.triple?.toList) := by
  cases h with
  | @given before t after hafter =>
    rw [← insertAll_concat, List.append_assoc, List.cons_append]
    exact .given before t (forall_not_mem_concat hafter he)
  | grown hes =>
    rw [← insertAll_concat]
    exact .grown (forall_not_mem_concat hes he)

theorem makesTable_ofEdits (es : List (Edit S A)) :
    MakesTable es ((ofEdits es).transitions.getD ∅) := by
  induction es using List.reverseRecOn with
  | nil => exact .grown nofun
  | append_singleton es e ih =>
    rw [ofEdits_concat]
    cases e with
    | transitions t => exact .given es t nofun
    | _ => exact ih.concat nofun

theorem ofEdits_swap (before after : List (Edit S A)) {e e' : Edit S A} (h : e.part ≠ e'.part) :
    ofEdits (before ++ e :: e' :: after) = ofEdits (before ++ e' :: e :: after) := by
  simp only [ofEdits, List.foldl_append, List.foldl_cons, edit_comm _ h]

/-- The drafts differ in nothing but the order in which their tables list the transitions. -/
structure Alike (d d' : Draft S A) : Prop where
  states : d.states = d'.states
  alphabet : d.alphabet = d'.alphabet
  transitions : d.transitions == d'.transitions
  start : d.start = d'.start
  accept : d.accept = d'.accept

/-- Both drafts lack the same part first, or they make equal automata. -/
def BuildAlike (d d' : Draft S A) : Prop :=
  (∃ p, d.build = .error p ∧ d'.build = .error p) ∨
    ∃ x x', d.build = .ok x ∧ d'.build = .ok x' ∧ x == x'

namespace Alike

variable {d d' : Draft S A}

theorem table (h : Alike d d') : d.transitions.getD ∅ == d'.transitions.getD ∅ := by
  have htables := h.transitions
  cases ht : d.transitions <;> cases ht' : d'.transitions <;> rw [ht, ht'] at htables
  · rfl
  · cases htables
  · cases htables
  · exact htables

theorem edit (h : Alike d d') (e : Edit S A) : Alike (d.edit e) (d'.edit e) := by
  cases e with
  | states qs => exact { h with states := rfl }
  | alphabet as => exact { h with alphabet := rfl }
  | transitions t => exact { h with transitions := t.beq_refl }
  | transition q a target => exact { h with transitions := Table.insert_beq h.table q a target }
  | start q => exact { h with start := rfl }
  | accept qs => exact { h with accept := rfl }

theorem foldl_edit (h : Alike d d') (es : List (Edit S A)) :
    Alike (es.foldl Draft.edit d) (es.foldl Draft.edit d') := by
  induction es generalizing d d' with
  | nil => exact h
  | cons e es ih => exact ih (h.edit e)

theorem buildAlike (h : Alike d d') : BuildAlike d d' := by
  obtain ⟨states, alphabet, transitions, start, accept⟩ := d
  obtain ⟨states', alphabet', transitions', start', accept'⟩ := d'
  obtain ⟨rfl, rfl, htables, rfl, rfl⟩ := h
  cases states with
  | none => exact .inl ⟨.states, rfl, rfl⟩
  | some states =>
  cases alphabet with
  | none => exact .inl ⟨.alphabet, rfl, rfl⟩
  | some alphabet =>
  cases transitions <;> cases transitions'
  case none.none => exact .inl ⟨.transitions, rfl, rfl⟩
  case none.some => cases htables
  case some.none => cases htables
  case some.some t t' =>
  cases start with
  | none => exact .inl ⟨.start, rfl, rfl⟩
  | some start =>
  cases accept with
  | none => exact .inl ⟨.accept, rfl, rfl⟩
  | some accept =>
  obtain ⟨hget, hempty⟩ := (Table.beq_iff t t').mp htables
  exact .inr ⟨_, _, rfl, rfl, (Dfa.beq_iff _ _).mpr ⟨⟨rfl, rfl, hget, rfl, rfl⟩, hempty⟩⟩

end Alike

theorem buildAlike_swap (before after : List (Edit S A)) {q q' : S} {a a' : A}
    (h : (q, a) ≠ (q', a')) (t t' : S) :
    BuildAlike (ofEdits (before ++ .transition q a t :: .transition q' a' t' :: after))
      (ofEdits (before ++ .transition q' a' t' :: .transition q a t :: after)) := by
  have hswapped : Alike (((ofEdits before).edit (.transition q a t)).edit (.transition q' a' t'))
      (((ofEdits before).edit (.transition q' a' t')).edit (.transition q a t)) :=
    ⟨rfl, rfl, Table.insert_insert_beq _ h t t', rfl, rfl⟩
  simp only [ofEdits, List.foldl_append, List.foldl_cons]
  exact (hswapped.foldl_edit after).buildAlike

theorem build_error_iff (es : List (Edit S A)) (p : Part) :
    (ofEdits es).build = .error p ↔ Part.all.find? (· ∉ es.map Edit.part) = some p := by
  have hnone (q : Part) : ((ofEdits es).part? q).isNone = decide (q ∉ es.map Edit.part) := by
    rw [Bool.eq_iff_iff, decide_eq_true_iff, ← isSome_part?_ofEdits]
    simp
  rw [build_eq_error_iff]
  simp only [hnone]

theorem exists_build_ok_iff (es : List (Edit S A)) :
    (∃ d, (ofEdits es).build = .ok d) ↔ ∀ p, p ∈ es.map Edit.part := by
  cases h : (ofEdits es).build with
  | error p =>
    have hmissing := List.find?_some ((build_error_iff es p).mp h)
    apply iff_of_false nofun
    intro hparts
    exact absurd (hparts p) (of_decide_eq_true hmissing)
  | ok d =>
    apply iff_of_true ⟨d, rfl⟩
    intro p
    rw [← isSome_part?_ofEdits, (build_eq_ok_iff _ d).mp h]
    rfl

/-- What was given last counts, and for the table also the transitions added since. Edits of two
parts commute, and transitions of different pairs do so up to the order of the table. -/
theorem build_after_edits (es : List (Edit S A)) :
    ((∃ d, (ofEdits es).build = .ok d) ↔ ∀ p, p ∈ es.map Edit.part) ∧
      (∀ d, (ofEdits es).build = .ok d →
        (∀ p ≠ .transitions, lastEdit? es p = some (editTo d p)) ∧ MakesTable es d.transitions) ∧
      (∀ p, (ofEdits es).build = .error p ↔ Part.all.find? (· ∉ es.map Edit.part) = some p) ∧
      (∀ before after e e', es = before ++ e :: e' :: after → e.part ≠ e'.part →
        ofEdits es = ofEdits (before ++ e' :: e :: after)) ∧
      ∀ before after q a t q' a' t',
        es = before ++ .transition q a t :: .transition q' a' t' :: after → (q, a) ≠ (q', a') →
          BuildAlike (ofEdits es)
            (ofEdits (before ++ .transition q' a' t' :: .transition q a t :: after)) := by
  refine ⟨exists_build_ok_iff es, ?_, build_error_iff es, ?_, ?_⟩
  · intro d hd
    have hparts := (build_eq_ok_iff _ d).mp hd
    constructor
    · intro p hp
      rw [← part?_ofEdits_eq_last hp, hparts p]
    · have htable : (ofEdits es).transitions = some d.transitions := by
        simpa [part?, editTo] using hparts .transitions
      have hmakes := makesTable_ofEdits es
      rwa [htable] at hmakes
  · rintro before after e e' rfl h
    exact ofEdits_swap before after h
  · rintro before after q a t q' a' t' rfl h
    exact buildAlike_swap before after h t t'

/-- The first transition is thrown away with its table, and states and start are given again. -/
def revised : List (Edit UInt32 Char) :=
  [.start 1, .states [0], .transition 0 'a' 1, .alphabet ['a', 'b'],
    .transitions (.ofTriples [(1, 'a', 0)]), .transition 1 'b' 1, .transition 0 'b' 1,
    .states [0, 1], .accept [0], .start 0]

theorem revised_built :
    ∃ d, (ofEdits revised).build = .ok d ∧ d.states = [0, 1] ∧ d.start = 0 ∧
      MakesTable revised d.transitions ∧
      ofEdits revised = ofEdits (.states [0] :: .start 1 :: revised.drop 2) ∧
      BuildAlike (ofEdits revised) (ofEdits (revised.take 5 ++
        .transition 0 'b' 1 :: .transition 1 'b' 1 :: revised.drop 7)) := by
  obtain ⟨hbuilds, hparts, -, hcommute, hswap⟩ := build_after_edits revised
  have hgiven : ∀ p, p ∈ revised.map Edit.part := by
    intro p
    cases p <;> decide
  obtain ⟨d, hd⟩ := hbuilds.mpr hgiven
  obtain ⟨hlast, htable⟩ := hparts d hd
  have hstates : [0, 1] = d.states := Edit.states.inj (Option.some.inj (hlast .states nofun))
  have hstart : 0 = d.start := Edit.start.inj (Option.some.inj (hlast .start nofun))
  exact ⟨d, hd, hstates.symm, hstart.symm, htable, hcommute [] _ _ _ rfl nofun,
    hswap (revised.take 5) _ _ _ _ _ _ _ rfl (by decide)⟩

end Draft
end WordMachines
