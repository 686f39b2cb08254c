import Mathlib.Tactic
import WordMachines.Proofs.Dfa.Draft
import WordMachines.Dfa.Document
import WordMachines.Proofs.Dfa.Table

/-!
# Equal automata

Two automata with the same parts, whose tables give each pair the same target, are equal just if the
tables have the same empty rows. Of the ways to come by an automaton only reading a document leaves
empty rows, so that automata are told apart by more than their entries just if a document with an
empty row is among those read.
-/

namespace WordMachines

open Json

variable {S A : Type} [DecidableEq S] [DecidableEq A]

namespace Dfa

/-- All parts are the same, as far as the tables tell it by what they give each pair. -/
structure SameEntries (d e : Dfa S A) : Prop where
  states_eq : d.states = e.states
  alphabet_eq : d.alphabet = e.alphabet
  next?_eq : ∀ q a, d.next? q a = e.next? q a
  start_eq : d.start = e.start
  accept_eq : d.accept = e.accept

theorem beq_iff (d e : Dfa S A) :
    d == e ↔ SameEntries d e ∧ ∀ q, d.transitions.HasEmptyRow q ↔ e.transitions.HasEmptyRow q := by
  change (d.states == e.states && d.alphabet == e.alphabet && d.transitions == e.transitions &&
    d.start == e.start && d.accept == e.accept) = true ↔ _
  simp only [Bool.and_eq_true, beq_iff_eq, Table.beq_iff]
  constructor
  · rintro ⟨⟨⟨⟨hstates, halphabet⟩, hget, hrows⟩, hstart⟩, haccept⟩
    exact ⟨⟨hstates, halphabet, hget, hstart, haccept⟩, hrows⟩
  · rintro ⟨⟨hstates, halphabet, hget, hstart, haccept⟩, hrows⟩
    exact ⟨⟨⟨⟨hstates, halphabet⟩, hget, hrows⟩, hstart⟩, haccept⟩

end Dfa

section Origin

variable [Decode S] [Decode A]

/-- The tables that are made from triples or read from a document in `D`, and those that grow from
them by insertion. -/
inductive Table.From (D : Set (List Char)) : Table S A → Prop
  | triples (es : List (S × A × S)) : From D (ofTriples es)
  | document {text : List Char} {d : Dfa S A} (hD : text ∈ D) (h : Dfa.ofDocument text = .ok d) :
    From D d.transitions
  | insert {t : Table S A} (h : From D t) (q : S) (a : A) (target : S) :
    From D (t.insert q a target)

/-- The automata that are built from such tables or read from a document in `D`. -/
inductive Dfa.From (D : Set (List Char)) : Dfa S A → Prop
  | build {es : List (Draft.Edit S A)} {d : Dfa S A}
      (htables : ∀ t, .transitions t ∈ es → Table.From D t)
      (hbuild : (Draft.ofEdits es).build = .ok d) : From D d
  | document {text : List Char} {d : Dfa S A} (hD : text ∈ D) (h : ofDocument text = .ok d) :
    From D d

variable {D : Set (List Char)}

theorem Table.from_empty : (∅ : Table S A).From D := .triples []

theorem Draft.from_edit {draft : Draft S A} (hdraft : ∀ t ∈ draft.transitions, t.From D)
    {e : Edit S A} (he : ∀ t, e = .transitions t → t.From D) :
    ∀ t ∈ (draft.edit e).transitions, t.From D := by
  cases e with
  | transitions t =>
    rintro _ ⟨⟩
    exact he t rfl
  | transition q a target =>
    rintro _ ⟨⟩
    apply Table.From.insert
    cases h : draft.transitions with
    | none => exact Table.from_empty
    | some t => exact hdraft t h
  | _ => exact hdraft

theorem Draft.from_ofEdits {es : List (Edit S A)} (hes : ∀ t, .transitions t ∈ es → t.From D) :
    ∀ t ∈ (ofEdits es).transitions, t.From D := by
  induction es using List.reverseRecOn with
  | nil => exact nofun
  | append_singleton es e ih =>
    have hlast : (ofEdits (es ++ [e])) = (ofEdits es).edit e := by simp [ofEdits]
    rw [hlast]
    exact from_edit (ih fun t ht => hes t (by simp [ht])) fun t ht => hes t (by simp [ht])

/-- Only the table matters, since all other parts can be set as they are. -/
theorem Dfa.from_iff (d : Dfa S A) : d.From D ↔ d.transitions.From D := by
  constructor
  · rintro (⟨hes, hbuild⟩ | ⟨hD, h⟩)
    · have htable := (Draft.build_eq_ok_iff _ d).mp hbuild .transitions
      exact Draft.from_ofEdits hes _ (by simpa [Draft.part?, Draft.editTo] using htable)
    · exact .document hD h
  · intro h
    have htables : ∀ t, .transitions t ∈ Part.all.map (Draft.editTo d) → t.From D := by
      intro t ht
      obtain rfl : t = d.transitions := by simpa [Part.all, Draft.editTo] using ht
      exact h
    exact .build htables rfl

theorem Table.From.exists_document {t : Table S A} (h : t.From D) {q : S} (hq : t.HasEmptyRow q) :
    ∃ text ∈ D, ∃ d : Dfa S A, Dfa.ofDocument text = .ok d ∧ d.transitions.HasEmptyRow q := by
  induction h with
  | triples es => exact absurd hq (not_hasEmptyRow_ofTriples es q)
  | document hD h => exact ⟨_, hD, _, h, hq⟩
  | insert _ q' a target ih => exact ih ((hasEmptyRow_insert _ q' a target q).mp hq).2

/-- The same automaton without its empty rows. -/
def Dfa.withoutEmptyRows (d : Dfa S A) : Dfa S A :=
  { d with transitions := .ofTriples d.transitions.triples }

omit [Decode S] [Decode A] in
theorem Dfa.sameEntries_withoutEmptyRows (d : Dfa S A) : SameEntries d d.withoutEmptyRows :=
  ⟨rfl, rfl, fun q a => (Table.get?_ofTriples_triples d.transitions q a).symm, rfl, rfl⟩

theorem Dfa.extensional_of_no_empty_row
    (hD : ∀ text ∈ D, ∀ d : Dfa S A, ofDocument text = .ok d → ∀ q, ¬d.transitions.HasEmptyRow q)
    {d e : Dfa S A} (hd : d.From D) (he : e.From D) (h : SameEntries d e) : d == e := by
  have hnone {d : Dfa S A} (hd : d.From D) (q : S) : ¬d.transitions.HasEmptyRow q := by
    intro hq
    obtain ⟨text, hmem, d', hd', hq'⟩ := (d.from_iff.mp hd).exists_document hq
    exact hD text hmem d' hd' q hq'
  exact (d.beq_iff e).mpr ⟨h, fun q => iff_of_false (hnone hd q) (hnone he q)⟩

/-- Equal automata have the same parts and the same empty rows. So equality is extensional just
where no document gives an empty row, for nothing else leaves one. -/
theorem Dfa.equality_extensional_iff :
    (∀ d e : Dfa S A, d == e ↔
        SameEntries d e ∧ ∀ q, d.transitions.HasEmptyRow q ↔ e.transitions.HasEmptyRow q) ∧
      ∀ D : Set (List Char),
        (∀ d e : Dfa S A, d.From D → e.From D → SameEntries d e → d == e) ↔
          ∀ text ∈ D, ∀ d : Dfa S A, ofDocument text = .ok d →
            ∀ q, ¬d.transitions.HasEmptyRow q := by
  refine ⟨beq_iff, fun D => ⟨?_, fun hD _ _ => extensional_of_no_empty_row hD⟩⟩
  intro h text hD d hd q hq
  have hfrom : d.withoutEmptyRows.From D := (from_iff _).mpr (.triples _)
  have hequal := h d _ (.document hD hd) hfrom d.sameEntries_withoutEmptyRows
  have hrow := (((d.beq_iff _).mp hequal).2 q).mp hq
  exact Table.not_hasEmptyRow_ofTriples _ q hrow

end Origin

/-- An automaton with one state, no symbols and this table. -/
def singleStateDocument (table : List Char) : List Char :=
  writeObject [(writeText "states", writeList [writeText "q"]), (writeText "alphabet", writeList []),
    (writeText "transitions", table), (writeText "start_state", writeText "q"),
    (writeText "accept_states", writeList [writeText "q"])]

def singleState : Dfa Label Label where
  states := [⟨"q"⟩]
  alphabet := []
  transitions := ⟨⟨[(⟨"q"⟩, ∅)], by decide⟩⟩
  start := ⟨"q"⟩
  accept := [⟨"q"⟩]

/-- The document with an empty row and the one without any row give unequal automata. -/
theorem empty_row_told_apart :
    ∃ d e : Dfa Label Label,
      Dfa.ofDocument (singleStateDocument (writeObject [(writeText "q", writeObject [])])) = .ok d ∧
      Dfa.ofDocument (singleStateDocument (writeObject [])) = .ok e ∧
      d.From Set.univ ∧ e.From Set.univ ∧ d.SameEntries e ∧ ¬d == e := by
  have hrow : Dfa.ofDocument (singleStateDocument (writeObject [(writeText "q", writeObject [])])) =
      .ok singleState := rfl
  have hnone : Dfa.ofDocument (singleStateDocument (writeObject [])) =
      .ok singleState.withoutEmptyRows := rfl
  exact ⟨singleState, _, hrow, hnone, .document (Set.mem_univ _) hrow,
    .document (Set.mem_univ _) hnone, singleState.sameEntries_withoutEmptyRows, by decide⟩

end WordMachines
