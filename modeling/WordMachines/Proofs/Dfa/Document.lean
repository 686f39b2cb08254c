import Mathlib.Tactic
import WordMachines.Dfa.Document
import WordMachines.Proofs.Dfa.Draft
import WordMachines.Proofs.FinMap
import WordMachines.Proofs.Json.Identifier

/-!
# Automata survive their documents

The document of an automaton is read as that automaton, valid or not, and with the rows and entries
of its table in the order in which they are written. In whatever order that is, the result is equal
to the automaton for `==`.
-/

namespace WordMachines

open Json

namespace Draft

theorem roundTrips_map {α β : Type} [DecidableEq α] [Encode α] [Decode α] [Faithful α]
    {value : Reader β} {write : β → List Char} (h : RoundTrips value write) :
    RoundTrips (readMap value) fun m : FinMap α β =>
      writeObject (m.entries.map fun e => (Encode.writeKey e.1, write e.2)) where
  opens _ := opens_writeObject _
  reads m := by
    intro rest _
    have hentry (m : FinMap α β) (e : α × β) :
        Reads (readEntry Decode.readKey value FinMap.insert m)
          (Encode.writeKey e.1 ++ ':' :: write e.2) (m.insert e.1 e.2) :=
      reads_entry Faithful.key h FinMap.insert m e.1 e.2
    have hopens (e : α × β) : Opens (Encode.writeKey e.1 ++ ':' :: write e.2) :=
      (Faithful.key.opens e.1).append _
    have hturn := ReadsInTurn.foldl hopens hentry m.entries ∅
    have hm : m.entries.foldl (fun m e => m.insert e.1 e.2) ∅ = m := m.ofList_entries
    rw [hm] at hturn
    have hmembers := readMembers_writeJoined .object .none hturn rest
    rw [writeObject, List.map_map, List.cons_append, List.append_assoc]
    exact hmembers

section Fields

variable {S A : Type} [DecidableEq S] [DecidableEq A] [Decode S] [Decode A] {value : List Char}
  {p : Part} {e? : Option (Edit S A)} (hvalue : Reads (readOptional (readPart p)) value e?)
include hvalue

theorem reads_value (draft : Draft S A) :
    Reads (readValue draft p) value (e?.elim draft draft.edit) := by
  intro rest hrest
  rw [readValue, bind_eq (hvalue rest hrest)]
  cases e? <;> rfl

/-- A field whose part has not been named before. -/
theorem reads_field {key : List Char} {name : String} {seen : List Part}
    (hkey : Reads readKeyText key name) (hname : Part.ofName? name = some p) (hp : p ∉ seen)
    (after : Space) (draft : Draft S A) :
    Reads (readField (seen, draft)) (key ++ (after.chars ++ ':' :: value))
      (p :: seen, e?.elim draft draft.edit) := by
  intro rest hrest
  have hcolon := readColon_space after (value ++ rest)
  have hends := (endsNumber_colon (value ++ rest)).space after
  rw [List.append_assoc, List.append_assoc, List.cons_append, readField, bind_eq (hkey _ hends)]
  simp only [hname, if_neg hp]
  rw [bind_eq hcolon, bind_eq (reads_value hvalue draft rest hrest)]
  rfl

end Fields

section Parts

theorem opens_writePart {S A : Type} [Encode S] [Decode S] [Faithful S] [Encode A] (d : Dfa S A)
    (p : Part) : Opens (writePart d p) := by
  cases p with
  | states => exact opens_writeList _
  | alphabet => exact opens_writeList _
  | transitions => exact opens_writeObject _
  | start => exact Faithful.value.opens _
  | accept => exact opens_writeList _

variable {S A : Type} [DecidableEq S] [DecidableEq A] [Encode S] [Decode S] [Faithful S]
  [Encode A] [Decode A] [Faithful A]

theorem roundTrips_table : RoundTrips readTable (writeTable : Table S A → List Char) where
  opens _ := opens_writeObject _
  reads t := ((roundTrips_map (roundTrips_map Faithful.value)).reads t.rows).map Table.mk

theorem reads_part (d : Dfa S A) (p : Part) : Reads (readPart p) (writePart d p) (editTo d p) := by
  cases p with
  | states => exact (Faithful.value.list.reads d.states).map Edit.states
  | alphabet => exact (Faithful.value.list.reads d.alphabet).map Edit.alphabet
  | transitions => exact (roundTrips_table.reads d.transitions).map Edit.transitions
  | start => exact (Faithful.value.reads d.start).map Edit.start
  | accept => exact (Faithful.value.list.reads d.accept).map Edit.accept

theorem ofName?_name (p : Part) : Part.ofName? p.name = some p := by
  cases p <;> decide

def fieldText (d : Dfa S A) (p : Part) : List Char := writeText p.name ++ ':' :: writePart d p

theorem reads_fieldText (d : Dfa S A) {p : Part} {seen : List Part} (hp : p ∉ seen)
    (draft : Draft S A) :
    Reads (readField (seen, draft)) (fieldText d p) (p :: seen, draft.edit (editTo d p)) :=
  reads_field ((reads_part d p).optional (opens_writePart d p)) (roundTrips_keyText.reads p.name)
    (ofName?_name p) hp .none draft

/-- No field repeats one before it. -/
theorem readsInTurn_fields (d : Dfa S A) {parts seen : List Part}
    (h : (parts.reverse ++ seen).Nodup) (draft : Draft S A) :
    ReadsInTurn readField (seen, draft) (parts.map (fieldText d))
      (.ok (parts.reverse ++ seen,
        parts.foldl (fun draft p => draft.edit (editTo d p)) draft)) := by
  induction parts generalizing seen draft with
  | nil => exact .nil _
  | cons p parts ih =>
    rw [List.reverse_cons, List.append_assoc, List.singleton_append] at h ⊢
    have hp : p ∉ seen := (List.nodup_cons.mp (List.nodup_append.mp h).2.1).1
    exact .cons ((reads_fieldText d hp draft).takes ((opens_writeText p.name).append _)) (ih h _)

theorem read_document (d : Dfa S A) :
    read d.document = .ok (⟨some d.states, some d.alphabet, some d.transitions, some d.start,
      some d.accept⟩, []) := by
  have hnodup : (Part.all.reverse ++ []).Nodup := by decide
  have hfields := readsInTurn_fields d hnodup {}
  have hmembers : readMembers '}' readField ([], {})
      (writeJoined (Part.all.map (fieldText d)) ++ ['}']) = .ok (_, []) :=
    readMembers_writeJoined .object .none hfields []
  change (readMembers '}' readField ([], {})
    (writeJoined (Part.all.map (fieldText d)) ++ ['}']) >>= fun r => .ok (r.1.2, r.2)) = _
  rw [hmembers]
  rfl

end Parts

end Draft

theorem exists_mem_right {α β : Type} {R : α → β → Prop} {xs : List α} {ys : List β}
    (h : List.Forall₂ R xs ys) {x : α} (hx : x ∈ xs) : ∃ y ∈ ys, R x y := by
  induction h with
  | nil => contradiction
  | cons hxy _ ih =>
    rcases List.mem_cons.mp hx with rfl | hx
    · exact ⟨_, List.mem_cons_self, hxy⟩
    · obtain ⟨y, hy, hR⟩ := ih hx
      exact ⟨y, List.mem_cons_of_mem _ hy, hR⟩

namespace FinMap

variable {α β : Type} {R : β → β → Prop} {m n : FinMap α β}

/-- The keys of `n` are those of `m` in some order, and their values are related by `R`. -/
def Reordered (R : β → β → Prop) (m n : FinMap α β) : Prop :=
  ∃ es, m.entries.Perm es ∧ List.Forall₂ (fun e f => e.1 = f.1 ∧ R e.2 f.2) es n.entries

theorem Reordered.beq [DecidableEq α] [BEq β] (h : Reordered R m n)
    (hR : ∀ {x y}, R x y → x == y) : m == n := by
  obtain ⟨es, hperm, hes⟩ := h
  rw [beq_iff]
  intro k
  cases hm : m.get? k with
  | some x =>
    have hmem : (k, x) ∈ es := hperm.mem_iff.mp ((m.mem_entries_iff k x).mpr hm)
    obtain ⟨⟨_, y⟩, hy, rfl, hxy⟩ := exists_mem_right hes hmem
    rw [(n.mem_entries_iff _ y).mp hy]
    exact hR hxy
  | none =>
    cases hn : n.get? k with
    | none => rfl
    | some y =>
      obtain ⟨⟨_, x⟩, hx, rfl, -⟩ := exists_mem_right hes.flip ((n.mem_entries_iff k y).mpr hn)
      have hmx := (m.mem_entries_iff _ x).mp (hperm.mem_iff.mpr hx)
      rw [hm] at hmx
      contradiction

end FinMap

/-- The same rows in another order, and each with its entries in another order. -/
def Table.Reordered {S A : Type} (t u : Table S A) : Prop :=
  t.rows.Reordered (FinMap.Reordered Eq) u.rows

namespace Dfa

variable {S A : Type}

/-- All parts are the same, save that the table may have its rows and entries in another order. -/
structure Reordered (d e : Dfa S A) : Prop where
  states_eq : d.states = e.states
  alphabet_eq : d.alphabet = e.alphabet
  transitions : d.transitions.Reordered e.transitions
  start_eq : d.start = e.start
  accept_eq : d.accept = e.accept

variable [DecidableEq S] [DecidableEq A]

theorem Reordered.beq {d e : Dfa S A} (h : d.Reordered e) : d == e := by
  have htable : d.transitions == e.transitions :=
    h.transitions.beq fun hrow => hrow.beq fun htarget => beq_iff_eq.mpr htarget
  change (d.states == e.states && d.alphabet == e.alphabet && d.transitions == e.transitions &&
    d.start == e.start && d.accept == e.accept) = true
  rw [h.states_eq, h.alphabet_eq, htable, h.start_eq, h.accept_eq]
  simp only [BEq.rfl, Bool.and_true]

theorem ofDocument_document [Encode S] [Decode S] [Faithful S] [Encode A] [Decode A] [Faithful A]
    (d : Dfa S A) : ofDocument d.document = .ok d := by
  rw [ofDocument, Draft.read_document]
  rfl

/-- An automaton is read back from its document as it is written there, whatever the order of its
table. So the document of an automaton read from some text says the same as that text. -/
theorem document_roundTrip :
    (∀ d e : Dfa Label Label, e.Reordered d → ofDocument e.document = .ok e ∧ e == d) ∧
      (∀ d e : Dfa UInt32 Char, e.Reordered d → ofDocument e.document = .ok e ∧ e == d) ∧
      (∀ text (d : Dfa Label Label), ofDocument text = .ok d →
        ofDocument d.document = (ofDocument text : Except _ (Dfa Label Label))) ∧
      ∀ text (d : Dfa UInt32 Char), ofDocument text = .ok d →
        ofDocument d.document = (ofDocument text : Except _ (Dfa UInt32 Char)) := by
  refine ⟨?_, ?_, ?_, ?_⟩
  · intro d e h
    exact ⟨e.ofDocument_document, h.beq⟩
  · intro d e h
    exact ⟨e.ofDocument_document, h.beq⟩
  · intro text d h
    rw [h]
    exact d.ofDocument_document
  · intro text d h
    rw [h]
    exact d.ofDocument_document

def awkwardRow : FinMap Label Label := ⟨[(⟨"\n"⟩, ⟨"λ"⟩), (⟨"\x00"⟩, ⟨""⟩)], by decide⟩

def awkwardRowReversed : FinMap Label Label := ⟨[(⟨"\x00"⟩, ⟨""⟩), (⟨"\n"⟩, ⟨"λ"⟩)], by decide⟩

/-- Texts that need escapes, an empty one, a row that is empty and states that are not declared. -/
def awkward : Dfa Label Label where
  states := [⟨""⟩, ⟨"\"\\"⟩]
  alphabet := [⟨"\n"⟩, ⟨"\x00"⟩]
  transitions := ⟨⟨[(⟨""⟩, awkwardRow), (⟨"λ"⟩, ∅)], by decide⟩⟩
  start := ⟨"7"⟩
  accept := []

def awkwardReversed : Dfa Label Label :=
  { awkward with transitions := ⟨⟨[(⟨"λ"⟩, ∅), (⟨""⟩, awkwardRowReversed)], by decide⟩⟩ }

theorem awkward_roundTrip :
    awkwardReversed.Reordered awkward ∧ awkwardReversed.document ≠ awkward.document ∧
      (ofDocument awkwardReversed.document = .ok awkwardReversed ∧ awkwardReversed == awkward) ∧
      ofDocument ('\n' :: awkwardReversed.document) = .ok awkwardReversed ∧
      ofDocument awkwardReversed.document =
        (ofDocument ('\n' :: awkwardReversed.document) : Except _ (Dfa Label Label)) := by
  have hrow : FinMap.Reordered Eq awkwardRowReversed awkwardRow :=
    ⟨_, .swap _ _ _, .cons ⟨rfl, rfl⟩ (.cons ⟨rfl, rfl⟩ .nil)⟩
  have hempty : FinMap.Reordered Eq (∅ : FinMap Label Label) ∅ := ⟨[], .nil, .nil⟩
  have hreordered : awkwardReversed.Reordered awkward :=
    ⟨rfl, rfl, ⟨_, .swap _ _ _, .cons ⟨rfl, hrow⟩ (.cons ⟨rfl, hempty⟩ .nil)⟩, rfl, rfl⟩
  have hread := document_roundTrip.1 awkward awkwardReversed hreordered
  have hspace (text : List Char) :
      ofDocument ('\n' :: text) = (ofDocument text : Except _ (Dfa Label Label)) := rfl
  have hspaced := (hspace awkwardReversed.document).trans hread.1
  exact ⟨hreordered, by decide +kernel, hread, hspaced,
    document_roundTrip.2.2.1 ('\n' :: awkwardReversed.document) awkwardReversed hspaced⟩

end Dfa
end WordMachines
