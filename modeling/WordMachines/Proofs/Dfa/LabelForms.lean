import Mathlib.Tactic
import WordMachines.CommandLine.Answer
import WordMachines.Proofs.Dfa.Related

/-!
# Labels as integers and as strings

A label may be written as an integer or as a string of its digits. A document in which some labels
are written the other way stands for the same automaton, so that every command answers to it alike.
-/

namespace WordMachines

open Json

/-- The same value, or an integer of 64 bits and a string of its digits. -/
inductive SameLabel : Tree .value → Tree .value → Prop
  | refl (v : Tree .value) : SameLabel v v
  | quote {k : ℤ} {n : NumberText} {ps : List Piece} (bounds : -2 ^ 63 ≤ k ∧ k < 2 ^ 64)
    (literal : n.text = intDigits k) (digits : spelled? ps = some (intText k)) :
    SameLabel (.scalar (.number n)) (.scalar (.string ps))
  | unquote {k : ℤ} {n : NumberText} {ps : List Piece} (bounds : -2 ^ 63 ≤ k ∧ k < 2 ^ 64)
    (literal : n.text = intDigits k) (digits : spelled? ps = some (intText k)) :
    SameLabel (.scalar (.string ps)) (.scalar (.number n))

theorem value?_eq_label? (v : Tree .value) : value? v = v.label? :=
  decodes_label.decodes.alone?_eq v

theorem label?_eq_of_digits {k : ℤ} {n : NumberText} {ps : List Piece}
    (hk : -2 ^ 63 ≤ k ∧ k < 2 ^ 64) (hn : n.text = intDigits k)
    (hps : spelled? ps = some (intText k)) :
    (Tree.scalar (.number n)).label? = (Tree.scalar (.string ps)).label? := by
  rw [Tree.label?, Tree.label?, NumberText.number?_eq_integer_iff.mpr ⟨hk, hn⟩, hps]
  rfl

/-- A number is read as a label just if it is an integer of 64 bits, and the label has its digits. -/
theorem value?_number_eq_some_iff {n : NumberText} {x : Label} :
    value? (.scalar (.number n)) = some x ↔
      ∃ k : ℤ, (-2 ^ 63 ≤ k ∧ k < 2 ^ 64) ∧ n.text = intDigits k ∧ x = ⟨intText k⟩ := by
  rw [value?_eq_label?, Tree.label?, Option.bind_eq_some_iff]
  constructor
  · rintro ⟨number, hnumber, hx⟩
    cases number with
    | integer k =>
      obtain ⟨hk, hn⟩ := NumberText.number?_eq_integer_iff.mp hnumber
      exact ⟨k, hk, hn, (Option.some.inj hx).symm⟩
    | real => cases hx
  · rintro ⟨k, hk, hn, rfl⟩
    exact ⟨_, NumberText.number?_eq_integer_iff.mpr ⟨hk, hn⟩, rfl⟩

namespace SameLabel

variable {v w : Tree .value} (h : SameLabel v w)
include h

theorem value?_eq : (value? v : Option Label) = value? w := by
  rw [value?_eq_label?, value?_eq_label?]
  cases h with
  | refl => rfl
  | quote hk hn hps => exact label?_eq_of_digits hk hn hps
  | unquote hk hn hps => exact (label?_eq_of_digits hk hn hps).symm

theorem isNull_eq : v.isNull = w.isNull := by
  cases h <;> rfl

end SameLabel

/-- The same value, or two lists whose items are related one by one. -/
def SameItems (R : Tree .value → Tree .value → Prop) (v w : Tree .value) : Prop :=
  v = w ∨ v.bracket? = some .list ∧ w.bracket? = some .list ∧ List.Forall₂ R v.items w.items

/-- The same value, or two objects with the same keys whose values are related one by one. -/
def SameFields (R : Tree .value → Tree .value → Prop) (v w : Tree .value) : Prop :=
  v = w ∨ v.bracket? = some .object ∧ w.bracket? = some .object ∧
    List.Forall₂ (fun f g => f.1 = g.1 ∧ R f.2 g.2) v.fields w.fields

theorem mapM_eq_of_forall₂ {ι κ α : Type} {R : ι → κ → Prop} {f : ι → Option α} {g : κ → Option α}
    {is : List ι} {js : List κ} (h : List.Forall₂ R is js) (hfg : ∀ i j, R i j → f i = g j) :
    is.mapM f = js.mapM g := by
  induction h with
  | nil => rfl
  | cons hij _ ih => rw [List.mapM_cons, List.mapM_cons, hfg _ _ hij, ih]

section Related

variable {R : Tree .value → Tree .value → Prop} {v w : Tree .value}

theorem isNull_eq_of_bracket? {b : Bracket} {P : Prop}
    (h : v = w ∨ v.bracket? = some b ∧ w.bracket? = some b ∧ P) : v.isNull = w.isNull := by
  have hfalse {v : Tree .value} (h : v.bracket? = some b) : v.isNull = false := by
    cases v with
    | scalar => cases h
    | _ => rfl
  obtain rfl | ⟨hv, hw, -⟩ := h
  · rfl
  · rw [hfalse hv, hfalse hw]

variable {α β : Type} {f : Tree .value → Option α} (hf : ∀ v w, R v w → f v = f w)
include hf

theorem SameItems.list?_eq (h : SameItems R v w) : v.list? f = w.list? f := by
  obtain rfl | ⟨hv, hw, hitems⟩ := h
  · rfl
  · rw [Tree.list?_of_list hv, Tree.list?_of_list hw]
    exact mapM_eq_of_forall₂ hitems hf

theorem SameFields.entries?_eq (h : SameFields R v w) (key : List Piece → Option β) :
    v.entries? key f = w.entries? key f := by
  obtain rfl | ⟨hv, hw, hfields⟩ := h
  · rfl
  · rw [Tree.entries?_of_object _ _ hv, Tree.entries?_of_object _ _ hw]
    apply mapM_eq_of_forall₂ hfields
    rintro ⟨ps, v⟩ ⟨_, w⟩ ⟨rfl, hvw⟩
    rw [hf v w hvw]

end Related

namespace Draft

/-- Two values for a part that differ in how labels are written. In a table these are the targets,
since keys are always strings. -/
def SamePart : Part → Tree .value → Tree .value → Prop
  | .states | .alphabet | .accept => SameItems SameLabel
  | .transitions => SameFields (SameFields SameLabel)
  | .start => SameLabel

namespace SamePart

variable {p : Part} {v w : Tree .value}

theorem gives?_eq (h : SamePart p v w) : (gives? v p : Option (Edit Label Label)) = gives? w p := by
  have hlabel (v w : Tree .value) (h : SameLabel v w) := h.value?_eq
  have hrow (v w : Tree .value) (h : SameFields SameLabel v w) :
      (map? value? v : Option (FinMap Label Label)) = map? value? w := by
    rw [map?, map?, SameFields.entries?_eq hlabel h]
  cases p with
  | transitions =>
    have hrows := SameFields.entries?_eq hrow h (key? (α := Label))
    simp only [gives?, table?, map?] at hrows ⊢
    rw [hrows]
  | start => exact congrArg (Option.map _) h.value?_eq
  | _ => exact congrArg (Option.map _) (SameItems.list?_eq hlabel h)

theorem isNull_eq (h : SamePart p v w) : v.isNull = w.isNull := by
  cases p with
  | start => exact SameLabel.isNull_eq h
  | _ => exact isNull_eq_of_bracket? h

theorem edit?_eq (h : SamePart p v w) :
    (edit? (p, v) : Option (Edit Label Label)) = edit? (p, w) := by
  rw [Draft.edit?_eq, Draft.edit?_eq, h.isNull_eq, h.gives?_eq]

end SamePart

/-- Two documents that differ in white space and in how labels are written. -/
def Relabelled : Tree .value → Tree .value → Prop := Related SamePart

theorem Relabelled.ofDocument_eq_ok {o o' : Tree .value} (h : Relabelled o o')
    {before after : Space} {d : Dfa Label Label}
    (hd : Dfa.ofDocument (o.padded before after) = .ok d) (before' after' : Space) :
    Dfa.ofDocument (o'.padded before' after') = .ok d := by
  refine Related.ofDocument_eq_ok h hd ?_ before' after'
  intro p hsame
  rw [← hsame.edit?_eq]
  exact (ofDocument_eq_ok_iff.mp hd).2 p

end Draft

namespace CommandLine

/-- The same task with another source for its automaton, if it has one. -/
def Task.on (s : Source) : Task → Task
  | .validate _ => .validate s
  | .empty _ => .empty s
  | .compile _ => .compile s
  | .run _ words bound mode => .run s words bound mode
  | .enumerate limit => .enumerate limit
  | .examples => .examples

theorem Task.answer_on_eq {s s' : Source} {input input' : String}
    (h : s'.load input' = s.load input) (task : Task) (wording : Wording) :
    (task.on s').answer wording input' = (task.on s).answer wording input := by
  have hvalid : s'.loadValid? input' = s.loadValid? input := by
    simp only [Source.loadValid?, h]
  cases task with
  | validate => simp only [on, answer, validateAnswer, h]
  | empty => simp only [on, answer, hvalid]
  | compile => simp only [on, answer, hvalid]
  | run => simp only [on, answer, hvalid]
  | _ => rfl

section Load

variable {text : List Char} {d : Dfa Label Label} (h : Dfa.ofDocument text = .ok d)
include h

theorem load_document (input : String) :
    Source.load input (.document (String.ofList text)) = .ok d := by
  simp [Source.load, h, Except.mapError]

theorem load_standardInput : Source.load (String.ofList text) .standardInput = .ok d := by
  simp [Source.load, h, Except.mapError]

end Load

end CommandLine

namespace Draft

open CommandLine Dfa

/-- However its labels are written, a document stands for one automaton, and each command answers to
it alike. -/
theorem labels_interchangeable (text : List Char) :
    (∀ d : Dfa Label Label, ofDocument text = .ok d →
      (∃ (o : Tree .value) (before after : Space), text = o.padded before after) ∧
      ∀ (o o' : Tree .value) (before after before' after' : Space),
        text = o.padded before after → Relabelled o o' →
        ofDocument (o'.padded before' after') = .ok d ∧
        ∀ (task : Task) (wording : Wording) (input : String),
          (task.on (.document (String.ofList (o'.padded before' after')))).answer wording input =
            (task.on (.document (String.ofList text))).answer wording input ∧
          (task.on .standardInput).answer wording (String.ofList (o'.padded before' after')) =
            (task.on .standardInput).answer wording (String.ofList text)) ∧
    (∀ labels : List Label, readWith (readList readLabel) text = .ok labels →
      (∃ (v : Tree .value) (before after : Space), text = v.padded before after) ∧
      ∀ (v v' : Tree .value) (before after before' after' : Space),
        text = v.padded before after → SameItems SameLabel v v' →
        readWith (readList readLabel) (v'.padded before' after') = .ok labels) ∧
    ∀ (n : NumberText) (x : Label), value? (.scalar (.number n)) = some x ↔
      ∃ k : ℤ, (-2 ^ 63 ≤ k ∧ k < 2 ^ 64) ∧ n.text = intDigits k ∧ x = ⟨intText k⟩ := by
  refine ⟨?_, ?_, fun _ _ => value?_number_eq_some_iff⟩
  · intro d hd
    refine ⟨exists_padded_of_ofDocument hd, ?_⟩
    rintro o o' before after before' after' rfl hsame
    have hd' := hsame.ofDocument_eq_ok hd before' after'
    refine ⟨hd', ?_⟩
    intro task wording input
    constructor
    · apply task.answer_on_eq
      rw [load_document hd', load_document hd]
    · apply task.answer_on_eq
      rw [load_standardInput hd', load_standardInput hd]
  · intro labels hlabels
    have hlist := (Grammatical.decodes_value (α := Label)).list
    refine ⟨(Grammatical.takes_value (α := Label)).list.exists_padded hlabels, ?_⟩
    rintro v v' before after before' after' rfl hsame
    have hitems := (hlist.readWith_eq_ok_iff before after v labels).mp hlabels
    rw [hsame.list?_eq fun _ _ h => h.value?_eq] at hitems
    exact (hlist.readWith_eq_ok_iff before' after' v' labels).mpr hitems

def greatest : NumberText :=
  ⟨false, ⟨"18446744073709551615".toList, by decide, by decide⟩, by decide, none, none⟩

def minusSeven : NumberText := ⟨true, ⟨['7'], by decide, by decide⟩, by decide, none, none⟩

def numbered (n : NumberText) : Tree .value := .scalar (.number n)

def named (text : String) : Tree .value := .scalar (.string (plainly text.toList))

def twoItems (v w : Tree .value) : Tree .value :=
  .bracket .list (.more .item .none v .none (.last .item blank w .none))

def oneField (key : String) (v : Tree .value) : Tree .value :=
  .bracket .object (.last (.key .none (plainly key.toList) .none) blank v .none)

/-- Two states, the first of which leads to the second. -/
def twoStates (q r : Tree .value) : Tree .value :=
  .bracket .object
    (.more (.key .none (plainly "states".toList) .none) .none (twoItems q r) .none <|
      .more (.key .none (plainly "alphabet".toList) .none) .none (twoItems r (named "a")) .none <|
      .more (.key .none (plainly "transitions".toList) .none) .none
        (oneField "18446744073709551615" (oneField "-7" r)) .none <|
      .more (.key .none (plainly "start_state".toList) .none) .none q .none <|
      .last (.key .none (plainly "accept_states".toList) .none) .none (twoItems r r) blank)

theorem sameItems_twoItems {v v' w w' : Tree .value} (hv : SameLabel v v') (hw : SameLabel w w') :
    SameItems SameLabel (twoItems v w) (twoItems v' w') :=
  Or.inr ⟨rfl, rfl, .cons hv (.cons hw .nil)⟩

theorem sameFields_oneField {R : Tree .value → Tree .value → Prop} {v v' : Tree .value}
    (key : String) (h : R v v') : SameFields R (oneField key v) (oneField key v') :=
  Or.inr ⟨rfl, rfl, .cons ⟨rfl, h⟩ .nil⟩

theorem relabelled_twoStates {q q' r r' : Tree .value} (hq : SameLabel q q')
    (hr : SameLabel r r') : Relabelled (twoStates q r) (twoStates q' r') := by
  have hrow := sameFields_oneField "-7" hr
  refine .object rfl rfl ?_
  exact .cons ⟨rfl, sameItems_twoItems hq hr⟩ <|
    .cons ⟨rfl, sameItems_twoItems hr (.refl _)⟩ <|
    .cons ⟨rfl, sameFields_oneField "18446744073709551615" hrow⟩ <|
    .cons ⟨rfl, hq⟩ <| .cons ⟨rfl, sameItems_twoItems hr hr⟩ .nil

theorem twoStates_interchangeable :
    let d : Dfa Label Label :=
      ⟨[⟨"18446744073709551615"⟩, ⟨"-7"⟩], [⟨"-7"⟩, ⟨"a"⟩],
        ⟨.ofList [(⟨"18446744073709551615"⟩, .ofList [(⟨"-7"⟩, ⟨"-7"⟩)])]⟩,
        ⟨"18446744073709551615"⟩, [⟨"-7"⟩, ⟨"-7"⟩]⟩
    let o := twoStates (numbered greatest) (named "-7")
    let o' := twoStates (named "18446744073709551615") (numbered minusSeven)
    ofDocument (o.padded .none blank) = .ok d ∧ Relabelled o o' ∧
      ofDocument (o'.padded blank .none) = .ok d ∧
      readWith (readList readLabel)
        ((twoItems (named "-7") (numbered greatest)).padded .none .none) =
          .ok [⟨"-7"⟩, ⟨"18446744073709551615"⟩] ∧
      readWith (readList readLabel)
        ((twoItems (numbered minusSeven) (named "18446744073709551615")).padded blank blank) =
          .ok [⟨"-7"⟩, ⟨"18446744073709551615"⟩] := by
  intro d o o'
  have hq : SameLabel (numbered greatest) (named "18446744073709551615") :=
    .quote (k := 18446744073709551615) (by decide) rfl rfl
  have hr : SameLabel (named "-7") (numbered minusSeven) := .unquote (k := -7) (by decide) rfl rfl
  have hd : ofDocument (o.padded .none blank) = .ok d := by
    have hparts : (given o.fields).map Prod.fst = Part.all := rfl
    refine ofDocument_eq_ok_iff.mpr ⟨.object rfl rfl ?_, ?_⟩
    · rw [hparts]
      decide
    · intro p
      cases p <;> rfl
  have hread : readWith (readList readLabel)
      ((twoItems (named "-7") (numbered greatest)).padded .none .none) =
        .ok [⟨"-7"⟩, ⟨"18446744073709551615"⟩] := by decide +kernel
  have hsame : Relabelled o o' := relabelled_twoStates hq hr
  have hdocument := (labels_interchangeable (o.padded .none blank)).1 d hd
  have hlist := (labels_interchangeable _).2.1 _ hread
  exact ⟨hd, hsame, (hdocument.2 o o' .none blank blank .none rfl hsame).1, hread,
    hlist.2 _ _ .none .none blank blank rfl (sameItems_twoItems hr hq)⟩

end Draft
end WordMachines
