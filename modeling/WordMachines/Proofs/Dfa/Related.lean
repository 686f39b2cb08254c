import Mathlib.Tactic
import WordMachines.Proofs.Dfa.Accepted

/-!
# Documents that differ in their values

Two documents are related if they give the same parts in the same order, each with values that stand
in the relation of that part. The second is accepted if the first is and each part still has a value
that is read.
-/

namespace WordMachines

namespace Json.Tree

variable {b : Bracket}

def ofMembers (m : Head b × Tree .value) : List (Head b × Tree .value) → Tree (.members b)
  | [] => .last m.1 .none m.2 .none
  | m' :: ms => .more m.1 .none m.2 .none (ofMembers m' ms)

variable (b) in
/-- The members between brackets. -/
def enclosed : List (Head b × Tree .value) → Tree .value
  | [] => .empty b .none
  | m :: ms => .bracket b (ofMembers m ms)

def ofFields (fs : Fields) : Tree .value :=
  enclosed .object (fs.map fun f => (.key .none f.1 .none, f.2))

def ofItems (vs : List (Tree .value)) : Tree .value := enclosed .list (vs.map (.item, ·))

theorem bracket?_enclosed (ms : List (Head b × Tree .value)) :
    (enclosed b ms).bracket? = some b := by
  cases ms <;> rfl

theorem fields_ofFields (fs : Fields) : (ofFields fs).fields = fs := by
  cases fs with
  | nil => rfl
  | cons f fs =>
    rw [ofFields, List.map_cons, enclosed, fields]
    induction fs generalizing f with
    | nil => rfl
    | cons g fs ih => exact congrArg (f :: ·) (ih g)

theorem items_ofItems (vs : List (Tree .value)) : (ofItems vs).items = vs := by
  cases vs with
  | nil => rfl
  | cons v vs =>
    rw [ofItems, List.map_cons, enclosed, items]
    induction vs generalizing v with
    | nil => rfl
    | cons w vs ih => exact congrArg (v :: ·) (ih w)

end Json.Tree

namespace Draft

open Json

variable {R : Part → Tree .value → Tree .value → Prop}

variable (R) in
/-- The same key, with related values if it is that of a part and else the same value. -/
def RelatedField (f g : List Piece × Tree .value) : Prop :=
  f.1 = g.1 ∧ match (spelled? f.1).bind Part.ofName? with
    | some p => R p f.2 g.2
    | none => f.2 = g.2

variable (R) in
/-- White space may differ in any way. -/
inductive Related (o o' : Tree .value) : Prop
  | object (object : o.bracket? = some .object) (object' : o'.bracket? = some .object)
    (fields : List.Forall₂ (RelatedField R) o.fields o'.fields)
  | list (list : o.bracket? = some .list) (list' : o'.bracket? = some .list)
    {vs vs' : Part → Tree .value} (items : o.items = Part.all.map vs)
    (items' : o'.items = Part.all.map vs') (values : ∀ p, R p (vs p) (vs' p))

variable (R) in
/-- Values for the same parts in the same order. -/
def RelatedValues : List (Part × Tree .value) → List (Part × Tree .value) → Prop :=
  List.Forall₂ fun g g' => g.1 = g'.1 ∧ R g.1 g.2 g'.2

namespace RelatedValues

variable {gs gs' : List (Part × Tree .value)} (h : RelatedValues R gs gs')
include h

theorem map_fst_eq : gs'.map Prod.fst = gs.map Prod.fst := by
  induction h with
  | nil => rfl
  | cons hg _ ih => simp [ih, hg.1]

theorem exists_lookup {p : Part} {v : Tree .value} (hv : gs.lookup p = some v) :
    ∃ w, gs'.lookup p = some w ∧ R p v w := by
  induction h with
  | nil => cases hv
  | @cons g g' gs gs' hg _ ih =>
    obtain ⟨q, x⟩ := g
    obtain ⟨q', y⟩ := g'
    obtain ⟨rfl, hvalue⟩ := hg
    by_cases hp : p = q
    · subst hp
      rw [List.lookup_cons_self, Option.some.injEq] at hv
      exact ⟨y, List.lookup_cons_self, hv ▸ hvalue⟩
    · rw [FinMap.lookup_cons_of_ne hp] at hv ⊢
      exact ih hv

end RelatedValues

section Fields

variable {fs fs' : Fields} (h : List.Forall₂ (RelatedField R) fs fs')
include h

theorem keysSpelled_of_related : keysSpelled fs' = keysSpelled fs := by
  induction h with
  | nil => rfl
  | cons hf _ ih =>
    simp only [keysSpelled, List.all_cons, hf.1] at ih ⊢
    rw [ih]

theorem relatedValues_given : RelatedValues R (given fs) (given fs') := by
  induction h with
  | nil => exact .nil
  | @cons f g fs fs' hfield _ ih =>
    obtain ⟨ps, v⟩ := f
    obtain ⟨ps', w⟩ := g
    obtain ⟨rfl, hvalue⟩ := hfield
    dsimp only at hvalue
    split at hvalue
    · next p hp =>
      rw [given_cons_of_some hp, given_cons_of_some hp]
      exact .cons ⟨rfl, hvalue⟩ ih
    · next hp =>
      rw [given_cons_of_none hp, given_cons_of_none hp]
      exact ih

end Fields

namespace Related

variable {o o' : Tree .value} (h : Related R o o')
include h

theorem relatedValues : RelatedValues R (valuesGiven o) (valuesGiven o') := by
  cases h with
  | object hobject hobject' hfields =>
    simp only [valuesGiven, hobject, hobject']
    exact relatedValues_given hfields
  | list hlist hlist' hitems hitems' hvalues =>
    simp only [valuesGiven, hlist, hlist', hitems, hitems', ← List.map_prod_left_eq_zip]
    rw [RelatedValues, List.forall₂_map_left_iff, List.forall₂_map_right_iff, List.forall₂_same]
    exact fun p _ => ⟨rfl, hvalues p⟩

theorem valueFor {p : Part} (hp : ¬(valueFor o p).isNull) :
    R p (Draft.valueFor o p) (Draft.valueFor o' p) := by
  cases hlookup : (valuesGiven o).lookup p with
  | none =>
    rw [Draft.valueFor, hlookup] at hp
    exact absurd rfl hp
  | some v =>
    obtain ⟨w, hw, hvalue⟩ := h.relatedValues.exists_lookup hlookup
    rw [Draft.valueFor, Draft.valueFor, hlookup, hw]
    exact hvalue

theorem laidOut (hlaid : LaidOut o) : LaidOut o' := by
  cases h with
  | object hobject hobject' hfields =>
    cases hlaid with
    | object _ hspelled hnodup =>
      refine .object hobject' ?_ ?_
      · rwa [keysSpelled_of_related hfields]
      · rwa [(relatedValues_given hfields).map_fst_eq]
    | list hlist => cases hobject.symm.trans hlist
  | list hlist hlist' hitems hitems' => exact .list hlist' (by simp [hitems'])

variable {S A : Type} [DecidableEq S] [DecidableEq A] [Decode S] [Decode A] [Grammatical S]
  [Grammatical A]

theorem ofDocument_eq_ok {before after : Space} {d d' : Dfa S A}
    (hd : Dfa.ofDocument (o.padded before after) = .ok d)
    (hedit : ∀ p, R p (Draft.valueFor o p) (Draft.valueFor o' p) →
      edit? (p, Draft.valueFor o' p) = some (editTo d' p)) (before' after' : Space) :
    Dfa.ofDocument (o'.padded before' after') = .ok d' := by
  obtain ⟨hlaid, hparts⟩ := ofDocument_eq_ok_iff.mp hd
  refine ofDocument_eq_ok_iff.mpr ⟨h.laidOut hlaid, ?_⟩
  intro p
  exact hedit p (h.valueFor (not_isNull_of_edit? (hparts p)))

end Related

theorem exists_relatedField (hR : ∀ p v, ∃ w, R p v w) (f : List Piece × Tree .value) :
    ∃ g, RelatedField R f g := by
  cases hpart : (spelled? f.1).bind Part.ofName? with
  | none => exact ⟨f, rfl, by rw [hpart]⟩
  | some p =>
    obtain ⟨w, hw⟩ := hR p f.2
    exact ⟨(f.1, w), rfl, by rw [hpart]; exact hw⟩

theorem LaidOut.items_eq {o : Tree .value} (h : LaidOut o) (hlist : o.bracket? = some .list)
    (hlength : o.items.length = Part.all.length) : o.items = Part.all.map (valueFor o) := by
  have hgiven : valuesGiven o = Part.all.zip o.items := by rw [valuesGiven, hlist]
  calc
    o.items = (valuesGiven o).map Prod.snd := by rw [hgiven, List.map_snd_zip hlength.le]
    _ = (valuesGiven o).map (valueFor o ∘ Prod.fst) :=
      List.map_congr_left fun g hg => (h.mem_valuesGiven hg).symm
    _ = Part.all.map (valueFor o) := by
      rw [← List.map_map, hgiven, List.map_fst_zip hlength.ge]

/-- Whatever the values of the parts are replaced by, there is a document in which they are. -/
theorem exists_related (hR : ∀ p v, ∃ w, R p v w) {o : Tree .value} (h : LaidOut o) :
    ∃ o', Related R o o' := by
  have hlaid := h
  cases h with
  | object hobject =>
    choose field hfield using exists_relatedField hR
    refine ⟨.ofFields (o.fields.map field), .object hobject (Tree.bracket?_enclosed _) ?_⟩
    rw [Tree.fields_ofFields, List.forall₂_map_right_iff, List.forall₂_same]
    exact fun f _ => hfield f
  | list hlist hlength =>
    choose value hvalue using hR
    exact ⟨.ofItems (Part.all.map fun p => value p (valueFor o p)), .list hlist
      (Tree.bracket?_enclosed _) (hlaid.items_eq hlist hlength) (Tree.items_ofItems _)
      fun p => hvalue p (valueFor o p)⟩

end Draft
end WordMachines
