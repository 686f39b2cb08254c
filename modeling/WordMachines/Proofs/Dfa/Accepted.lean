import Mathlib.Tactic
import WordMachines.Proofs.Dfa.Decoding
import WordMachines.Proofs.Dfa.LabelledDocument
import WordMachines.Proofs.Dfa.Presence

/-!
# The documents that are accepted

A text is accepted just if it is that of an object whose keys spell texts and give no part twice, or
of a list of as many items as there are parts, and the value for each part is read.
-/

namespace WordMachines

open Json

namespace Draft

variable {S A : Type} [DecidableEq S] [DecidableEq A] [Decode S] [Decode A] [Grammatical S]
  [Grammatical A]

/-- The values that a document has for the parts: the items of a list, in the order of the parts, or
the values of the known fields. -/
def valuesGiven (o : Tree .value) : List (Part × Tree .value) :=
  match o.bracket? with
  | some .list => Part.all.zip o.items
  | _ => given o.fields

/-- What a document has for a part: null if it has nothing. -/
def valueFor (o : Tree .value) (p : Part) : Tree .value := ((valuesGiven o).lookup p).getD .null

/-- A document before its values are looked at. -/
inductive LaidOut (o : Tree .value) : Prop
  | object (object : o.bracket? = some .object) (spelled : keysSpelled o.fields)
    (nodup : ((given o.fields).map Prod.fst).Nodup)
  | list (list : o.bracket? = some .list) (length : o.items.length = Part.all.length)

namespace LaidOut

variable {o : Tree .value}

theorem nodup (h : LaidOut o) : ((valuesGiven o).map Prod.fst).Nodup := by
  cases h with
  | object hobject _ hnodup => rwa [valuesGiven, hobject]
  | list hlist hlength =>
    rw [valuesGiven, hlist, List.map_fst_zip (by rw [hlength])]
    decide

theorem mem_valuesGiven (h : LaidOut o) {p : Part} {v : Tree .value}
    (hv : (p, v) ∈ valuesGiven o) : valueFor o p = v := by
  have hlookup := (FinMap.mem_entries_iff ⟨_, h.nodup⟩ p v).mp hv
  rw [valueFor]
  exact congrArg (Option.getD · .null) hlookup

end LaidOut

theorem edit?_eq (p : Part) (v : Tree .value) :
    (edit? (p, v) : Option (Edit S A)) = if v.isNull then none else gives? v p := by
  rw [← (decodes_part (S := S) (A := A) p).decodes.alone?_eq v]
  rfl

theorem not_isNull_of_edit? {p : Part} {v : Tree .value} {e : Edit S A}
    (h : edit? (p, v) = some e) : ¬v.isNull := by
  intro hnull
  rw [edit?_eq, if_pos hnull] at h
  cases h

theorem fits_of_edit? {p : Part} {v : Tree .value} {e : Edit S A} (h : edit? (p, v) = some e) :
    Fits S A (p, v) := by
  have hgives : givenPart? {} p v = some (({} : Draft S A).edit e) := by
    rw [edit?_eq] at h
    split_ifs at h with hnull
    rw [givenPart?, if_neg hnull, h]
    rfl
  exact fits_of_givenPart? hgives

theorem ofDocument_laidOut {o : Tree .value} (h : LaidOut o)
    (hfits : ∀ g ∈ valuesGiven o, Fits S A g) (before after : Space) :
    Dfa.ofDocument (o.padded before after) =
      (ofEdits ((valuesGiven o).filterMap edit?) : Draft S A).build.mapError .absent := by
  cases h with
  | object hobject hspelled hnodup =>
    rw [valuesGiven, hobject] at hfits ⊢
    exact ofDocument_object ⟨hobject, hnodup, hfits⟩ hspelled before after
  | list hlist hlength =>
    rw [valuesGiven, hlist] at hfits ⊢
    have hparts : (Part.all.zip o.items).map Prod.fst = Part.all := List.map_fst_zip hlength.ge
    have hitems : o.items = (Part.all.zip o.items).map Prod.snd :=
      (List.map_snd_zip hlength.le).symm
    have hread := read_list hlist hparts hitems hfits after.chars
    exact ofDocument_of_read (r := .ok _) hread

theorem laidOut_of_read {o : Tree .value} {rest left : List Char} {d : Draft S A}
    (h : read (o.text ++ rest) = .ok (d, left)) :
    LaidOut o ∧ ∀ g ∈ valuesGiven o, Fits S A g := by
  obtain ⟨c, tail, hc, hbegins⟩ := o.begins
  have hread := h
  unfold read at hread
  rw [o.dropSpace_text, hc] at hread
  split at hread
  · next heq =>
    have ho := hbegins.object (List.cons.inj heq).1
    obtain ⟨hdocument, hspelled⟩ := isDocument_of_read ho h
    refine ⟨.object ho hspelled hdocument.nodup, ?_⟩
    rw [valuesGiven, ho]
    exact hdocument.fits
  · next heq =>
    have ho := hbegins.list (List.cons.inj heq).1
    obtain ⟨cs, htext, hitems⟩ := readItems_list ho ({} : Draft S A) Part.all rest
    rw [hc, heq, List.cons.injEq] at htext
    rw [htext.2] at hread
    rw [hread, Except.toOption, eq_comm, Option.map_eq_some_iff] at hitems
    obtain ⟨d', hgiven, -⟩ := hitems
    obtain ⟨hlength, hfits⟩ := length_of_givenParts? hgiven
    refine ⟨.list ho hlength, ?_⟩
    rw [valuesGiven, ho]
    exact hfits
  · exact absurd hread (refuse_ne_ok _ _ _)

theorem ofDocument_eq_ok_iff {o : Tree .value} {before after : Space} {d : Dfa S A} :
    Dfa.ofDocument (o.padded before after) = .ok d ↔
      LaidOut o ∧ ∀ p, edit? (p, valueFor o p) = some (editTo d p) := by
  have hbuild (h : LaidOut o) (hfits : ∀ g ∈ valuesGiven o, Fits S A g) :
      Dfa.ofDocument (o.padded before after) = .ok d ↔
        ∀ p, edit? (p, valueFor o p) = some (editTo d p) := by
    rw [ofDocument_laidOut h hfits]
    simp only [valueFor, ← part?_ofEdits h.nodup, ← build_eq_ok_iff]
    cases (ofEdits ((valuesGiven o).filterMap edit?) : Draft S A).build <;> simp [Except.mapError]
  constructor
  · intro h
    obtain ⟨⟨draft, left⟩, hread, -⟩ := exists_of_bind_eq_ok h
    have hread := Dfa.eq_ok_of_mapError hread
    rw [Tree.padded, read_space] at hread
    obtain ⟨hlaid, hfits⟩ := laidOut_of_read hread
    exact ⟨hlaid, (hbuild hlaid hfits).mp h⟩
  · rintro ⟨hlaid, hparts⟩
    have hfits : ∀ g ∈ valuesGiven o, Fits S A g := by
      rintro ⟨p, v⟩ hg
      rw [← hlaid.mem_valuesGiven hg]
      exact fits_of_edit? (hparts p)
    exact (hbuild hlaid hfits).mpr hparts

theorem takesOnly_map {α β : Type} [DecidableEq α] [Decode α] [Grammatical α]
    {value : Reader β} (h : TakesOnly value IsValue) :
    TakesOnly (readMap value : Reader (FinMap α β)) IsValue := by
  intro cs m rest hm
  unfold readMap at hm
  split at hm
  · next hspace =>
    obtain ⟨v, hv⟩ := exists_value_of_readMembers (b := .object)
      (takesOnly_entry Grammatical.takes_key h FinMap.insert) hm
    exact v.isValue.of_dropSpace (hspace.trans hv)
  · exact absurd hm (refuse_ne_ok _ _ _)

theorem takesOnly_part (p : Part) : TakesOnly (readPart p : Reader (Edit S A)) IsValue := by
  cases p with
  | states => exact Grammatical.takes_value.list.map Edit.states
  | alphabet => exact Grammatical.takes_value.list.map Edit.alphabet
  | transitions =>
    have hrows := takesOnly_map (α := S) (takesOnly_map (α := A) (Grammatical.takes_value (α := S)))
    exact (hrows.map Table.mk).map Edit.transitions
  | start => exact Grammatical.takes_value.map Edit.start
  | accept => exact Grammatical.takes_value.list.map Edit.accept

theorem takesOnly_readValue (d : Draft S A) (p : Part) : TakesOnly (readValue d p) IsValue := by
  intro cs d' rest h
  obtain ⟨⟨e?, rest'⟩, hvalue, hend⟩ := exists_of_bind_eq_ok h
  have hrest : rest' = rest := by
    cases e? <;> cases hend <;> rfl
  exact hrest ▸ (takesOnly_part p).optional cs e? rest' hvalue

theorem takesOnly_readField (s : List Part × Draft S A) :
    TakesOnly (readField s) (IsMember .object) := by
  intro cs s' rest h
  obtain ⟨⟨name, rest₁⟩, hname, hfield⟩ := exists_of_bind_eq_ok h
  obtain ⟨_, ⟨ps, rfl⟩, rfl⟩ := takesOnly_keyText _ _ _ hname
  cases hpart : Part.ofName? name with
  | none =>
    simp only [hpart] at hfield
    obtain ⟨⟨_, rest₂⟩, hcolon, hrest⟩ := exists_of_bind_eq_ok hfield
    obtain ⟨⟨_, rest₃⟩, hskip, hend⟩ := exists_of_bind_eq_ok hrest
    cases hend
    exact exists_isMember_of_readColon hcolon (takesOnly_skipValue _ _ _ hskip)
  | some p =>
    simp only [hpart] at hfield
    split_ifs at hfield
    · cases hfield
    · obtain ⟨⟨_, rest₂⟩, hcolon, hrest⟩ := exists_of_bind_eq_ok hfield
      obtain ⟨⟨d, rest₃⟩, hread, hend⟩ := exists_of_bind_eq_ok hrest
      cases hend
      exact exists_isMember_of_readColon hcolon (takesOnly_readValue _ _ _ _ _ hread)

theorem closesWith_of_readItems {parts : List Part} {i : ℕ} {d d' : Draft S A}
    {cs rest : List Char} (h : readItems (i + 1) d parts cs = .ok (d', rest)) :
    ClosesWith .list cs rest := by
  induction parts generalizing i d cs with
  | nil =>
    obtain ⟨after, hcs⟩ := exists_space cs
    unfold readItems at h
    split at h
    · cases h
    · next hspace =>
      cases h
      exact ⟨after, Or.inl (hspace ▸ hcs)⟩
    · cases h
  | cons p parts ih =>
    obtain ⟨after, hcs⟩ := exists_space cs
    unfold readItems at h
    split at h
    · cases h
    · next c tail hspace =>
      rw [hspace] at hcs
      split_ifs at h with hclose hzero hcomma
      · exact hzero.elim
      · split at h
        · cases h
        · obtain ⟨⟨d₁, middle⟩, hvalue, hmore⟩ := exists_of_bind_eq_ok h
          obtain ⟨taken, htaken, hdrop⟩ := takesOnly_readValue _ _ _ _ _ hvalue
          obtain ⟨ms, rfl⟩ := htaken.isMember.exists_members hdrop (ih hmore)
          exact ⟨after, Or.inr ⟨ms, hcomma ▸ hcs⟩⟩

theorem exists_value_of_readItems {d d' : Draft S A} {p : Part} {parts : List Part}
    {cs rest : List Char} (h : readItems 0 d (p :: parts) cs = .ok (d', rest)) :
    ∃ v : Tree .value, '[' :: cs = v.text ++ rest := by
  unfold readItems at h
  split at h
  · cases h
  · next c tail hspace =>
    rw [if_pos rfl] at h
    split_ifs at h
    · obtain ⟨⟨d₁, middle⟩, hvalue, hmore⟩ := exists_of_bind_eq_ok h
      obtain ⟨taken, htaken, hdrop⟩ := takesOnly_readValue _ _ _ _ _ hvalue
      obtain ⟨ms, rfl⟩ := htaken.isMember.exists_members (hspace.trans hdrop)
        (closesWith_of_readItems hmore)
      exact ⟨.bracket .list ms, by simp [Tree.text, Bracket.opening]⟩

theorem takesOnly_read : TakesOnly (read : Reader (Draft S A)) IsValue := by
  intro cs d rest h
  unfold read at h
  split at h
  · next hspace =>
    obtain ⟨⟨s, rest'⟩, hmembers, hend⟩ := exists_of_bind_eq_ok h
    cases hend
    obtain ⟨v, hv⟩ := exists_value_of_readMembers (b := .object) takesOnly_readField hmembers
    exact v.isValue.of_dropSpace (hspace.trans hv)
  · next hspace =>
    obtain ⟨v, hv⟩ := exists_value_of_readItems h
    exact v.isValue.of_dropSpace (hspace.trans hv)
  · exact absurd h (refuse_ne_ok _ _ _)

/-- Every text that is accepted is the text of a value of the grammar. -/
theorem exists_padded_of_ofDocument {text : List Char} {d : Dfa S A}
    (h : Dfa.ofDocument text = .ok d) :
    ∃ (o : Tree .value) (before after : Space), text = o.padded before after := by
  obtain ⟨⟨draft, rest⟩, hread, hbuild⟩ := exists_of_bind_eq_ok h
  obtain ⟨_, ⟨before, o, rfl⟩, rfl⟩ := takesOnly_read _ _ _ (Dfa.eq_ok_of_mapError hread)
  obtain ⟨_, -, hfinish⟩ := exists_of_bind_eq_ok hbuild
  obtain ⟨_, hend, -⟩ := exists_of_bind_eq_ok hfinish
  obtain ⟨after, rfl⟩ := exists_space_of_finish (Dfa.eq_ok_of_mapError hend)
  exact ⟨o, before, after, by simp [Tree.padded]⟩

end Draft
end WordMachines
