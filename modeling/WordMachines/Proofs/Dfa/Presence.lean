import Mathlib.Tactic
import WordMachines.Proofs.Dfa.Given

/-!
# Documents and drafts agree on what is there

Reading a document comes to the same as setting the parts that it gives, and not as null, in a draft
and building it: an automaton if all five are there, and else the first absent part is named. This
is so in whatever order the fields are, whatever unknown fields are among them, and for the list of
the five parts as for the object. Only, each key has to spell a text: with half of a surrogate pair
in a key the document is malformed.
-/

namespace WordMachines

open Json

namespace Draft

variable {S A : Type} [DecidableEq S] [DecidableEq A] [Decode S] [Decode A]

theorem part_of_readPart {p : Part} {cs rest : List Char} {e : Edit S A}
    (h : readPart p cs = .ok (e, rest)) : e.part = p ∧ e.isWhole := by
  cases p
  all_goals
    obtain ⟨⟨x, _⟩, -, hx⟩ := exists_of_bind_eq_ok h
    cases hx
    exact ⟨rfl, rfl⟩

theorem part_of_edit? {g : Part × Tree .value} {e : Edit S A} (h : edit? g = some e) :
    e.part = g.1 ∧ e.isWhole := by
  unfold edit? at h
  split at h
  · cases h
  · cases hread : (readPart g.1 g.2.text : Except _ (Edit S A × List Char)) with
    | ok q =>
      rw [hread] at h
      cases h
      exact part_of_readPart hread
    | error =>
      rw [hread] at h
      cases h

theorem parts_sublist (gs : List (Part × Tree .value)) :
    ((gs.filterMap (edit? (S := S) (A := A))).map Edit.part).Sublist (gs.map Prod.fst) := by
  induction gs with
  | nil => exact .slnil
  | cons g gs ih =>
    cases h : (edit? g : Option (Edit S A)) with
    | none =>
      rw [List.filterMap_cons_none h]
      exact ih.cons g.1
    | some e =>
      rw [List.filterMap_cons_some h, List.map_cons, List.map_cons, (part_of_edit? h).1]
      exact ih.cons_cons g.1

theorem part?_ofEdits {gs : List (Part × Tree .value)} (h : (gs.map Prod.fst).Nodup) (p : Part) :
    (ofEdits (gs.filterMap edit?) : Draft S A).part? p =
      edit? (p, (gs.lookup p).getD .null) := by
  have hwhole : ∀ e ∈ gs.filterMap (edit? (S := S) (A := A)), e.isWhole := by
    intro e he
    obtain ⟨g, -, hg⟩ := List.mem_filterMap.mp he
    exact (part_of_edit? hg).2
  have hlookup (v : Tree .value) : gs.lookup p = some v ↔ (p, v) ∈ gs :=
    (FinMap.mem_entries_iff ⟨gs, h⟩ p v).symm
  ext e
  rw [part?_ofEdits_eq_some_iff hwhole ((parts_sublist gs).nodup h), List.mem_filterMap]
  constructor
  · rintro ⟨⟨⟨q, v⟩, hmem, hedit⟩, rfl⟩
    obtain rfl : e.part = q := (part_of_edit? hedit).1
    rw [(hlookup v).mpr hmem]
    exact hedit
  · intro hedit
    refine ⟨?_, (part_of_edit? hedit).1⟩
    cases hv : gs.lookup p with
    | none =>
      rw [hv] at hedit
      cases hedit
    | some v =>
      rw [hv] at hedit
      exact ⟨(p, v), (hlookup v).mp hv, hedit⟩

theorem edit?_isNone {g : Part × Tree .value} (h : Fits S A g) :
    (edit? g : Option (Edit S A)).isNone = g.2.isNull := by
  unfold edit?
  cases hnull : g.2.isNull with
  | true => rfl
  | false =>
    obtain hnull' | ⟨e, he⟩ := h
    · rw [hnull] at hnull'
      cases hnull'
    · rw [he]
      rfl

theorem read_space (s : Space) (cs : List Char) :
    (read (s.chars ++ cs) : Except Fault (Draft S A × List Char)) = read cs := by
  rw [read, read, s.dropSpace_append]

theorem ofDocument_of_read {v : Tree .value} {r : Except Fault (Draft S A)} {before after : Space}
    (h : read (v.text ++ after.chars) = r.map (·, after.chars)) :
    Dfa.ofDocument (v.padded before after) =
      (r.mapError DocumentFault.json) >>= fun d => d.build.mapError .absent := by
  rw [Dfa.ofDocument, Tree.padded, read_space, h]
  cases r with
  | error => rfl
  | ok d =>
    change (d.build.mapError DocumentFault.absent >>= fun x =>
      (finish after.chars).mapError DocumentFault.json >>= fun _ => .ok x) =
        d.build.mapError DocumentFault.absent
    rw [finish_space]
    cases d.build <;> rfl

/-- The edits that the fields stand for, in their order. -/
def edits (S A : Type) [DecidableEq S] [DecidableEq A] [Decode S] [Decode A] (fs : Fields) :
    List (Edit S A) :=
  (given fs).filterMap edit?

theorem part?_ofEdits_edits {fs : Fields} (h : ((given fs).map Prod.fst).Nodup) (p : Part) :
    (ofEdits (edits S A fs)).part? p = edit? (p, givenFor fs p) :=
  part?_ofEdits h p

theorem edits_perm {fs : Fields} (h : ((given fs).map Prod.fst).Nodup)
    {es : List (Edit S A)} (hes : es.Perm (edits S A fs)) :
    ofEdits es = ofEdits (edits S A fs) :=
  (ofEdits_perm hes.symm ((parts_sublist (given fs)).nodup h)).symm

/-- What the fields give for the parts, in the order of the parts. -/
def inOrder (fs : Fields) : List (Part × Tree .value) :=
  Part.all.map fun p => (p, givenFor fs p)

theorem map_fst_inOrder (fs : Fields) : (inOrder fs).map Prod.fst = Part.all := rfl

theorem ofEdits_inOrder {fs : Fields} (h : ((given fs).map Prod.fst).Nodup) :
    ofEdits ((inOrder fs).filterMap edit?) = ofEdits (edits S A fs) := by
  have hall : ((inOrder fs).map Prod.fst).Nodup := by
    rw [map_fst_inOrder]
    decide
  apply ext_part?
  intro p
  rw [part?_ofEdits hall, part?_ofEdits_edits h]
  cases p <;> rfl

section Objects

variable {o : Tree .value} (h : IsDocument S A o)
include h

theorem fits_givenFor (p : Part) : Fits S A (p, givenFor o.fields p) := by
  unfold givenFor
  cases hv : (given o.fields).lookup p with
  | none => exact Or.inl rfl
  | some v => exact h.fits _ ((FinMap.mem_entries_iff ⟨_, h.nodup⟩ p v).mpr hv)

theorem IsDocument.perm {o' : Tree .value} (ho' : o'.bracket? = some .object)
    (hperm : o'.fields.Perm o.fields) : IsDocument S A o' where
  object := ho'
  nodup := ((hperm.filterMap _).map Prod.fst).nodup_iff.mpr h.nodup
  fits g hg := h.fits g ((hperm.filterMap _).mem_iff.mp hg)

theorem mapError_build_eq_ok_iff (d : Dfa S A) :
    (ofEdits (edits S A o.fields)).build.mapError DocumentFault.absent = .ok d ↔
      ∀ p, edit? (p, givenFor o.fields p) = some (editTo d p) := by
  simp only [← part?_ofEdits_edits h.nodup, ← build_eq_ok_iff]
  cases (ofEdits (edits S A o.fields)).build <;> simp [Except.mapError]

theorem mapError_build_eq_error_iff (fault : DocumentFault) :
    (ofEdits (edits S A o.fields)).build.mapError DocumentFault.absent = .error fault ↔
      ∃ p, Part.all.find? (fun q => (givenFor o.fields q).isNull) = some p ∧
        fault = .absent p := by
  have habsent (q : Part) : ((ofEdits (edits S A o.fields)).part? q).isNone =
      (givenFor o.fields q).isNull := by
    rw [part?_ofEdits_edits h.nodup, edit?_isNone (fits_givenFor h q)]
  simp only [← habsent, ← build_eq_error_iff]
  cases (ofEdits (edits S A o.fields)).build <;> simp [Except.mapError, eq_comm]

variable [LocalDecode S] [LocalDecode A]

theorem ofDocument_object (hspelled : keysSpelled o.fields) (before after : Space) :
    Dfa.ofDocument (o.padded before after) =
      (ofEdits (edits S A o.fields)).build.mapError DocumentFault.absent := by
  have hread := read_object h after.chars
  rw [if_pos hspelled] at hread
  exact ofDocument_of_read (r := .ok _) hread

theorem ofDocument_object_of_unspelled (hspelled : ¬keysSpelled o.fields) (before after : Space) :
    (Dfa.ofDocument (o.padded before after) : Except _ (Dfa S A)) =
      .error (.json .malformed) := by
  have hread := read_object h after.chars
  rw [if_neg hspelled] at hread
  exact ofDocument_of_read (r := .error _) hread

theorem ofDocument_object_perm {o' : Tree .value} (ho' : o'.bracket? = some .object)
    (hperm : o'.fields.Perm o.fields) (hspelled : keysSpelled o.fields) (before after : Space) :
    Dfa.ofDocument (o'.padded before after) =
      (ofEdits (edits S A o.fields)).build.mapError DocumentFault.absent := by
  have hspelled' : keysSpelled o'.fields := by rwa [keysSpelled, hperm.all_eq]
  have hedits : (edits S A o'.fields).Perm (edits S A o.fields) :=
    (hperm.filterMap _).filterMap _
  rw [ofDocument_object (h.perm ho' hperm) hspelled', edits_perm h.nodup hedits]

theorem ofDocument_list {l : Tree .value} (hl : l.bracket? = some .list)
    (hitems : l.items = Part.all.map (givenFor o.fields)) (before after : Space) :
    Dfa.ofDocument (l.padded before after) =
      (ofEdits (edits S A o.fields)).build.mapError DocumentFault.absent := by
  have hfits : ∀ g ∈ inOrder o.fields, Fits S A g := by
    intro g hg
    obtain ⟨p, -, rfl⟩ := List.mem_map.mp hg
    exact fits_givenFor h p
  have hread := read_list hl (map_fst_inOrder o.fields) hitems hfits after.chars
  rw [ofEdits_inOrder h.nodup] at hread
  exact ofDocument_of_read (r := .ok _) hread

end Objects

/-- An object whose keys spell texts is read as the draft of its parts other than null is built, and
with a key that spells none it is malformed. -/
theorem documents_agree_on_presence [LocalDecode S] [LocalDecode A] {o : Tree .value}
    (h : IsDocument S A o) (before after : Space) :
    (keysSpelled o.fields →
      (∀ es : List (Edit S A), es.Perm (edits S A o.fields) →
        Dfa.ofDocument (o.padded before after) =
          (ofEdits es).build.mapError DocumentFault.absent) ∧
      (∀ d : Dfa S A, Dfa.ofDocument (o.padded before after) = .ok d ↔
        ∀ p, edit? (p, givenFor o.fields p) = some (editTo d p)) ∧
      (∀ fault, (Dfa.ofDocument (o.padded before after) : Except _ (Dfa S A)) = .error fault ↔
        ∃ p, Part.all.find? (fun q => (givenFor o.fields q).isNull) = some p ∧
          fault = .absent p) ∧
      (∀ o' : Tree .value, o'.bracket? = some .object → o'.fields.Perm o.fields →
        ∀ before' after', (Dfa.ofDocument (o'.padded before' after') : Except _ (Dfa S A)) =
          Dfa.ofDocument (o.padded before after)) ∧
      ∀ l : Tree .value, l.bracket? = some .list →
        l.items = Part.all.map (givenFor o.fields) →
        ∀ before' after', (Dfa.ofDocument (l.padded before' after') : Except _ (Dfa S A)) =
          Dfa.ofDocument (o.padded before after)) ∧
    (¬keysSpelled o.fields → (Dfa.ofDocument (o.padded before after) : Except _ (Dfa S A)) =
      .error (.json .malformed)) ∧
    ∀ (wording : Wording) (text : List Char),
      Part.all.map (fun p => (DocumentFault.absent p).message wording text) =
      ["Missing required field: states", "Missing required field: alphabet",
        "Missing required field: transitions", "Missing required field: start_state",
        "Missing required field: accept_states"] := by
  have habsence : Part.all.map Part.absence = ["Missing required field: states",
      "Missing required field: alphabet", "Missing required field: transitions",
      "Missing required field: start_state", "Missing required field: accept_states"] := by
    decide
  refine ⟨?_, fun hspelled => ofDocument_object_of_unspelled h hspelled before after,
    fun _ _ => habsence⟩
  intro hspelled
  have hobject := ofDocument_object h hspelled before after
  rw [hobject]
  refine ⟨?_, mapError_build_eq_ok_iff h, mapError_build_eq_error_iff h, ?_, ?_⟩
  · intro es hes
    rw [edits_perm h.nodup hes]
  · intro o' ho' hperm
    exact ofDocument_object_perm h ho' hperm hspelled
  · intro l hl hitems
    exact ofDocument_list h hl hitems

/-- The pieces of a text in which nothing has to be escaped. -/
def plainly (cs : List Char) : List Piece :=
  cs.filterMap fun c =>
    if h : c ≠ '"' ∧ c ≠ '\\' ∧ 0x20 ≤ c.toNat then some (.plain c h) else none

def blank : Space := ⟨[' '], by decide⟩

def loneHalf : CodeUnit :=
  ⟨⟨'D', 13, by decide⟩, ⟨'8', 8, by decide⟩, ⟨'0', 0, by decide⟩, ⟨'0', 0, by decide⟩⟩

def underscore : CodeUnit :=
  ⟨⟨'0', 0, by decide⟩, ⟨'0', 0, by decide⟩, ⟨'5', 5, by decide⟩, ⟨'f', 15, by decide⟩⟩

def overflowing : NumberText where
  negative := true
  whole := ⟨['1'], by decide, by decide⟩
  fraction := none
  exponent := some ⟨'e', by decide, none, ⟨['4', '0', '0'], by decide, by decide⟩⟩

/-- What would be refused if it were read and not skipped. -/
def remark : Tree .value :=
  .bracket .object (.last (.key .none [.unit loneHalf] blank) blank
    (.scalar (.number overflowing)) .none)

def letterQ : Tree .value := .scalar (.string (plainly ['q']))

def onlyQ : Tree .value := .bracket .list (.last .item .none letterQ blank)

/-- An unknown field and the five known ones, of which the last has an escape in its key. -/
def sketchUnder (unknown : List Piece) (table : Tree .value) : Tree .value :=
  .bracket .object
    (.more (.key .none unknown .none) .none remark blank <|
      .more (.key blank (plainly "transitions".toList) .none) .none table .none <|
      .more (.key .none (plainly "states".toList) blank) .none onlyQ .none <|
      .more (.key .none (plainly "alphabet".toList) .none) .none (.empty .list blank) .none <|
      .more (.key .none (plainly "accept_states".toList) .none) .none (.empty .list .none) .none <|
      .last (.key .none (plainly "start".toList ++ .unit underscore :: plainly "state".toList)
        .none) .none letterQ .none)

def sketch : Tree .value → Tree .value := sketchUnder (plainly "note".toList)

def sketchList (table : Tree .value) : Tree .value :=
  .bracket .list
    (.more .item .none onlyQ .none <|
      .more .item .none (.empty .list blank) .none <|
      .more .item blank table .none <|
      .more .item .none letterQ .none <|
      .last .item .none (.empty .list .none) blank)

theorem sketchUnder_isDocument {unknown : List Piece}
    (hunknown : (spelled? unknown).bind Part.ofName? = none) {table : Tree .value}
    (h : Fits Label Label (.transitions, table)) :
    IsDocument Label Label (sketchUnder unknown table) := by
  have hgiven : given (sketchUnder unknown table).fields = [(.transitions, table),
      (.states, onlyQ), (.alphabet, .empty .list blank), (.accept, .empty .list .none),
      (.start, letterQ)] :=
    given_cons_of_none hunknown remark _
  refine ⟨rfl, ?_, ?_⟩
  · rw [hgiven]
    change [Part.transitions, .states, .alphabet, .accept, .start].Nodup
    decide
  · simp only [hgiven, List.forall_mem_cons]
    exact ⟨h, Or.inr ⟨.states [⟨"q"⟩], rfl⟩, Or.inr ⟨.alphabet [], rfl⟩,
      Or.inr ⟨.accept [], rfl⟩, Or.inr ⟨.start ⟨"q"⟩, rfl⟩, nofun⟩

theorem sketch_presence :
    IsDocument Label Label (sketch .null) ∧ keysSpelled (sketch .null).fields ∧
      (Dfa.ofDocument ((sketch .null).padded .none blank) : Except _ (Dfa Label Label)) =
        .error (.absent .transitions) ∧
      (Dfa.ofDocument ((sketchList .null).padded blank .none) : Except _ (Dfa Label Label)) =
        Dfa.ofDocument ((sketch .null).padded .none blank) ∧
      Dfa.ofDocument ((sketch (.empty .object blank)).padded .none blank) =
        .ok (⟨[⟨"q"⟩], [], ∅, ⟨"q"⟩, []⟩ : Dfa Label Label) := by
  have hnull : IsDocument Label Label (sketch .null) := sketchUnder_isDocument rfl (Or.inl rfl)
  have hempty : IsDocument Label Label (sketch (.empty .object blank)) :=
    sketchUnder_isDocument rfl (Or.inr ⟨.transitions ∅, rfl⟩)
  have hlacking := (documents_agree_on_presence hnull .none blank).1 rfl
  have hwhole := (documents_agree_on_presence hempty .none blank).1 rfl
  refine ⟨hnull, rfl, ?_, ?_, ?_⟩
  · exact (hlacking.2.2.1 _).mpr ⟨.transitions, rfl, rfl⟩
  · exact hlacking.2.2.2.2 (sketchList .null) rfl rfl blank .none
  · refine (hwhole.2.1 _).mpr ?_
    intro p
    cases p <;> rfl

/-- The key of the unknown field is half of a surrogate pair. -/
def halved : Tree .value := sketchUnder [.unit loneHalf] (.empty .object blank)

theorem halved_malformed :
    IsDocument Label Label halved ∧
      (ofEdits (edits Label Label halved.fields)).build = .ok ⟨[⟨"q"⟩], [], ∅, ⟨"q"⟩, []⟩ ∧
      (Dfa.ofDocument (halved.padded .none .none) : Except _ (Dfa Label Label)) =
        .error (.json .malformed) ∧
      ¬ ∀ o : Tree .value, IsDocument Label Label o → ∀ before after : Space,
        Dfa.ofDocument (o.padded before after) =
          (ofEdits (edits Label Label o.fields)).build.mapError DocumentFault.absent := by
  have hdocument : IsDocument Label Label halved :=
    sketchUnder_isDocument rfl (Or.inr ⟨.transitions ∅, rfl⟩)
  have hbuild : (ofEdits (edits Label Label halved.fields)).build =
      .ok ⟨[⟨"q"⟩], [], ∅, ⟨"q"⟩, []⟩ := rfl
  have hread := ofDocument_object_of_unspelled hdocument nofun .none .none
  refine ⟨hdocument, hbuild, hread, ?_⟩
  intro h
  have hagree := h halved hdocument .none .none
  rw [hread, hbuild] at hagree
  cases hagree

end Draft
end WordMachines
