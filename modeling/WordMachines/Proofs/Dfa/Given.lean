import Mathlib.Tactic
import WordMachines.Proofs.Dfa.Document
import WordMachines.Proofs.Json.Locality
import WordMachines.Proofs.Json.Members
import WordMachines.Proofs.Json.Skipping

/-!
# Reading what a document gives

A document is an object with fields of any names and in any order, or the list of the five parts.
It gives some of the parts. Whatever else is in it and however it is laid out, it is read as the
draft that comes about if the parts that it gives are set one after the other.
-/

namespace WordMachines

open Json

namespace Draft

/-- The values of the known fields. A key is known by what it spells. -/
def given (fs : Fields) : List (Part × Tree .value) :=
  fs.filterMap fun f => ((spelled? f.1).bind Part.ofName?).map (·, f.2)

/-- What the fields give for a part: null if there is none for it. -/
def givenFor (fs : Fields) (p : Part) : Tree .value :=
  ((given fs).lookup p).getD .null

section Given

variable {ps : List Piece}

theorem given_cons_of_none (h : (spelled? ps).bind Part.ofName? = none) (v : Tree .value)
    (fs : Fields) : given ((ps, v) :: fs) = given fs :=
  List.filterMap_cons_none (congrArg (Option.map (·, v)) h)

theorem given_cons_of_some {p : Part} (h : (spelled? ps).bind Part.ofName? = some p)
    (v : Tree .value) (fs : Fields) : given ((ps, v) :: fs) = (p, v) :: given fs :=
  List.filterMap_cons_some (congrArg (Option.map (·, v)) h)

end Given

variable (S A : Type) [DecidableEq S] [DecidableEq A] [Decode S] [Decode A]

/-- The value is null, or it is read as that part if it stands alone. -/
def Fits (g : Part × Tree .value) : Prop :=
  g.2.isNull ∨ ∃ e : Edit S A, readPart g.1 g.2.text = .ok (e, [])

/-- An object that gives no part twice and for each of them null or a value that fits. -/
structure IsDocument (o : Tree .value) : Prop where
  object : o.bracket? = some .object
  nodup : ((given o.fields).map Prod.fst).Nodup
  fits : ∀ g ∈ given o.fields, Fits S A g

variable {S A}

/-- The edit that a value for a part stands for: none if it is null. -/
def edit? (g : Part × Tree .value) : Option (Edit S A) :=
  if g.2.isNull then none else (readPart g.1 g.2.text).toOption.map Prod.fst

theorem foldl_filterMap_cons (draft : Draft S A) (g : Part × Tree .value)
    (gs : List (Part × Tree .value)) :
    ((g :: gs).filterMap edit?).foldl edit draft =
      (gs.filterMap edit?).foldl edit ((edit? g).elim draft draft.edit) := by
  cases h : (edit? g : Option (Edit S A)) <;> simp [h]

theorem reads_unknown {key value : List Char} {name : String} (hkey : Reads readKeyText key name)
    (hname : Part.ofName? name = none) (hvalue : Reads skipValue value ()) (after : Space)
    (s : List Part × Draft S A) :
    Reads (readField s) (key ++ (after.chars ++ ':' :: value)) s := by
  intro rest hrest
  have hcolon := readColon_space after (value ++ rest)
  have hends := (endsNumber_colon (value ++ rest)).space after
  rw [List.append_assoc, List.append_assoc, List.cons_append, readField, bind_eq (hkey _ hends)]
  simp only [hname]
  rw [bind_eq hcolon, bind_eq (hvalue rest hrest)]
  rfl

theorem readField_of_unspelled {ps : List Piece} (h : spelled? ps = none)
    (s : List Part × Draft S A) (rest : List Char) :
    readField s (quoted ps ++ rest) = .error .malformed := by
  change (readKeyText (quoted ps ++ rest) >>= _) = _
  rw [readKeyText_of_unspelled h]
  rfl

/-- What comes before the item that follows `i` others. -/
def separator (i : ℕ) : List Char := if i = 0 then [] else [',']

theorem readItems_space (i : ℕ) (d : Draft S A) (parts : List Part) (s : Space)
    (rest : List Char) :
    readItems i d parts (s.chars ++ rest) = readItems i d parts rest := by
  cases parts <;> unfold readItems <;> rw [s.dropSpace_append]

theorem readItems_cons (i : ℕ) (d : Draft S A) (p : Part) (parts : List Part) {cs tail : List Char}
    {c : Char} (hcs : dropSpace cs = c :: tail) (hc : c ≠ ']') :
    readItems i d (p :: parts) (separator i ++ cs) =
      readValue d p (c :: tail) >>= fun r => readItems (i + 1) r.1 parts r.2 := by
  cases i with
  | zero =>
    rw [separator, if_pos rfl, List.nil_append]
    simp only [readItems, hcs, hc, if_false, if_true]
  | succ i =>
    have hcomma : dropSpace (',' :: cs) = ',' :: cs := rfl
    rw [separator, if_neg i.succ_ne_zero, List.singleton_append]
    simp only [readItems, hcomma, hcs, Nat.succ_ne_zero, if_false, if_true]
    rfl

theorem readItems_of_value (i : ℕ) {d d' : Draft S A} {p : Part} (parts : List Part)
    {cs tail rest : List Char} {c : Char} (hcs : dropSpace cs = c :: tail) (hc : c ≠ ']')
    (hvalue : readValue d p (c :: tail) = .ok (d', rest)) :
    readItems i d (p :: parts) (separator i ++ cs) = readItems (i + 1) d' parts rest := by
  rw [readItems_cons i d p parts hcs hc, hvalue]
  rfl

theorem local_readMap {α β : Type} [DecidableEq α] [Decode α] [LocalDecode α] {value : Reader β}
    (h : Local value) : Local (readMap value : Reader (FinMap α β)) := by
  have hmembers : Local (readMembers '}' (readEntry Decode.readKey value FinMap.insert)
      (∅ : FinMap α β)) :=
    local_readMembers (fun m => LocalDecode.key.entry h FinMap.insert m) ∅
  intro cs m left more hmore hm
  unfold readMap at hm ⊢
  split at hm
  · next hspace =>
    rw [dropSpace_append (by simp [hspace]), hspace]
    exact hmembers _ m left more hmore hm
  · exact absurd hm (refuse_ne_ok _ _ _)

variable [LocalDecode S] [LocalDecode A]

theorem local_readTable : Local (readTable : Reader (Table S A)) :=
  (local_readMap (local_readMap LocalDecode.value)).bind fun rows => .pure (Table.mk rows)

theorem local_readPart (p : Part) : Local (readPart p : Reader (Edit S A)) := by
  cases p with
  | states => exact LocalDecode.value.list.bind fun qs => .pure (Edit.states qs)
  | alphabet => exact LocalDecode.value.list.bind fun as => .pure (Edit.alphabet as)
  | transitions => exact local_readTable.bind fun t => .pure (Edit.transitions t)
  | start => exact LocalDecode.value.bind fun q => .pure (Edit.start q)
  | accept => exact LocalDecode.value.list.bind fun qs => .pure (Edit.accept qs)

theorem reads_edit? {g : Part × Tree .value} (h : Fits S A g) (before : Space) :
    Reads (readOptional (readPart g.1)) (before.chars ++ g.2.text)
      (edit? g : Option (Edit S A)) := by
  intro rest hrest
  rw [List.append_assoc, readOptional_space]
  unfold edit?
  cases hnull : g.2.isNull with
  | true =>
    rw [Tree.eq_null hnull]
    rfl
  | false =>
    obtain hnull' | ⟨e, he⟩ := h
    · rw [hnull] at hnull'
      cases hnull'
    · rw [(((local_readPart g.1).reads he).optional (Tree.opens hnull)) rest hrest, he]
      rfl

/-- The parts of the fields are none of those `seen` before. -/
theorem fieldsInTurn {fs : Fields} (hfits : ∀ g ∈ given fs, Fits S A g) {seen : List Part}
    (hnodup : (((given fs).map Prod.fst).reverse ++ seen).Nodup) (draft : Draft S A) :
    FieldsInTurn readField (seen, draft) fs
      (if keysSpelled fs then .ok (((given fs).map Prod.fst).reverse ++ seen,
        ((given fs).filterMap edit?).foldl edit draft) else .error .malformed) := by
  induction fs generalizing seen draft with
  | nil => exact .nil _
  | cons f fs ih =>
    obtain ⟨ps, v⟩ := f
    have hkeys : keysSpelled ((ps, v) :: fs) = ((spelled? ps).isSome && keysSpelled fs) := rfl
    rw [hkeys]
    cases hname : spelled? ps with
    | none => exact .refused (readField_of_unspelled hname _) v fs
    | some name =>
      have hkey := reads_quoted hname
      rw [Option.isSome_some, Bool.true_and]
      cases hpart : Part.ofName? name with
      | none =>
        rw [given_cons_of_none (by rw [hname]; exact hpart)] at hfits hnodup ⊢
        have hread (after before : Space) :
            Reads (readField (seen, draft))
              (quoted ps ++ (after.chars ++ ':' :: (before.chars ++ v.text))) (seen, draft) :=
          reads_unknown hkey hpart (v.reads_skipValue before) after _
        exact .cons hread (ih hfits hnodup draft)
      | some p =>
        rw [given_cons_of_some (by rw [hname]; exact hpart)] at hfits hnodup ⊢
        obtain ⟨hv, hfits⟩ := List.forall_mem_cons.mp hfits
        rw [List.map_cons, List.reverse_cons, List.append_assoc, List.singleton_append]
          at hnodup ⊢
        have hp : p ∉ seen := (List.nodup_cons.mp (List.nodup_append.mp hnodup).2.1).1
        have hread (after before : Space) :
            Reads (readField (seen, draft))
              (quoted ps ++ (after.chars ++ ':' :: (before.chars ++ v.text)))
              (p :: seen, (edit? (p, v)).elim draft draft.edit) :=
          reads_field (reads_edit? hv before) hkey hpart hp after draft
        have hrest := ih hfits hnodup ((edit? (p, v)).elim draft draft.edit)
        rw [foldl_filterMap_cons]
        exact .cons hread hrest

/-- A key that spells no text is a fault of grammar, whatever the rest of the object. -/
theorem read_object {o : Tree .value} (h : IsDocument S A o) (rest : List Char) :
    read (o.text ++ rest) = if keysSpelled o.fields then
      .ok ((ofEdits ((given o.fields).filterMap edit?) : Draft S A), rest)
        else .error .malformed := by
  have hnodup : (((given o.fields).map Prod.fst).reverse ++ []).Nodup := by simpa using h.nodup
  have hturn := fieldsInTurn (S := S) (A := A) h.fits hnodup {}
  obtain ⟨cs, htext, hmembers⟩ := hturn.readMembers h.object rest
  rw [htext]
  change (readMembers '}' readField ([], {}) cs >>= fun r => .ok (r.1.2, r.2)) = _
  rw [hmembers]
  cases keysSpelled o.fields <;> rfl

theorem readItems_item {p : Part} {v : Tree .value} (h : Fits S A (p, v)) (i : ℕ)
    (d : Draft S A) (parts : List Part) (before after : Space) {rest : List Char}
    (hrest : EndsNumber rest) :
    readItems i d (p :: parts)
        (separator i ++ (before.chars ++ (v.text ++ (after.chars ++ rest)))) =
      readItems (i + 1) ((edit? (p, v)).elim d d.edit) parts rest := by
  have hvalue := reads_value (reads_edit? h .none) d _ (hrest.space after)
  obtain ⟨c, tail, hc, hinitial, -⟩ := v.exists_text_eq
  have hclose : c ≠ ']' := ne_of_isInitial hinitial rfl
  have hspace : dropSpace (before.chars ++ (v.text ++ (after.chars ++ rest))) =
      c :: (tail ++ (after.chars ++ rest)) := by
    rw [before.dropSpace_append, v.dropSpace_text, hc, List.cons_append]
  rw [hc] at hvalue
  rw [readItems_of_value i parts hspace hclose hvalue, readItems_space]

/-- Each part takes the item in its place. -/
theorem readItems_members : ∀ (ms : Tree (.members .list)) {gs : List (Part × Tree .value)},
    ms.items = gs.map Prod.snd → (∀ g ∈ gs, Fits S A g) → ∀ (i : ℕ) (d : Draft S A) rest,
    readItems i d (gs.map Prod.fst) (separator i ++ (ms.text ++ ']' :: rest)) =
      .ok ((gs.filterMap edit?).foldl edit d, rest)
  | .last .item before v after, [(p, _)], rfl, hfits, i, d, rest => by
    have hitem := readItems_item (hfits _ List.mem_cons_self) i d [] before after
      (Bracket.list.endsNumber_close rest)
    simp only [Tree.text, Head.text, List.nil_append, List.append_assoc]
    refine hitem.trans ?_
    rw [foldl_filterMap_cons]
    rfl
  | .more .item before v after ms, (p, w) :: gs, hitems, hfits, i, d, rest => by
    obtain rfl : v = w := (List.cons.inj hitems).1
    have hms : ms.items = gs.map Prod.snd := (List.cons.inj hitems).2
    obtain ⟨hv, hfits⟩ := List.forall_mem_cons.mp hfits
    have hitem := readItems_item hv i d (gs.map Prod.fst) before after
      (endsNumber_comma (ms.text ++ ']' :: rest))
    have hrest := readItems_members ms hms hfits (i + 1) ((edit? (p, v)).elim d d.edit) rest
    simp only [Tree.text, Head.text, List.nil_append, List.append_assoc, List.cons_append]
    rw [foldl_filterMap_cons, ← hrest]
    exact hitem

theorem read_list {l : Tree .value} (hl : l.bracket? = some .list)
    {gs : List (Part × Tree .value)} (hparts : gs.map Prod.fst = Part.all)
    (hitems : l.items = gs.map Prod.snd) (hfits : ∀ g ∈ gs, Fits S A g) (rest : List Char) :
    read (l.text ++ rest) = .ok ((ofEdits (gs.filterMap edit?) : Draft S A), rest) := by
  cases l with
  | scalar => cases hl
  | empty b inner =>
    have hgs : gs = [] := by simpa [Tree.items] using hitems
    rw [hgs] at hparts
    cases hparts
  | bracket b ms =>
    cases hl
    have hread := readItems_members ms hitems hfits 0 {} rest
    rw [hparts] at hread
    rw [Tree.text, List.cons_append, List.append_assoc]
    exact hread

end Draft
end WordMachines
