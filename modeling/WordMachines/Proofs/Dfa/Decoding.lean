import Mathlib.Tactic
import WordMachines.Proofs.Dfa.Given
import WordMachines.Proofs.Json.Decoding.Identifiers
import WordMachines.Proofs.Json.Decoding.Members

/-!
# What is read of the parts of an automaton

The value of each part is decoded: the table from its rows in the order of the document, and a row
from its entries. So the fields of an object and the items of a list change the draft one after the
other, each by what its value alone gives.
-/

namespace WordMachines

open Json

namespace Draft

section Maps

variable {α β : Type} [DecidableEq α] [Decode α]

/-- The map that an object stands for if its values stand for what `f` gives. -/
def map? (f : Tree .value → Option β) (v : Tree .value) : Option (FinMap α β) :=
  (v.entries? key? f).map .ofList

theorem decodes_map [Grammatical α] {value : Reader β} {f : Tree .value → Option β}
    (h : DecodesValues value f) :
    DecodesValues (readMap value : Reader (FinMap α β)) (map? f) where
  read_dropSpace cs := by simp only [readMap, dropSpace_dropSpace]
  decodes v rest hrest := by
    rw [readMap, v.dropSpace_text, map?]
    by_cases hv : v.bracket? = some .object
    · obtain ⟨cs, htext, hread⟩ := readMembers_object
        (toOption_readEntry Grammatical.decodes_key h FinMap.insert) hv (∅ : FinMap α β) rest
      rw [htext, Tree.entries?_of_object _ _ hv]
      refine hread.trans ?_
      rw [foldlM_put]
      rfl
    · obtain ⟨c, tail, hc, hbegins⟩ := v.begins
      rw [hc, Tree.entries?_of_not_object _ _ hv]
      split
      · next heq => exact absurd (hbegins.object (List.cons.inj heq).1) hv
      · exact toOption_refuse _ _

end Maps

variable {S A : Type} [DecidableEq S] [DecidableEq A] [Decode S] [Decode A]

/-- The table that an object of rows stands for. -/
def table? (v : Tree .value) : Option (Table S A) := (map? (map? value?) v).map Table.mk

/-- What a value gives for a part. -/
def gives? (v : Tree .value) : Part → Option (Edit S A)
  | .states => (v.list? value?).map .states
  | .alphabet => (v.list? value?).map .alphabet
  | .transitions => (table? v).map .transitions
  | .start => (value? v).map .start
  | .accept => (v.list? value?).map .accept

variable [Grammatical S] [Grammatical A]

theorem decodes_table : DecodesValues (readTable : Reader (Table S A)) table? :=
  (decodes_map (decodes_map Grammatical.decodes_value)).map Table.mk

theorem decodes_part (p : Part) :
    DecodesValues (readPart p : Reader (Edit S A)) fun v => gives? v p := by
  cases p with
  | states => exact Grammatical.decodes_value.list.map Edit.states
  | alphabet => exact Grammatical.decodes_value.list.map Edit.alphabet
  | transitions => exact decodes_table.map Edit.transitions
  | start => exact Grammatical.decodes_value.map Edit.start
  | accept => exact Grammatical.decodes_value.list.map Edit.accept

/-- The draft in which a part has been given a value, if that is accepted. -/
def givenPart? (d : Draft S A) (p : Part) (v : Tree .value) : Option (Draft S A) :=
  if v.isNull then some d else (gives? v p).map d.edit

theorem decodes_readValue (d : Draft S A) (p : Part) :
    DecodesValues (readValue d p) (givenPart? d p) := by
  have hread : readValue d p = (fun e? => e?.elim d d.edit) <$> readOptional (readPart p) := by
    funext cs
    change (readOptional (readPart p) cs >>= _) = readOptional (readPart p) cs >>= _
    cases readOptional (readPart p : Reader (Edit S A)) cs with
    | error => rfl
    | ok q => rcases q with ⟨_ | _, _⟩ <;> rfl
  have hdecodes := (decodes_part (S := S) (A := A) p).optional.map fun e? => e?.elim d d.edit
  have hvalue : givenPart? d p = fun v : Tree .value =>
      (if v.isNull then some none else (gives? v p).map some).map fun e? => e?.elim d d.edit := by
    funext v
    unfold givenPart?
    split_ifs
    · rfl
    · cases (gives? v p : Option (Edit S A)) <;> rfl
  rw [hread, hvalue]
  exact hdecodes

/-- The parts seen and the draft behind a field, if the field is accepted. -/
def fieldStep (s : List Part × Draft S A) (ps : List Piece) (v : Tree .value) :
    Option (List Part × Draft S A) :=
  (spelled? ps).bind fun name =>
    match Part.ofName? name with
    | none => some s
    | some p => if p ∈ s.1 then none else (givenPart? s.2 p v).map (p :: s.1, ·)

theorem toOption_readField (s : List Part × Draft S A) (ps : List Piece) (after before : Space)
    (v : Tree .value) (rest : List Char) (hrest : EndsNumber rest) :
    (readField s
      (quoted ps ++ (after.chars ++ ':' :: (before.chars ++ (v.text ++ rest))))).toOption =
      (fieldStep s ps v).map (·, rest) := by
  unfold fieldStep
  cases hname : spelled? ps with
  | none =>
    rw [readField_of_unspelled hname]
    rfl
  | some name =>
    rw [Option.bind_some]
    cases hpart : Part.ofName? name with
    | none =>
      have hread := reads_unknown (reads_quoted hname) hpart (v.reads_skipValue before) after s rest
        hrest
      simp only [List.append_assoc, List.cons_append] at hread
      rw [hread]
      rfl
    | some p =>
      have hends := (endsNumber_colon (before.chars ++ (v.text ++ rest))).space after
      have hvalue := decodes_readValue s.2 p
      rw [readField, bind_eq (reads_quoted hname _ hends)]
      simp only [hpart]
      split_ifs with hp
      · rfl
      · rw [bind_eq (readColon_space after _)]
        change (readValue s.2 p _ >>= fun q => .ok ((p :: s.1, q.1), q.2)).toOption = _
        rw [toOption_bind, hvalue.read_space, hvalue.decodes v rest hrest]
        cases givenPart? s.2 p v <;> rfl

theorem fits_of_givenPart? {d d' : Draft S A} {p : Part} {v : Tree .value}
    (h : givenPart? d p v = some d') : Fits S A (p, v) := by
  unfold givenPart? at h
  split_ifs at h with hnull
  · exact Or.inl hnull
  · obtain ⟨e, he, -⟩ := Option.map_eq_some_iff.mp h
    have hread := (decodes_part (S := S) (A := A) p).decodes v [] endsNumber_nil
    rw [List.append_nil, he] at hread
    exact Or.inr ⟨e, toOption_eq_some_iff.mp hread⟩

/-- What the fields of an accepted object are like. -/
theorem given_of_foldlM {fs : Fields} {s s' : List Part × Draft S A}
    (h : fs.foldlM (fun s f => fieldStep s f.1 f.2) s = some s') :
    keysSpelled fs ∧ ((given fs).map Prod.fst).Nodup ∧
      ∀ g ∈ given fs, g.1 ∉ s.1 ∧ Fits S A g := by
  induction fs generalizing s with
  | nil => exact ⟨rfl, List.nodup_nil, nofun⟩
  | cons f fs ih =>
    obtain ⟨ps, v⟩ := f
    rw [List.foldlM_cons] at h
    obtain ⟨s₁, hstep, hrest⟩ := Option.bind_eq_some_iff.mp h
    obtain ⟨hkeys, hnodup, hfits⟩ := ih hrest
    obtain ⟨name, hname, hstep⟩ := Option.bind_eq_some_iff.mp hstep
    have hkeys' : keysSpelled ((ps, v) :: fs) := by
      simpa [keysSpelled, hname] using hkeys
    refine ⟨hkeys', ?_⟩
    cases hpart : Part.ofName? name with
    | none =>
      simp only [hpart, Option.some.injEq] at hstep
      rw [given_cons_of_none (by rw [hname]; exact hpart), hstep]
      exact ⟨hnodup, hfits⟩
    | some p =>
      simp only [hpart] at hstep
      split_ifs at hstep with hp
      obtain ⟨d, hd, rfl⟩ := Option.map_eq_some_iff.mp hstep
      rw [given_cons_of_some (by rw [hname]; exact hpart), List.map_cons, List.nodup_cons,
        List.forall_mem_cons]
      refine ⟨⟨?_, hnodup⟩, ⟨hp, fits_of_givenPart? hd⟩, ?_⟩
      · intro hmem
        obtain ⟨g, hg, rfl⟩ := List.mem_map.mp hmem
        exact (hfits g hg).1 List.mem_cons_self
      · intro g hg
        obtain ⟨hseen, hfit⟩ := hfits g hg
        exact ⟨fun hs => hseen (List.mem_cons_of_mem p hs), hfit⟩

theorem isDocument_of_read {o : Tree .value} (ho : o.bracket? = some .object)
    {rest left : List Char} {d : Draft S A} (h : read (o.text ++ rest) = .ok (d, left)) :
    IsDocument S A o ∧ keysSpelled o.fields := by
  obtain ⟨cs, htext, hread⟩ :=
    readMembers_object (toOption_readField (S := S) (A := A)) ho ([], {}) rest
  rw [htext] at h
  obtain ⟨⟨⟨parts, d⟩, left⟩, hmembers, -⟩ := exists_of_bind_eq_ok h
  rw [hmembers, Except.toOption, eq_comm, Option.map_eq_some_iff] at hread
  obtain ⟨s', hfold, -⟩ := hread
  obtain ⟨hkeys, hnodup, hfits⟩ := given_of_foldlM hfold
  exact ⟨⟨ho, hnodup, fun g hg => (hfits g hg).2⟩, hkeys⟩

/-- The draft in which the parts have been given the values in turn. -/
def givenParts? : List Part → List (Tree .value) → Draft S A → Option (Draft S A)
  | [], [], d => some d
  | p :: parts, v :: vs, d => (givenPart? d p v).bind (givenParts? parts vs)
  | _, _, _ => none

section Places

omit [Grammatical S] [Grammatical A]

theorem readItems_of_no_part (i : ℕ) (d : Draft S A) {cs tail : List Char} {c : Char}
    (hcs : dropSpace cs = c :: tail) (hc : c ≠ ']') :
    readItems i d [] (separator i ++ cs) = .error .malformed := by
  unfold separator
  split_ifs
  · unfold readItems
    rw [List.nil_append, hcs]
    split <;> simp_all
  · rfl

theorem toOption_readItems_end (i : ℕ) (d : Draft S A) (parts : List Part) (after : Space)
    (rest : List Char) :
    (readItems i d parts (after.chars ++ ']' :: rest)).toOption =
      (givenParts? parts [] d).map (·, rest) := by
  rw [readItems_space]
  cases parts <;> rfl

end Places

theorem toOption_readItems_cons (i : ℕ) (d : Draft S A) (p : Part) (parts : List Part)
    (before : Space) (v : Tree .value) {rest : List Char} (hrest : EndsNumber rest) :
    (readItems i d (p :: parts) (separator i ++ (before.chars ++ (v.text ++ rest)))).toOption =
      (givenPart? d p v).bind fun d' => (readItems (i + 1) d' parts rest).toOption := by
  obtain ⟨c, tail, hc, hinitial, -⟩ := v.exists_text_eq
  have hspace : dropSpace (before.chars ++ (v.text ++ rest)) = c :: (tail ++ rest) := by
    rw [before.dropSpace_append, v.dropSpace_text, hc, List.cons_append]
  have hvalue := (decodes_readValue d p).decodes v rest hrest
  rw [hc, List.cons_append] at hvalue
  rw [readItems_cons i d p parts hspace (ne_of_isInitial hinitial rfl), toOption_bind, hvalue]
  cases givenPart? d p v <;> rfl

/-- Each part takes the item in its place, and there are as many items as parts. -/
theorem toOption_readItems : ∀ (ms : Tree (.members .list)) (i : ℕ) (d : Draft S A)
    (parts : List Part) (rest : List Char),
    (readItems i d parts (separator i ++ (ms.text ++ ']' :: rest))).toOption =
      (givenParts? parts ms.items d).map (·, rest)
  | ms, i, d, [], rest => by
    obtain ⟨c, tail, hspace, hinitial⟩ := ms.exists_dropSpace_members_eq (']' :: rest)
    rw [readItems_of_no_part i d hspace (ne_of_isInitial hinitial rfl)]
    cases ms with
    | last h => cases h; rfl
    | more h => cases h; rfl
  | .last .item before v after, i, d, p :: parts, rest => by
    have hends := (Bracket.list.endsNumber_close rest).space after
    have hitem := toOption_readItems_cons i d p parts before v hends
    simp only [Tree.text, Head.text, List.nil_append, List.append_assoc, Tree.items, givenParts?,
      Option.map_bind]
    refine hitem.trans ?_
    simp only [Bracket.close, toOption_readItems_end]
    rfl
  | .more .item before v after ms, i, d, p :: parts, rest => by
    have hends := (endsNumber_comma (ms.text ++ ']' :: rest)).space after
    have hitem := toOption_readItems_cons i d p parts before v hends
    have hcomma (cs : List Char) : ',' :: cs = separator (i + 1) ++ cs := rfl
    simp only [Tree.text, Head.text, List.nil_append, List.append_assoc, List.cons_append,
      Tree.items, givenParts?, Option.map_bind]
    refine hitem.trans ?_
    simp only [readItems_space, hcomma, toOption_readItems ms]
    rfl

theorem readItems_list {l : Tree .value} (hl : l.bracket? = some .list) (d : Draft S A)
    (parts : List Part) (rest : List Char) :
    ∃ cs, l.text ++ rest = '[' :: cs ∧
      (readItems 0 d parts cs).toOption = (givenParts? parts l.items d).map (·, rest) := by
  obtain ⟨inner, rfl⟩ | ⟨ms, rfl⟩ := Tree.exists_of_bracket? hl
  · exact ⟨_, Tree.text_empty_append .list inner rest, toOption_readItems_end 0 d parts inner rest⟩
  · exact ⟨_, Tree.text_bracket_append ms rest, toOption_readItems ms 0 d parts rest⟩

theorem length_of_givenParts? {parts : List Part} {vs : List (Tree .value)} {d d' : Draft S A}
    (h : givenParts? parts vs d = some d') :
    vs.length = parts.length ∧ ∀ g ∈ parts.zip vs, Fits S A g := by
  induction parts generalizing vs d with
  | nil =>
    cases vs with
    | nil => exact ⟨rfl, nofun⟩
    | cons v vs => cases h
  | cons p parts ih =>
    cases vs with
    | nil => cases h
    | cons v vs =>
      obtain ⟨d₁, hd, hrest⟩ := Option.bind_eq_some_iff.mp h
      obtain ⟨hlength, hfits⟩ := ih hrest
      refine ⟨by simp [hlength], ?_⟩
      rw [List.zip_cons_cons, List.forall_mem_cons]
      exact ⟨fits_of_givenPart? hd, hfits⟩

end Draft
end WordMachines
