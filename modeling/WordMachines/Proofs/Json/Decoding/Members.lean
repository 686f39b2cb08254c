import Mathlib.Tactic
import WordMachines.Proofs.Json.Decoding.Basic
import WordMachines.Proofs.Json.Members

/-!
# What is read of lists and objects

A list is decoded from its items, each on its own, and an object from its keys and values. The whole
is refused if one of them is.
-/

namespace WordMachines.Json

section Members

variable {σ : Type} {b : Bracket}

/-- The members one after the other, each from the state to which the one before has led. -/
def Tree.foldMembers (step : σ → Head b → Tree .value → Option σ) :
    Tree (.members b) → σ → Option σ
  | .last h _ v _, s => step s h v
  | .more h _ v _ ms, s => (step s h v).bind (ms.foldMembers step)

variable {member : σ → Reader σ} {step : σ → Head b → Tree .value → Option σ}
  (hmember : ∀ s h (before : Space) v rest, EndsNumber rest →
    (member s (dropSpace (h.text ++ (before.chars ++ (v.text ++ rest))))).toOption =
      (step s h v).map (·, rest))

theorem readMore_round (fuel : ℕ) (s : σ) (after : Space) {cs : List Char}
    (hcs : dropSpace cs ≠ []) :
    readMore b.close member (fuel + 1) s (after.chars ++ ',' :: cs) =
      member s (dropSpace cs) >>= fun p => readMore b.close member fuel p.1 p.2 := by
  have hclose : ',' ≠ b.close := by cases b <;> decide
  have hcomma : dropSpace (',' :: cs) = ',' :: cs := rfl
  obtain ⟨c, tail, hspace⟩ := List.exists_cons_of_ne_nil hcs
  rw [readMore_space]
  simp only [readMore, hcomma, hclose, hspace, if_false, if_true]

theorem Tree.dropSpace_members_ne_nil (ms : Tree (.members b)) (rest : List Char) :
    dropSpace (ms.text ++ rest) ≠ [] := by
  obtain ⟨c, tail, hspace, -⟩ := ms.exists_dropSpace_members_eq rest
  rw [hspace]
  exact List.cons_ne_nil c tail

include hmember

theorem toOption_round (k : σ → Reader σ) (s : σ) (h : Head b) (before : Space) (v : Tree .value)
    {rest : List Char} (hrest : EndsNumber rest) :
    (member s (dropSpace (h.text ++ (before.chars ++ (v.text ++ rest)))) >>= fun p =>
      k p.1 p.2).toOption = (step s h v).bind fun s' => (k s' rest).toOption := by
  rw [toOption_bind, hmember s h before v rest hrest]
  cases step s h v <;> rfl

/-- `fuel` is how many rounds may follow: as many as there are characters left, or as the members
themselves have. -/
theorem toOption_members : ∀ (ms : Tree (.members b)) {fuel : List Char → ℕ},
    (∀ cs, cs.length < fuel cs ∨ ms.text.length ≤ fuel cs) → ∀ (s : σ) (rest : List Char),
    (member s (dropSpace (ms.text ++ b.close :: rest)) >>= fun p =>
      readMore b.close member (fuel p.2) p.1 p.2).toOption = (ms.foldMembers step s).map (·, rest)
  | .last h before v after, fuel, hfuel, s, rest => by
    have hends := (b.endsNumber_close rest).space after
    obtain ⟨n, hn⟩ : ∃ n, fuel (after.chars ++ b.close :: rest) = n + 1 := by
      obtain ⟨c, tail, hv, -⟩ := v.exists_text_eq
      have henough := hfuel (after.chars ++ b.close :: rest)
      simp only [Tree.text, hv, List.length_append, List.length_cons] at henough
      exact Nat.exists_eq_add_one_of_ne_zero (by omega)
    simp only [Tree.text, List.append_assoc]
    rw [toOption_round hmember (fun s cs => readMore b.close member (fuel cs) s cs) s h before v
      hends]
    simp only [hn, readMore_space, readMore_close, Tree.foldMembers, Option.map_eq_bind]
    rfl
  | .more h before v after ms, fuel, hfuel, s, rest => by
    have hends := (endsNumber_comma (ms.text ++ b.close :: rest)).space after
    obtain ⟨n, hn, hle⟩ :
        ∃ n, fuel (after.chars ++ ',' :: (ms.text ++ b.close :: rest)) = n + 1 ∧
          ms.text.length ≤ n := by
      have henough := hfuel (after.chars ++ ',' :: (ms.text ++ b.close :: rest))
      simp only [Tree.text, List.length_append, List.length_cons] at henough
      exact ⟨fuel (after.chars ++ ',' :: (ms.text ++ b.close :: rest)) - 1, by omega, by omega⟩
    have hrounds (s : σ) := toOption_members ms (fun _ => Or.inr hle) s rest
    simp only [Tree.text, List.append_assoc, List.cons_append]
    rw [toOption_round hmember (fun s cs => readMore b.close member (fuel cs) s cs) s h before v
      hends]
    simp only [hn, readMore_round n _ after (ms.dropSpace_members_ne_nil _), hrounds,
      Tree.foldMembers, Option.map_bind]
    rfl

theorem readMembers_members (ms : Tree (.members b)) (s : σ) (rest : List Char) :
    (readMembers b.close member s (ms.text ++ b.close :: rest)).toOption =
      (ms.foldMembers step s).map (·, rest) := by
  have hround : readMembers b.close member s (ms.text ++ b.close :: rest) =
      member s (dropSpace (ms.text ++ b.close :: rest)) >>= fun p =>
        readMore b.close member (p.2.length + 1) p.1 p.2 := by
    obtain ⟨c, tail, hspace, hinitial⟩ := ms.exists_dropSpace_members_eq (b.close :: rest)
    simp only [readMembers, hspace, ne_of_isInitial hinitial b.isInitial_close, if_false]
  rw [hround]
  exact toOption_members hmember ms (fun cs => Or.inl cs.length.lt_succ_self) s rest

end Members

section Brackets

variable {σ : Type} {member : σ → Reader σ}

theorem readMembers_empty (b : Bracket) (s : σ) (inner : Space) (rest : List Char) :
    (readMembers b.close member s (inner.chars ++ b.close :: rest)).toOption = some (s, rest) := by
  have hclose : dropSpace (b.close :: rest) = b.close :: rest := by cases b <;> rfl
  simp only [readMembers, inner.dropSpace_append, hclose, if_true, Except.toOption]

section Lists

variable {step : σ → Tree .value → Option σ}

theorem foldMembers_items : ∀ (ms : Tree (.members .list)) (s : σ),
    ms.foldMembers (fun s _ v => step s v) s = ms.items.foldlM step s
  | .last .item before v after, s => by simp [Tree.foldMembers, Tree.items]
  | .more .item before v after ms, s => by
    simp only [Tree.foldMembers, Tree.items, List.foldlM_cons, foldMembers_items ms]
    rfl

theorem readMembers_list (hmember : ∀ s, Decodes (member s) Tree.text (step s)) {l : Tree .value}
    (hl : l.bracket? = some .list) (s : σ) (rest : List Char) :
    ∃ cs, l.text ++ rest = '[' :: cs ∧
      (readMembers ']' member s cs).toOption = (l.items.foldlM step s).map (·, rest) := by
  have hitem (s : σ) (h : Head .list) (before : Space) (v : Tree .value) (rest : List Char)
      (hrest : EndsNumber rest) :
      (member s (dropSpace (h.text ++ (before.chars ++ (v.text ++ rest))))).toOption =
        (step s v).map (·, rest) := by
    cases h
    rw [Head.text, List.nil_append, before.dropSpace_append, v.dropSpace_text]
    exact hmember s v rest hrest
  obtain ⟨inner, rfl⟩ | ⟨ms, rfl⟩ := Tree.exists_of_bracket? hl
  · exact ⟨_, Tree.text_empty_append .list inner rest, readMembers_empty .list s inner rest⟩
  · have hread := readMembers_members hitem ms s rest
    rw [foldMembers_items] at hread
    exact ⟨_, Tree.text_bracket_append ms rest, hread⟩

end Lists

section Objects

variable {step : σ → List Piece → Tree .value → Option σ}

/-- The key of an object's member. -/
def Head.pieces : Head .object → List Piece
  | .key _ ps _ => ps

theorem foldMembers_fields : ∀ (ms : Tree (.members .object)) (s : σ),
    ms.foldMembers (fun s h v => step s h.pieces v) s =
      ms.fields.foldlM (fun s f => step s f.1 f.2) s
  | .last (.key ..) before v after, s => by simp [Tree.foldMembers, Tree.fields, Head.pieces]
  | .more (.key ..) before v after ms, s => by
    simp only [Tree.foldMembers, Tree.fields, List.foldlM_cons, foldMembers_fields ms]
    rfl

theorem readMembers_object
    (hmember : ∀ s ps (after before : Space) v rest, EndsNumber rest →
      (member s
        (quoted ps ++ (after.chars ++ ':' :: (before.chars ++ (v.text ++ rest))))).toOption =
          (step s ps v).map (·, rest))
    {o : Tree .value} (ho : o.bracket? = some .object) (s : σ) (rest : List Char) :
    ∃ cs, o.text ++ rest = '{' :: cs ∧ (readMembers '}' member s cs).toOption =
      (o.fields.foldlM (fun s f => step s f.1 f.2) s).map (·, rest) := by
  have hfield (s : σ) (h : Head .object) (before : Space) (v : Tree .value) (rest : List Char)
      (hrest : EndsNumber rest) :
      (member s (dropSpace (h.text ++ (before.chars ++ (v.text ++ rest))))).toOption =
        (step s h.pieces v).map (·, rest) := by
    cases h with
    | key space ps after =>
      have hread := hmember s ps after before v rest hrest
      rw [Head.text, List.append_assoc, space.dropSpace_append,
        (((opens_quoted ps).append _).append _).dropSpace_eq]
      simpa [Head.pieces] using hread
  obtain ⟨inner, rfl⟩ | ⟨ms, rfl⟩ := Tree.exists_of_bracket? ho
  · exact ⟨_, Tree.text_empty_append .object inner rest, readMembers_empty .object s inner rest⟩
  · have hread := readMembers_members hfield ms s rest
    rw [foldMembers_fields] at hread
    exact ⟨_, Tree.text_bracket_append ms rest, hread⟩

end Objects

end Brackets

theorem foldlM_put {ι α σ : Type} (f : ι → Option α) (put : σ → α → σ) (is : List ι) (s : σ) :
    is.foldlM (fun s i => (f i).map (put s)) s = (is.mapM f).map fun xs => xs.foldl put s := by
  induction is generalizing s with
  | nil => rfl
  | cons i is ih =>
    rw [List.foldlM_cons, List.mapM_cons]
    cases f i with
    | none => rfl
    | some x =>
      change is.foldlM _ (put s x) = _
      rw [ih]
      cases is.mapM f <;> rfl

namespace Tree

/-- The items of a list, if `f` gives something for each of them. -/
def list? {α : Type} (f : Tree .value → Option α) (v : Tree .value) : Option (List α) :=
  match v.bracket? with
  | some .list => v.items.mapM f
  | _ => none

/-- The keys and values of an object, if `key` and `value` give something for each of them. -/
def entries? {α β : Type} (key : List Piece → Option α) (value : Tree .value → Option β)
    (v : Tree .value) : Option (List (α × β)) :=
  match v.bracket? with
  | some .object => v.fields.mapM fun f => (key f.1).bind fun k => (value f.2).map (k, ·)
  | _ => none

theorem list?_of_list {α : Type} {v : Tree .value} (h : v.bracket? = some .list)
    (f : Tree .value → Option α) : v.list? f = v.items.mapM f := by
  rw [list?, h]

theorem list?_of_not_list {α : Type} {v : Tree .value} (h : v.bracket? ≠ some .list)
    (f : Tree .value → Option α) : v.list? f = none := by
  unfold list?
  split
  · next heq => exact absurd heq h
  · rfl

section Entries

variable {α β : Type} {v : Tree .value} (key : List Piece → Option α)
  (value : Tree .value → Option β)

theorem entries?_of_object (h : v.bracket? = some .object) :
    v.entries? key value =
      v.fields.mapM fun f => (key f.1).bind fun k => (value f.2).map (k, ·) := by
  rw [entries?, h]

theorem entries?_of_not_object (h : v.bracket? ≠ some .object) : v.entries? key value = none := by
  unfold entries?
  split
  · next heq => exact absurd heq h
  · rfl

end Entries

end Tree

theorem DecodesValues.list {α : Type} {item : Reader α} {f : Tree .value → Option α}
    (h : DecodesValues item f) : DecodesValues (readList item) (Tree.list? f) where
  read_dropSpace cs := by simp only [readList, dropSpace_dropSpace]
  decodes v rest hrest := by
    rw [readList, v.dropSpace_text]
    by_cases hv : v.bracket? = some .list
    · have hitem (xs : List α) :
          Decodes (do return xs ++ [← item]) Tree.text fun v => (f v).map (xs ++ [·]) :=
        h.decodes.map (xs ++ [·])
      obtain ⟨cs, htext, hread⟩ := readMembers_list hitem hv [] rest
      rw [htext, Tree.list?_of_list hv]
      refine hread.trans ?_
      rw [foldlM_put]
      simp [← List.flatMap_def]
    · obtain ⟨c, tail, hc, hbegins⟩ := v.begins
      rw [hc, Tree.list?_of_not_list hv]
      split
      · next heq => exact absurd (hbegins.list (List.cons.inj heq).1) hv
      · exact toOption_refuse _ _

theorem DecodesValues.optional {α : Type} {r : Reader α} {f : Tree .value → Option α}
    (h : DecodesValues r f) :
    DecodesValues (readOptional r) fun v => if v.isNull then some none else (f v).map some where
  read_dropSpace cs := by simp only [readOptional, dropSpace_dropSpace]
  decodes v rest hrest := by
    by_cases hv : v.isNull
    · rw [Tree.eq_null hv]
      rfl
    · obtain ⟨c, tail, hc, hbegins⟩ := v.begins
      have hread := h.decodes v rest hrest
      unfold readOptional
      rw [v.dropSpace_text]
      rw [hc] at hread ⊢
      dsimp only
      rw [if_neg hv]
      split
      · next heq =>
        rw [hbegins.null (List.cons.inj heq).1] at hv
        exact absurd rfl hv
      · change (r _ >>= fun p => .ok (some p.1, p.2)).toOption = _
        rw [toOption_bind, hread]
        cases f v <;> rfl

theorem toOption_readEntry {α β σ : Type} {key : Reader α} {value : Reader β}
    {f : List Piece → Option α} {g : Tree .value → Option β} (hkey : Decodes key quoted f)
    (hvalue : DecodesValues value g) (put : σ → α → β → σ) (s : σ) (ps : List Piece)
    (after before : Space) (v : Tree .value) {rest : List Char} (hrest : EndsNumber rest) :
    (readEntry key value put s
      (quoted ps ++ (after.chars ++ ':' :: (before.chars ++ (v.text ++ rest))))).toOption =
      (((f ps).bind fun k => (g v).map (k, ·)).map fun e => put s e.1 e.2).map (·, rest) := by
  have hends := (endsNumber_colon (before.chars ++ (v.text ++ rest))).space after
  change (key _ >>= fun p => readColon p.2 >>= fun q => value q.2 >>= fun e =>
    .ok (put s p.1 e.1, e.2)).toOption = _
  rw [toOption_bind, hkey ps _ hends]
  cases f ps with
  | none => rfl
  | some k =>
    change (readColon _ >>= fun q => value q.2 >>= fun e => .ok (put s k e.1, e.2)).toOption = _
    rw [readColon_space]
    change (value _ >>= fun e => .ok (put s k e.1, e.2)).toOption = _
    rw [hvalue.read_space, toOption_bind, hvalue.decodes v rest hrest]
    cases g v <;> rfl

end WordMachines.Json
