import Mathlib.Tactic
import WordMachines.Proofs.Json.Tokens

/-!
# Objects are read field by field

A reader of members that takes the fields of an object one after the other reads the object, however
its white space is placed and its keys are spelled. It refuses the object if it refuses a key.
-/

namespace WordMachines.Json

namespace Tree

/-- The texts of the members, without the commas between them. -/
def memberTexts : {f : Form} → Tree f → List (List Char)
  | _, bracket _ ms => ms.memberTexts
  | _, last h before v after => [h.text ++ (before.chars ++ (v.text ++ after.chars))]
  | _, more h before v after ms =>
    (h.text ++ (before.chars ++ (v.text ++ after.chars))) :: ms.memberTexts
  | _, _ => []

theorem text_members {b : Bracket} : ∀ ms : Tree (.members b), ms.text = writeJoined ms.memberTexts
  | last .. => rfl
  | more h before v after ms => by
    have hne : ms.memberTexts ≠ [] := by cases ms <;> exact List.cons_ne_nil _ _
    obtain ⟨u, us, hus⟩ := List.exists_cons_of_ne_nil hne
    simp only [text, memberTexts, ms.text_members, hus, writeJoined_cons, List.flatMap_cons,
      List.append_assoc, List.cons_append]

/-- A value with brackets is empty or has members between them. -/
theorem exists_of_bracket? {v : Tree .value} {b : Bracket} (h : v.bracket? = some b) :
    (∃ inner : Space, v = empty b inner) ∨ ∃ ms : Tree (.members b), v = bracket b ms := by
  cases v with
  | scalar => cases h
  | empty b' inner =>
    cases h
    exact Or.inl ⟨inner, rfl⟩
  | bracket b' ms =>
    cases h
    exact Or.inr ⟨ms, rfl⟩

theorem text_empty_append (b : Bracket) (inner : Space) (rest : List Char) :
    (empty b inner).text ++ rest = b.opening :: (inner.chars ++ b.close :: rest) := by
  simp [text]

theorem text_bracket_append {b : Bracket} (ms : Tree (.members b)) (rest : List Char) :
    (bracket b ms).text ++ rest = b.opening :: (ms.text ++ b.close :: rest) := by
  simp [text]

end Tree

variable {σ : Type} {member : σ → Reader σ} {s s' : σ} {r : Except Fault σ}

/-- `member` takes one field after the other, each from the state to which the one before has led,
up to one whose key it refuses if there is one. -/
inductive FieldsInTurn (member : σ → Reader σ) : σ → Fields → Except Fault σ → Prop
  | nil (s : σ) : FieldsInTurn member s [] (.ok s)
  | cons {s s' : σ} {r : Except Fault σ} {ps : List Piece} {v : Tree .value} {fs : Fields}
      (reads : ∀ after before : Space,
        Reads (member s) (quoted ps ++ (after.chars ++ ':' :: (before.chars ++ v.text))) s')
      (rest : FieldsInTurn member s' fs r) : FieldsInTurn member s ((ps, v) :: fs) r
  | refused {s : σ} {fault : Fault} {ps : List Piece}
      (refuses : ∀ rest, member s (quoted ps ++ rest) = .error fault) (v : Tree .value)
      (fs : Fields) : FieldsInTurn member s ((ps, v) :: fs) (.error fault)

theorem opens_quoted (ps : List Piece) : Opens (quoted ps) := ⟨'"', _, rfl, rfl⟩

theorem takes_field {ps : List Piece} {v : Tree .value}
    (hreads : ∀ after before : Space,
      Reads (member s) (quoted ps ++ (after.chars ++ ':' :: (before.chars ++ v.text))) s')
    (before after before' after' : Space) :
    Takes (member s) ((Head.key before ps after).text ++
      (before'.chars ++ (v.text ++ after'.chars))) s' := by
  refine ⟨before, after', _, ?_, (opens_quoted ps).append _, hreads after before'⟩
  simp [Head.text]

theorem refuses_field {ps : List Piece} {fault : Fault}
    (hrefuses : ∀ rest, member s (quoted ps ++ rest) = .error fault) (before after : Space)
    (value : List Char) :
    Refuses (member s) ((Head.key before ps after).text ++ value) fault := by
  refine ⟨before, quoted ps ++ (after.chars ++ ':' :: value), ?_, (opens_quoted ps).append _, ?_⟩
  · simp [Head.text]
  · intro rest
    rw [List.append_assoc]
    exact hrefuses _

theorem FieldsInTurn.readsInTurn : ∀ (ms : Tree (.members .object)) {s : σ} {r : Except Fault σ},
    FieldsInTurn member s ms.fields r → ReadsInTurn member s ms.memberTexts r
  | .last (.key before ps after) before' v after', _, _, .cons hreads (.nil _) =>
    .cons (takes_field hreads before after before' after') (.nil _)
  | .last (.key before ps after) before' v after', _, _, .refused hrefuses _ _ =>
    .refused (refuses_field hrefuses before after _) _
  | .more (.key before ps after) before' v after' ms, _, _, .cons hreads hrest =>
    .cons (takes_field hreads before after before' after') (FieldsInTurn.readsInTurn ms hrest)
  | .more (.key before ps after) before' v after' ms, _, _, .refused hrefuses _ _ =>
    .refused (refuses_field hrefuses before after _) _

theorem FieldsInTurn.readMembers {o : Tree .value} (ho : o.bracket? = some .object)
    (h : FieldsInTurn member s o.fields r) (rest : List Char) :
    ∃ cs, o.text ++ rest = '{' :: cs ∧ readMembers '}' member s cs = r.map (·, rest) := by
  obtain ⟨inner, rfl⟩ | ⟨ms, rfl⟩ := Tree.exists_of_bracket? ho
  · cases h
    exact ⟨_, Tree.text_empty_append .object inner rest,
      readMembers_writeJoined .object inner (.nil s) rest⟩
  · have hmembers := readMembers_writeJoined .object .none (readsInTurn ms h) rest
    rw [← ms.text_members] at hmembers
    exact ⟨_, Tree.text_bracket_append ms rest, hmembers⟩

end WordMachines.Json
