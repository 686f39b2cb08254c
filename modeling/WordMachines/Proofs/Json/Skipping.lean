import Mathlib.Tactic
import Mathlib.Data.List.DropRight
import WordMachines.Proofs.Json.Tokens

/-!
# Skipping passes over every value

Whatever value the grammar allows, however deep its brackets are nested, skipping comes to its end
and no further, in at most two rounds a character.
-/

namespace WordMachines.Json

def isInitial (c : Char) : Bool := isOpening c || c = 'n'

theorem ne_of_isInitial {c d : Char} (h : isInitial c) (hd : isInitial d = false) : c ≠ d := by
  rintro rfl
  rw [h] at hd
  cases hd

theorem isOpening_or_eq_of_isInitial {c : Char} (h : isInitial c) : isOpening c ∨ c = 'n' := by
  simpa [isInitial] using h

theorem isSpace_of_isInitial {c : Char} (h : isInitial c) : isSpace c = false := by
  rcases isOpening_or_eq_of_isInitial h with h | rfl
  · exact isSpace_of_isOpening h
  · rfl

theorem dropSpace_of_isInitial {c : Char} (h : isInitial c) (cs : List Char) :
    dropSpace (c :: cs) = c :: cs :=
  List.dropWhile_cons_of_neg (by simp [isSpace_of_isInitial h])

theorem isInitial_of_number {c : Char} (h : c = '-' ∨ c.isDigit) : isInitial c := by
  rcases h with rfl | h
  · rfl
  · simp [isInitial, isOpening, h]

theorem NumberText.exists_text_eq (n : NumberText) :
    ∃ c tail, n.text = c :: tail ∧ (c = '-' ∨ c.isDigit) := by
  unfold NumberText.text
  split_ifs
  · exact ⟨'-', _, rfl, Or.inl rfl⟩
  · obtain ⟨c, tail, hc, hdigit⟩ := n.exists_unsignedText_eq
    exact ⟨c, tail, hc, Or.inr hdigit⟩

theorem Scalar.exists_text_eq (s : Scalar) :
    ∃ c tail, s.text = c :: tail ∧ isInitial c ∧ c ≠ '[' ∧ c ≠ '{' ∧ (c = 'n' → s = .null) := by
  cases s with
  | null => exact ⟨'n', _, rfl, rfl, by decide, by decide, fun _ => rfl⟩
  | bool b => cases b <;> exact ⟨_, _, rfl, rfl, by decide, by decide, nofun⟩
  | string ps => exact ⟨'"', _, rfl, rfl, by decide, by decide, nofun⟩
  | number n =>
    obtain ⟨c, tail, hc, hnumber⟩ := n.exists_text_eq
    have hne (d : Char) (hd : d ≠ '-' ∧ d.isDigit = false) : c ≠ d := by
      rintro rfl
      rcases hnumber with h | h
      · exact hd.1 h
      · rw [h] at hd
        cases hd.2
    exact ⟨c, tail, hc, isInitial_of_number hnumber, hne _ (by decide), hne _ (by decide),
      fun h => absurd h (hne 'n' (by decide))⟩

theorem Bracket.isInitial_opening (b : Bracket) : isInitial b.opening := by
  cases b <;> rfl

theorem Bracket.isInitial_close (b : Bracket) : isInitial b.close = false := by
  cases b <;> rfl

theorem Tree.exists_text_eq (v : Tree .value) :
    ∃ c tail, v.text = c :: tail ∧ isInitial c ∧ (c = 'n' → v = null) := by
  have hbracket (b : Bracket) : b.opening ≠ 'n' := by cases b <;> decide
  cases v with
  | scalar s =>
    obtain ⟨c, tail, hc, hinitial, -, -, hnull⟩ := s.exists_text_eq
    exact ⟨c, tail, hc, hinitial, fun h => congrArg scalar (hnull h)⟩
  | empty b inner => exact ⟨_, _, rfl, b.isInitial_opening, fun h => absurd h (hbracket b)⟩
  | bracket b ms => exact ⟨_, _, rfl, b.isInitial_opening, fun h => absurd h (hbracket b)⟩

theorem Tree.opens {v : Tree .value} (h : v.isNull = false) : Opens v.text := by
  obtain ⟨c, tail, hc, hinitial, hnull⟩ := v.exists_text_eq
  refine ⟨c, tail, hc, ?_⟩
  rcases isOpening_or_eq_of_isInitial hinitial with hopening | hn
  · exact hopening
  · rw [hnull hn] at h
    cases h

theorem Tree.dropSpace_text (v : Tree .value) (rest : List Char) :
    dropSpace (v.text ++ rest) = v.text ++ rest := by
  obtain ⟨c, tail, hc, hinitial, -⟩ := v.exists_text_eq
  rw [hc]
  exact dropSpace_of_isInitial hinitial _

theorem skipScalar_of_number {c : Char} (hc : c = '-' ∨ c.isDigit) (cs : List Char) :
    skipScalar (c :: cs) = skipNumber (c :: cs) := by
  unfold skipScalar
  split
  case h_6 heq =>
    cases heq
    exact if_pos hc
  all_goals
    rename_i heq
    cases heq
  all_goals exact absurd hc (by decide)

theorem Scalar.skipScalar_text (s : Scalar) {rest : List Char} (hrest : EndsNumber rest) :
    skipScalar (s.text ++ rest) = .ok rest := by
  cases s with
  | null => rfl
  | bool b => cases b <;> rfl
  | string ps =>
    have hskip := Piece.skipText_text ps rest
    rw [text, quoted, List.cons_append, List.append_assoc]
    exact hskip
  | number n =>
    have hread := n.read_text .malformed hrest
    obtain ⟨c, tail, hc, hnumber⟩ := n.exists_text_eq
    rw [text]
    rw [hc, List.cons_append] at hread ⊢
    rw [skipScalar_of_number hnumber, skipNumber, hread]
    rfl

theorem Head.skipKey_text {b : Bracket} (h : Head b) (rest : List Char) :
    skipKey b (h.text ++ rest) = .ok rest := by
  cases h with
  | item => rfl
  | key before ps after =>
    have hskip := Piece.skipText_text ps (after.chars ++ ':' :: rest)
    simp only [skipKey, text, quoted, List.append_assoc, List.cons_append, List.nil_append,
      before.dropSpace_append]
    change (skipText (ps.flatMap Piece.text ++ '"' :: (after.chars ++ ':' :: rest)) >>= fun cs =>
      readColon cs >>= fun p => .ok p.2) = _
    rw [hskip]
    change (readColon (after.chars ++ ':' :: rest) >>= fun p => .ok p.2) = _
    rw [readColon_space]
    rfl

theorem dropSpace_dropSpace (cs : List Char) : dropSpace (dropSpace cs) = dropSpace cs :=
  List.dropWhile_idempotent ..

/-- The rounds from the start of a member on. -/
def skipMember (fuel : ℕ) (b : Bracket) (opened : List Bracket) (cs : List Char) :
    Except Fault (List Char) := do
  let rest ← skipKey b cs
  skip fuel .value (b :: opened) rest

section Rounds

variable (fuel : ℕ) (b : Bracket) (opened : List Bracket)

theorem skip_dropSpace (cs : List Char) :
    skip (fuel + 1) .value opened (dropSpace cs) = skip (fuel + 1) .value opened cs := by
  rw [skip, skip, dropSpace_dropSpace]

theorem skip_space (s : Space) (rest : List Char) :
    skip (fuel + 1) .value opened (s.chars ++ rest) = skip (fuel + 1) .value opened rest := by
  rw [← skip_dropSpace, s.dropSpace_append, skip_dropSpace]

theorem skipMember_dropSpace (cs : List Char) :
    skipMember (fuel + 1) b opened (dropSpace cs) = skipMember (fuel + 1) b opened cs := by
  cases b with
  | list => exact skip_dropSpace fuel _ cs
  | object =>
    rw [skipMember, skipKey, dropSpace_dropSpace]
    rfl

theorem skip_scalar (s : Scalar) {rest : List Char} (hrest : EndsNumber rest) :
    skip (fuel + 1) .value opened (s.text ++ rest) = skip fuel .separator opened rest := by
  have hskip := s.skipScalar_text hrest
  obtain ⟨c, tail, hc, hinitial, hlist, hobject, -⟩ := s.exists_text_eq
  rw [hc, List.cons_append] at hskip ⊢
  rw [skip, dropSpace_of_isInitial hinitial]
  split
  · next heq =>
    cases heq
    exact absurd rfl hlist
  · next heq =>
    cases heq
    exact absurd rfl hobject
  · rw [hskip]
    rfl

theorem skip_opening (cs : List Char) :
    skip (fuel + 1) .value opened (b.opening :: cs) = skip fuel .member (b :: opened) cs := by
  cases b <;> rfl

theorem skip_close_of_member (s : Space) (rest : List Char) :
    skip (fuel + 1) .member (b :: opened) (s.chars ++ b.close :: rest) =
      skip fuel .separator opened rest := by
  have hclose : dropSpace (b.close :: rest) = b.close :: rest := by cases b <;> rfl
  rw [skip, s.dropSpace_append, hclose]
  exact if_pos rfl

theorem skip_close (s : Space) (rest : List Char) :
    skip (fuel + 1) .separator (b :: opened) (s.chars ++ b.close :: rest) =
      skip fuel .separator opened rest := by
  have hclose : dropSpace (b.close :: rest) = b.close :: rest := by cases b <;> rfl
  rw [skip, s.dropSpace_append, hclose]
  exact if_pos rfl

theorem skip_comma (s : Space) (rest : List Char) :
    skip (fuel + 1) .separator (b :: opened) (s.chars ++ ',' :: rest) =
      skipMember fuel b opened rest := by
  have hcomma : dropSpace (',' :: rest) = ',' :: rest := rfl
  have hclose : ',' ≠ b.close := by cases b <;> decide
  rw [skip, s.dropSpace_append, hcomma]
  exact (if_neg hclose).trans (if_pos rfl)

end Rounds

namespace Tree

/-- The members come to the first closing bracket behind them, a value to what follows it. -/
def Skipped : {f : Form} → Tree f → Prop
  | .value, v => ∃ n ≤ 2 * v.text.length, ∀ fuel opened rest, EndsNumber rest →
    skip (fuel + n) .value opened (v.text ++ rest) = skip fuel .separator opened rest
  | .members b, ms => ∃ n ≤ 2 * ms.text.length, ∀ fuel opened rest,
    skipMember (fuel + n + 1) b opened (ms.text ++ b.close :: rest) =
      skip fuel .separator opened rest

theorem exists_dropSpace_members_eq {b : Bracket} (ms : Tree (.members b)) (rest : List Char) :
    ∃ c tail, dropSpace (ms.text ++ rest) = c :: tail ∧ isInitial c := by
  have hmember (h : Head b) (before : Space) (v : Tree .value) (rest : List Char) :
      ∃ c tail, dropSpace (h.text ++ (before.chars ++ (v.text ++ rest))) = c :: tail ∧
        isInitial c := by
    cases h with
    | item =>
      obtain ⟨c, tail, hc, hinitial, -⟩ := v.exists_text_eq
      refine ⟨c, tail ++ rest, ?_, hinitial⟩
      rw [Head.text, List.nil_append, before.dropSpace_append, v.dropSpace_text, hc]
      rfl
    | key before ps after =>
      rw [Head.text, List.append_assoc, before.dropSpace_append]
      exact ⟨'"', _, rfl, rfl⟩
  cases ms with
  | last h before v after =>
    simp only [text, List.append_assoc]
    exact hmember h before v _
  | more h before v after ms =>
    simp only [text, List.append_assoc]
    exact hmember h before v _

theorem skip_members (fuel : ℕ) {b : Bracket} (opened : List Bracket) (ms : Tree (.members b))
    (rest : List Char) :
    skip (fuel + 2) .member (b :: opened) (ms.text ++ rest) =
      skipMember (fuel + 1) b opened (ms.text ++ rest) := by
  obtain ⟨c, tail, hc, hinitial⟩ := ms.exists_dropSpace_members_eq rest
  have hclose : c ≠ b.close := ne_of_isInitial hinitial b.isInitial_close
  rw [← skipMember_dropSpace, skip, hc]
  exact if_neg hclose

theorem skipped {f : Form} (t : Tree f) : t.Skipped := by
  induction t with
  | scalar s =>
    obtain ⟨c, tail, hc, -⟩ := s.exists_text_eq
    refine ⟨1, by simp only [text, hc, List.length_cons]; omega, ?_⟩
    intro fuel opened rest hrest
    exact skip_scalar fuel opened s hrest
  | empty b inner =>
    refine ⟨2, by simp only [text, List.length_cons, List.length_append]; omega, ?_⟩
    intro fuel opened rest _
    rw [text, List.cons_append, List.append_assoc, skip_opening]
    exact skip_close_of_member fuel b opened inner rest
  | bracket b ms ih =>
    obtain ⟨n, hn, hms⟩ := ih
    refine ⟨n + 3, by simp only [text, List.length_cons, List.length_append]; omega, ?_⟩
    intro fuel opened rest _
    rw [text, List.cons_append, List.append_assoc]
    calc skip (fuel + (n + 3)) .value opened (b.opening :: (ms.text ++ b.close :: rest))
        = skip (fuel + n + 2) .member (b :: opened) (ms.text ++ b.close :: rest) :=
          skip_opening (fuel + n + 2) b opened _
      _ = skipMember (fuel + n + 1) b opened (ms.text ++ b.close :: rest) :=
          skip_members (fuel + n) opened ms _
      _ = skip fuel .separator opened rest := hms fuel opened rest
  | @last b h before v after ih =>
    obtain ⟨n, hn, hv⟩ := ih
    refine ⟨n, by simp only [text, List.length_append]; omega, ?_⟩
    intro fuel opened rest
    have hends := (b.endsNumber_close rest).space after
    simp only [text, List.append_assoc]
    rw [skipMember, h.skipKey_text]
    change skip (fuel + n + 1) .value (b :: opened) _ = _
    rw [skip_space, Nat.add_right_comm, hv _ _ _ hends, skip_close]
  | @more b h before v after ms ihv ihms =>
    obtain ⟨n, hn, hv⟩ := ihv
    obtain ⟨k, hk, hms⟩ := ihms
    refine ⟨n + k + 1, by simp only [text, List.length_append, List.length_cons]; omega, ?_⟩
    intro fuel opened rest
    have hends := (endsNumber_comma (ms.text ++ b.close :: rest)).space after
    simp only [text, List.append_assoc, List.cons_append]
    rw [skipMember, h.skipKey_text]
    change skip (fuel + (n + k + 1) + 1) .value (b :: opened) _ = _
    have hrounds : fuel + (n + k + 1) + 1 = fuel + k + 1 + 1 + n := by omega
    rw [skip_space, hrounds, hv _ _ _ hends, skip_comma, hms]

end Tree

/-- A value of any kind and depth is skipped. -/
theorem Tree.reads_skipValue (before : Space) (v : Tree .value) :
    Reads skipValue (before.chars ++ v.text) () := by
  intro rest hrest
  obtain ⟨n, hn, hskip⟩ := v.skipped
  have hlength : v.text.length ≤ (before.chars ++ v.text ++ rest).length := by
    simp only [List.length_append]
    omega
  obtain ⟨fuel, hfuel⟩ : ∃ fuel, 2 * (before.chars ++ v.text ++ rest).length + 2 = fuel + 1 + n :=
    ⟨2 * (before.chars ++ v.text ++ rest).length + 1 - n, by omega⟩
  rw [skipValue, hfuel, List.append_assoc, Nat.add_right_comm, skip_space, Nat.add_right_comm,
    hskip _ _ _ hrest]
  rfl

end WordMachines.Json
