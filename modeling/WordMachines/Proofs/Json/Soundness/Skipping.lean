import Mathlib.Tactic
import WordMachines.Proofs.Json.Soundness.Tokens

/-!
# Only values of the grammar are skipped

Between one bracket and the next, what is skipped is a value with white space before it, or the
members of a bracket, or what is left of them behind one of them.
-/

namespace WordMachines.Json

/-- A value with white space before it. -/
def IsValue (cs : List Char) : Prop :=
  ∃ (before : Space) (v : Tree .value), cs = before.chars ++ v.text

def IsKey (cs : List Char) : Prop := ∃ ps : List Piece, cs = quoted ps

/-- A member of a list or of an object. -/
def IsMember (b : Bracket) (cs : List Char) : Prop :=
  ∃ (head : Head b) (before : Space) (v : Tree .value),
    cs = head.text ++ (before.chars ++ v.text)

/-- What may stand behind a member: the end of the bracket, or a comma and further members. -/
def ClosesWith (b : Bracket) (cs rest : List Char) : Prop :=
  ∃ after : Space, cs = after.chars ++ b.close :: rest ∨
    ∃ ms : Tree (.members b), cs = after.chars ++ ',' :: (ms.text ++ b.close :: rest)

def Space.append (s t : Space) : Space :=
  ⟨s.chars ++ t.chars, by rw [List.all_append, s.all_isSpace, t.all_isSpace]; rfl⟩

theorem Tree.isValue (v : Tree .value) : IsValue v.text := ⟨.none, v, rfl⟩

theorem IsValue.of_dropSpace {cs taken rest : List Char} (h : IsValue taken)
    (hcs : dropSpace cs = taken ++ rest) : ∃ taken, IsValue taken ∧ cs = taken ++ rest := by
  obtain ⟨space, hspace⟩ := exists_space cs
  obtain ⟨before, v, rfl⟩ := h
  refine ⟨_, ⟨space.append before, v, rfl⟩, ?_⟩
  rw [hcs] at hspace
  simpa [Space.append] using hspace

theorem IsValue.isMember {cs : List Char} (h : IsValue cs) : IsMember .list cs := by
  obtain ⟨before, v, rfl⟩ := h
  exact ⟨.item, before, v, rfl⟩

/-- A key, a colon and a value. -/
theorem exists_isMember_of_readColon {ps : List Piece} {cs left rest : List Char} {u : Unit}
    (hcolon : readColon cs = .ok (u, left))
    (hvalue : ∃ taken, IsValue taken ∧ left = taken ++ rest) :
    ∃ taken, IsMember .object taken ∧ quoted ps ++ cs = taken ++ rest := by
  obtain ⟨after, rfl⟩ := eq_append_of_readColon hcolon
  obtain ⟨_, ⟨before, v, rfl⟩, rfl⟩ := hvalue
  exact ⟨_, ⟨.key .none ps after, before, v, rfl⟩, by simp [Head.text, Space.none]⟩

section Members

variable {b : Bracket} {cs taken middle rest : List Char}

theorem ClosesWith.exists_members (h : ClosesWith b middle rest) (head : Head b) (before : Space)
    (v : Tree .value) :
    ∃ ms : Tree (.members b),
      head.text ++ (before.chars ++ (v.text ++ middle)) = ms.text ++ b.close :: rest := by
  obtain ⟨after, rfl | ⟨ms, rfl⟩⟩ := h
  · exact ⟨.last head before v after, by simp [Tree.text]⟩
  · exact ⟨.more head before v after ms, by simp [Tree.text]⟩

theorem IsMember.exists_members (h : IsMember b taken) (hcs : dropSpace cs = taken ++ middle)
    (hmore : ClosesWith b middle rest) :
    ∃ ms : Tree (.members b), cs = ms.text ++ b.close :: rest := by
  have hspaced (space before : Space) (head : Head b) : ∃ (head' : Head b) (before' : Space),
      space.chars ++ (head.text ++ before.chars) = head'.text ++ before'.chars := by
    cases head with
    | item => exact ⟨.item, space.append before, rfl⟩
    | key inner ps after =>
      exact ⟨.key (space.append inner) ps after, before, by simp [Head.text, Space.append]⟩
  obtain ⟨space, hspace⟩ := exists_space cs
  obtain ⟨head, before, v, rfl⟩ := h
  obtain ⟨head', before', hhead⟩ := hspaced space before head
  obtain ⟨ms, hms⟩ := hmore.exists_members head' before' v
  rw [hcs] at hspace
  refine ⟨ms, ?_⟩
  calc
    cs = space.chars ++ (head.text ++ before.chars) ++ (v.text ++ middle) := by simpa using hspace
    _ = head'.text ++ (before'.chars ++ (v.text ++ middle)) := by simp [hhead]
    _ = ms.text ++ b.close :: rest := hms

end Members

theorem exists_head_of_skipKey {b : Bracket} {cs rest : List Char} (h : skipKey b cs = .ok rest) :
    ∃ head : Head b, cs = head.text ++ rest := by
  cases b with
  | list =>
    cases h
    exact ⟨.item, rfl⟩
  | object =>
    obtain ⟨before, hcs⟩ := exists_space cs
    simp only [skipKey] at h
    split at h
    · cases h
    · next hspace =>
      obtain ⟨middle, htext, h⟩ := exists_of_bind_eq_ok h
      obtain ⟨⟨_, rest'⟩, hcolon, h⟩ := exists_of_bind_eq_ok h
      cases h
      obtain ⟨ps, hps⟩ := exists_quoted_of_skipText htext
      obtain ⟨after, rfl⟩ := eq_append_of_readColon hcolon
      refine ⟨.key before ps after, ?_⟩
      rw [hcs, hspace, hps]
      simp [Head.text]
    · cases h

/-- Skipping has come to where the brackets in `opened` are still open, with rounds left over. -/
def ComesTo (fuel : ℕ) (opened : List Bracket) (cs rest : List Char) : Prop :=
  ∃ n < fuel, skip n .separator opened cs = .ok rest

/-- What is skipped from where a value is due. -/
def SkipsValue (fuel : ℕ) : Prop :=
  ∀ {opened : List Bracket} {cs rest : List Char}, skip fuel .value opened cs = .ok rest →
    ∃ taken left, IsValue taken ∧ cs = taken ++ left ∧ ComesTo fuel opened left rest

/-- What is skipped from the first member of a bracket on. -/
def SkipsMembers (fuel : ℕ) : Prop :=
  ∀ {b : Bracket} {opened : List Bracket} {cs rest : List Char},
    skipMember fuel b opened cs = .ok rest →
      ∃ (ms : Tree (.members b)) (left : List Char),
        cs = ms.text ++ b.close :: left ∧ ComesTo fuel opened left rest

/-- What is skipped behind a value in a bracket. -/
def SkipsMore (fuel : ℕ) : Prop :=
  ∀ {b : Bracket} {opened : List Bracket} {cs rest : List Char},
    skip fuel .separator (b :: opened) cs = .ok rest →
      ∃ left, ClosesWith b cs left ∧ ComesTo fuel opened left rest

structure SkipsJson (fuel : ℕ) : Prop where
  value : SkipsValue fuel
  members : SkipsMembers fuel
  more : SkipsMore fuel

section Rounds

variable {fuel : ℕ} {b : Bracket} {opened : List Bracket} {cs left rest : List Char}

theorem ComesTo.mono {fuel' : ℕ} (h : ComesTo fuel opened cs rest) (hle : fuel ≤ fuel') :
    ComesTo fuel' opened cs rest := by
  obtain ⟨n, hn, hskip⟩ := h
  exact ⟨n, by omega, hskip⟩

/-- An opening bracket has been passed over. -/
theorem exists_bracket (ih : ∀ n < fuel, SkipsJson n)
    (h : skip fuel .member (b :: opened) cs = .ok rest) :
    ∃ (v : Tree .value) (left : List Char), b.opening :: cs = v.text ++ left ∧
      ComesTo fuel opened left rest := by
  cases fuel with
  | zero => cases h
  | succ fuel =>
    obtain ⟨before, hcs⟩ := exists_space cs
    rw [skip] at h
    split at h
    · cases h
    · next c tail hspace =>
      split_ifs at h with hclose
      · refine ⟨.empty b before, tail, ?_, fuel, fuel.lt_succ_self, h⟩
        rw [hcs, hspace, hclose]
        simp [Tree.text]
      · have hmember : skipMember fuel b opened cs = .ok rest := by
          cases fuel with
          | zero =>
            obtain ⟨_, -, hrounds⟩ := exists_of_bind_eq_ok h
            cases hrounds
          | succ fuel =>
            rw [← skipMember_dropSpace, hspace]
            exact h
        obtain ⟨ms, left, rfl, hleft⟩ := (ih fuel fuel.lt_succ_self).members hmember
        exact ⟨.bracket b ms, left, by simp [Tree.text], hleft.mono fuel.le_succ⟩

theorem skipsValue (ih : ∀ n < fuel, SkipsJson n) : SkipsValue fuel := by
  intro opened cs rest h
  cases fuel with
  | zero => cases h
  | succ fuel =>
    have hbracket {b : Bracket} {tail : List Char} (hspace : dropSpace cs = b.opening :: tail)
        (h : skip fuel .member (b :: opened) tail = .ok rest) :
        ∃ taken left, IsValue taken ∧ cs = taken ++ left ∧ ComesTo (fuel + 1) opened left rest := by
      obtain ⟨v, left, htext, hleft⟩ := exists_bracket (fun n hn => ih n (by omega)) h
      obtain ⟨taken, htaken, hcs⟩ := v.isValue.of_dropSpace (hspace.trans htext)
      exact ⟨taken, left, htaken, hcs, hleft.mono fuel.le_succ⟩
    rw [skip] at h
    split at h
    · next hspace => exact hbracket (b := .list) hspace h
    · next hspace => exact hbracket (b := .object) hspace h
    · obtain ⟨left, hscalar, hleft⟩ := exists_of_bind_eq_ok h
      obtain ⟨s, hs⟩ := exists_scalar_of_skipScalar hscalar
      obtain ⟨taken, htaken, hcs⟩ := (Tree.scalar s).isValue.of_dropSpace hs
      exact ⟨taken, left, htaken, hcs, fuel, fuel.lt_succ_self, hleft⟩

theorem skipsMembers (ih : ∀ n < fuel, SkipsJson n) (hvalue : SkipsValue fuel) :
    SkipsMembers fuel := by
  intro b opened cs rest h
  obtain ⟨middle, hkey, hrounds⟩ := exists_of_bind_eq_ok h
  obtain ⟨head, rfl⟩ := exists_head_of_skipKey hkey
  obtain ⟨_, left, ⟨before, v, rfl⟩, rfl, n, hn, hleft⟩ := hvalue hrounds
  obtain ⟨left', hcloses, hcomes⟩ := (ih n hn).more hleft
  obtain ⟨ms, hms⟩ := hcloses.exists_members head before v
  exact ⟨ms, left', by simpa using hms, hcomes.mono hn.le⟩

theorem skipsMore (ih : ∀ n < fuel, SkipsJson n) : SkipsMore fuel := by
  intro b opened cs rest h
  cases fuel with
  | zero => cases h
  | succ fuel =>
    obtain ⟨after, hcs⟩ := exists_space cs
    rw [skip] at h
    split at h
    · cases h
    · next c tail hspace =>
      rw [hspace] at hcs
      split_ifs at h with hclose hcomma
      · exact ⟨tail, ⟨after, Or.inl (hclose ▸ hcs)⟩, fuel, fuel.lt_succ_self, h⟩
      · obtain ⟨ms, left, rfl, hleft⟩ := (ih fuel fuel.lt_succ_self).members h
        exact ⟨left, ⟨after, Or.inr ⟨ms, hcomma ▸ hcs⟩⟩, hleft.mono fuel.le_succ⟩

end Rounds

theorem skipsJson (fuel : ℕ) : SkipsJson fuel := by
  induction fuel using Nat.strong_induction_on with
  | _ fuel ih => exact ⟨skipsValue ih, skipsMembers ih (skipsValue ih), skipsMore ih⟩

theorem exists_isValue_of_skipValue {cs rest : List Char} {u : Unit}
    (h : skipValue cs = .ok (u, rest)) : ∃ taken, IsValue taken ∧ cs = taken ++ rest := by
  obtain ⟨rest', hskip, hend⟩ := exists_of_bind_eq_ok h
  cases hend
  obtain ⟨taken, left, htaken, hcs, n, -, hleft⟩ := (skipsJson _).value hskip
  cases n with
  | zero => cases hleft
  | succ n =>
    cases hleft
    exact ⟨taken, htaken, hcs⟩

end WordMachines.Json
