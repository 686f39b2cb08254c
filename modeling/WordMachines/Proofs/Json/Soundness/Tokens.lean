import Mathlib.Tactic
import WordMachines.Proofs.Json.Labels
import WordMachines.Proofs.Json.Skipping

/-!
# Only tokens of the grammar are taken

Where a string, a number or a word is read or skipped, the characters that are gone are those of
such a token of the grammar.
-/

namespace WordMachines.Json

theorem exists_space (cs : List Char) : ∃ before : Space, cs = before.chars ++ dropSpace cs := by
  have hspace : (cs.takeWhile isSpace).all isSpace := by
    rw [List.all_eq_true]
    exact fun c hc => List.mem_takeWhile_imp hc
  exact ⟨⟨_, hspace⟩, List.takeWhile_append_dropWhile.symm⟩

theorem exists_codeUnit {cs rest : List Char} {n : ℕ} (h : readHex cs = .ok (n, rest)) :
    ∃ u : CodeUnit, cs = u.text ++ rest ∧ u.value = n := by
  unfold readHex at h
  split at h
  · split at h
    · next ha hb hc hd =>
      cases h
      exact ⟨⟨⟨_, _, ha⟩, ⟨_, _, hb⟩, ⟨_, _, hc⟩, ⟨_, _, hd⟩⟩, rfl, rfl⟩
    · cases h
  · cases h

theorem exists_pieces_of_readTrailing {lead : ℕ} {cs rest : List Char} {c : Char}
    (h : readTrailing lead cs = .ok (c, rest)) :
    ∃ ps : List Piece, cs = ps.flatMap Piece.text ++ rest := by
  unfold readTrailing at h
  split at h
  · cases h
  · cases h
  · obtain ⟨⟨n, middle⟩, hn, hend⟩ := exists_of_bind_eq_ok h
    obtain ⟨u, rfl, -⟩ := exists_codeUnit hn
    dsimp only at hend
    split_ifs at hend
    obtain ⟨-, rfl⟩ := Prod.mk.inj (Except.ok.inj hend)
    exact ⟨[.unit u], by simp [Piece.text]⟩
  · cases h

/-- An escape is one piece or, if it is a surrogate pair, two. -/
theorem exists_pieces_of_readEscape {cs rest : List Char} {c : Char}
    (h : readEscape cs = .ok (c, rest)) :
    ∃ ps : List Piece, '\\' :: cs = ps.flatMap Piece.text ++ rest := by
  unfold readEscape at h
  split at h
  · cases h
  · obtain ⟨⟨n, middle⟩, hn, hend⟩ := exists_of_bind_eq_ok h
    obtain ⟨u, rfl, -⟩ := exists_codeUnit hn
    dsimp only at hend
    split_ifs at hend
    · obtain ⟨ps, rfl⟩ := exists_pieces_of_readTrailing hend
      exact ⟨.unit u :: ps, by simp [Piece.text]⟩
    · cases hend
      exact ⟨[.unit u], by simp [Piece.text]⟩
  · split at h
    · next hletter =>
      cases h
      exact ⟨[.escape _ _ hletter], by simp [Piece.text]⟩
    · cases h

theorem exists_pieces_of_skipEscape {cs rest : List Char} (h : skipEscape cs = .ok rest) :
    ∃ ps : List Piece, '\\' :: cs = ps.flatMap Piece.text ++ rest := by
  unfold skipEscape at h
  split at h
  · cases h
  · obtain ⟨⟨n, middle⟩, hn, hend⟩ := exists_of_bind_eq_ok h
    obtain ⟨u, rfl, -⟩ := exists_codeUnit hn
    cases hend
    exact ⟨[.unit u], by simp [Piece.text]⟩
  · next c rest' _ =>
    split_ifs at h with hletter
    cases h
    obtain ⟨d, hd⟩ := Option.isSome_iff_exists.mp hletter
    exact ⟨[.escape c d hd], by simp [Piece.text]⟩

theorem exists_pieces_of_readChars {fuel : ℕ} {cs ds rest : List Char}
    (h : readChars fuel cs = .ok (ds, rest)) :
    ∃ ps : List Piece, cs = ps.flatMap Piece.text ++ '"' :: rest := by
  induction fuel generalizing cs ds with
  | zero => cases h
  | succ fuel ih =>
    cases cs with
    | nil => cases h
    | cons c cs =>
      rw [readChars] at h
      split_ifs at h with hquote hescape hcontrol
      · cases h
        exact ⟨[], by simp [hquote]⟩
      · obtain ⟨⟨d, middle⟩, hd, h⟩ := exists_of_bind_eq_ok h
        obtain ⟨⟨ds', rest'⟩, hds, h⟩ := exists_of_bind_eq_ok h
        cases h
        obtain ⟨ps, hps⟩ := exists_pieces_of_readEscape hd
        obtain ⟨qs, rfl⟩ := ih hds
        exact ⟨ps ++ qs, by simp [hescape, hps]⟩
      · obtain ⟨⟨ds', rest'⟩, hds, h⟩ := exists_of_bind_eq_ok h
        cases h
        obtain ⟨qs, rfl⟩ := ih hds
        exact ⟨.plain c ⟨hquote, hescape, not_lt.mp hcontrol⟩ :: qs, by simp [Piece.text]⟩

theorem exists_pieces_of_skipChars {fuel : ℕ} {cs rest : List Char}
    (h : skipChars fuel cs = .ok rest) :
    ∃ ps : List Piece, cs = ps.flatMap Piece.text ++ '"' :: rest := by
  induction fuel generalizing cs with
  | zero => cases h
  | succ fuel ih =>
    cases cs with
    | nil => cases h
    | cons c cs =>
      rw [skipChars] at h
      split_ifs at h with hquote hescape hcontrol
      · cases h
        exact ⟨[], by simp [hquote]⟩
      · obtain ⟨middle, hmiddle, h⟩ := exists_of_bind_eq_ok h
        obtain ⟨ps, hps⟩ := exists_pieces_of_skipEscape hmiddle
        obtain ⟨qs, rfl⟩ := ih h
        exact ⟨ps ++ qs, by simp [hescape, hps]⟩
      · obtain ⟨qs, rfl⟩ := ih h
        exact ⟨.plain c ⟨hquote, hescape, not_lt.mp hcontrol⟩ :: qs, by simp [Piece.text]⟩

theorem exists_quoted_of_readText {cs rest : List Char} {s : String}
    (h : readText cs = .ok (s, rest)) : ∃ ps : List Piece, '"' :: cs = quoted ps ++ rest := by
  obtain ⟨⟨ds, rest'⟩, hds, h⟩ := exists_of_bind_eq_ok h
  cases h
  obtain ⟨ps, rfl⟩ := exists_pieces_of_readChars hds
  exact ⟨ps, by simp [quoted]⟩

theorem exists_quoted_of_skipText {cs rest : List Char} (h : skipText cs = .ok rest) :
    ∃ ps : List Piece, '"' :: cs = quoted ps ++ rest := by
  obtain ⟨ps, rfl⟩ := exists_pieces_of_skipChars h
  exact ⟨ps, by simp [quoted]⟩

section Numbers

variable {cut : Fault} {cs rest : List Char}

theorem exists_digits {ds : List Char} (h : Numeral.readDigits cut cs = .ok (ds, rest)) :
    ∃ digits : Digits, digits.chars = ds ∧ cs = ds ++ rest := by
  obtain ⟨happend, hne, hall⟩ := eq_append_of_readDigits h
  exact ⟨⟨ds, hne, List.all_eq_true.mpr hall⟩, rfl, happend⟩

theorem exists_whole {ds : List Char} (h : Numeral.readWhole cut cs = .ok (ds, rest)) :
    ∃ digits : Digits, ¬(digits.chars.length > 1 ∧ digits.chars.head? = some '0') ∧
      cs = digits.chars ++ rest := by
  obtain ⟨⟨ds', rest'⟩, hdigits, hcheck⟩ := exists_of_bind_eq_ok h
  obtain ⟨digits, rfl, happend⟩ := exists_digits hdigits
  dsimp only at hcheck
  split_ifs at hcheck with hzero
  · cases hcheck
  · cases hcheck
    exact ⟨digits, hzero, happend⟩

theorem exists_fraction {ds : List Char} (h : Numeral.readFraction cut cs = .ok (ds, rest)) :
    ∃ fraction : Option Digits, cs = (fraction.elim [] fun ds => '.' :: ds.chars) ++ rest := by
  unfold Numeral.readFraction at h
  split at h
  · obtain ⟨digits, rfl, rfl⟩ := exists_digits h
    exact ⟨some digits, rfl⟩
  · cases h
    exact ⟨none, rfl⟩

theorem exists_sign {mark : Char} (hmark : mark = 'e' ∨ mark = 'E') (digits : Digits)
    (cs : List Char) :
    ∃ e : Exponent, e.mark = mark ∧ e.digits = digits ∧
      cs = e.signText ++ (Numeral.exponentSign cs).2 := by
  unfold Numeral.exponentSign
  split_ifs with hplus hminus
  · exact ⟨⟨mark, hmark, some false, digits⟩, rfl, rfl, (List.cons_head?_tail hplus).symm⟩
  · exact ⟨⟨mark, hmark, some true, digits⟩, rfl, rfl, (List.cons_head?_tail hminus).symm⟩
  · exact ⟨⟨mark, hmark, none, digits⟩, rfl, rfl, rfl⟩

theorem exists_exponent {x : Option (Bool × List Char)}
    (h : Numeral.readExponent cut cs = .ok (x, rest)) :
    ∃ exponent : Option Exponent, cs = exponent.elim [] Exponent.text ++ rest := by
  cases cs with
  | nil =>
    cases h
    exact ⟨none, rfl⟩
  | cons c cs =>
    by_cases hmark : c = 'e' ∨ c = 'E'
    · rw [Numeral.readExponent_of_mark cut hmark] at h
      obtain ⟨⟨ds, rest'⟩, hdigits, hend⟩ := exists_of_bind_eq_ok h
      cases hend
      obtain ⟨digits, rfl, hcs⟩ := exists_digits hdigits
      obtain ⟨e, rfl, rfl, hsign⟩ := exists_sign hmark digits cs
      rw [hcs] at hsign
      refine ⟨some e, ?_⟩
      rw [hsign]
      simp [Exponent.text]
    · have hnone : ∀ d ∈ (c :: cs).head?, d ≠ 'e' ∧ d ≠ 'E' := by
        rintro d ⟨⟩
        exact not_or.mp hmark
      rw [Numeral.readExponent_of_no_mark cut hnone] at h
      cases h
      exact ⟨none, rfl⟩

theorem exists_unsigned {negative : Bool} {x : Numeral}
    (h : Numeral.readUnsigned cut negative cs = .ok (x, rest)) :
    ∃ n : NumberText, n.negative = negative ∧ cs = n.unsignedText ++ rest := by
  obtain ⟨⟨_, rest₁⟩, hwhole, h⟩ := exists_of_bind_eq_ok h
  obtain ⟨⟨_, rest₂⟩, hfraction, h⟩ := exists_of_bind_eq_ok h
  obtain ⟨⟨_, rest₃⟩, hexponent, h⟩ := exists_of_bind_eq_ok h
  cases h
  obtain ⟨whole, hzero, hcs⟩ := exists_whole hwhole
  obtain ⟨fraction, hrest₁⟩ := exists_fraction hfraction
  obtain ⟨exponent, hrest₂⟩ := exists_exponent hexponent
  refine ⟨⟨negative, whole, hzero, fraction, exponent⟩, rfl, ?_⟩
  simp [NumberText.unsignedText, NumberText.fractionText, NumberText.exponentText, hcs, hrest₁,
    hrest₂]

theorem exists_numberText {x : Numeral} (h : Numeral.read cut cs = .ok (x, rest)) :
    ∃ n : NumberText, cs = n.text ++ rest := by
  by_cases hsign : cs.head? = some '-'
  · obtain ⟨tail, rfl⟩ := List.head?_eq_some_iff.mp hsign
    have hunsigned : Numeral.readUnsigned cut true tail = .ok (x, rest) := h
    obtain ⟨n, hn, rfl⟩ := exists_unsigned hunsigned
    exact ⟨n, by simp [NumberText.text, hn]⟩
  · rw [Numeral.read_of_ne_minus cut hsign] at h
    obtain ⟨n, hn, rfl⟩ := exists_unsigned h
    exact ⟨n, by simp [NumberText.text, hn]⟩

theorem exists_number {n : Number} (h : readNumber cs = .ok (n, rest)) :
    ∃ n : NumberText, cs = n.text ++ rest := by
  obtain ⟨⟨x, rest'⟩, hread, h⟩ := exists_of_bind_eq_ok h
  obtain ⟨n, hn⟩ := exists_numberText hread
  have hrest : rest' = rest := by
    dsimp only at h
    split at h
    · cases h
      rfl
    · split at h
      · cases h
        rfl
      · cases h
  exact ⟨n, hrest ▸ hn⟩

theorem exists_skippedNumber (h : skipNumber cs = .ok rest) :
    ∃ n : NumberText, cs = n.text ++ rest := by
  obtain ⟨⟨x, rest'⟩, hread, h⟩ := exists_of_bind_eq_ok h
  cases h
  exact exists_numberText hread

end Numbers

theorem eq_append_of_readExactly {word cs rest : List Char} {u : Unit}
    (h : readExactly word cs = .ok (u, rest)) : cs = word ++ rest := by
  induction word generalizing cs with
  | nil =>
    cases h
    rfl
  | cons c word ih =>
    cases cs with
    | nil => cases h
    | cons d cs =>
      change (if c = d then readExactly word cs else .error .malformed) = _ at h
      split_ifs at h with hc
      rw [ih h, hc, List.cons_append]

/-- The rest of a word whose first character has been read. -/
theorem eq_append_of_readExactly_bind {word cs rest : List Char} {α : Type} {x y : α}
    (h : (readExactly word cs >>= fun p => .ok (x, p.2)) = .ok (y, rest)) : cs = word ++ rest := by
  obtain ⟨⟨_, rest'⟩, hread, hend⟩ := exists_of_bind_eq_ok h
  cases hend
  exact eq_append_of_readExactly hread

/-- The first token of a value that does not open a bracket. -/
theorem exists_scalar_of_readFound {cs rest : List Char} {found : Found}
    (h : readFound cs = .ok (found, rest)) (hlist : found ≠ .list) (hobject : found ≠ .object) :
    ∃ s : Scalar, cs = s.text ++ rest := by
  unfold readFound at h
  split at h
  · cases h
  · obtain ⟨⟨s, rest'⟩, hs, h⟩ := exists_of_bind_eq_ok h
    cases h
    obtain ⟨ps, hps⟩ := exists_quoted_of_readText hs
    exact ⟨.string ps, hps⟩
  · cases h
    exact absurd rfl hlist
  · cases h
    exact absurd rfl hobject
  · exact ⟨.null, congrArg _ (eq_append_of_readExactly_bind h)⟩
  · exact ⟨.bool true, congrArg _ (eq_append_of_readExactly_bind h)⟩
  · exact ⟨.bool false, congrArg _ (eq_append_of_readExactly_bind h)⟩
  · split_ifs at h
    obtain ⟨⟨n, rest'⟩, hn, h⟩ := exists_of_bind_eq_ok h
    cases h
    obtain ⟨n, hn⟩ := exists_number hn
    exact ⟨.number n, hn⟩

theorem exists_scalar_of_skipScalar {cs rest : List Char} (h : skipScalar cs = .ok rest) :
    ∃ s : Scalar, cs = s.text ++ rest := by
  have hword {word cs : List Char} (h : Prod.snd <$> readExactly word cs = .ok rest) :
      cs = word ++ rest := by
    obtain ⟨⟨_, rest'⟩, hread, hend⟩ := exists_of_bind_eq_ok h
    cases hend
    exact eq_append_of_readExactly hread
  unfold skipScalar at h
  split at h
  · cases h
  · obtain ⟨ps, hps⟩ := exists_quoted_of_skipText h
    exact ⟨.string ps, hps⟩
  · exact ⟨.null, congrArg _ (hword h)⟩
  · exact ⟨.bool true, congrArg _ (hword h)⟩
  · exact ⟨.bool false, congrArg _ (hword h)⟩
  · split_ifs at h
    obtain ⟨n, hn⟩ := exists_skippedNumber h
    exact ⟨.number n, hn⟩

theorem eq_append_of_readColon {cs rest : List Char} {u : Unit} (h : readColon cs = .ok (u, rest)) :
    ∃ before : Space, cs = before.chars ++ ':' :: rest := by
  obtain ⟨before, hcs⟩ := exists_space cs
  unfold readColon at h
  split at h
  · cases h
  · next hspace =>
    cases h
    exact ⟨before, by rw [← hspace]; exact hcs⟩
  · cases h

theorem exists_space_of_finish {cs : List Char} {u : Unit} (h : finish cs = .ok u) :
    ∃ after : Space, cs = after.chars := by
  obtain ⟨after, hcs⟩ := exists_space cs
  rw [finish] at h
  split_ifs at h with hspace
  rw [hspace, List.append_nil] at hcs
  exact ⟨after, hcs⟩

end WordMachines.Json
