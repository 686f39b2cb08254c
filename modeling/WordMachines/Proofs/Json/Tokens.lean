import Mathlib.Tactic
import WordMachines.Proofs.Json.Grammar
import WordMachines.Proofs.Json.Identifier

/-!
# Strings and numbers of the grammar

A string is read as the text that it spells, and a number by its parts, as the grammar puts them.
Where a string is only skipped, its surrogate escapes need not pair.
-/

namespace WordMachines.Json

theorem readHex_text (u : CodeUnit) (rest : List Char) :
    readHex (u.text ++ rest) = .ok (u.value, rest) := by
  simp only [CodeUnit.text, List.cons_append, List.nil_append, readHex, HexDigit.hexValue?_eq]
  rfl

namespace Piece

theorem length_le_flatMap_text (ps : List Piece) : ps.length ≤ (ps.flatMap text).length := by
  induction ps with
  | nil => exact le_rfl
  | cons p ps ih =>
    have hp : 0 < p.text.length := by cases p <;> simp [text]
    rw [List.flatMap_cons, List.length_append, List.length_cons]
    omega

theorem skipEscape_simple {letter c : Char} (h : simpleEscape? letter = some c) (rest : List Char) :
    skipEscape (letter :: rest) = .ok rest := by
  unfold skipEscape
  split
  · contradiction
  · next heq =>
    cases heq
    cases h
  · next heq =>
    cases heq
    simp [h]

theorem skipChars_text {ps : List Piece} {fuel : ℕ} (h : ps.length < fuel) (rest : List Char) :
    skipChars fuel (ps.flatMap text ++ '"' :: rest) = .ok rest := by
  induction ps generalizing fuel with
  | nil =>
    obtain ⟨n, rfl⟩ := Nat.exists_eq_add_one_of_ne_zero (Nat.ne_of_gt h)
    rfl
  | cons p ps ih =>
    rw [List.length_cons] at h
    obtain ⟨n, rfl⟩ : ∃ n, fuel = n + 1 := ⟨fuel - 1, by omega⟩
    have hps : skipChars n (ps.flatMap text ++ '"' :: rest) = .ok rest := ih (by omega)
    rw [List.flatMap_cons, List.append_assoc]
    cases p with
    | plain c hc =>
      have hcontrol : ¬c.toNat < 0x20 := not_lt.mpr hc.2.2
      simp only [text, List.cons_append, List.nil_append, skipChars, hc.1, hc.2.1, hcontrol,
        if_false, hps]
    | escape letter c hc =>
      change (skipEscape (letter :: _) >>= skipChars n) = _
      rw [skipEscape_simple hc]
      exact hps
    | unit u =>
      change ((readHex (u.text ++ _) >>= fun p => .ok p.2) >>= skipChars n) = _
      rw [readHex_text]
      exact hps

theorem skipText_text (ps : List Piece) (rest : List Char) :
    skipText (ps.flatMap text ++ '"' :: rest) = .ok rest := by
  have hlength := length_le_flatMap_text ps
  exact skipChars_text (by rw [List.length_append]; omega) rest

theorem readEscape_unit (u : CodeUnit) (rest : List Char) :
    readEscape ('u' :: (u.text ++ rest)) =
      if isTrailing u.value then .error .malformed
      else if isLeading u.value then readTrailing u.value rest
      else .ok (Char.ofNat u.value, rest) := by
  change readCodePoint (u.text ++ rest) = _
  rw [readCodePoint, readHex_text]
  rfl

theorem readTrailing_unit (lead : ℕ) (v : CodeUnit) (rest : List Char) :
    readTrailing lead ('\\' :: 'u' :: (v.text ++ rest)) =
      if isTrailing v.value then .ok (pairedChar lead v.value, rest) else .error .malformed := by
  change (readHex (v.text ++ rest) >>= _) = _
  rw [readHex_text]
  rfl

/-- Behind the first half of a pair only another escape can stand. -/
theorem readTrailing_of_no_unit (lead : ℕ) {ps : List Piece} (h : ∀ v qs, ps ≠ unit v :: qs)
    (rest : List Char) :
    readTrailing lead (ps.flatMap text ++ '"' :: rest) = .error .malformed := by
  rcases ps with _ | ⟨p, ps⟩
  · rfl
  · cases p with
    | plain c hc =>
      unfold readTrailing
      split <;> simp_all [text]
    | escape letter c hc =>
      have hletter : letter ≠ 'u' := by
        rintro rfl
        cases hc
      unfold readTrailing
      split <;> simp_all [text]
    | unit v => exact absurd rfl (h v ps)

theorem readChars_fault {cs : List Char} {fault : Fault} (h : readEscape cs = .error fault)
    (fuel : ℕ) : readChars (fuel + 1) ('\\' :: cs) = .error fault := by
  change (readEscape cs >>= _) = _
  rw [h]
  rfl

/-- What reading a string comes to: its characters, or a fault of grammar if it has none. -/
def outcome (rest : List Char) : Option (List Char) → Except Fault (List Char × List Char)
  | some cs => .ok (cs, rest)
  | none => .error .malformed

theorem map_outcome (rest : List Char) (c : Char) (cs? : Option (List Char)) :
    (outcome rest cs?).map (fun r => (c :: r.1, r.2)) = outcome rest (cs?.map (c :: ·)) := by
  cases cs? <;> rfl

theorem readChars_text {ps : List Piece} {fuel : ℕ} (h : ps.length < fuel) (rest : List Char) :
    readChars fuel (ps.flatMap text ++ '"' :: rest) = outcome rest (chars? ps) := by
  -- each piece costs one round, save the second half of a surrogate pair
  obtain ⟨n, rfl⟩ : ∃ n, fuel = n + 1 := ⟨fuel - 1, by omega⟩
  have hunit (u : CodeUnit) (ps : List Piece) : (unit u :: ps).flatMap text ++ '"' :: rest =
      '\\' :: 'u' :: (u.text ++ (ps.flatMap text ++ '"' :: rest)) := rfl
  fun_induction chars? ps generalizing n with
  | case1 => rfl
  | case2 c hc ps ih =>
    have hcontrol : ¬c.toNat < 0x20 := not_lt.mpr hc.2.2
    obtain ⟨n, rfl⟩ : ∃ m, n = m + 1 := ⟨n - 1, by grind⟩
    change readChars (n + 1 + 1) (c :: (ps.flatMap text ++ '"' :: rest)) = _
    rw [← map_outcome, ← ih n (by grind), readChars, if_neg hc.1, if_neg hc.2.1, if_neg hcontrol]
    cases readChars (n + 1) (ps.flatMap text ++ '"' :: rest) <;> rfl
  | case3 letter c hc ps ih =>
    obtain ⟨n, rfl⟩ : ∃ m, n = m + 1 := ⟨n - 1, by grind⟩
    rw [← map_outcome, ← ih n (by grind)]
    have hletter (tail : List Char) : readEscape ([letter] ++ tail) = .ok (c, tail) :=
      readEscape_simple hc tail
    exact readChars_backslash (hletter _) (n + 1)
  | case4 u ps ht =>
    rw [hunit]
    apply readChars_fault
    rw [readEscape_unit, if_pos ht]
  | case5 u ht hl v ps hv ih =>
    obtain ⟨n, rfl⟩ : ∃ m, n = m + 1 := ⟨n - 1, by grind⟩
    rw [← map_outcome, ← ih n (by grind), hunit, hunit]
    have hpair (tail : List Char) :
        readEscape (('u' :: (u.text ++ '\\' :: 'u' :: v.text)) ++ tail) =
          .ok (pairedChar u.value v.value, tail) := by
      rw [List.cons_append, List.append_assoc, readEscape_unit, if_neg ht, if_pos hl]
      exact (readTrailing_unit _ _ _).trans (if_pos hv)
    exact readChars_backslash (hpair _) (n + 1)
  | case6 u ht hl v ps hv =>
    rw [hunit, hunit]
    apply readChars_fault
    rw [readEscape_unit, if_neg ht, if_pos hl, readTrailing_unit, if_neg hv]
  | case7 u ps ht hl hps =>
    rw [hunit]
    apply readChars_fault
    rw [readEscape_unit, if_neg ht, if_pos hl]
    exact readTrailing_of_no_unit _ hps _
  | case8 u ps ht hl ih =>
    obtain ⟨n, rfl⟩ : ∃ m, n = m + 1 := ⟨n - 1, by grind⟩
    rw [← map_outcome, ← ih n (by grind), hunit]
    have hplain (tail : List Char) : readEscape (('u' :: u.text) ++ tail) =
        .ok (Char.ofNat u.value, tail) := by
      rw [List.cons_append, readEscape_unit, if_neg ht, if_neg hl]
    exact readChars_backslash (hplain _) (n + 1)

theorem readText_text (ps : List Piece) (rest : List Char) :
    readText (ps.flatMap text ++ '"' :: rest) =
      (outcome rest (chars? ps)).map fun r => (String.ofList r.1, r.2) := by
  have hlength := length_le_flatMap_text ps
  rw [readText, readChars_text (by rw [List.length_append]; omega)]
  cases chars? ps <;> rfl

end Piece

/-- A key is read as what it spells. -/
theorem reads_quoted {ps : List Piece} {s : String} (h : spelled? ps = some s) :
    Reads readKeyText (quoted ps) s := by
  intro rest _
  obtain ⟨cs, hcs, rfl⟩ := Option.map_eq_some_iff.mp h
  have htext := Piece.readText_text ps rest
  rw [hcs] at htext
  rw [quoted, List.cons_append, List.append_assoc]
  exact htext

/-- Where a string is wanted, half of a surrogate pair is a fault of grammar. -/
theorem readKeyText_of_unspelled {ps : List Piece} (h : spelled? ps = none) (rest : List Char) :
    readKeyText (quoted ps ++ rest) = .error .malformed := by
  have htext := Piece.readText_text ps rest
  rw [Option.map_eq_none_iff.mp h] at htext
  rw [quoted, List.cons_append, List.append_assoc]
  exact htext

namespace NumberText

theorem exponentSign_text (e : Exponent) (rest : List Char) :
    Numeral.exponentSign (e.signText ++ (e.digits.chars ++ rest)) =
      (e.sign.getD false, e.digits.chars ++ rest) := by
  obtain ⟨c, ds, hds⟩ := List.exists_cons_of_ne_nil e.digits.ne_nil
  have hc := e.digits.isDigit_of_mem c (by simp [hds])
  unfold Exponent.signText Numeral.exponentSign
  cases e.sign with
  | none =>
    have hplus : c ≠ '+' := by
      rintro rfl
      cases hc
    have hminus : c ≠ '-' := by
      rintro rfl
      cases hc
    simp [hds, hplus, hminus]
  | some negative => cases negative <;> rfl

section Parts

variable (n : NumberText) (cut : Fault) {rest : List Char} (hrest : EndsNumber rest)
include hrest

theorem readExponent_text :
    Numeral.readExponent cut (n.exponentText ++ rest) = .ok (n.numeral.exponent, rest) := by
  unfold exponentText numeral
  cases n.exponent with
  | none => exact Numeral.readExponent_of_no_mark cut fun c hc => (hrest c hc).2.2
  | some e =>
    have hdigits := readDigits_append (isDigit_head?_of_endsNumber hrest) e.digits.ne_nil
      e.digits.isDigit_of_mem cut
    rw [Option.elim_some, Exponent.text, List.cons_append, List.append_assoc,
      Numeral.readExponent_of_mark cut e.mark_eq, exponentSign_text, hdigits]
    rfl

/-- What comes behind the digits of the fraction. -/
theorem exponentText_append_head? :
    ∀ c ∈ (n.exponentText ++ rest).head?, c.isDigit = false ∧ c ≠ '.' := by
  unfold exponentText
  cases n.exponent with
  | none => exact fun c hc => ⟨(hrest c hc).1, (hrest c hc).2.1⟩
  | some e =>
    rintro c ⟨⟩
    rcases e.mark_eq with h | h <;> rw [h] <;> decide

theorem readFraction_text :
    Numeral.readFraction cut (n.fractionText ++ (n.exponentText ++ rest)) =
      .ok (n.numeral.fraction, n.exponentText ++ rest) := by
  have hhead := n.exponentText_append_head? hrest
  unfold fractionText numeral
  cases n.fraction with
  | none => exact Numeral.readFraction_of_ne_point cut fun h => (hhead '.' h).2 rfl
  | some ds => exact readDigits_append (fun c hc => (hhead c hc).1) ds.ne_nil ds.isDigit_of_mem cut

theorem readWhole_text :
    Numeral.readWhole cut (n.unsignedText ++ rest) =
      .ok (n.numeral.whole, n.fractionText ++ (n.exponentText ++ rest)) := by
  have hhead : ∀ c ∈ (n.fractionText ++ (n.exponentText ++ rest)).head?, c.isDigit = false := by
    have hexponent := n.exponentText_append_head? hrest
    unfold fractionText
    cases n.fraction with
    | none => exact fun c hc => (hexponent c hc).1
    | some ds =>
      rintro c ⟨⟩
      rfl
  rw [unsignedText, List.append_assoc, List.append_assoc]
  exact readWhole_append hhead n.whole.ne_nil n.whole.isDigit_of_mem n.no_leading_zero cut

omit hrest in
theorem exists_unsignedText_eq : ∃ c tail, n.unsignedText = c :: tail ∧ c.isDigit := by
  obtain ⟨c, ds, hds⟩ := List.exists_cons_of_ne_nil n.whole.ne_nil
  have hc := n.whole.isDigit_of_mem c (by simp [hds])
  exact ⟨c, _, by rw [unsignedText, hds, List.cons_append], hc⟩

theorem read_text : Numeral.read cut (n.text ++ rest) = .ok (n.numeral, rest) := by
  have hparts : Numeral.readUnsigned cut n.negative (n.unsignedText ++ rest) =
      .ok (n.numeral, rest) := by
    rw [Numeral.readUnsigned, bind_eq (n.readWhole_text cut hrest),
      bind_eq (n.readFraction_text cut hrest), bind_eq (n.readExponent_text cut hrest)]
    rfl
  unfold text
  cases h : n.negative with
  | true =>
    rw [h] at hparts
    exact hparts
  | false =>
    rw [h] at hparts
    rw [← hparts]
    apply Numeral.read_of_ne_minus
    obtain ⟨c, tail, hc, hdigit⟩ := n.exists_unsignedText_eq
    rw [if_neg Bool.false_ne_true, hc]
    rintro ⟨⟩
    cases hdigit

end Parts

end NumberText

end WordMachines.Json
