import Mathlib.Tactic
import WordMachines.Proofs.Json.Numeral

/-!
# Identifiers survive a document

Labels, 32-bit numbers and characters are read back from what is written for them, as values and as
keys. For numbers this comes down to the decimal digits of a natural number: they have no leading
zero, and the grammar takes all of them and nothing behind them.
-/

namespace WordMachines.Json

theorem head?_toDigits_ne_zero {n : ℕ} (h : 0 < n) : (Nat.toDigits 10 n).head? ≠ some '0' := by
  induction n using Nat.strong_induction_on with
  | _ n ih =>
    by_cases hlt : n < 10
    · rw [Nat.toDigits_of_lt_base hlt]
      interval_cases n <;> decide
    · rw [Nat.toDigits_of_base_le (by omega) (by omega),
        List.head?_append_of_ne_nil _ Nat.toDigits_ne_nil]
      exact ih (n / 10) (by omega) (by omega)

theorem not_leading_zero_toDigits (n : ℕ) :
    ¬((Nat.toDigits 10 n).length > 1 ∧ (Nat.toDigits 10 n).head? = some '0') := by
  rintro ⟨hlength, hhead⟩
  rcases Nat.eq_zero_or_pos n with rfl | hpos
  · simp at hlength
  · exact head?_toDigits_ne_zero hpos hhead

theorem isDigit_of_mem_toDigits {n : ℕ} {c : Char} (h : c ∈ Nat.toDigits 10 n) : c.isDigit :=
  Nat.isDigit_of_mem_toDigits (by omega) le_rfl h

theorem exists_toDigits_eq_cons (n : ℕ) :
    ∃ c ds, Nat.toDigits 10 n = c :: ds ∧ c.isDigit := by
  obtain ⟨c, ds, h⟩ := List.exists_cons_of_ne_nil (Nat.toDigits_ne_nil (n := n) (b := 10))
  exact ⟨c, ds, h, isDigit_of_mem_toDigits (by rw [h]; exact List.mem_cons_self)⟩

theorem opens_toDigits (n : ℕ) : Opens (Nat.toDigits 10 n) := by
  obtain ⟨c, ds, h, hc⟩ := exists_toDigits_eq_cons n
  exact ⟨c, ds, h, by rw [isOpening, hc, Bool.or_true]⟩

section Numbers

variable {rest : List Char} (hrest : EndsNumber rest)
include hrest

theorem readUnsigned_toDigits (cut : Fault) (negative : Bool) (n : ℕ) :
    Numeral.readUnsigned cut negative (Nat.toDigits 10 n ++ rest) =
      .ok (⟨negative, Nat.toDigits 10 n, [], none⟩, rest) := by
  have hwhole := readWhole_append (isDigit_head?_of_endsNumber hrest) Nat.toDigits_ne_nil
    (fun _ => isDigit_of_mem_toDigits) (not_leading_zero_toDigits n) cut
  have hpoint : rest.head? ≠ some '.' := fun h => (hrest '.' h).2.1 rfl
  have hmark : ∀ c ∈ rest.head?, c ≠ 'e' ∧ c ≠ 'E' := fun c hc => (hrest c hc).2.2
  rw [Numeral.readUnsigned, bind_eq hwhole, bind_eq (Numeral.readFraction_of_ne_point cut hpoint),
    bind_eq (Numeral.readExponent_of_no_mark cut hmark)]
  rfl

theorem readNumeral_toDigits (cut : Fault) (n : ℕ) :
    Numeral.read cut (Nat.toDigits 10 n ++ rest) =
      .ok (⟨false, Nat.toDigits 10 n, [], none⟩, rest) := by
  have hsign : (Nat.toDigits 10 n ++ rest).head? ≠ some '-' := by
    obtain ⟨c, ds, hds, hc⟩ := exists_toDigits_eq_cons n
    rw [hds, List.cons_append, List.head?_cons, ne_eq, Option.some.injEq]
    rintro rfl
    cases hc
  rw [Numeral.read_of_ne_minus cut hsign, readUnsigned_toDigits hrest]

/-- A natural number of 64 bits. -/
theorem readNumber_toDigits {n : ℕ} (hn : n < UInt64.size) :
    readNumber (Nat.toDigits 10 n ++ rest) = .ok (.integer n, rest) := by
  have hinteger : Numeral.integer? ⟨false, Nat.toDigits 10 n, [], none⟩ = some (n : ℤ) := by
    simp only [Numeral.integer?, Nat.ofDigitChars_ten_toDigits, hn]
    rfl
  rw [readNumber, readNumeral_toDigits hrest]
  simp only [bind, Except.bind, hinteger]
  rfl

/-- An integer of 64 bits, with a sign if it is below zero. -/
theorem readNumber_intDigits {k : ℤ} (hk : -2 ^ 63 ≤ k ∧ k < 2 ^ 64) :
    readNumber (intDigits k ++ rest) = .ok (.integer k, rest) := by
  cases k with
  | ofNat n => exact readNumber_toDigits hrest (by simpa [UInt64.size] using hk.2)
  | negSucc n =>
    have hbound : n + 1 ≤ 2 ^ 63 := by omega
    have hinteger : Numeral.integer? ⟨true, Nat.toDigits 10 (n + 1), [], none⟩ =
        some (.negSucc n) := by
      have hrange : 0 < n + 1 ∧ n + 1 ≤ Nat.pow 2 63 := ⟨n.succ_pos, hbound⟩
      simp only [Numeral.integer?, Nat.ofDigitChars_ten_toDigits, hrange, and_self, if_true]
      rfl
    rw [readNumber]
    change (Numeral.readUnsigned .unfinished true (Nat.toDigits 10 (n + 1) ++ rest) >>= _) = _
    rw [readUnsigned_toDigits hrest]
    simp only [bind, Except.bind, hinteger]
    rfl

end Numbers

theorem readFound_of_number {c : Char} (hc : c = '-' ∨ c.isDigit) (cs : List Char) :
    readFound (c :: cs) = readNumber (c :: cs) >>= fun p => .ok (p.1.found, p.2) := by
  unfold readFound
  split
  case h_8 heq =>
    cases heq
    exact if_pos hc
  all_goals
    rename_i heq
    cases heq
  all_goals exact absurd hc (by decide)

theorem opens_writeText (s : String) : Opens (writeText s) := ⟨'"', _, rfl, rfl⟩

theorem roundTrips_keyText : RoundTrips readKeyText writeText where
  opens := opens_writeText
  reads s rest _ := readText_writeText s rest

theorem roundTrips_string (wanted : String) : RoundTrips (readString wanted) writeText where
  opens := opens_writeText
  reads s rest _ := readText_writeText s rest

/-- An identifier is read from what is written for it, both as a value and as a key. -/
class Faithful (α : Type) [Encode α] [Decode α] : Prop where
  value : RoundTrips (Decode.read : Reader α) Encode.write
  key : RoundTrips (Decode.readKey : Reader α) Encode.writeKey

theorem reads_label (x : Label) : Reads readLabel (writeText x.text) x := by
  intro rest _
  have hfound : readFound (dropSpace (writeText x.text ++ rest)) = .ok (.text x.text, rest) := by
    rw [((opens_writeText x.text).append rest).dropSpace_eq]
    change (readText ((writeText x.text).tail ++ rest) >>= fun p => .ok (Found.text p.1, p.2)) = _
    rw [readText_writeText]
    rfl
  rw [readLabel, hfound]
  rfl

instance : Faithful Label where
  value := ⟨fun x => opens_writeText x.text, reads_label⟩
  key :=
    { opens := fun x => opens_writeText x.text
      reads := fun x => (roundTrips_keyText.reads x.text).map Label.mk }

theorem charOfText_singleton (c : Char) : charOfText (String.singleton c) = .ok c := by
  simp [charOfText]

instance : Faithful Char where
  value :=
    { opens := fun _ => opens_writeText _
      reads := fun c => ((roundTrips_string charKind).reads _).check (charOfText_singleton c) }
  key :=
    { opens := fun _ => opens_writeText _
      reads := fun c => (roundTrips_keyText.reads _).check (charOfText_singleton c) }

theorem uint32OfNumber_toNat (n : UInt32) : uint32OfNumber (.integer n.toNat) = .ok n := by
  have hn : (n.toNat : ℤ) < UInt32.size := by exact_mod_cast n.toNat_lt
  rw [uint32OfNumber, if_pos ⟨by omega, hn⟩]
  simp

theorem exists_readNumber_uint32 (n : UInt32) {rest : List Char} (hrest : EndsNumber rest) :
    ∃ number, readNumber (Nat.toDigits 10 n.toNat ++ rest) = .ok (number, rest) ∧
      uint32OfNumber number = .ok n :=
  ⟨.integer n.toNat, readNumber_toDigits hrest (n.toNat_lt.trans (by decide)),
    uint32OfNumber_toNat n⟩

theorem reads_uint32 (n : UInt32) : Reads readUInt32 (Nat.toDigits 10 n.toNat) n := by
  intro rest hrest
  obtain ⟨number, hnumber, hcheck⟩ := exists_readNumber_uint32 n hrest
  unfold readUInt32
  rw [((opens_toDigits n.toNat).append rest).dropSpace_eq]
  obtain ⟨c, ds, hds, hc⟩ := exists_toDigits_eq_cons n.toNat
  rw [hds, List.cons_append] at hnumber ⊢
  simp only [hc, or_true, if_true, hnumber, hcheck, bind, Except.bind, pure, Except.pure]

theorem reads_uint32Key (n : UInt32) :
    Reads readUInt32Key ('"' :: (Nat.toDigits 10 n.toNat ++ ['"'])) n := by
  intro rest _
  have hquote : EndsNumber ('"' :: rest) := by
    rintro c ⟨⟩
    decide
  obtain ⟨number, hnumber, hcheck⟩ := exists_readNumber_uint32 n hquote
  obtain ⟨c, ds, hds, hc⟩ := exists_toDigits_eq_cons n.toNat
  rw [List.cons_append, List.append_assoc, List.cons_append, List.nil_append]
  rw [hds, List.cons_append] at hnumber ⊢
  simp only [readUInt32Key, hc, or_true, if_true, hnumber, hcheck, bind, Except.bind, pure,
    Except.pure]

instance : Faithful UInt32 where
  value := ⟨fun n => opens_toDigits n.toNat, reads_uint32⟩
  key := ⟨fun _ => ⟨'"', _, rfl, rfl⟩, reads_uint32Key⟩

end WordMachines.Json
