import Mathlib.Tactic
import Mathlib.Data.List.TakeWhile
import WordMachines.Proofs.Dfa.Renaming
import WordMachines.Proofs.Json.Covers
import WordMachines.Proofs.Json.Identifier

/-!
# Numbers and characters read as labels

Wherever a 32-bit number or a character may be read, as a value or as a key, a label may be read
instead, and it is the label that shows the same text. The grammar allows a natural number one way
of writing only, so that what stands between the quotes of a key is the text of the label.
-/

namespace WordMachines.Json

theorem toNat_of_isDigit {c : Char} (h : c.isDigit) : 48 ≤ c.toNat ∧ c.toNat ≤ 57 :=
  Char.isDigit_iff_toNat.mp h

theorem toDigits_of_isDigit {c : Char} (h : c.isDigit) : Nat.toDigits 10 (c.toNat - 48) = [c] := by
  have hc := toNat_of_isDigit h
  rw [Nat.toDigits_of_lt_base (by omega)]
  apply congrArg List.singleton
  apply Char.toNat_inj.mp
  rw [Nat.toNat_digitChar_of_lt_ten (by omega)]
  omega

/-- Digits that are read after a number has begun stand behind its own. -/
theorem toDigits_append {n : ℕ} (hn : 0 < n) {ds : List Char} (hds : ∀ d ∈ ds, d.isDigit) :
    Nat.toDigits 10 n ++ ds = Nat.toDigits 10 (Nat.ofDigitChars 10 ds n) := by
  induction ds generalizing n with
  | nil => exact List.append_nil _
  | cons d ds ih =>
    obtain ⟨hd, hds⟩ := List.forall_mem_cons.mp hds
    have hbounds := toNat_of_isDigit hd
    have hlast : Nat.toDigits 10 n ++ [d] = Nat.toDigits 10 (10 * n + (d.toNat - 48)) := by
      rw [← Nat.toDigits_append_toDigits (by omega) hn (by omega), toDigits_of_isDigit hd]
    rw [Nat.ofDigitChars_cons, List.append_cons, hlast]
    exact ih (by omega) hds

theorem toDigits_ofDigitChars {ds : List Char} (hds : ∀ d ∈ ds, d.isDigit) (hne : ds ≠ [])
    (hzero : ¬(ds.length > 1 ∧ ds.head? = some '0')) :
    Nat.toDigits 10 (Nat.ofDigitChars 10 ds 0) = ds := by
  obtain ⟨d, tail, rfl⟩ := List.exists_cons_of_ne_nil hne
  obtain ⟨hd, htail⟩ := List.forall_mem_cons.mp hds
  have hbounds := toNat_of_isDigit hd
  by_cases h : d = '0'
  · subst h
    cases tail with
    | nil => rfl
    | cons e tail => exact absurd ⟨by simp, rfl⟩ hzero
  · have hne : d.toNat ≠ 48 := fun heq => h (Char.toNat_inj.mp heq)
    have hpos : 0 < 10 * 0 + (d.toNat - 48) := by omega
    rw [Nat.ofDigitChars_cons]
    change Nat.toDigits 10 (Nat.ofDigitChars 10 tail (10 * 0 + (d.toNat - 48))) = _
    rw [← toDigits_append hpos htail, Nat.mul_zero, Nat.zero_add, toDigits_of_isDigit hd]
    rfl

section Numbers

variable {cut : Fault} {cs ds rest : List Char}

theorem eq_append_of_readDigits (h : Numeral.readDigits cut cs = .ok (ds, rest)) :
    cs = ds ++ rest ∧ ds ≠ [] ∧ ∀ d ∈ ds, d.isDigit := by
  unfold Numeral.readDigits at h
  split at h
  · cases h
  · next c tail =>
    split_ifs at h with hc
    cases h
    refine ⟨List.takeWhile_append_dropWhile.symm, ?_, fun d hd => List.mem_takeWhile_imp hd⟩
    rw [List.takeWhile_cons_of_pos hc]
    exact List.cons_ne_nil _ _

theorem eq_append_of_readWhole (h : Numeral.readWhole cut cs = .ok (ds, rest)) :
    cs = ds ++ rest ∧ Nat.toDigits 10 (Nat.ofDigitChars 10 ds 0) = ds := by
  obtain ⟨⟨ds', rest'⟩, hdigits, hcheck⟩ := exists_of_bind_eq_ok h
  obtain ⟨happend, hne, hall⟩ := eq_append_of_readDigits hdigits
  dsimp only at hcheck
  split_ifs at hcheck with hzero
  · cases hcheck
  · cases hcheck
    exact ⟨happend, toDigits_ofDigitChars hall hne hzero⟩

theorem eq_of_readFraction (h : Numeral.readFraction cut cs = .ok ([], rest)) : cs = rest := by
  unfold Numeral.readFraction at h
  split at h
  · exact absurd rfl (eq_append_of_readDigits h).2.1
  · cases h
    rfl

theorem eq_of_readExponent (h : Numeral.readExponent cut cs = .ok (none, rest)) : cs = rest := by
  unfold Numeral.readExponent at h
  split at h
  · split_ifs at h
    · -- an exponent has digits, whatever its sign
      split at h
      obtain ⟨_, _, hend⟩ := exists_of_bind_eq_ok h
      cases hend
    · cases h
      rfl
  · cases h
    rfl

/-- A numeral without sign, fraction and exponent is its digits. -/
theorem eq_toDigits_append_of_readNumeral {x : Numeral} (h : Numeral.read cut cs = .ok (x, rest))
    (hsign : x.negative = false) (hfraction : x.fraction = []) (hexponent : x.exponent = none) :
    cs = Nat.toDigits 10 (Nat.ofDigitChars 10 x.whole 0) ++ rest := by
  unfold Numeral.read at h
  split at h
  next negative digits hparts =>
  obtain ⟨⟨whole, rest₁⟩, hwhole, h⟩ := exists_of_bind_eq_ok h
  obtain ⟨⟨fraction, rest₂⟩, hfrac, h⟩ := exists_of_bind_eq_ok h
  obtain ⟨⟨exponent, rest₃⟩, hexp, h⟩ := exists_of_bind_eq_ok h
  cases h
  dsimp only at hsign hfraction hexponent hwhole hfrac hexp ⊢
  subst hsign hfraction hexponent
  have hcs : cs = digits := by
    split at hparts
    · cases hparts
    · cases hparts
      rfl
  obtain ⟨happend, hdigits⟩ := eq_append_of_readWhole hwhole
  obtain rfl := eq_of_readFraction hfrac
  obtain rfl := eq_of_readExponent hexp
  rw [hdigits, hcs]
  exact happend

theorem eq_toDigits_append_of_readNumber {n : ℕ} (h : readNumber cs = .ok (.integer n, rest)) :
    cs = Nat.toDigits 10 n ++ rest := by
  obtain ⟨⟨x, rest'⟩, hread, h⟩ := exists_of_bind_eq_ok h
  dsimp only at h
  split at h
  · next k hinteger =>
    cases h
    unfold Numeral.integer? at hinteger
    dsimp only at hinteger
    split_ifs at hinteger with hplain hsign hbounds
    · -- a number with a sign is below zero
      have hk := Option.some.inj hinteger
      omega
    · have hk := Option.some.inj hinteger
      rw [← Int.ofNat_inj.mp hk]
      have hsign : x.negative = false := by simpa using hsign
      exact eq_toDigits_append_of_readNumeral hread hsign hplain.1 hplain.2
  · split at h
    · cases h
    · cases h

end Numbers

theorem eq_integer_of_uint32OfNumber {n : Number} {x : UInt32} (h : uint32OfNumber n = .ok x) :
    n = .integer x.toNat := by
  cases n with
  | integer k =>
    change (if 0 ≤ k ∧ k < UInt32.size then Except.ok (UInt32.ofNat k.toNat) else _) = _ at h
    split_ifs at h with hk
    have hsize : k.toNat < UInt32.size := by omega
    rw [← Except.ok.inj h, UInt32.toNat_ofNat_of_lt' hsize, Int.toNat_of_nonneg hk.1]
  | real negative m => cases h

theorem covers_uint32 : Covers numberLabel readUInt32 readLabel := by
  intro cs x rest h
  unfold readUInt32 at h
  split at h
  · cases h
  · next c tail hspace =>
    split_ifs at h with hc
    · obtain ⟨⟨n, middle⟩, hnumber, hend⟩ := exists_of_bind_eq_ok h
      obtain ⟨y, hy, hend⟩ := exists_of_bind_eq_ok hend
      cases hend
      rw [eq_integer_of_uint32OfNumber hy] at hnumber
      have hfound : readFound (dropSpace cs) = .ok (.integer x.toNat, rest) := by
        rw [hspace, readFound_of_number hc, hnumber]
        rfl
      have hlabel : numberLabel x = ⟨intText x.toNat⟩ :=
        congrArg Label.mk Nat.repr_eq_ofList_toDigits
      rw [readLabel, hfound, hlabel]
      rfl
    · exact absurd h (refuse_ne_ok _ _ _)

theorem escapeChar_of_isDigit {c : Char} (h : c.isDigit) : escapeChar c = [c] := by
  have hne : ∀ d, d.isDigit = false → c ≠ d := by
    rintro d hd rfl
    rw [h] at hd
    cases hd
  have hc := toNat_of_isDigit h
  have hcontrol : ¬c.toNat < 0x20 := by omega
  simp only [escapeChar, hne '"' rfl, hne '\\' rfl, hne '\x08' rfl, hne '\x0c' rfl, hne '\n' rfl,
    hne '\r' rfl, hne '\t' rfl, hcontrol, or_self, if_false]

theorem writeText_repr (n : ℕ) : writeText n.repr = '"' :: (Nat.toDigits 10 n ++ ['"']) := by
  have hescape : (Nat.toDigits 10 n).flatMap escapeChar =
      (Nat.toDigits 10 n).flatMap fun c => [c] :=
    List.flatMap_congr fun _ hc => escapeChar_of_isDigit (isDigit_of_mem_toDigits hc)
  rw [writeText, Nat.repr_eq_ofList_toDigits, String.toList_ofList, hescape,
    List.flatMap_singleton']

theorem covers_uint32Key : Covers numberLabel readUInt32Key (Label.mk <$> readKeyText) := by
  intro cs x rest h
  unfold readUInt32Key at h
  split at h
  · next c tail =>
    split_ifs at h with hc
    · obtain ⟨⟨n, middle⟩, hnumber, h⟩ := exists_of_bind_eq_ok h
      obtain ⟨y, hy, h⟩ := exists_of_bind_eq_ok h
      split at h
      · next rest' =>
        cases h
        rw [eq_integer_of_uint32OfNumber hy] at hnumber
        have hkey : readKeyText ('"' :: c :: tail) = .ok (x.toNat.repr, rest) := by
          have htext := readText_writeText x.toNat.repr rest
          rw [writeText_repr, List.tail_cons, List.append_assoc] at htext
          change readText (c :: tail) = _
          rw [eq_toDigits_append_of_readNumber hnumber]
          exact htext
        exact Covers.rename Label.mk readKeyText _ _ _ hkey
      · cases h
  · cases h

theorem mk_eq_charLabel {s : String} {c : Char} (h : charOfText s = .ok c) :
    Label.mk s = charLabel c := by
  unfold charOfText at h
  split at h
  · next d hs =>
    cases h
    exact (Label.ofChar_of_toList hs).symm
  · cases h

/-- A string is a label as it stands. -/
theorem covers_string (wanted : String) : Covers Label.mk (readString wanted) readLabel := by
  intro cs s rest h
  unfold readString at h
  split at h
  · next tail hspace =>
    have hfound : readFound (dropSpace cs) = .ok (.text s, rest) := by
      rw [hspace]
      change (readText tail >>= fun p => .ok (Found.text p.1, p.2)) = _
      rw [h]
      rfl
    rw [readLabel, hfound]
    rfl
  · exact absurd h (refuse_ne_ok _ _ _)

theorem readsRenamed_numberLabel : ReadsRenamed numberLabel where
  value := covers_uint32
  key := covers_uint32Key

theorem readsRenamed_charLabel : ReadsRenamed charLabel where
  value := (covers_string charKind).check fun _ _ => mk_eq_charLabel
  key := (Covers.rename Label.mk readKeyText).check fun _ _ => mk_eq_charLabel

end WordMachines.Json
