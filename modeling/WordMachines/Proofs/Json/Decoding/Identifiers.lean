import Mathlib.Tactic
import WordMachines.Proofs.Json.Decoding.Basic
import WordMachines.Proofs.Json.Locality
import WordMachines.Proofs.Json.Soundness.Readers

/-!
# Identifiers that are read from values and keys

Labels, 32-bit numbers and characters are decoded from values and from keys. A label is what a
string spells or what an integer shows.
-/

namespace WordMachines.Json

namespace Tree

/-- The text of a string, and of no other value. -/
def string? : Tree .value → Option String
  | scalar (.string ps) => spelled? ps
  | _ => none

/-- The number that is written, if the value is one. -/
def number? : Tree .value → Option Number
  | scalar (.number n) => n.number?
  | _ => none

/-- A label is a string or an integer. -/
def label? : Tree .value → Option Label
  | scalar (.string ps) => (spelled? ps).map Label.mk
  | scalar (.number n) => n.number?.bind fun
    | .integer k => some ⟨intText k⟩
    | .real .. => none
  | _ => none

theorem string?_eq_none {v : Tree .value} (h : ∀ ps, v ≠ scalar (.string ps)) :
    v.string? = none := by
  unfold string?
  split
  · exact absurd rfl (h _)
  · rfl

theorem number?_eq_none {v : Tree .value} (h : ∀ n, v ≠ scalar (.number n)) :
    v.number? = none := by
  unfold number?
  split
  · exact absurd rfl (h _)
  · rfl

end Tree

theorem decodes_string (wanted : String) : DecodesValues (readString wanted) Tree.string? where
  read_dropSpace cs := by simp only [readString, dropSpace_dropSpace]
  decodes v rest hrest := by
    by_cases hv : ∃ ps, v = .scalar (.string ps)
    · obtain ⟨ps, rfl⟩ := hv
      exact decodes_keyText ps rest hrest
    · push Not at hv
      obtain ⟨c, tail, hc, hbegins⟩ := v.begins
      unfold readString
      rw [v.dropSpace_text, hc, v.string?_eq_none hv]
      split
      · next heq =>
        obtain ⟨ps, hps⟩ := hbegins.string (List.cons.inj heq).1
        exact absurd hps (hv ps)
      · exact toOption_refuse wanted _

theorem decodes_found_number :
    Decodes readFound NumberText.text fun n => n.number?.map Number.found := by
  intro n rest hrest
  have hnumber := n.decodes_number rest hrest
  obtain ⟨c, tail, hc, hfirst⟩ := n.exists_text_eq
  rw [hc, List.cons_append] at hnumber ⊢
  rw [readFound_of_number hfirst, toOption_bind, hnumber]
  dsimp only
  cases n.number? <;> rfl

theorem decodes_found_string :
    Decodes readFound quoted fun ps => (spelled? ps).map Found.text := by
  intro ps rest hrest
  change (readKeyText (quoted ps ++ rest) >>= fun p => .ok (Found.text p.1, p.2)).toOption = _
  rw [toOption_bind, decodes_keyText ps rest hrest]
  dsimp only
  cases spelled? ps <;> rfl

theorem decodes_label : DecodesValues readLabel Tree.label? where
  read_dropSpace cs := by simp only [readLabel, dropSpace_dropSpace]
  decodes v rest hrest := by
    rw [readLabel, v.dropSpace_text, toOption_bind]
    cases v with
    | scalar s =>
      cases s with
      | null => rfl
      | bool b => cases b <;> rfl
      | string ps =>
        change ((readFound (quoted ps ++ rest)).toOption.bind _) = ((spelled? ps).map _).map _
        rw [decodes_found_string ps rest hrest]
        dsimp only
        cases spelled? ps <;> rfl
      | number n =>
        change ((readFound (n.text ++ rest)).toOption.bind _) = (n.number?.bind _).map _
        rw [decodes_found_number n rest hrest]
        dsimp only
        rcases n.number? with _ | (_ | _) <;> rfl
    | _ b => cases b <;> rfl

namespace NumberText

variable {n : NumberText} {k : ℤ}

theorem toDigits_whole (n : NumberText) :
    Nat.toDigits 10 (Nat.ofDigitChars 10 n.whole.chars 0) = n.whole.chars :=
  toDigits_ofDigitChars n.whole.isDigit_of_mem n.whole.ne_nil n.no_leading_zero

/-- Without a fraction and an exponent the sign and the digits are the whole text. -/
theorem text_of_plain (hfraction : n.numeral.fraction = []) (hexponent : n.numeral.exponent = none) :
    n.text = if n.negative then '-' :: n.whole.chars else n.whole.chars := by
  have hfraction' : n.fractionText = [] := by
    cases h : n.fraction with
    | none => simp [fractionText, h]
    | some ds =>
      rw [numeral, h] at hfraction
      exact absurd hfraction ds.ne_nil
  have hexponent' : n.exponentText = [] := by
    rw [exponentText, Option.map_eq_none_iff.mp hexponent]
    rfl
  simp [text, unsignedText, hfraction', hexponent']

theorem text_of_integer? (h : n.numeral.integer? = some k) :
    (-2 ^ 63 ≤ k ∧ k < 2 ^ 64) ∧ n.text = intDigits k := by
  unfold Numeral.integer? at h
  dsimp only at h
  split_ifs at h with hplain hsign hbounds hsize
  · obtain ⟨m, hm⟩ := Nat.exists_eq_add_one_of_ne_zero hbounds.1.ne'
    have hk : k = Int.negSucc m := by
      rw [← Option.some.inj h, hm]
      rfl
    have hle : m + 1 ≤ 2 ^ 63 := hm ▸ hbounds.2
    have htext : n.text = '-' :: n.whole.chars :=
      (text_of_plain hplain.1 hplain.2).trans (if_pos hsign)
    refine ⟨by omega, ?_⟩
    rw [htext, hk, intDigits, ← hm]
    exact congrArg _ n.toDigits_whole.symm
  · generalize hm : Nat.ofDigitChars 10 n.numeral.whole 0 = m at h hsize
    have hk : k = (m : ℤ) := (Option.some.inj h).symm
    have hlt : m < 2 ^ 64 := hsize
    have htext : n.text = n.whole.chars :=
      (text_of_plain hplain.1 hplain.2).trans (if_neg hsign)
    refine ⟨by omega, ?_⟩
    rw [htext, hk, ← hm]
    exact n.toDigits_whole.symm

/-- An integer of 64 bits has one way to be written. -/
theorem number?_eq_integer_iff :
    n.number? = some (.integer k) ↔ (-2 ^ 63 ≤ k ∧ k < 2 ^ 64) ∧ n.text = intDigits k := by
  constructor
  · intro h
    unfold number? at h
    split at h
    · next heq =>
      cases h
      exact text_of_integer? heq
    · obtain ⟨m, -, hm⟩ := Option.map_eq_some_iff.mp h
      cases hm
  · rintro ⟨hk, hn⟩
    have hread := n.decodes_number [] endsNumber_nil
    rw [hn, readNumber_intDigits endsNumber_nil hk, Except.toOption, eq_comm,
      Option.map_eq_some_iff] at hread
    obtain ⟨x, hx, heq⟩ := hread
    rw [hx, (Prod.mk.inj heq).1]

end NumberText

theorem decodes_uint32 :
    DecodesValues readUInt32 fun v => v.number?.bind fun n => (uint32OfNumber n).toOption where
  read_dropSpace cs := by simp only [readUInt32, dropSpace_dropSpace]
  decodes v rest hrest := by
    unfold readUInt32
    rw [v.dropSpace_text]
    by_cases hv : ∃ n, v = .scalar (.number n)
    · obtain ⟨n, rfl⟩ := hv
      have hnumber := n.decodes_number rest hrest
      obtain ⟨c, tail, hc, hfirst⟩ := n.exists_text_eq
      have htext : (Tree.scalar (.number n)).text = c :: tail := hc
      rw [hc, List.cons_append] at hnumber
      rw [htext, List.cons_append]
      dsimp only
      rw [if_pos hfirst, toOption_bind, hnumber]
      change ((n.number?.map (·, rest)).bind _) = (n.number?.bind _).map _
      cases n.number? with
      | none => rfl
      | some x =>
        change (uint32OfNumber x >>= fun y => .ok (y, rest)).toOption = _
        rw [Option.bind_some]
        cases uint32OfNumber x <;> rfl
    · push Not at hv
      obtain ⟨c, tail, hc, hbegins⟩ := v.begins
      have hfirst : ¬(c = '-' ∨ c.isDigit) := fun h => by
        obtain ⟨n, hn⟩ := hbegins.number h
        exact hv n hn
      rw [hc, List.cons_append]
      dsimp only
      rw [v.number?_eq_none hv, if_neg hfirst, toOption_refuse]
      rfl

theorem decodes_char :
    DecodesValues Decode.read fun v => v.string?.bind fun s => (charOfText s).toOption :=
  (decodes_string charKind).check charOfText

theorem eq_of_readUInt32Key {cs rest : List Char} {x : UInt32}
    (h : readUInt32Key cs = .ok (x, rest)) : cs = Encode.writeKey x ++ rest := by
  unfold readUInt32Key at h
  split at h
  · split_ifs at h with hc
    obtain ⟨⟨n, middle⟩, hnumber, h⟩ := exists_of_bind_eq_ok h
    obtain ⟨y, hy, h⟩ := exists_of_bind_eq_ok h
    split at h
    · cases h
      rw [eq_integer_of_uint32OfNumber hy] at hnumber
      simp [Encode.writeKey, eq_toDigits_append_of_readNumber hnumber]
    · cases h
  · cases h

/-- The digits end where the string does. -/
theorem readUInt32Key_quoted_iff {ps : List Piece} {rest left : List Char} {x : UInt32}
    (hrest : EndsNumber rest) :
    readUInt32Key (quoted ps ++ rest) = .ok (x, left) ↔
      quoted ps = Encode.writeKey x ∧ left = rest := by
  constructor
  · intro h
    have hlabel := decodes_keyText.map Label.mk ps rest hrest
    rw [covers_uint32Key _ _ _ h, Except.toOption, eq_comm, Option.map_eq_some_iff] at hlabel
    obtain ⟨_, -, heq⟩ := hlabel
    obtain rfl : rest = left := (Prod.mk.inj heq).2
    exact ⟨List.append_cancel_right (eq_of_readUInt32Key h), rfl⟩
  · rintro ⟨hps, rfl⟩
    rw [hps]
    exact reads_uint32Key x _ hrest

theorem decodes_uint32Key :
    Decodes readUInt32Key quoted fun ps => alone? readUInt32Key (quoted ps) := by
  intro ps rest hrest
  have hiff (rest : List Char) (hrest : EndsNumber rest) (p : UInt32 × List Char) :
      (readUInt32Key (quoted ps ++ rest)).toOption = some p ↔
        quoted ps = Encode.writeKey p.1 ∧ p.2 = rest :=
    toOption_eq_some_iff.trans (readUInt32Key_quoted_iff hrest)
  have hnil := hiff [] endsNumber_nil
  rw [List.append_nil] at hnil
  ext ⟨x, left⟩
  rw [hiff rest hrest]
  simp [alone?, hnil, eq_comm]

section Identifiers

variable {α : Type} [Decode α]

/-- The identifier that a value stands for. -/
def value? (v : Tree .value) : Option α := alone? Decode.read v.text

/-- The identifier that a key stands for. -/
def key? (ps : List Piece) : Option α := alone? Decode.readKey (quoted ps)

variable (α) in
/-- Identifiers are read from values and strings of the grammar, and what is read depends on these
alone. -/
class Grammatical : Prop extends LocalDecode α where
  takes_value : TakesOnly (Decode.read : Reader α) IsValue
  takes_key : TakesOnly (Decode.readKey : Reader α) IsKey
  decodes_value : DecodesValues (Decode.read : Reader α) value?
  decodes_key : Decodes (Decode.readKey : Reader α) quoted key?

end Identifiers

instance : Grammatical Label where
  takes_value := takesOnly_label
  takes_key := takesOnly_keyText.map Label.mk
  decodes_value := decodes_label.alone
  decodes_key := (decodes_keyText.map Label.mk).alone

instance : Grammatical UInt32 where
  takes_value := takesOnly_uint32
  takes_key := takesOnly_uint32Key
  decodes_value := decodes_uint32.alone
  decodes_key := decodes_uint32Key

instance : Grammatical Char where
  takes_value := (takesOnly_string charKind).check charOfText
  takes_key := takesOnly_keyText.check charOfText
  decodes_value := decodes_char.alone
  decodes_key := (decodes_keyText.check charOfText).alone

end WordMachines.Json
