import Mathlib.Tactic
import Mathlib.Data.List.TakeWhile
import WordMachines.Proofs.Json.RoundTrip

/-!
# The parts of a number

The grammar takes all the digits that stand in a row, and it takes a fraction or an exponent where
one begins.
-/

namespace WordMachines.Json

theorem isDigit_head?_of_endsNumber {rest : List Char} (h : EndsNumber rest) :
    ∀ c ∈ rest.head?, c.isDigit = false :=
  fun c hc => (h c hc).1

section Digits

variable {rest : List Char} (hrest : ∀ c ∈ rest.head?, c.isDigit = false)
include hrest

theorem takeWhile_isDigit_append (cs : List Char) :
    (cs ++ rest).takeWhile Char.isDigit = cs.takeWhile Char.isDigit := by
  have hnil : rest.takeWhile Char.isDigit = [] := by
    cases rest with
    | nil => rfl
    | cons c rest => exact List.takeWhile_cons_of_neg (by simp [hrest c rfl])
  rw [List.takeWhile_append, hnil, List.append_nil]
  split_ifs with h
  · exact ((List.takeWhile_prefix _).eq_of_length h).symm
  · rfl

theorem dropWhile_isDigit_append (cs : List Char) :
    (cs ++ rest).dropWhile Char.isDigit = cs.dropWhile Char.isDigit ++ rest := by
  have hself : rest.dropWhile Char.isDigit = rest := by
    cases rest with
    | nil => rfl
    | cons c rest => exact List.dropWhile_cons_of_neg (by simp [hrest c rfl])
  rw [List.dropWhile_append, hself]
  split_ifs with h
  · rw [List.isEmpty_iff.mp h, List.nil_append]
  · rfl

theorem readDigits_append {ds : List Char} (hne : ds ≠ []) (hds : ∀ c ∈ ds, c.isDigit)
    (cut : Fault) : Numeral.readDigits cut (ds ++ rest) = .ok (ds, rest) := by
  have htake : (ds ++ rest).takeWhile Char.isDigit = ds := by
    rw [takeWhile_isDigit_append hrest, List.takeWhile_eq_self_iff.mpr hds]
  have hdrop : (ds ++ rest).dropWhile Char.isDigit = rest := by
    rw [dropWhile_isDigit_append hrest, List.dropWhile_eq_nil_iff.mpr hds, List.nil_append]
  obtain ⟨c, tail, rfl⟩ := List.exists_cons_of_ne_nil hne
  rw [List.cons_append] at htake hdrop ⊢
  rw [Numeral.readDigits, if_pos (hds c List.mem_cons_self), htake, hdrop]

theorem readWhole_append {ds : List Char} (hne : ds ≠ []) (hds : ∀ c ∈ ds, c.isDigit)
    (hzero : ¬(ds.length > 1 ∧ ds.head? = some '0')) (cut : Fault) :
    Numeral.readWhole cut (ds ++ rest) = .ok (ds, rest) := by
  rw [Numeral.readWhole, readDigits_append hrest hne hds]
  simp only [bind, Except.bind, if_neg hzero]
  rfl

end Digits

namespace Numeral

variable (cut : Fault)

theorem readFraction_of_ne_point {cs : List Char} (h : cs.head? ≠ some '.') :
    readFraction cut cs = .ok ([], cs) := by
  unfold readFraction
  split
  · exact absurd rfl h
  · rfl

theorem readExponent_of_no_mark {cs : List Char} (h : ∀ c ∈ cs.head?, c ≠ 'e' ∧ c ≠ 'E') :
    readExponent cut cs = .ok (none, cs) := by
  cases cs with
  | nil => rfl
  | cons c cs =>
    unfold readExponent
    simp only [h c rfl, or_self, if_false]

/-- Whether an exponent is negative, and what comes behind its sign. -/
def exponentSign (cs : List Char) : Bool × List Char :=
  if cs.head? = some '+' then (false, cs.tail)
  else if cs.head? = some '-' then (true, cs.tail)
  else (false, cs)

theorem readExponent_of_mark {c : Char} (hc : c = 'e' ∨ c = 'E') (cs : List Char) :
    readExponent cut (c :: cs) = readDigits cut (exponentSign cs).2 >>= fun p =>
      .ok (some ((exponentSign cs).1, p.1), p.2) := by
  unfold readExponent
  simp only [hc, if_true]
  split
  · rfl
  · rfl
  · next hplus hminus =>
    have hsign : exponentSign cs = (false, cs) := by
      cases cs with
      | nil => rfl
      | cons d cs =>
        have hd : d ≠ '+' ∧ d ≠ '-' := by
          constructor <;> rintro rfl
          · exact hplus _ rfl
          · exact hminus _ rfl
        simp [exponentSign, hd]
    rw [hsign]
    rfl

/-- The parts behind the sign. -/
def readUnsigned (negative : Bool) : Reader Numeral := do
  let whole ← readWhole cut
  let fraction ← readFraction cut
  let exponent ← readExponent cut
  return { negative, whole, fraction, exponent }

theorem read_of_ne_minus {cs : List Char} (h : cs.head? ≠ some '-') :
    read cut cs = readUnsigned cut false cs := by
  unfold read
  split
  next hsign =>
  split at hsign
  · exact absurd rfl h
  · cases hsign
    rfl

end Numeral

end WordMachines.Json
