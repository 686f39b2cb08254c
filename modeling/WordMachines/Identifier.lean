/-!
# Identifiers of states and symbols

States and symbols may be of any type with decidable equality and a text that shows them.
Different identifiers may show the same text; the three kinds given here never do. A `Label` is
its text, a 32-bit number shows its decimal digits, and a character shows itself.
-/

namespace WordMachines

/-- How an identifier reads in messages, listings and traces. -/
class Shown (α : Type) where
  shown : α → String

export Shown (shown)

structure Label where
  text : String
  deriving DecidableEq, Inhabited

instance : Shown Label := ⟨Label.text⟩

instance : Shown UInt32 := ⟨fun n => n.toNat.repr⟩

instance : Shown Char := ⟨String.singleton⟩

/-- Labels are ordered as their texts, code point by code point. -/
instance : LE Label := ⟨fun x y => x.text ≤ y.text⟩

instance : DecidableRel (α := Label) (· ≤ ·) :=
  fun x y => inferInstanceAs (Decidable (x.text ≤ y.text))

namespace Label

def ofChar (c : Char) : Label := ⟨String.singleton c⟩

def ofNat (n : Nat) : Label := ⟨n.repr⟩

/-- One label a character. -/
def word (text : String) : List Label := text.toList.map ofChar

theorem ofChar_of_toList {a : Label} {c : Char} (h : a.text.toList = [c]) : ofChar c = a := by
  cases a with
  | mk text => exact congrArg mk (String.toList_injective (by simp [h]))

end Label

theorem shown_label_injective {x y : Label} (h : shown x = shown y) : x = y := by
  cases x; cases y; exact congrArg Label.mk h

theorem shown_uint32_injective {x y : UInt32} (h : shown x = shown y) : x = y := by
  have hd : (Nat.toDigits 10 x.toNat) = Nat.toDigits 10 y.toNat := by
    have := congrArg String.toList h
    simpa [shown, Nat.repr_eq_ofList_toDigits] using this
  have hn := congrArg (fun ds => Nat.ofDigitChars 10 ds 0) hd
  simp only [Nat.ofDigitChars_ten_toDigits] at hn
  exact UInt32.toNat_inj.mp hn

theorem shown_char_injective {x y : Char} (h : shown x = shown y) : x = y := by
  have := congrArg String.toList h
  simpa [shown] using this

end WordMachines
