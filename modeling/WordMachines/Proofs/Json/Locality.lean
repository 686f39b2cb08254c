import Mathlib.Tactic
import WordMachines.Proofs.Json.Covers
import WordMachines.Proofs.Json.Identifier

/-!
# What is read does not hang on what follows

A reader that takes something off the front of a text takes the same off a longer text and leaves
more behind, if no number goes on where the shorter text ends. So a value that is read from a text
of its own is read wherever that text stands.
-/

namespace WordMachines.Json

/-- What `r` takes off a text, it takes off every text that goes on after it. -/
def Local {α : Type} (r : Reader α) : Prop :=
  ∀ cs x left more, EndsNumber more → r cs = .ok (x, left) → r (cs ++ more) = .ok (x, left ++ more)

namespace Local

variable {α β : Type} {r : Reader α}

theorem reads (h : Local r) {cs : List Char} {x : α} (hx : r cs = .ok (x, [])) : Reads r cs x :=
  fun rest hrest => h cs x [] rest hrest hx

theorem pure (x : α) : Local (Pure.pure x) := by
  rintro cs _ _ more _ ⟨⟩
  rfl

theorem bind {k : α → Reader β} (h : Local r) (hk : ∀ x, Local (k x)) : Local (r >>= k) := by
  intro cs y left more hmore hy
  obtain ⟨⟨x, middle⟩, hx, hy⟩ := exists_of_bind_eq_ok hy
  rw [bind_eq (h cs x middle more hmore hx)]
  exact hk x middle y left more hmore hy

theorem map (h : Local r) (f : α → β) : Local (f <$> r) := by
  intro cs y left more hmore hy
  obtain ⟨⟨x, middle⟩, hx, hy⟩ := exists_of_bind_eq_ok hy
  cases hy
  change (r (cs ++ more) >>= fun p => .ok (f p.1, p.2)) = _
  rw [h cs x left more hmore hx]
  rfl

theorem check (h : Local r) (f : α → Except Fault β) : Local (do f (← r)) := by
  intro cs y left more hmore hy
  obtain ⟨⟨x, middle⟩, hx, hy⟩ := exists_of_bind_eq_ok hy
  obtain ⟨z, hz, hend⟩ := exists_of_bind_eq_ok hy
  cases hend
  change f x = .ok y at hz
  rw [bind_eq (h cs x left more hmore hx), hz]
  rfl

end Local

theorem dropSpace_append {cs : List Char} (h : dropSpace cs ≠ []) (more : List Char) :
    dropSpace (cs ++ more) = dropSpace cs ++ more := by
  induction cs with
  | nil => exact absurd rfl h
  | cons c cs ih =>
    by_cases hc : isSpace c
    · have hdrop (ds : List Char) : dropSpace (c :: ds) = dropSpace ds :=
        List.dropWhile_cons_of_pos hc
      rw [List.cons_append, hdrop, hdrop]
      exact ih (by rwa [hdrop] at h)
    · have hdrop (ds : List Char) : dropSpace (c :: ds) = c :: ds :=
        List.dropWhile_cons_of_neg hc
      rw [List.cons_append, hdrop, hdrop, List.cons_append]

theorem local_readExactly (word : List Char) : Local (readExactly word) := by
  induction word with
  | nil => exact .pure ()
  | cons c word ih =>
    rintro (_ | ⟨d, cs⟩) x left more hmore hx
    · cases hx
    · change (if c = d then readExactly word cs else .error .malformed) = _ at hx
      change (if c = d then readExactly word (cs ++ more) else .error .malformed) = _
      split_ifs at hx ⊢
      exact ih cs x left more hmore hx

theorem local_readColon : Local readColon := by
  intro cs x left more _ hx
  unfold readColon at hx ⊢
  split at hx
  · cases hx
  · next hspace =>
    cases hx
    rw [dropSpace_append (by simp [hspace]), hspace]
    rfl
  · cases hx

theorem local_readHex : Local readHex := by
  rintro (_ | ⟨a, _ | ⟨b, _ | ⟨c, _ | ⟨d, cs⟩⟩⟩⟩) x left more _ hx
  all_goals try cases hx
  simp only [readHex, List.cons_append] at hx ⊢
  split at hx
  · cases hx
    simp_all
  · cases hx

theorem local_readTrailing (lead : ℕ) : Local (readTrailing lead) := by
  intro cs c left more hmore hx
  unfold readTrailing at hx
  split at hx
  · cases hx
  · cases hx
  · obtain ⟨⟨n, middle⟩, hn, hx⟩ := exists_of_bind_eq_ok hx
    dsimp only at hx
    split_ifs at hx with hpair
    · obtain ⟨rfl, rfl⟩ := Prod.mk.inj (Except.ok.inj hx)
      change (readHex (_ ++ more) >>= _) = _
      rw [local_readHex _ _ _ _ hmore hn]
      exact if_pos hpair
  · cases hx

theorem local_readCodePoint : Local readCodePoint := by
  intro cs c left more hmore hx
  obtain ⟨⟨n, middle⟩, hn, hx⟩ := exists_of_bind_eq_ok hx
  rw [readCodePoint, local_readHex _ _ _ _ hmore hn]
  dsimp only [bind, Except.bind] at hx ⊢
  split_ifs at hx ⊢
  · exact local_readTrailing n _ _ _ _ hmore hx
  · cases hx
    rfl

theorem local_readEscape : Local readEscape := by
  intro cs c left more hmore hx
  unfold readEscape at hx
  split at hx
  · cases hx
  · exact local_readCodePoint _ _ _ _ hmore hx
  · next hd =>
    split at hx
    · next hsimple =>
      cases hx
      exact readEscape_simple hsimple _
    · cases hx

/-- More rounds than needed change nothing. -/
theorem readChars_append {fuel fuel' : ℕ} (hle : fuel ≤ fuel') {cs ds left more : List Char}
    (hmore : EndsNumber more) (hx : readChars fuel cs = .ok (ds, left)) :
    readChars fuel' (cs ++ more) = .ok (ds, left ++ more) := by
  induction fuel generalizing fuel' cs ds with
  | zero => cases hx
  | succ fuel ih =>
    obtain ⟨n, rfl⟩ : ∃ n, fuel' = n + 1 := ⟨fuel' - 1, by omega⟩
    have hn : fuel ≤ n := by omega
    cases cs with
    | nil => cases hx
    | cons c cs =>
      simp only [readChars, List.cons_append] at hx ⊢
      split_ifs at hx ⊢
      · cases hx
        rfl
      · obtain ⟨⟨d, middle⟩, hd, hx⟩ := exists_of_bind_eq_ok hx
        obtain ⟨⟨ds', left'⟩, hds, hx⟩ := exists_of_bind_eq_ok hx
        cases hx
        rw [local_readEscape _ _ _ _ hmore hd]
        simp only [bind, Except.bind, ih hn hds]
        rfl
      · obtain ⟨⟨ds', left'⟩, hds, hx⟩ := exists_of_bind_eq_ok hx
        cases hx
        rw [ih hn hds]
        rfl

theorem local_readText : Local readText := by
  intro cs s left more hmore hx
  obtain ⟨⟨ds, left'⟩, hds, hx⟩ := exists_of_bind_eq_ok hx
  cases hx
  have hle : cs.length + 1 ≤ (cs ++ more).length + 1 := by simp
  rw [readText, readChars_append hle hmore hds]
  rfl

namespace Numeral

variable (cut : Fault)

theorem local_readDigits : Local (readDigits cut) := by
  rintro (_ | ⟨c, cs⟩) ds left more hmore hx
  · cases hx
  · unfold readDigits at hx
    dsimp only at hx
    split_ifs at hx with hc
    cases hx
    have hdigit := isDigit_head?_of_endsNumber hmore
    rw [← dropWhile_isDigit_append hdigit, ← takeWhile_isDigit_append hdigit]
    exact if_pos hc

theorem local_readWhole : Local (readWhole cut) := by
  intro cs ds left more hmore hx
  obtain ⟨⟨ds', left'⟩, hds, hx⟩ := exists_of_bind_eq_ok hx
  rw [readWhole, local_readDigits cut _ _ _ _ hmore hds]
  dsimp only [bind, Except.bind] at hx ⊢
  split_ifs at hx ⊢
  cases hx
  rfl

theorem local_readFraction : Local (readFraction cut) := by
  intro cs ds left more hmore hx
  unfold readFraction at hx
  split at hx
  · exact local_readDigits cut _ _ _ _ hmore hx
  · next hpoint =>
    cases hx
    apply readFraction_of_ne_point
    cases cs with
    | nil => exact fun h => (hmore '.' h).2.1 rfl
    | cons c cs =>
      rintro ⟨⟩
      exact hpoint _ rfl

theorem exponentSign_append {cs : List Char} (h : cs ≠ []) (more : List Char) :
    exponentSign (cs ++ more) = ((exponentSign cs).1, (exponentSign cs).2 ++ more) := by
  obtain ⟨c, cs, rfl⟩ := List.exists_cons_of_ne_nil h
  simp only [exponentSign, List.cons_append, List.head?_cons, List.tail_cons, Option.some.injEq]
  split_ifs <;> rfl

theorem local_readExponent : Local (readExponent cut) := by
  rintro (_ | ⟨c, cs⟩) x left more hmore hx
  · cases hx
    exact readExponent_of_no_mark cut fun d hd => (hmore d hd).2.2
  · by_cases hc : c = 'e' ∨ c = 'E'
    · rw [readExponent_of_mark cut hc] at hx
      obtain ⟨⟨ds, left'⟩, hds, hx⟩ := exists_of_bind_eq_ok hx
      cases hx
      have hcs : cs ≠ [] := by
        rintro rfl
        cases hds
      rw [List.cons_append, readExponent_of_mark cut hc, exponentSign_append hcs,
        local_readDigits cut _ _ _ _ hmore hds]
      rfl
    · have hmark (cs : List Char) : ∀ d ∈ (c :: cs).head?, d ≠ 'e' ∧ d ≠ 'E' := by
        rintro d ⟨⟩
        exact not_or.mp hc
      rw [readExponent_of_no_mark cut (hmark cs)] at hx
      cases hx
      exact readExponent_of_no_mark cut (hmark (cs ++ more))

theorem local_readUnsigned (negative : Bool) : Local (readUnsigned cut negative) :=
  (local_readWhole cut).bind fun _ => (local_readFraction cut).bind fun _ =>
    (local_readExponent cut).bind fun _ => .pure _

theorem local_read : Local (read cut) := by
  rintro (_ | ⟨c, cs⟩) x left more hmore hx
  · cases hx
  · by_cases hc : c = '-'
    · subst hc
      exact local_readUnsigned cut true cs x left more hmore hx
    · have hminus (cs : List Char) : (c :: cs).head? ≠ some '-' := by simpa using hc
      rw [read_of_ne_minus cut (hminus cs)] at hx
      rw [List.cons_append, read_of_ne_minus cut (hminus (cs ++ more))]
      exact local_readUnsigned cut false (c :: cs) x left more hmore hx

end Numeral

theorem local_readNumber : Local readNumber := by
  intro cs n left more hmore hx
  obtain ⟨⟨x, left'⟩, hnumeral, hx⟩ := exists_of_bind_eq_ok hx
  rw [readNumber, Numeral.local_read _ _ _ _ _ hmore hnumeral]
  dsimp only [bind, Except.bind] at hx ⊢
  split at hx
  · cases hx
    rfl
  · split at hx
    · cases hx
      rfl
    · cases hx

theorem local_readFound : Local readFound := by
  intro cs x left more hmore hx
  unfold readFound at hx
  split at hx
  · cases hx
  · exact (local_readText.map Found.text) _ _ _ _ hmore hx
  · cases hx
    rfl
  · cases hx
    rfl
  · exact ((local_readExactly _).map fun _ => Found.null) _ _ _ _ hmore hx
  · exact ((local_readExactly _).map fun _ => Found.bool true) _ _ _ _ hmore hx
  · exact ((local_readExactly _).map fun _ => Found.bool false) _ _ _ _ hmore hx
  · split_ifs at hx with hc
    obtain ⟨⟨n, left'⟩, hn, hx⟩ := exists_of_bind_eq_ok hx
    cases hx
    have hn' := local_readNumber _ _ _ _ hmore hn
    rw [List.cons_append] at hn'
    rw [List.cons_append, readFound_of_number hc, hn']
    rfl

section Members

variable {σ : Type} {close : Char} {member : σ → Reader σ} (hmember : ∀ s, Local (member s))
include hmember

/-- More rounds than needed change nothing. -/
theorem readMore_append {fuel fuel' : ℕ} (hle : fuel ≤ fuel') {s s' : σ} {cs left more : List Char}
    (hmore : EndsNumber more) (hx : readMore close member fuel s cs = .ok (s', left)) :
    readMore close member fuel' s (cs ++ more) = .ok (s', left ++ more) := by
  induction fuel generalizing fuel' s cs with
  | zero => cases hx
  | succ fuel ih =>
    obtain ⟨n, rfl⟩ : ∃ n, fuel' = n + 1 := ⟨fuel' - 1, by omega⟩
    have hn : fuel ≤ n := by omega
    unfold readMore at hx ⊢
    split at hx
    · cases hx
    · next c rest hspace =>
      rw [dropSpace_append (by simp [hspace]), hspace]
      dsimp only [List.cons_append]
      split_ifs at hx ⊢
      · cases hx
        rfl
      · split at hx
        · cases hx
        · next hrest =>
          obtain ⟨⟨s₁, middle⟩, hs, hx⟩ := exists_of_bind_eq_ok hx
          obtain ⟨d, ds, hds⟩ := List.exists_cons_of_ne_nil hrest
          have hs' := hmember s _ _ _ more hmore hs
          rw [dropSpace_append hrest]
          rw [hds] at hs' ⊢
          change (member s (d :: ds ++ more) >>= _) = _
          rw [hs']
          exact ih hn hx

theorem local_readMembers (s : σ) : Local (readMembers close member s) := by
  intro cs s' left more hmore hx
  unfold readMembers at hx ⊢
  split at hx
  · cases hx
  · next c rest hspace =>
    rw [dropSpace_append (by simp [hspace]), hspace]
    dsimp only [List.cons_append]
    split_ifs at hx ⊢
    · cases hx
      rfl
    · obtain ⟨⟨s₁, middle⟩, hs, hx⟩ := exists_of_bind_eq_ok hx
      have hle : middle.length + 1 ≤ (middle ++ more).length + 1 := by simp
      have hs' := hmember s _ _ _ more hmore hs
      rw [List.cons_append] at hs'
      rw [hs']
      exact readMore_append hmember hle hmore hx

end Members

theorem Local.list {α : Type} {item : Reader α} (h : Local item) : Local (readList item) := by
  have hmembers : Local (readMembers ']' (fun xs => do return xs ++ [← item]) []) :=
    local_readMembers (fun xs => h.bind fun x => .pure (xs ++ [x])) []
  intro cs xs left more hmore hx
  unfold readList at hx ⊢
  split at hx
  · next hspace =>
    rw [dropSpace_append (by simp [hspace]), hspace]
    exact hmembers _ xs left more hmore hx
  · exact absurd hx (refuse_ne_ok _ _ _)

theorem Local.entry {α β σ : Type} {key : Reader α} {value : Reader β} (hkey : Local key)
    (hvalue : Local value) (put : σ → α → β → σ) (s : σ) : Local (readEntry key value put s) :=
  hkey.bind fun k => local_readColon.bind fun _ => hvalue.bind fun v => .pure (put s k v)

/-- Identifiers are read from texts of their own, both as values and as keys. -/
class LocalDecode (α : Type) [Decode α] : Prop where
  value : Local (Decode.read : Reader α)
  key : Local (Decode.readKey : Reader α)

theorem local_readKeyText : Local readKeyText := by
  intro cs s left more hmore hx
  unfold readKeyText at hx
  split at hx
  · cases hx
  · exact local_readText _ s left more hmore hx
  · cases hx

theorem local_readString (wanted : String) : Local (readString wanted) := by
  intro cs s left more hmore hx
  unfold readString at hx ⊢
  split at hx
  · next hspace =>
    rw [dropSpace_append (by simp [hspace]), hspace]
    exact local_readText _ s left more hmore hx
  · exact absurd hx (refuse_ne_ok _ _ _)

theorem local_readLabel : Local readLabel := by
  intro cs x left more hmore hx
  obtain ⟨⟨found, left'⟩, hfound, hx⟩ := exists_of_bind_eq_ok hx
  have hne : dropSpace cs ≠ [] := by
    intro hspace
    rw [hspace] at hfound
    cases hfound
  rw [readLabel, dropSpace_append hne, local_readFound _ _ _ _ hmore hfound]
  cases found
  case text =>
    cases hx
    rfl
  case integer =>
    cases hx
    rfl
  all_goals cases hx

instance : LocalDecode Label where
  value := local_readLabel
  key := local_readKeyText.map Label.mk

instance : LocalDecode Char where
  value := (local_readString charKind).check charOfText
  key := local_readKeyText.check charOfText

theorem local_readUInt32 : Local readUInt32 := by
  intro cs x left more hmore hx
  unfold readUInt32 at hx ⊢
  split at hx
  · cases hx
  · next hspace =>
    rw [dropSpace_append (by simp [hspace]), hspace]
    dsimp only [List.cons_append]
    split_ifs at hx ⊢
    · obtain ⟨⟨n, left'⟩, hn, hx⟩ := exists_of_bind_eq_ok hx
      obtain ⟨y, hy, hx⟩ := exists_of_bind_eq_ok hx
      cases hx
      have hn' := local_readNumber _ _ _ _ hmore hn
      rw [List.cons_append] at hn'
      simp only [hn', bind, Except.bind, hy]
      rfl
    · exact absurd hx (refuse_ne_ok _ _ _)

theorem local_readUInt32Key : Local readUInt32Key := by
  intro cs x left more hmore hx
  unfold readUInt32Key at hx
  split at hx
  · split_ifs at hx with hc
    obtain ⟨⟨n, left'⟩, hn, hx⟩ := exists_of_bind_eq_ok hx
    obtain ⟨y, hy, hx⟩ := exists_of_bind_eq_ok hx
    split at hx
    · cases hx
      have hn' := local_readNumber _ _ _ _ hmore hn
      rw [List.cons_append] at hn'
      simp only [readUInt32Key, List.cons_append, hc, if_true, hn', bind, Except.bind, hy]
      rfl
    · cases hx
  · cases hx

instance : LocalDecode UInt32 where
  value := local_readUInt32
  key := local_readUInt32Key

end WordMachines.Json
