import Mathlib.Tactic
import WordMachines.Proofs.Json.Soundness.Skipping

/-!
# Nothing but JSON is read

What a reader takes off the front of a text is a value of the grammar with white space before it,
and what it takes for a key is a string. So a text that is read as a whole is the text of a value.
-/

namespace WordMachines.Json

/-- What `r` takes off the front of a text satisfies `P`. -/
def TakesOnly {α : Type} (r : Reader α) (P : List Char → Prop) : Prop :=
  ∀ cs x rest, r cs = .ok (x, rest) → ∃ taken, P taken ∧ cs = taken ++ rest

section Readers

variable {α β : Type} {r : Reader α} {P : List Char → Prop}

theorem TakesOnly.map (h : TakesOnly r P) (f : α → β) : TakesOnly (f <$> r) P := by
  intro cs y rest hy
  obtain ⟨⟨x, middle⟩, hx, hend⟩ := exists_of_bind_eq_ok hy
  cases hend
  exact h cs x rest hx

theorem TakesOnly.check (h : TakesOnly r P) (f : α → Except Fault β) :
    TakesOnly (do f (← r)) P := by
  intro cs y rest hy
  obtain ⟨⟨x, middle⟩, hx, hcheck⟩ := exists_of_bind_eq_ok hy
  obtain ⟨z, hz, hend⟩ := exists_of_bind_eq_ok hcheck
  cases hend
  exact h cs x rest hx

theorem takesOnly_skipValue : TakesOnly skipValue IsValue :=
  fun _ _ _ => exists_isValue_of_skipValue

theorem takesOnly_keyText : TakesOnly readKeyText IsKey := by
  intro cs x rest h
  unfold readKeyText at h
  split at h
  · cases h
  · obtain ⟨ps, hps⟩ := exists_quoted_of_readText h
    exact ⟨quoted ps, ⟨ps, rfl⟩, hps⟩
  · cases h

theorem takesOnly_string (wanted : String) : TakesOnly (readString wanted) IsValue := by
  intro cs x rest h
  unfold readString at h
  split at h
  · next hspace =>
    obtain ⟨ps, hps⟩ := exists_quoted_of_readText h
    exact (Tree.scalar (.string ps)).isValue.of_dropSpace (hspace.trans hps)
  · exact absurd h (refuse_ne_ok _ _ _)

theorem takesOnly_label : TakesOnly readLabel IsValue := by
  intro cs x rest h
  obtain ⟨⟨found, rest'⟩, hfound, h⟩ := exists_of_bind_eq_ok h
  have hrest : found ≠ .list ∧ found ≠ .object ∧ rest' = rest := by
    cases found with
    | text | integer =>
      cases h
      exact ⟨nofun, nofun, rfl⟩
    | _ => cases h
  obtain ⟨hlist, hobject, rfl⟩ := hrest
  obtain ⟨s, hs⟩ := exists_scalar_of_readFound hfound hlist hobject
  exact (Tree.scalar s).isValue.of_dropSpace hs

theorem takesOnly_uint32 : TakesOnly readUInt32 IsValue := by
  intro cs x rest h
  unfold readUInt32 at h
  split at h
  · cases h
  · next hspace =>
    split_ifs at h
    · obtain ⟨⟨n, rest'⟩, hnumber, hcheck⟩ := exists_of_bind_eq_ok h
      obtain ⟨y, hy, hend⟩ := exists_of_bind_eq_ok hcheck
      cases hend
      obtain ⟨n, hn⟩ := exists_number hnumber
      exact (Tree.scalar (.number n)).isValue.of_dropSpace (hspace.trans hn)
    · exact absurd h (refuse_ne_ok _ _ _)

theorem takesOnly_uint32Key : TakesOnly readUInt32Key IsKey := by
  intro cs x rest h
  exact (takesOnly_keyText.map Label.mk) cs _ rest (covers_uint32Key cs x rest h)

end Readers

section Members

variable {b : Bracket} {σ : Type} {member : σ → Reader σ}
  (hmember : ∀ s, TakesOnly (member s) (IsMember b))
include hmember

theorem closesWith_of_readMore {fuel : ℕ} {s s' : σ} {cs rest : List Char}
    (h : readMore b.close member fuel s cs = .ok (s', rest)) : ClosesWith b cs rest := by
  induction fuel generalizing s cs with
  | zero => cases h
  | succ fuel ih =>
    obtain ⟨after, hcs⟩ := exists_space cs
    unfold readMore at h
    split at h
    · cases h
    · next c tail hspace =>
      rw [hspace] at hcs
      split_ifs at h with hclose hcomma
      · cases h
        exact ⟨after, Or.inl (hclose ▸ hcs)⟩
      · split at h
        · cases h
        · obtain ⟨⟨s₁, middle⟩, hs, hmore⟩ := exists_of_bind_eq_ok h
          obtain ⟨taken, htaken, hdrop⟩ := hmember s _ _ _ hs
          obtain ⟨ms, rfl⟩ := htaken.exists_members hdrop (ih hmore)
          exact ⟨after, Or.inr ⟨ms, hcomma ▸ hcs⟩⟩

/-- The opening bracket has been read. -/
theorem exists_value_of_readMembers {s s' : σ} {cs rest : List Char}
    (h : readMembers b.close member s cs = .ok (s', rest)) :
    ∃ v : Tree .value, b.opening :: cs = v.text ++ rest := by
  obtain ⟨inner, hcs⟩ := exists_space cs
  unfold readMembers at h
  split at h
  · cases h
  · next c tail hspace =>
    split_ifs at h with hclose
    · cases h
      exact ⟨.empty b inner, by rw [hcs, hspace, hclose]; simp [Tree.text]⟩
    · obtain ⟨⟨s₁, middle⟩, hs, hmore⟩ := exists_of_bind_eq_ok h
      obtain ⟨taken, htaken, hdrop⟩ := hmember s _ _ _ hs
      obtain ⟨ms, rfl⟩ := htaken.exists_members (hspace.trans hdrop)
        (closesWith_of_readMore hmember hmore)
      exact ⟨.bracket b ms, by simp [Tree.text]⟩

end Members

section Readers

variable {α β σ : Type}

theorem TakesOnly.list {item : Reader α} (h : TakesOnly item IsValue) :
    TakesOnly (readList item) IsValue := by
  have hitem (xs : List α) : TakesOnly (do return xs ++ [← item]) (IsMember .list) := by
    intro cs x rest hx
    obtain ⟨taken, htaken, hcs⟩ := (h.map (xs ++ [·])) cs x rest hx
    exact ⟨taken, htaken.isMember, hcs⟩
  intro cs xs rest hread
  unfold readList at hread
  split at hread
  · next hspace =>
    obtain ⟨v, hv⟩ := exists_value_of_readMembers hitem hread
    exact v.isValue.of_dropSpace (hspace.trans hv)
  · exact absurd hread (refuse_ne_ok _ _ _)

theorem takesOnly_entry {key : Reader α} {value : Reader β} (hkey : TakesOnly key IsKey)
    (hvalue : TakesOnly value IsValue) (put : σ → α → β → σ) (s : σ) :
    TakesOnly (readEntry key value put s) (IsMember .object) := by
  intro cs s' rest h
  obtain ⟨⟨k, rest₁⟩, hk, h⟩ := exists_of_bind_eq_ok h
  obtain ⟨⟨_, rest₂⟩, hcolon, h⟩ := exists_of_bind_eq_ok h
  obtain ⟨⟨v, rest₃⟩, hv, h⟩ := exists_of_bind_eq_ok h
  cases h
  obtain ⟨_, ⟨ps, rfl⟩, rfl⟩ := hkey _ _ _ hk
  exact exists_isMember_of_readColon hcolon (hvalue _ _ _ hv)

theorem TakesOnly.optional {r : Reader α} (h : TakesOnly r IsValue) :
    TakesOnly (readOptional r) IsValue := by
  intro cs x rest hx
  unfold readOptional at hx
  split at hx
  · next hspace =>
    obtain ⟨⟨_, rest'⟩, hword, hend⟩ := exists_of_bind_eq_ok hx
    cases hend
    rw [eq_append_of_readExactly hword] at hspace
    exact Tree.null.isValue.of_dropSpace hspace
  · obtain ⟨⟨y, rest'⟩, hy, hend⟩ := exists_of_bind_eq_ok hx
    cases hend
    obtain ⟨taken, htaken, hcs⟩ := h _ _ _ hy
    exact htaken.of_dropSpace hcs

theorem TakesOnly.exists_padded {r : Reader α} (h : TakesOnly r IsValue) {text : List Char} {x : α}
    (hx : readWith r text = .ok x) :
    ∃ (v : Tree .value) (before after : Space), text = v.padded before after := by
  obtain ⟨⟨y, rest⟩, hread, hrest⟩ := exists_of_bind_eq_ok hx
  obtain ⟨_, hfinish, -⟩ := exists_of_bind_eq_ok hrest
  obtain ⟨_, ⟨before, v, rfl⟩, rfl⟩ := h _ _ _ hread
  obtain ⟨after, rfl⟩ := exists_space_of_finish hfinish
  exact ⟨v, before, after, by simp [Tree.padded]⟩

end Readers

end WordMachines.Json
