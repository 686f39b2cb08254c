import Mathlib.Tactic
import WordMachines.Json.Identifier

/-!
# Readers that take the same texts

One reader covers another if it takes every text off the front of which the other takes something,
leaves the same rest, and gives the value of the other under a new name. It may take more texts, and
of what neither takes nothing is said. Whatever is put together from readers is covered if they are.
-/

namespace WordMachines.Json

theorem exists_of_bind_eq_ok {ε α β : Type} {x : Except ε α} {f : α → Except ε β} {y : β}
    (h : (x >>= f) = .ok y) : ∃ a, x = .ok a ∧ f a = .ok y := by
  cases x with
  | error e => cases h
  | ok a => exact ⟨a, rfl, h⟩

theorem refuse_ne_ok {α : Type} (wanted : String) (cs : List Char) (p : α × List Char) :
    refuse wanted cs ≠ .ok p := by
  intro h
  obtain ⟨_, -, hthrow⟩ := exists_of_bind_eq_ok h
  cases hthrow

/-- Where `r` gives a value, `r'` gives its name under `f`, and leaves the same rest. -/
def Covers {α α' : Type} (f : α → α') (r : Reader α) (r' : Reader α') : Prop :=
  ∀ cs x rest, r cs = .ok (x, rest) → r' cs = .ok (f x, rest)

namespace Covers

variable {α α' β β' σ σ' : Type} {f : α → α'} {g : β → β'} {φ : σ → σ'} {r : Reader α}
  {r' : Reader α'} {value : Reader β} {value' : Reader β'}

theorem refl (r : Reader α) : Covers id r r := fun _ _ _ h => h

theorem pure (x : α) : Covers f (Pure.pure x) (Pure.pure (f x)) := by
  intro cs y rest h
  cases h
  rfl

theorem bind {k : α → Reader β} {k' : α' → Reader β'} (h : Covers f r r')
    (hk : ∀ x, Covers g (k x) (k' (f x))) : Covers g (r >>= k) (r' >>= k') := by
  intro cs y rest heq
  obtain ⟨⟨x, middle⟩, hx, hy⟩ := exists_of_bind_eq_ok heq
  change (r' cs >>= fun p => k' p.1 p.2) = _
  rw [h cs x middle hx]
  exact hk x middle y rest hy

theorem map {k : α → β} {k' : α' → β'} (h : Covers f r r') (hk : ∀ x, k' (f x) = g (k x)) :
    Covers g (k <$> r) (k' <$> r') := by
  intro cs y rest heq
  obtain ⟨⟨x, middle⟩, hx, hy⟩ := exists_of_bind_eq_ok heq
  change (r' cs >>= fun p => .ok (k' p.1, p.2)) = _
  rw [h cs x middle hx]
  cases hy
  rw [← hk]
  rfl

theorem rename (f : α → α') (r : Reader α) : Covers f r (f <$> r) := by
  intro cs x rest h
  change (r cs >>= fun p => .ok (f p.1, p.2)) = _
  rw [h]
  rfl

/-- A reader that checks what it has read is covered by one that need not check. -/
theorem check {check : α → Except Fault β} {g : β → α'} (h : Covers f r r')
    (hcheck : ∀ x y, check x = .ok y → f x = g y) : Covers g (do check (← r)) r' := by
  intro cs y rest heq
  obtain ⟨⟨x, middle⟩, hx, hy⟩ := exists_of_bind_eq_ok heq
  obtain ⟨z, hz, hend⟩ := exists_of_bind_eq_ok hy
  cases hend
  rw [← hcheck x _ hz]
  exact h cs x rest hx

theorem optional (h : Covers f r r') :
    Covers (Option.map f) (readOptional r) (readOptional r') := by
  have hnull : Covers (Option.map f) ((fun _ => none) <$> readExactly ['u', 'l', 'l'])
      ((fun _ => none) <$> readExactly ['u', 'l', 'l']) := (refl _).map fun _ => rfl
  have hsome : Covers (Option.map f) (some <$> r) (some <$> r') := h.map fun _ => rfl
  intro cs x rest heq
  unfold readOptional at heq ⊢
  split at heq
  · exact hnull _ x rest heq
  · exact hsome _ x rest heq

section Members

variable {close : Char} {member : σ → Reader σ} {member' : σ' → Reader σ'}
  (hmember : ∀ s, Covers φ (member s) (member' (φ s)))
include hmember

theorem more (fuel : ℕ) (s : σ) :
    Covers φ (readMore close member fuel s) (readMore close member' fuel (φ s)) := by
  -- the rests are equal after each member, so one number of rounds serves both
  induction fuel generalizing s with
  | zero =>
    intro cs x rest heq
    cases heq
  | succ fuel ih =>
    intro cs x rest heq
    unfold readMore at heq ⊢
    split at heq
    · cases heq
    · split_ifs at heq ⊢
      · cases heq
        rfl
      · split at heq
        · cases heq
        · exact (hmember s).bind ih _ x rest heq

theorem members (s : σ) :
    Covers φ (readMembers close member s) (readMembers close member' (φ s)) := by
  intro cs x rest heq
  unfold readMembers at heq ⊢
  split at heq
  · cases heq
  · split_ifs at heq ⊢
    · cases heq
      rfl
    · obtain ⟨⟨s', middle⟩, hs, hmore⟩ := exists_of_bind_eq_ok heq
      rw [hmember s _ s' middle hs]
      exact more hmember _ s' middle x rest hmore

end Members

theorem list (h : Covers f r r') : Covers (List.map f) (readList r) (readList r') := by
  have hitem (xs : List α) : Covers (List.map f) (do return xs ++ [← r])
      (do return xs.map f ++ [← r']) := by
    apply h.bind
    intro x
    have happend : xs.map f ++ [f x] = (xs ++ [x]).map f := by simp
    rw [happend]
    exact pure _
  have hmembers : Covers (List.map f) (readMembers ']' (fun xs => do return xs ++ [← r]) [])
      (readMembers ']' (fun xs => do return xs ++ [← r']) []) := members hitem []
  intro cs xs rest heq
  unfold readList at heq ⊢
  split at heq
  · exact hmembers _ xs rest heq
  · exact absurd heq (refuse_ne_ok _ _ _)

/-- The values are put into renamed states as the renamed values. -/
theorem entry {key : Reader α} {key' : Reader α'} {put : σ → α → β → σ} {put' : σ' → α' → β' → σ'}
    (hkey : Covers f key key') (hvalue : Covers g value value')
    (hput : ∀ s k v, φ (put s k v) = put' (φ s) (f k) (g v)) (s : σ) :
    Covers φ (readEntry key value put s) (readEntry key' value' put' (φ s)) := by
  apply hkey.bind
  intro k
  apply (refl readColon).bind
  intro _
  apply hvalue.bind
  intro v
  rw [← hput]
  exact pure _

end Covers

/-- Where an identifier is read, its name is read as well, both as a value and as a key. -/
structure ReadsRenamed {α α' : Type} [Decode α] [Decode α'] (f : α → α') : Prop where
  value : Covers f Decode.read Decode.read
  key : Covers f Decode.readKey Decode.readKey

end WordMachines.Json
