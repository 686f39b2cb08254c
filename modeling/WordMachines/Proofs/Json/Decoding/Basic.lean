import Mathlib.Tactic
import WordMachines.Proofs.Json.Covers
import WordMachines.Proofs.Json.Skipping

/-!
# What is read depends on the value alone

A reader decodes a kind of texts if it takes the same from each of them wherever it stands, and
nothing if it refuses it. From values it may in addition pass over white space.
-/

namespace WordMachines.Json

section Outcomes

variable {ε α β : Type}

theorem toOption_eq_some_iff {x : Except ε α} {a : α} : x.toOption = some a ↔ x = .ok a := by
  cases x <;> simp [Except.toOption]

theorem toOption_bind (x : Except ε α) (f : α → Except ε β) :
    (x >>= f).toOption = x.toOption.bind fun a => (f a).toOption := by
  cases x <;> rfl

theorem toOption_refuse (wanted : String) (cs : List Char) :
    (refuse wanted cs : Except Fault (α × List Char)).toOption = none := by
  cases h : (refuse wanted cs : Except Fault (α × List Char)) with
  | error fault => rfl
  | ok p => exact absurd h (refuse_ne_ok _ _ _)

end Outcomes

section Decodes

variable {α β ι : Type} {r : Reader α} {text : ι → List Char} {f : ι → Option α}

/-- `r` takes those of the texts for which `f` gives something, and this is what it takes from them,
whatever comes behind. -/
def Decodes (r : Reader α) (text : ι → List Char) (f : ι → Option α) : Prop :=
  ∀ i rest, EndsNumber rest → (r (text i ++ rest)).toOption = (f i).map (·, rest)

/-- What `r` takes from a text that stands alone. -/
def alone? (r : Reader α) (cs : List Char) : Option α := (r cs).toOption.map Prod.fst

theorem endsNumber_nil : EndsNumber [] := nofun

namespace Decodes

theorem alone?_eq (h : Decodes r text f) (i : ι) : alone? r (text i) = f i := by
  have hread := h i [] endsNumber_nil
  rw [List.append_nil] at hread
  rw [alone?, hread]
  cases f i <;> rfl

theorem alone (h : Decodes r text f) : Decodes r text fun i => alone? r (text i) := by
  rwa [funext h.alone?_eq]

theorem map (h : Decodes r text f) (g : α → β) :
    Decodes (g <$> r) text fun i => (f i).map g := by
  intro i rest hrest
  change (r (text i ++ rest) >>= fun p => .ok (g p.1, p.2)).toOption = _
  rw [toOption_bind, h i rest hrest]
  dsimp only
  cases f i <;> rfl

theorem check (h : Decodes r text f) (g : α → Except Fault β) :
    Decodes (do g (← r)) text fun i => (f i).bind fun x => (g x).toOption := by
  intro i rest hrest
  change (r (text i ++ rest) >>= fun p => g p.1 >>= fun y => .ok (y, p.2)).toOption = _
  rw [toOption_bind, h i rest hrest]
  dsimp only
  cases f i with
  | none => rfl
  | some x =>
    change (g x >>= fun y => .ok (y, rest)).toOption = _
    rw [Option.bind_some]
    cases g x <;> rfl

end Decodes

/-- `r` takes values in this way, and passes over white space before them. -/
structure DecodesValues (r : Reader α) (f : Tree .value → Option α) : Prop where
  read_dropSpace : ∀ cs, r (dropSpace cs) = r cs
  decodes : Decodes r Tree.text f

namespace DecodesValues

variable {f : Tree .value → Option α} (h : DecodesValues r f)
include h

theorem read_space (before : Space) (cs : List Char) : r (before.chars ++ cs) = r cs := by
  rw [← h.read_dropSpace, before.dropSpace_append, h.read_dropSpace]

theorem alone : DecodesValues r fun v => alone? r v.text := ⟨h.read_dropSpace, h.decodes.alone⟩

theorem map (g : α → β) : DecodesValues (g <$> r) fun v => (f v).map g where
  read_dropSpace cs := by
    change (r (dropSpace cs) >>= fun p => .ok (g p.1, p.2)) = r cs >>= fun p => .ok (g p.1, p.2)
    rw [h.read_dropSpace]
  decodes := h.decodes.map g

theorem readWith_eq_ok_iff (before after : Space) (v : Tree .value) (x : α) :
    readWith r (v.padded before after) = .ok x ↔ f v = some x := by
  have hends : EndsNumber after.chars := by
    have hspace := endsNumber_nil.space after
    rwa [List.append_nil] at hspace
  have hread : (readWith r (v.padded before after)).toOption = f v := by
    rw [readWith, Tree.padded, h.read_space, toOption_bind, h.decodes v _ hends]
    cases f v with
    | none => rfl
    | some x =>
      change (finish after.chars >>= fun _ => .ok x).toOption = some x
      rw [finish_space]
      rfl
  rw [← toOption_eq_some_iff, hread]

theorem check (g : α → Except Fault β) :
    DecodesValues (do g (← r)) fun v => (f v).bind fun x => (g x).toOption where
  read_dropSpace cs := by
    change (r (dropSpace cs) >>= fun p => (liftM (g p.1) : Reader β) p.2) =
      r cs >>= fun p => (liftM (g p.1) : Reader β) p.2
    rw [h.read_dropSpace]
  decodes := h.decodes.check g

end DecodesValues

end Decodes

namespace NumberText

/-- The number, if it is not too large for one. -/
def number? (n : NumberText) : Option Number :=
  match n.numeral.integer? with
  | some k => some (.integer k)
  | none => n.numeral.magnitude?.map (.real n.negative)

theorem decodes_number : Decodes readNumber text number? := by
  intro n rest hrest
  rw [readNumber, n.read_text .unfinished hrest, toOption_bind, Except.toOption, Option.bind_some,
    number?]
  dsimp only
  cases n.numeral.integer? with
  | some k => rfl
  | none => cases n.numeral.magnitude? <;> rfl

end NumberText

theorem decodes_keyText : Decodes readKeyText quoted spelled? := by
  intro ps rest _
  have htext := Piece.readText_text ps rest
  rw [quoted, List.cons_append, List.append_assoc, List.singleton_append]
  change (readText (ps.flatMap Piece.text ++ '"' :: rest)).toOption = _
  rw [htext, spelled?]
  cases Piece.chars? ps <;> rfl

/-- What the first character of a value tells of it. -/
structure Tree.Begins (v : Tree .value) (c : Char) : Prop where
  null : c = 'n' → v = .null
  string : c = '"' → ∃ ps, v = .scalar (.string ps)
  number : c = '-' ∨ c.isDigit → ∃ n, v = .scalar (.number n)
  list : c = '[' → v.bracket? = some .list
  object : c = '{' → v.bracket? = some .object

theorem Tree.begins (v : Tree .value) : ∃ c tail, v.text = c :: tail ∧ v.Begins c := by
  cases v with
  | scalar s =>
    cases s with
    | null => exact ⟨_, _, rfl, fun _ => rfl, nofun, nofun, nofun, nofun⟩
    | bool b => cases b <;> exact ⟨_, _, rfl, nofun, nofun, nofun, nofun, nofun⟩
    | string ps => exact ⟨_, _, rfl, nofun, fun _ => ⟨ps, rfl⟩, nofun, nofun, nofun⟩
    | number n =>
      obtain ⟨c, tail, hc, hnumber⟩ := n.exists_text_eq
      have hne (d : Char) (hd : d ≠ '-' ∧ d.isDigit = false) : c ≠ d := by
        rintro rfl
        simp [hd] at hnumber
      refine ⟨c, tail, hc, ?_, ?_, fun _ => ⟨n, rfl⟩, ?_, ?_⟩
      all_goals exact fun h => absurd h (hne _ (by decide))
  | empty b inner =>
    cases b
    · exact ⟨_, _, rfl, nofun, nofun, nofun, fun _ => rfl, nofun⟩
    · exact ⟨_, _, rfl, nofun, nofun, nofun, nofun, fun _ => rfl⟩
  | bracket b ms =>
    cases b
    · exact ⟨_, _, rfl, nofun, nofun, nofun, fun _ => rfl, nofun⟩
    · exact ⟨_, _, rfl, nofun, nofun, nofun, nofun, fun _ => rfl⟩

end WordMachines.Json
