import Mathlib.Tactic
import WordMachines.Proofs.Dfa.Document
import WordMachines.Proofs.Json.Labels

/-!
# Documents read under other names

A document that is read with identifiers of one kind can be read with their names instead, if every
identifier can: fields, rows and entries come in the same order, and of two equal keys the same one
stays, since different identifiers have different names. So whatever text gives an automaton with
numbers as states and characters as symbols also gives one with labels.
-/

namespace WordMachines

open Json

theorem FinMap.covers_map {α α' β β' : Type} [DecidableEq α] [DecidableEq α'] [Decode α]
    [Decode α'] {f : α ↪ α'} {g : β → β'} (hf : ReadsRenamed f) {value : Reader β}
    {value' : Reader β'} (hvalue : Covers g value value') :
    Covers (FinMap.rename f g) (Draft.readMap value) (Draft.readMap value') := by
  have hentry (m : FinMap α β) :
      Covers (FinMap.rename f g) (readEntry Decode.readKey value insert m)
        (readEntry Decode.readKey value' insert (m.rename f g)) :=
    hf.key.entry hvalue (fun m k v => m.rename_insert f g k v) m
  intro cs m rest heq
  unfold Draft.readMap at heq ⊢
  split at heq
  · exact Covers.members hentry ∅ _ m rest heq
  · exact absurd heq (refuse_ne_ok _ _ _)

namespace Draft

variable {S S' A A' : Type} (f : S ↪ S') (g : A ↪ A')

def rename (d : Draft S A) : Draft S' A' where
  states := d.states.map (List.map f)
  alphabet := d.alphabet.map (List.map g)
  transitions := d.transitions.map (Table.rename f g)
  start := d.start.map f
  accept := d.accept.map (List.map f)

def Edit.rename : Edit S A → Edit S' A'
  | .states qs => .states (qs.map f)
  | .alphabet as => .alphabet (as.map g)
  | .transitions t => .transitions (t.rename f g)
  | .transition q a target => .transition (f q) (g a) (f target)
  | .start q => .start (f q)
  | .accept qs => .accept (qs.map f)

theorem build_rename (d : Draft S A) : (d.rename f g).build = d.build.map (Dfa.rename f g) := by
  obtain ⟨_ | states, _ | alphabet, _ | transitions, _ | start, _ | accept⟩ := d <;> rfl

variable [DecidableEq S] [DecidableEq S'] [DecidableEq A] [DecidableEq A']

theorem rename_edit (d : Draft S A) (e : Edit S A) :
    (d.edit e).rename f g = (d.rename f g).edit (e.rename f g) := by
  cases e with
  | transition q a target =>
    have htable : (d.rename f g).transitions.getD ∅ = (d.transitions.getD ∅).rename f g := by
      change (d.transitions.map (Table.rename f g)).getD ∅ = _
      cases d.transitions <;> rfl
    rw [Edit.rename, edit, edit, htable, ← Table.rename_insert]
    rfl
  | _ => rfl

section Readers

variable {f : S ↪ S'} {g : A ↪ A'} [Decode S] [Decode S'] [Decode A] [Decode A']
  (hf : ReadsRenamed f) (hg : ReadsRenamed g)
include hf hg

theorem covers_table : Covers (Table.rename f g) readTable readTable := by
  apply (FinMap.covers_map hf (FinMap.covers_map hg hf.value)).bind
  intro rows
  exact Covers.pure (Table.mk rows)

theorem covers_part (p : Part) : Covers (Edit.rename f g) (readPart p) (readPart p) := by
  cases p with
  | states => exact hf.value.list.bind fun qs => Covers.pure (Edit.states qs)
  | alphabet => exact hg.value.list.bind fun as => Covers.pure (Edit.alphabet as)
  | transitions => exact (covers_table hf hg).bind fun t => Covers.pure (Edit.transitions t)
  | start => exact hf.value.bind fun q => Covers.pure (Edit.start q)
  | accept => exact hf.value.list.bind fun qs => Covers.pure (Edit.accept qs)

theorem covers_value (d : Draft S A) (p : Part) :
    Covers (rename f g) (readValue d p) (readValue (d.rename f g) p) := by
  apply (covers_part hf hg p).optional.bind
  intro e?
  cases e? with
  | none => exact Covers.pure d
  | some e =>
    change Covers _ (pure (d.edit e)) (pure ((d.rename f g).edit (e.rename f g)))
    rw [← rename_edit]
    exact Covers.pure (d.edit e)

theorem covers_field (s : List Part × Draft S A) :
    Covers (Prod.map id (rename f g)) (readField s) (readField (s.map id (rename f g))) := by
  apply (Covers.refl readKeyText).bind
  intro name
  dsimp only [id]
  -- the names of fields are no identifiers, so that both see the same parts
  cases Part.ofName? name with
  | none =>
    apply (Covers.refl readColon).bind
    intro _
    apply (Covers.refl skipValue).bind
    intro _
    exact Covers.pure s
  | some p =>
    change Covers _ (if p ∈ s.1 then _ else _) (if p ∈ s.1 then _ else _)
    split_ifs
    · intro cs x rest heq
      cases heq
    · apply (Covers.refl readColon).bind
      intro _
      apply (covers_value hf hg s.2 p).bind
      intro d
      exact Covers.pure (p :: s.1, d)

theorem covers_items (parts : List Part) (i : ℕ) (d : Draft S A) :
    Covers (rename f g) (readItems i d parts) (readItems i (d.rename f g) parts) := by
  induction parts generalizing i d with
  | nil =>
    intro cs x rest heq
    unfold readItems at heq ⊢
    split at heq
    · cases heq
    · cases heq
      rfl
    · cases heq
  | cons p parts ih =>
    have hrest : Covers (rename f g) (readValue d p >>= fun d => readItems (i + 1) d parts)
        (readValue (d.rename f g) p >>= fun d => readItems (i + 1) d parts) :=
      (covers_value hf hg d p).bind (ih (i + 1))
    intro cs x rest heq
    unfold readItems at heq ⊢
    split at heq
    · cases heq
    · split_ifs at heq ⊢
      · exact hrest _ x rest heq
      · split at heq
        · cases heq
        · exact hrest _ x rest heq

theorem covers_read : Covers (rename f g) read read := by
  have hfields : Covers (rename f g) (Prod.snd <$> readMembers '}' readField ([], {}))
      (Prod.snd <$> readMembers '}' readField ([], {})) :=
    (Covers.members (covers_field hf hg) ([], {})).map fun _ => rfl
  intro cs d rest heq
  unfold read at heq ⊢
  split at heq
  · exact hfields _ d rest heq
  · exact covers_items hf hg Part.all 0 {} _ d rest heq
  · exact absurd heq (refuse_ne_ok _ _ _)

end Readers
end Draft

namespace Dfa

theorem eq_ok_of_mapError {ε ε' α : Type} {f : ε → ε'} {x : Except ε α} {a : α}
    (h : x.mapError f = .ok a) : x = .ok a := by
  cases x with
  | error e => cases h
  | ok b => exact congrArg Except.ok (Except.ok.inj h)

theorem ofDocument_rename {S S' A A' : Type} [DecidableEq S] [DecidableEq S'] [DecidableEq A]
    [DecidableEq A'] [Decode S] [Decode S'] [Decode A] [Decode A'] {f : S ↪ S'} {g : A ↪ A'}
    (hf : ReadsRenamed f) (hg : ReadsRenamed g) {text : List Char} {d : Dfa S A}
    (h : ofDocument text = .ok d) : ofDocument text = .ok (d.rename f g) := by
  obtain ⟨⟨draft, rest⟩, hread, h⟩ := exists_of_bind_eq_ok h
  obtain ⟨e, hbuild, h⟩ := exists_of_bind_eq_ok h
  obtain ⟨_, hfinish, h⟩ := exists_of_bind_eq_ok h
  cases h
  have hread' := Draft.covers_read hf hg _ draft rest (eq_ok_of_mapError hread)
  have hbuild' : (draft.rename f g).build = .ok (d.rename f g) := by
    rw [draft.build_rename, eq_ok_of_mapError hbuild]
    rfl
  rw [ofDocument, hread']
  change ((draft.rename f g).build.mapError DocumentFault.absent >>= fun d' =>
    (finish rest).mapError DocumentFault.json >>= fun _ => .ok d') = _
  rw [hbuild', eq_ok_of_mapError hfinish]
  rfl

/-- Whatever text gives an automaton with numbers as states and characters as symbols gives, read
with labels, the same automaton under the labels that show these numbers and characters. In
particular the document of every such automaton does. -/
theorem typed_text_read_as_labels :
    (∀ (text : List Char) (d : Dfa UInt32 Char), ofDocument text = .ok d →
        ofDocument text = .ok (d.rename numberLabel charLabel)) ∧
      ∀ d : Dfa UInt32 Char, ofDocument d.document = .ok (d.rename numberLabel charLabel) := by
  refine ⟨?_, ?_⟩
  · intro text d h
    exact ofDocument_rename readsRenamed_numberLabel readsRenamed_charLabel h
  · intro d
    exact ofDocument_rename readsRenamed_numberLabel readsRenamed_charLabel d.ofDocument_document

/-- A row and an entry that come twice, once with the key escaped; a field that is skipped, and
white space. -/
def repetitive : List Char :=
  writeObject [
    ("\"note\"".toList, " [null, -0.5]".toList),
    ("\"alphabet\"".toList, "[ \"a\"]".toList),
    ("\n\"states\" ".toList, "[0,10 ]".toList),
    (writeText "transitions", writeObject [
      (writeText "10", writeObject [(writeText "b", ['7'])]),
      (writeText "0", writeObject []),
      (writeText "10", writeObject [(writeText "a", "10".toList), ("\"\\u0061\"".toList, ['0'])])]),
    (writeText "start_state", ['0']),
    (writeText "accept_states", "[4294967295]".toList)]

theorem repetitive_read_as_labels :
    ∃ d : Dfa UInt32 Char, ofDocument repetitive = .ok d ∧
      (d.states = [0, 10] ∧ d.transitions.triples = [(10, 'a', 0)] ∧ d.accept = [4294967295]) ∧
      ofDocument repetitive = .ok (d.rename numberLabel charLabel) := by
  have hparts : (ofDocument repetitive : Except _ (Dfa UInt32 Char)).toOption.map
      (fun d => (d.states, d.transitions.triples, d.accept)) =
        some ([0, 10], [(10, 'a', 0)], [4294967295]) := by decide +kernel
  cases hd : (ofDocument repetitive : Except _ (Dfa UInt32 Char)) with
  | error fault =>
    rw [hd] at hparts
    cases hparts
  | ok d =>
    rw [hd] at hparts
    simp only [Except.toOption, Option.map_some, Option.some.injEq, Prod.mk.injEq] at hparts
    exact ⟨d, rfl, hparts, typed_text_read_as_labels.1 repetitive d hd⟩

end Dfa
end WordMachines
