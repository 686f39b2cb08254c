import Mathlib.Tactic
import Mathlib.Logic.Embedding.Basic
import WordMachines.Dfa.Valid
import WordMachines.Proofs.Dfa.Runs

/-!
# Automata under other names

States and symbols may be given other names, as long as different ones stay different. Words then
lead under their new names where they led before, and if the new names read like the old ones,
validation says the same. Numbers and characters have labels that read like them.
-/

namespace WordMachines

namespace FinMap

variable {α α' β β' : Type} (f : α ↪ α') (g : β → β') (m : FinMap α β)

/-- The keys are renamed by `f` and the values by `g`; the order stays. -/
def rename : FinMap α' β' where
  entries := m.entries.map (Prod.map f g)
  nodup := by
    have hkeys := m.nodup.map f.injective
    rw [List.map_map] at hkeys ⊢
    exact hkeys

theorem keys_rename : (m.rename f g).keys = m.keys.map f := by
  simp [keys, rename]

theorem size_rename : (m.rename f g).size = m.size := by
  simp [size, rename]

variable [DecidableEq α] [DecidableEq α']

theorem lookup_map (es : List (α × β)) (k : α) :
    (es.map (Prod.map f g)).lookup (f k) = (es.lookup k).map g := by
  induction es with
  | nil => rfl
  | cons e es ih =>
    obtain ⟨k', v⟩ := e
    by_cases h : k = k'
    · simp [h]
    · have hf : f k ≠ f k' := fun heq => h (f.injective heq)
      rw [List.map_cons, Prod.map_apply, lookup_cons_of_ne hf, lookup_cons_of_ne h, ih]

theorem map_putEntry (k : α) (v : β) (es : List (α × β)) :
    (putEntry k v es).map (Prod.map f g) = putEntry (f k) (g v) (es.map (Prod.map f g)) := by
  induction es with
  | nil => rfl
  | cons e es ih =>
    obtain ⟨k', v'⟩ := e
    by_cases h : k' = k
    · simp [putEntry, h]
    · simp [putEntry, h, ih]

theorem get?_rename (k : α) : (m.rename f g).get? (f k) = (m.get? k).map g :=
  lookup_map f g m.entries k

theorem contains_rename (k : α) : (m.rename f g).contains (f k) = m.contains k := by
  rw [contains, get?_rename, Option.isSome_map, contains]

theorem rename_insert (k : α) (v : β) :
    (m.insert k v).rename f g = (m.rename f g).insert (f k) (g v) := by
  have hentries := map_putEntry f g k v m.entries
  simp only [rename, insert, hentries]

end FinMap

variable {S S' A A' : Type} (f : S ↪ S') (g : A ↪ A')

def Table.rename (t : Table S A) : Table S' A' := ⟨t.rows.rename f (·.rename g f)⟩

def Dfa.rename (d : Dfa S A) : Dfa S' A' where
  states := d.states.map f
  alphabet := d.alphabet.map g
  transitions := d.transitions.rename f g
  start := f d.start
  accept := d.accept.map f

variable [DecidableEq S] [DecidableEq S'] [DecidableEq A] [DecidableEq A']

omit [DecidableEq A] [DecidableEq A'] in
theorem Table.row_rename (t : Table S A) (q : S) :
    (t.rename f g).row (f q) = (t.row q).rename g f := by
  rw [row, rename, FinMap.get?_rename, row]
  cases t.rows.get? q <;> rfl

theorem Table.get?_rename (t : Table S A) (q : S) (a : A) :
    (t.rename f g).get? (f q) (g a) = (t.get? q a).map f := by
  rw [get?, row_rename, FinMap.get?_rename, get?]

theorem Table.rename_insert (t : Table S A) (q : S) (a : A) (target : S) :
    (t.insert q a target).rename f g = (t.rename f g).insert (f q) (g a) (f target) := by
  rw [insert, rename, FinMap.rename_insert, FinMap.rename_insert, ← row_rename, insert]
  rfl

theorem firstRepeatAfter_map (seen xs : List S) :
    firstRepeatAfter (seen.map f) (xs.map f) = (firstRepeatAfter seen xs).map f := by
  induction xs generalizing seen with
  | nil => rfl
  | cons x xs ih =>
    have hmem : f x ∈ seen.map f ↔ x ∈ seen := List.mem_map_of_injective f.injective
    by_cases h : x ∈ seen
    · simp [firstRepeatAfter, h]
    · rw [List.map_cons, firstRepeatAfter, if_neg (mt hmem.mp h), firstRepeatAfter, if_neg h,
        ← ih, List.map_cons]

theorem firstRepeat_map (xs : List S) : firstRepeat (xs.map f) = (firstRepeat xs).map f :=
  firstRepeatAfter_map f [] xs

namespace Dfa

variable (d : Dfa S A)

theorem next?_rename (q : S) (a : A) :
    (d.rename f g).next? (f q) (g a) = (d.next? q a).map f :=
  d.transitions.get?_rename f g q a

theorem run?_rename (q : S) (w : List A) :
    (d.rename f g).run? (f q) (w.map g) = (d.run? q w).map f := by
  induction w generalizing q with
  | nil => rfl
  | cons a w ih =>
    rw [List.map_cons, run?_cons, run?_cons, next?_rename]
    cases d.next? q a with
    | none => rfl
    | some t => exact ih t

omit [DecidableEq A] [DecidableEq A'] in
theorem isAccepting_rename (q : S) : (d.rename f g).isAccepting (f q) = d.isAccepting q := by
  have hmem : f q ∈ d.accept.map f ↔ q ∈ d.accept := List.mem_map_of_injective f.injective
  simp only [isAccepting, rename, hmem]

theorem accepts_rename (w : List A) : (d.rename f g).accepts (w.map g) = d.accepts w := by
  have hrun : (d.rename f g).run? (d.rename f g).start (w.map g) = (d.run? d.start w).map f :=
    d.run?_rename f g d.start w
  rw [accepts, hrun, accepts]
  cases d.run? d.start w with
  | none => rfl
  | some q => exact d.isAccepting_rename f g q

variable {d} in
theorem WellFormed.rename (hd : d.WellFormed) : (d.rename f g).WellFormed where
  states_nodup := hd.states_nodup.map f.injective
  alphabet_nodup := hd.alphabet_nodup.map g.injective
  total := by
    intro q' hq' a' ha'
    obtain ⟨q, hq, rfl⟩ := List.mem_map.mp hq'
    obtain ⟨a, ha, rfl⟩ := List.mem_map.mp ha'
    obtain ⟨t, ht, hnext⟩ := hd.total q hq a ha
    exact ⟨f t, List.mem_map_of_mem ht, by rw [next?_rename, hnext]; rfl⟩
  start_mem := List.mem_map_of_mem hd.start_mem
  accept_subset := by
    intro q' hq'
    obtain ⟨q, hq, rfl⟩ := List.mem_map.mp hq'
    exact List.mem_map_of_mem (hd.accept_subset q hq)

section Texts

variable [Shown S] [Shown S'] [Shown A] [Shown A'] (hf : ∀ q, shown (f q) = shown q)
  (hg : ∀ a, shown (g a) = shown a)
include hf hg

theorem transitionDefect?_rename (q : S) (a : A) :
    (d.rename f g).transitionDefect? (f q) (g a) = d.transitionDefect? q a := by
  rw [transitionDefect?, next?_rename, transitionDefect?]
  cases d.next? q a with
  | none => simp only [Option.map_none, hf, hg]
  | some t =>
    have hmem : f t ∈ d.states.map f ↔ t ∈ d.states := List.mem_map_of_injective f.injective
    simp only [Option.map_some, rename, hmem, hf, hg]

theorem tableDefect?_rename :
    ((d.rename f g).states.findSome? fun q =>
        (d.rename f g).alphabet.findSome? ((d.rename f g).transitionDefect? q)) =
      d.states.findSome? fun q => d.alphabet.findSome? (d.transitionDefect? q) := by
  change ((d.states.map f).findSome? fun q => (d.alphabet.map g).findSome? _) = _
  simp only [List.findSome?_map, Function.comp_def, d.transitionDefect?_rename f g hf hg]

theorem firstDefect?_rename : (d.rename f g).firstDefect? = d.firstDefect? := by
  have hmem (q : S) : f q ∈ d.states.map f ↔ q ∈ d.states :=
    List.mem_map_of_injective f.injective
  have htable := d.tableDefect?_rename f g hf hg
  rw [firstDefect?, htable, firstDefect?]
  simp only [rename, firstRepeat_map, List.find?_map, Option.map_map, Function.comp_def, hmem, hf,
    hg]

end Texts
end Dfa

def ValidDfa.rename (d : ValidDfa S A) : ValidDfa S' A' :=
  ⟨d.toDfa.rename f g, d.wellFormed.rename f g⟩

def numberLabel : UInt32 ↪ Label where
  toFun n := .ofNat n.toNat
  inj' _ _ h := shown_uint32_injective (congrArg Label.text h)

def charLabel : Char ↪ Label where
  toFun := .ofChar
  inj' _ _ h := shown_char_injective (congrArg Label.text h)

end WordMachines
