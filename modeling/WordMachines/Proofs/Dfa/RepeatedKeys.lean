import Mathlib.Tactic
import WordMachines.Proofs.Dfa.Equality
import WordMachines.Proofs.Dfa.Related

/-!
# Keys that come more than once

In the object of a table a key may come again, written with other escapes or not. Its last field is
the one that counts, for rows as for the entries of a row: of two rows for one state the first is
lost as a whole. So a document stands for the same automaton without the fields that count for
nothing.
-/

namespace WordMachines

namespace Json

/-- The value of the last field whose key spells the text. -/
def lastFor (key : String) (fs : Fields) : Option (Tree .value) :=
  (fs.reverse.find? fun f => spelled? f.1 = some key).map Prod.snd

/-- The fields whose keys do not come again. -/
def lastFields : Fields → Fields
  | [] => []
  | f :: fs =>
    if fs.any fun g => spelled? g.1 = spelled? f.1 then lastFields fs else f :: lastFields fs

theorem lastFor_cons (key : String) (f : List Piece × Tree .value) (fs : Fields) :
    lastFor key (f :: fs) =
      (lastFor key fs).or (if spelled? f.1 = some key then some f.2 else none) := by
  simp only [lastFor, List.reverse_cons, List.find?_append, Option.map_or, List.find?_singleton,
    decide_eq_true_eq]
  split_ifs <;> rfl

theorem exists_lastFor {key : String} {fs : Fields}
    (h : fs.any fun f => spelled? f.1 = some key) : ∃ v, lastFor key fs = some v := by
  obtain ⟨f, hf, hkey⟩ := List.any_eq_true.mp h
  have hsome : (fs.reverse.find? fun f => spelled? f.1 = some key).isSome :=
    List.find?_isSome.mpr ⟨f, List.mem_reverse.mpr hf, hkey⟩
  obtain ⟨g, hg⟩ := Option.isSome_iff_exists.mp hsome
  exact ⟨g.2, by rw [lastFor, hg, Option.map_some]⟩

/-- The fields that are left out count for nothing. -/
theorem lastFor_lastFields (key : String) (fs : Fields) :
    lastFor key (lastFields fs) = lastFor key fs := by
  induction fs with
  | nil => rfl
  | cons f fs ih =>
    rw [lastFields]
    split_ifs with hagain
    · rw [ih, lastFor_cons]
      split_ifs with hkey
      · rw [hkey] at hagain
        obtain ⟨v, hv⟩ := exists_lastFor hagain
        rw [hv, Option.some_or]
      · exact (Option.or_none).symm
    · rw [lastFor_cons, lastFor_cons, ih]

theorem lastFields_sublist (fs : Fields) : (lastFields fs).Sublist fs := by
  induction fs with
  | nil => exact .slnil
  | cons f fs ih =>
    rw [lastFields]
    split_ifs
    · exact ih.cons f
    · exact ih.cons_cons f

theorem rel_lastFor {R : Tree .value → Tree .value → Prop} {fs gs : Fields}
    (h : List.Forall₂ (fun f g => f.1 = g.1 ∧ R f.2 g.2) fs gs) (key : String) :
    Option.Rel R (lastFor key fs) (lastFor key gs) := by
  induction h with
  | nil => exact .none
  | @cons f g fs gs hfield _ ih =>
    rw [lastFor_cons, lastFor_cons, hfield.1]
    generalize lastFor key fs = v, lastFor key gs = w at ih
    cases ih with
    | some hvalue => exact .some hvalue
    | none =>
      rw [Option.none_or, Option.none_or]
      split_ifs
      · exact .some hfield.2
      · exact .none

/-- A key spells the text that shows its identifier, and this text shows no other. -/
class TextKeys (α : Type) [Decode α] [Shown α] : Prop extends Grammatical α where
  spelled?_of_key? : ∀ {ps : List Piece} {k : α}, key? ps = some k → spelled? ps = some (shown k)
  shown_injective : ∀ {k k' : α}, shown k = shown k' → k = k'

theorem spelled?_iff_of_key? {α : Type} [Decode α] [Shown α] [TextKeys α] {ps : List Piece} {k : α}
    (h : key? ps = some k) (k' : α) : spelled? ps = some (shown k') ↔ k' = k := by
  rw [TextKeys.spelled?_of_key? h, Option.some.injEq]
  constructor
  · intro hshown
    exact (TextKeys.shown_injective hshown).symm
  · rintro rfl
    rfl

theorem spelled?_of_covers {α : Type} [Decode α] {f : α → Label}
    (hkey : Covers f Decode.readKey (Label.mk <$> readKeyText)) {ps : List Piece} {k : α}
    (h : key? ps = some k) : spelled? ps = some (f k).text := by
  obtain ⟨⟨k, rest⟩, hread, rfl⟩ := Option.map_eq_some_iff.mp h
  have hlabel : alone? (Label.mk <$> readKeyText) (quoted ps) = some (f k) := by
    rw [alone?, hkey _ _ _ (toOption_eq_some_iff.mp hread)]
    rfl
  rw [(decodes_keyText.map Label.mk).alone?_eq] at hlabel
  obtain ⟨text, htext, heq⟩ := Option.map_eq_some_iff.mp hlabel
  rw [htext, ← heq]

instance : TextKeys Label where
  spelled?_of_key? := spelled?_of_covers (Covers.refl _)
  shown_injective := shown_label_injective

instance : TextKeys UInt32 where
  spelled?_of_key? := spelled?_of_covers readsRenamed_numberLabel.key
  shown_injective := shown_uint32_injective

instance : TextKeys Char where
  spelled?_of_key? := spelled?_of_covers readsRenamed_charLabel.key
  shown_injective := shown_char_injective

end Json

open Json

theorem Dfa.beq_of_transitions {S A : Type} [DecidableEq S] [DecidableEq A] (d : Dfa S A)
    {t : Table S A} (h : t == d.transitions) : { d with transitions := t } == d := by
  change (d.states == d.states && d.alphabet == d.alphabet && t == d.transitions &&
    d.start == d.start && d.accept == d.accept) = true
  simp [h]

namespace Draft

theorem exists_mapM_iff {ι α : Type} {f : ι → Option α} {is : List ι} :
    (∃ xs, is.mapM f = some xs) ↔ ∀ i ∈ is, ∃ x, f i = some x := by
  induction is with
  | nil => exact ⟨fun _ => nofun, fun _ => ⟨[], rfl⟩⟩
  | cons i is ih =>
    rw [List.forall_mem_cons, ← ih, List.mapM_cons]
    constructor
    · rintro ⟨xs, h⟩
      obtain ⟨x, hx, h⟩ := Option.bind_eq_some_iff.mp h
      obtain ⟨xs', hxs, -⟩ := Option.bind_eq_some_iff.mp h
      exact ⟨⟨x, hx⟩, xs', hxs⟩
    · rintro ⟨⟨x, hx⟩, xs, hxs⟩
      exact ⟨x :: xs, by rw [hx, hxs]; rfl⟩

section Maps

variable {α β : Type} [DecidableEq α] [Decode α]

/-- The key and the value of a field. -/
def keyed? (value : Tree .value → Option β) (f : List Piece × Tree .value) : Option (α × β) :=
  (key? f.1).bind fun k => (value f.2).map (k, ·)

omit [DecidableEq α] in
theorem keyed?_eq_some_iff {value : Tree .value → Option β} {f : List Piece × Tree .value}
    {e : α × β} : keyed? value f = some e ↔ key? f.1 = some e.1 ∧ value f.2 = some e.2 := by
  obtain ⟨k, y⟩ := e
  simp [keyed?, Option.bind_eq_some_iff]

theorem map?_eq_some_iff {value : Tree .value → Option β} {v : Tree .value} {m : FinMap α β} :
    map? value v = some m ↔
      v.bracket? = some .object ∧
        ∃ es, v.fields.mapM (keyed? value) = some es ∧ .ofList es = m := by
  by_cases hv : v.bracket? = some .object
  · rw [map?, Tree.entries?_of_object _ _ hv, Option.map_eq_some_iff]
    exact ⟨fun h => ⟨hv, h⟩, fun h => h.2⟩
  · rw [map?, Tree.entries?_of_not_object _ _ hv]
    simp [hv]

variable [Shown α] [TextKeys α]

theorem lookup_of_mapM {value : Tree .value → Option β} {fs : Fields} {es : List (α × β)}
    (h : fs.mapM (keyed? value) = some es) (k : α) :
    (es.reverse.lookup k).map some = (lastFor (shown k) fs).map value := by
  induction fs generalizing es with
  | nil =>
    cases h
    rfl
  | cons f fs ih =>
    rw [List.mapM_cons] at h
    obtain ⟨⟨k', y⟩, hentry, h⟩ := Option.bind_eq_some_iff.mp h
    obtain ⟨es', hes, h⟩ := Option.bind_eq_some_iff.mp h
    cases h
    obtain ⟨hkey, hvalue⟩ := keyed?_eq_some_iff.mp hentry
    have hlast : ([(k', y)].lookup k).map some =
        (if spelled? f.1 = some (shown k) then some f.2 else none).map value := by
      simp only [spelled?_iff_of_key? hkey]
      by_cases hk : k = k'
      · simp [hk, hvalue]
      · simp [hk, FinMap.lookup_cons_of_ne]
    rw [List.reverse_cons, List.lookup_append, Option.map_or, lastFor_cons, Option.map_or, ih hes,
      hlast]

/-- What a key has in the map is what its last field has, whose value has been read. -/
theorem get?_of_map? {value : Tree .value → Option β} {v : Tree .value} {m : FinMap α β}
    (h : map? value v = some m) (k : α) :
    (m.get? k).map some = (lastFor (shown k) v.fields).map value := by
  obtain ⟨-, es, hes, rfl⟩ := map?_eq_some_iff.mp h
  rw [FinMap.get?_ofList]
  exact lookup_of_mapM hes k

/-- `w` is an object of the last fields of `v`, with related values. -/
def LastFields (R : Tree .value → Tree .value → Prop) (v w : Tree .value) : Prop :=
  w.bracket? = some .object ∧
    List.Forall₂ (fun f g => f.1 = g.1 ∧ R f.2 g.2) (lastFields v.fields) w.fields

theorem LastFields.exists_map? [BEq β] {R : Tree .value → Tree .value → Prop}
    {value : Tree .value → Option β}
    (hvalue : ∀ v w x, R v w → value v = some x → ∃ y, value w = some y ∧ y == x)
    {v w : Tree .value} (h : LastFields R v w) {m : FinMap α β} (hm : map? value v = some m) :
    ∃ m' : FinMap α β, map? value w = some m' ∧ m' == m := by
  obtain ⟨hw, hfields⟩ := h
  obtain ⟨-, es, hes, -⟩ := map?_eq_some_iff.mp hm
  have hentries := exists_mapM_iff.mp ⟨es, hes⟩
  have hentries' : ∀ g ∈ w.fields, ∃ e : α × β, keyed? value g = some e := by
    intro g hg
    obtain ⟨f, hf, hkey, hrelated⟩ := exists_mem_right hfields.flip hg
    obtain ⟨⟨k, x⟩, he⟩ := hentries f ((lastFields_sublist _).subset hf)
    obtain ⟨hk, hx⟩ := keyed?_eq_some_iff.mp he
    obtain ⟨y, hy, -⟩ := hvalue _ _ x hrelated hx
    exact ⟨(k, y), keyed?_eq_some_iff.mpr ⟨hkey ▸ hk, hy⟩⟩
  obtain ⟨es', hes'⟩ := exists_mapM_iff.mpr hentries'
  have hm' : map? value w = some (FinMap.ofList es') := map?_eq_some_iff.mpr ⟨hw, es', hes', rfl⟩
  refine ⟨_, hm', (FinMap.beq_iff _ _).mpr ?_⟩
  intro k
  have hget := get?_of_map? hm k
  have hget' := get?_of_map? hm' k
  have hlast := rel_lastFor hfields (shown k)
  rw [lastFor_lastFields] at hlast
  generalize lastFor (shown k) v.fields = v?, lastFor (shown k) w.fields = w? at hget hget' hlast
  cases hlast with
  | none =>
    rw [Option.map_none, Option.map_eq_none_iff] at hget hget'
    simp [hget, hget']
  | @some v w hrelated =>
    obtain ⟨x, hx, hvx⟩ := Option.map_eq_some_iff.mp hget
    obtain ⟨y, hy, hwy⟩ := Option.map_eq_some_iff.mp hget'
    obtain ⟨y', hwy', heq⟩ := hvalue v w x hrelated hvx.symm
    obtain rfl : y' = y := Option.some.inj (hwy'.symm.trans hwy.symm)
    simpa [hx, hy] using heq

end Maps

section Tables

variable {S A : Type} [DecidableEq S] [DecidableEq A] [Decode S] [Decode A] [Shown S] [Shown A]
  [TextKeys S] [TextKeys A]

omit [Shown S] [Shown A] [TextKeys S] [TextKeys A] in
theorem table?_eq_some_iff {v : Tree .value} {t : Table S A} :
    table? v = some t ↔ map? (map? value?) v = some t.rows := by
  rw [table?, Option.map_eq_some_iff]
  exact ⟨by rintro ⟨m, hm, rfl⟩; exact hm, fun h => ⟨_, h, rfl⟩⟩

/-- The last row for the state decides, and its last entry for the symbol. -/
theorem get?_of_table? {v : Tree .value} {t : Table S A} (h : table? v = some t) (q : S) (a : A) :
    (t.get? q a).map some =
      (lastFor (shown q) v.fields).bind fun row =>
        (lastFor (shown a) row.fields).map value? := by
  have hrows := get?_of_map? (table?_eq_some_iff.mp h) q
  cases hlast : lastFor (shown q) v.fields with
  | none =>
    rw [hlast, Option.map_none, Option.map_eq_none_iff] at hrows
    rw [Table.get?_of_no_row hrows]
    rfl
  | some row =>
    rw [hlast] at hrows
    obtain ⟨m, hm, hmap⟩ := Option.map_eq_some_iff.mp hrows
    rw [Table.get?_of_row hm, Option.bind_some]
    exact get?_of_map? hmap.symm a

theorem exists_table? {v w : Tree .value} (h : LastFields (LastFields Eq) v w) {t : Table S A}
    (ht : table? v = some t) : ∃ t' : Table S A, table? w = some t' ∧ t' == t := by
  have hvalue : ∀ v w x, v = w → (value? v : Option S) = some x →
      ∃ y, value? w = some y ∧ y == x := by
    rintro v _ x rfl hx
    exact ⟨x, hx, beq_self_eq_true x⟩
  have hrow : ∀ v w (m : FinMap A S), LastFields Eq v w → map? value? v = some m →
      ∃ m' : FinMap A S, map? value? w = some m' ∧ m' == m :=
    fun v w m hrow hm => hrow.exists_map? hvalue hm
  obtain ⟨m, hm, heq⟩ := h.exists_map? hrow (table?_eq_some_iff.mp ht)
  exact ⟨⟨m⟩, table?_eq_some_iff.mpr hm, heq⟩

end Tables

/-- Of the rows and entries of a table the last ones are left. -/
def LastRows : Part → Tree .value → Tree .value → Prop
  | .transitions, v, w => LastFields (LastFields Eq) v w
  | _, v, w => v = w

/-- The same values but for the table, which has lost the rows and entries whose keys come again. -/
def WithoutRepeats : Tree .value → Tree .value → Prop := Related LastRows

section Documents

variable {S A : Type} [DecidableEq S] [DecidableEq A] [Decode S] [Decode A]

theorem edit?_transitions_eq_some_iff [Grammatical S] [Grammatical A] {v : Tree .value}
    {t : Table S A} : edit? (.transitions, v) = some (.transitions t) ↔ table? v = some t := by
  rw [edit?_eq]
  split_ifs with hnull
  · rw [Tree.eq_null hnull]
    exact iff_of_false nofun nofun
  · simp [gives?]

variable [Shown S] [Shown A] [TextKeys S] [TextKeys A]

theorem WithoutRepeats.exists_ofDocument {o o' : Tree .value} (h : WithoutRepeats o o')
    {before after : Space} {d : Dfa S A} (hd : Dfa.ofDocument (o.padded before after) = .ok d)
    (before' after' : Space) :
    ∃ d' : Dfa S A, Dfa.ofDocument (o'.padded before' after') = .ok d' ∧ d' == d := by
  obtain ⟨-, hparts⟩ := ofDocument_eq_ok_iff.mp hd
  have hrows := Related.valueFor h (not_isNull_of_edit? (hparts .transitions))
  obtain ⟨t, ht, heq⟩ :=
    exists_table? hrows (edit?_transitions_eq_some_iff.mp (hparts .transitions))
  refine ⟨{ d with transitions := t }, Related.ofDocument_eq_ok h hd ?_ before' after', ?_⟩
  · intro p hrelated
    cases p with
    | transitions => exact edit?_transitions_eq_some_iff.mpr ht
    | states => exact hrelated ▸ hparts .states
    | alphabet => exact hrelated ▸ hparts .alphabet
    | start => exact hrelated ▸ hparts .start
    | accept => exact hrelated ▸ hparts .accept
  · exact d.beq_of_transitions heq

end Documents

theorem exists_lastFields {R : Tree .value → Tree .value → Prop} (hR : ∀ v, ∃ w, R v w)
    (v : Tree .value) : ∃ w, LastFields R v w := by
  choose f hf using hR
  refine ⟨Tree.ofFields ((lastFields v.fields).map (Prod.map id f)), Tree.bracket?_enclosed _, ?_⟩
  rw [Tree.fields_ofFields, List.forall₂_map_right_iff, List.forall₂_same]
  exact fun g _ => ⟨rfl, hf g.2⟩

theorem exists_lastRows (p : Part) (v : Tree .value) : ∃ w, LastRows p v w := by
  cases p with
  | transitions => exact exists_lastFields (exists_lastFields fun v => ⟨v, rfl⟩) v
  | _ => exact ⟨v, rfl⟩

/-- The last row for a state counts as a whole, and in it the last entry for a symbol. The rows and
entries before them may as well be left out. -/
theorem last_of_repeated_keys_counts {S A : Type} [DecidableEq S] [DecidableEq A] [Decode S]
    [Decode A] [Shown S] [Shown A] [TextKeys S] [TextKeys A] {text : List Char} {d : Dfa S A}
    (h : Dfa.ofDocument text = .ok d) :
    (∃ (o : Tree .value) (before after : Space), text = o.padded before after) ∧
    ∀ (o : Tree .value) (before after : Space), text = o.padded before after →
      (∀ q a target, d.next? q a = some target ↔
        ∃ row entry, lastFor (shown q) (valueFor o .transitions).fields = some row ∧
          lastFor (shown a) row.fields = some entry ∧ value? entry = some target) ∧
      (∀ q a, d.next? q a = none ↔
        ∀ row, lastFor (shown q) (valueFor o .transitions).fields = some row →
          lastFor (shown a) row.fields = none) ∧
      (∃ o', WithoutRepeats o o') ∧
      ∀ o', WithoutRepeats o o' → ∀ before' after' : Space,
        ∃ d' : Dfa S A, Dfa.ofDocument (o'.padded before' after') = .ok d' ∧ d' == d := by
  refine ⟨exists_padded_of_ofDocument h, ?_⟩
  rintro o before after rfl
  obtain ⟨hlaid, hparts⟩ := ofDocument_eq_ok_iff.mp h
  have hget (q : S) (a : A) : (d.next? q a).map some =
      (lastFor (shown q) (valueFor o .transitions).fields).bind fun row =>
        (lastFor (shown a) row.fields).map value? :=
    get?_of_table? (edit?_transitions_eq_some_iff.mp (hparts .transitions)) q a
  refine ⟨?_, ?_, exists_related exists_lastRows hlaid, ?_⟩
  · intro q a target
    have hsome : d.next? q a = some target ↔ (d.next? q a).map some = some (some target) := by
      simp
    rw [hsome, hget, Option.bind_eq_some_iff]
    simp only [Option.map_eq_some_iff, exists_and_left]
  · intro q a
    rw [← Option.map_eq_none_iff (f := some), hget, Option.bind_eq_none_iff]
    simp only [Option.map_eq_none_iff]
  · intro o' ho' before' after'
    exact ho'.exists_ofDocument h before' after'

def escapedQ : CodeUnit :=
  { underscore with c := ⟨'7', 7, by decide⟩, d := ⟨'1', 1, by decide⟩ }

def escapedB : CodeUnit :=
  { underscore with c := ⟨'6', 6, by decide⟩, d := ⟨'2', 2, by decide⟩ }

/-- The last row and its last entry have their keys escaped. -/
def lastOnes : Fields := [([.unit escapedQ], .ofFields [([.unit escapedB], letterQ)])]

/-- Two rows for one state, of which the first has a target for a symbol that the second has not. -/
def repeatedRows : Tree .value :=
  .ofFields
    [(plainly ['q'], .ofFields [(plainly ['a'], letterQ)]),
      (plainly ['r'], .ofFields []),
      ([.unit escapedQ], .ofFields
        [(plainly ['b'], .scalar (.string [])), ([.unit escapedB], letterQ)])]

def singleRows : Tree .value := .ofFields ((plainly ['r'], .ofFields []) :: lastOnes)

theorem withoutRepeats_sketch {table table' : Tree .value}
    (h : LastFields (LastFields Eq) table table') :
    WithoutRepeats (sketch table) (sketch table') := by
  refine .object rfl rfl ?_
  exact .cons ⟨rfl, rfl⟩ <| .cons ⟨rfl, h⟩ <| .cons ⟨rfl, rfl⟩ <| .cons ⟨rfl, rfl⟩ <|
    .cons ⟨rfl, rfl⟩ <| .cons ⟨rfl, rfl⟩ .nil

theorem repeatedRows_last_counts :
    let d : Dfa Label Label :=
      ⟨[⟨"q"⟩], [], ⟨.ofList [(⟨"q"⟩, .ofList [(⟨"b"⟩, ⟨"q"⟩)]), (⟨"r"⟩, ∅)]⟩, ⟨"q"⟩, []⟩
    Dfa.ofDocument ((sketch repeatedRows).padded blank .none) = .ok d ∧
      d.next? ⟨"q"⟩ ⟨"b"⟩ = some ⟨"q"⟩ ∧ d.next? ⟨"q"⟩ ⟨"a"⟩ = none ∧
      WithoutRepeats (sketch repeatedRows) (sketch singleRows) ∧
      ∃ d' : Dfa Label Label,
        Dfa.ofDocument ((sketch singleRows).padded .none blank) = .ok d' ∧ d' == d := by
  intro d
  have hd : Dfa.ofDocument ((sketch repeatedRows).padded blank .none) = .ok d := by
    have hparts : (given (sketch repeatedRows).fields).map Prod.fst =
      [.transitions, .states, .alphabet, .accept, .start] := rfl
    refine ofDocument_eq_ok_iff.mpr ⟨.object rfl rfl ?_, ?_⟩
    · rw [hparts]
      decide
    · intro p
      cases p <;> rfl
  have hsame : WithoutRepeats (sketch repeatedRows) (sketch singleRows) := by
    apply withoutRepeats_sketch
    exact ⟨rfl, .cons ⟨rfl, rfl, .nil⟩ (.cons ⟨rfl, rfl, .cons ⟨rfl, rfl⟩ .nil⟩ .nil)⟩
  obtain ⟨-, htable⟩ := last_of_repeated_keys_counts hd
  obtain ⟨hsome, hnone, -, hwithout⟩ := htable _ blank .none rfl
  refine ⟨hd, ?_, ?_, hsame, hwithout _ hsame .none blank⟩
  · exact (hsome _ _ _).mpr ⟨_, _, rfl, rfl, rfl⟩
  · refine (hnone _ _).mpr ?_
    rintro row hrow
    cases hrow
    rfl

end Draft
end WordMachines
