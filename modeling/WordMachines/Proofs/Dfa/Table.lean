import Mathlib.Tactic
import WordMachines.Dfa.Table
import WordMachines.Proofs.FinMap

/-!
# Tables as maps from pairs

A table is a map of rows. What it gives the pairs of a state and a symbol does not tell of its empty
rows, and two tables are equal just if they give each pair the same and have the same empty rows.
No insertion leaves an empty row. So a table that is made from triples is the finite map from pairs
that the triples list, and it is equal to another such table just if they give each pair the same.
-/

namespace WordMachines
namespace Table

variable {S A : Type} [DecidableEq S] [DecidableEq A]

def HasEmptyRow (t : Table S A) (q : S) : Prop := t.rows.get? q = some ∅

theorem hasEmptyRow_insert (t : Table S A) (q : S) (a : A) (target q' : S) :
    (t.insert q a target).HasEmptyRow q' ↔ q' ≠ q ∧ t.HasEmptyRow q' := by
  have hne : (t.row q).insert a target ≠ ∅ := by
    intro hrow
    have hget := FinMap.get?_insert (t.row q) a target a
    simp [hrow] at hget
  by_cases h : q' = q <;> simp [HasEmptyRow, insert, FinMap.get?_insert, h, hne]

theorem get?_of_row {t : Table S A} {q : S} {row : FinMap A S} (h : t.rows.get? q = some row)
    (a : A) : t.get? q a = row.get? a := by
  simp [get?, Table.row, h]

theorem get?_of_no_row {t : Table S A} {q : S} (h : t.rows.get? q = none) (a : A) :
    t.get? q a = none := by
  simp [get?, Table.row, h]

/-- A row that gives no symbol a target is there for nothing. -/
theorem hasEmptyRow_of_get? {t : Table S A} {q : S} {row : FinMap A S}
    (h : t.rows.get? q = some row) (hnone : ∀ a, t.get? q a = none) : t.HasEmptyRow q := by
  have hrow : row = ∅ := FinMap.eq_empty_of_get? fun a => by rw [← get?_of_row h, hnone]
  rw [HasEmptyRow, h, hrow]

theorem row_beq_iff (r r' : FinMap A S) : r == r' ↔ ∀ a, r.get? a = r'.get? a := by
  simp [FinMap.beq_iff]

theorem rows_beq_iff (t u : Table S A) (q : S) :
    t.rows.get? q == u.rows.get? q ↔
      (∀ a, t.get? q a = u.get? q a) ∧ (t.HasEmptyRow q ↔ u.HasEmptyRow q) := by
  cases ht : t.rows.get? q with
  | none =>
    cases hu : u.rows.get? q with
    | none => simp [HasEmptyRow, get?_of_no_row, ht, hu]
    | some r' =>
      have hother (hget : ∀ a, t.get? q a = u.get? q a) : u.HasEmptyRow q :=
        hasEmptyRow_of_get? hu fun a => by rw [← hget, get?_of_no_row ht]
      simpa [HasEmptyRow, ht] using hother
  | some r =>
    cases hu : u.rows.get? q with
    | none =>
      have hother (hget : ∀ a, t.get? q a = u.get? q a) : t.HasEmptyRow q :=
        hasEmptyRow_of_get? ht fun a => by rw [hget, get?_of_no_row hu]
      simpa [HasEmptyRow, hu] using hother
    | some r' =>
      have hempty (hget : ∀ a, r.get? a = r'.get? a) : r = ∅ ↔ r' = ∅ := by
        constructor <;> rintro rfl
        · exact FinMap.eq_empty_of_get? fun a => (hget a).symm
        · exact FinMap.eq_empty_of_get? hget
      simpa [HasEmptyRow, get?_of_row, ht, hu, row_beq_iff] using hempty

theorem beq_iff (t u : Table S A) :
    t == u ↔ (∀ q a, t.get? q a = u.get? q a) ∧ ∀ q, t.HasEmptyRow q ↔ u.HasEmptyRow q := by
  change t.rows == u.rows ↔ _
  simp only [FinMap.beq_iff, rows_beq_iff, forall_and]

theorem beq_refl (t : Table S A) : t == t :=
  (beq_iff t t).mpr ⟨fun _ _ => rfl, fun _ => Iff.rfl⟩

theorem insert_beq {t u : Table S A} (h : t == u) (q : S) (a : A) (target : S) :
    t.insert q a target == u.insert q a target := by
  obtain ⟨hget, hempty⟩ := (beq_iff t u).mp h
  rw [beq_iff]
  constructor
  · intro q' a'
    rw [get?_insert, get?_insert, hget]
  · intro q'
    rw [hasEmptyRow_insert, hasEmptyRow_insert, hempty]

theorem insert_insert_beq (t : Table S A) {q q' : S} {a a' : A} (h : (q, a) ≠ (q', a'))
    (target target' : S) :
    (t.insert q a target).insert q' a' target' == (t.insert q' a' target').insert q a target := by
  rw [beq_iff]
  constructor
  · intro r b
    have hpairs : ¬((r = q' ∧ b = a') ∧ r = q ∧ b = a) := by
      rintro ⟨⟨rfl, rfl⟩, rfl, rfl⟩
      exact h rfl
    simp only [get?_insert]
    split_ifs with h₁ h₂
    · exact absurd ⟨h₁, h₂⟩ hpairs
    · rfl
    · rfl
    · rfl
  · intro r
    simp only [hasEmptyRow_insert]
    tauto

/-- The pair that a triple is for. -/
def pair (e : S × A × S) : S × A := (e.1, e.2.1)

def entry (e : S × A × S) : (S × A) × S := (pair e, e.2.2)

omit [DecidableEq S] [DecidableEq A] in
theorem map_fst_entry (es : List (S × A × S)) : (es.map entry).map Prod.fst = es.map pair := by
  simp [entry, Function.comp_def]

theorem mem_triples_iff (t : Table S A) (q : S) (a : A) (target : S) :
    (q, a, target) ∈ t.triples ↔ t.get? q a = some target := by
  simp only [triples, List.mem_flatMap, List.mem_map, Prod.exists, Prod.mk.injEq,
    FinMap.mem_entries_iff]
  constructor
  · rintro ⟨q', r, hr, a', target', htarget, rfl, rfl, rfl⟩
    rw [get?_of_row hr, htarget]
  · intro htarget
    cases hr : t.rows.get? q with
    | none => simp [get?_of_no_row hr] at htarget
    | some r => exact ⟨q, r, hr, a, target, by rwa [← get?_of_row hr], rfl, rfl, rfl⟩

omit [DecidableEq S] [DecidableEq A] in
theorem nodup_pairs (t : Table S A) : (t.triples.map pair).Nodup := by
  simp only [triples, List.map_flatMap, List.map_map, List.nodup_flatMap]
  constructor
  · rintro ⟨q, r⟩ -
    exact List.Nodup.of_map Prod.snd (by simpa [Function.comp_def, pair] using r.nodup)
  · -- the pairs of different rows differ in the state
    have hstates : t.rows.entries.Pairwise fun r r' => r.1 ≠ r'.1 :=
      List.pairwise_map.mp t.rows.nodup
    apply hstates.imp
    rintro ⟨q, r⟩ ⟨q', r'⟩ hne x hx hx'
    obtain ⟨_, -, rfl⟩ := List.mem_map.mp hx
    obtain ⟨_, -, heq⟩ := List.mem_map.mp hx'
    exact hne (Prod.ext_iff.mp heq).1.symm

omit [DecidableEq S] [DecidableEq A] in
theorem size_eq_length_triples (t : Table S A) : t.size = t.triples.length := by
  simp [size, FinMap.innerSize, triples, List.length_flatMap, FinMap.values, FinMap.size,
    List.sum_eq_foldr, Function.comp_def]

theorem ofTriples_concat (es : List (S × A × S)) (e : S × A × S) :
    ofTriples (es ++ [e]) = (ofTriples es).insert e.1 e.2.1 e.2.2 := by
  simp [ofTriples, insertAll]

theorem not_hasEmptyRow_ofTriples (es : List (S × A × S)) (q : S) :
    ¬(ofTriples es).HasEmptyRow q := by
  induction es using List.reverseRecOn with
  | nil => exact nofun
  | append_singleton es e ih => simp [ofTriples_concat, hasEmptyRow_insert, ih]

theorem get?_ofTriples (es : List (S × A × S)) (q : S) (a : A) :
    (ofTriples es).get? q a = (FinMap.ofList (es.map entry)).get? (q, a) := by
  induction es using List.reverseRecOn with
  | nil => rfl
  | append_singleton es e ih =>
    simp [ofTriples_concat, get?_insert, ih, FinMap.ofList, FinMap.get?_insert, entry, pair]

theorem get?_ofTriples_eq_some_iff (es : List (S × A × S)) (q : S) (a : A) (target : S) :
    (ofTriples es).get? q a = some target ↔
      ∃ before after, es = before ++ (q, a, target) :: after ∧ ∀ t, (q, a, t) ∉ after := by
  rw [get?_ofTriples, FinMap.get?_ofList_eq_some_iff]
  constructor
  · rintro ⟨_, _, hes, hafter⟩
    obtain ⟨before, rest, rfl, rfl, hrest⟩ := List.map_eq_append_iff.mp hes
    obtain ⟨e, after, rfl, he, rfl⟩ := List.map_eq_cons_iff.mp hrest
    obtain ⟨⟨rfl, rfl⟩, rfl⟩ : (e.1 = q ∧ e.2.1 = a) ∧ e.2.2 = target := by
      simpa [entry, pair] using he
    exact ⟨before, after, rfl, fun t ht => hafter t (List.mem_map_of_mem ht)⟩
  · rintro ⟨before, after, rfl, hafter⟩
    refine ⟨before.map entry, after.map entry, by simp [entry, pair], ?_⟩
    intro t ht
    obtain ⟨e, he, heq⟩ := List.mem_map.mp ht
    obtain ⟨⟨rfl, rfl⟩, rfl⟩ : (e.1 = q ∧ e.2.1 = a) ∧ e.2.2 = t := by simpa [entry, pair] using heq
    exact hafter _ he

theorem get?_ofTriples_eq_none_iff (es : List (S × A × S)) (q : S) (a : A) :
    (ofTriples es).get? q a = none ↔ ∀ t, (q, a, t) ∉ es := by
  simp [get?_ofTriples, FinMap.get?_ofList_eq_none_iff, entry, pair]

theorem size_ofTriples (es : List (S × A × S)) :
    (ofTriples es).size = (es.map pair).toFinset.card := by
  have hpairs : ((ofTriples es).triples.map pair).toFinset =
      (es.map pair).toFinset := by
    ext ⟨q, a⟩
    have hget : (∃ t, (ofTriples es).get? q a = some t) ↔ ∃ t, (q, a, t) ∈ es := by
      rw [← Option.ne_none_iff_exists', ne_eq, get?_ofTriples_eq_none_iff]
      push Not
      rfl
    simpa [pair, mem_triples_iff] using hget
  rw [size_eq_length_triples, ← hpairs, List.toFinset_card_of_nodup (nodup_pairs _)]
  simp

/-- The triples of a table make it again, save for its empty rows. -/
theorem get?_ofTriples_triples (t : Table S A) (q : S) (a : A) :
    (ofTriples t.triples).get? q a = t.get? q a := by
  have hentries : ((t.triples.map entry).map Prod.fst).Nodup := by
    rw [map_fst_entry]
    exact t.nodup_pairs
  ext target
  rw [get?_ofTriples, ← FinMap.mem_entries_iff, FinMap.entries_ofList hentries, ← mem_triples_iff]
  simp [entry, pair]

/-- The answers to one insertion after the other, and the table after all of them. -/
def insertEach (t : Table S A) : List (S × A × S) → List (Option S) × Table S A
  | [] => ([], t)
  | (q, a, target) :: es =>
    let (previous, t) := t.getThenInsert? q a target
    let (answers, t) := t.insertEach es
    (previous :: answers, t)

theorem insertEach_ofTriples (es es' : List (S × A × S)) :
    (ofTriples es).insertEach es' =
      (es'.mapIdx fun i e => (ofTriples (es ++ es'.take i)).get? e.1 e.2.1,
        ofTriples (es ++ es')) := by
  induction es' generalizing es with
  | nil => simp [insertEach]
  | cons e es' ih =>
    have hrest := ih (es ++ [e])
    simp only [ofTriples_concat] at hrest
    simp [insertEach, getThenInsert?_eq, hrest, List.mapIdx_cons]

theorem isEmpty_ofTriples (es : List (S × A × S)) : (ofTriples es).isEmpty ↔ es = [] := by
  simp [isEmpty, size_ofTriples]

theorem ofTriples_beq_iff (es es' : List (S × A × S)) :
    ofTriples es == ofTriples es' ↔ ∀ q a, (ofTriples es).get? q a = (ofTriples es').get? q a := by
  simp [beq_iff, not_hasEmptyRow_ofTriples]

theorem ofTriples_beq_of_perm {es es' : List (S × A × S)} (h : es.Perm es')
    (hnodup : (es.map pair).Nodup) : ofTriples es == ofTriples es' := by
  rw [ofTriples_beq_iff]
  intro q a
  rw [get?_ofTriples, get?_ofTriples]
  exact FinMap.get?_ofList_perm (h.map entry) (by rwa [map_fst_entry]) (q, a)

/-- For each pair the target that was inserted last counts. The order of other triples does not, nor
whether they are inserted one by one. -/
theorem made_from_triples (es : List (S × A × S)) :
    (∀ es', (ofTriples es).insertEach es' =
        (es'.mapIdx fun i e => (ofTriples (es ++ es'.take i)).get? e.1 e.2.1,
          ofTriples (es ++ es'))) ∧
      (∀ q a target, (ofTriples es).get? q a = some target ↔
        ∃ before after, es = before ++ (q, a, target) :: after ∧ ∀ t, (q, a, t) ∉ after) ∧
      (∀ q a, (ofTriples es).get? q a = none ↔ ∀ t, (q, a, t) ∉ es) ∧
      (∀ q a, (ofTriples es).contains q a ↔ ∃ target, (ofTriples es).get? q a = some target) ∧
      (∀ q a target, (q, a, target) ∈ (ofTriples es).triples ↔
        (ofTriples es).get? q a = some target) ∧
      ((ofTriples es).triples.map pair).Nodup ∧
      (ofTriples es).size = (es.map pair).toFinset.card ∧
      ((ofTriples es).isEmpty ↔ es = []) ∧
      ∀ es', (ofTriples es == ofTriples es' ↔
          ∀ q a, (ofTriples es).get? q a = (ofTriples es').get? q a) ∧
        (es.Perm es' → (es.map pair).Nodup → ofTriples es == ofTriples es') := by
  refine ⟨insertEach_ofTriples es, get?_ofTriples_eq_some_iff es, get?_ofTriples_eq_none_iff es, ?_,
    mem_triples_iff _, nodup_pairs _, size_ofTriples es, isEmpty_ofTriples es, ?_⟩
  · intro q a
    exact Option.isSome_iff_exists
  · intro es'
    exact ⟨ofTriples_beq_iff es es', ofTriples_beq_of_perm⟩

/-- States that read alike are told apart. -/
def lookalikes : List ((ℕ ⊕ String) × Char × (ℕ ⊕ String)) :=
  [(.inl 1, 'a', .inr "1"), (.inr "1", 'a', .inl 1), (.inl 1, 'b', .inl 1)]

theorem lookalikes_in_any_order :
    (lookalikes.map pair).Nodup ∧ ofTriples lookalikes == ofTriples lookalikes.reverse ∧
      (ofTriples lookalikes).size = 3 ∧
      ((ofTriples lookalikes).insertEach
        [(.inl 1, 'a', .inl 1), (.inl 2, 'a', .inl 1), (.inl 1, 'a', .inr "1")]).1 =
          [some (.inr "1"), none, some (.inl 1)] := by
  have hnodup : (lookalikes.map pair).Nodup := by decide
  obtain ⟨hanswers, -, -, -, -, -, hsize, -, hequal⟩ := made_from_triples lookalikes
  refine ⟨hnodup, (hequal _).2 (List.reverse_perm _).symm hnodup, ?_, ?_⟩
  · rw [hsize]
    decide
  · rw [hanswers]
    decide

end Table
end WordMachines
