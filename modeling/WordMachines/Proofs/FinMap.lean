import Mathlib.Tactic
import WordMachines.FinMap

/-!
# Finite maps made from lists

A map made from a list of entries gives each key the value that is listed last for it. If no key is
listed twice, the entries are those of the list.
-/

namespace WordMachines
namespace FinMap

variable {α β : Type} [DecidableEq α]

theorem eq_empty_of_get? {m : FinMap α β} (h : ∀ k, m.get? k = none) : m = ∅ := by
  obtain ⟨es, hes⟩ := m
  obtain rfl : es = [] := by
    rw [List.eq_nil_iff_forall_not_mem]
    rintro ⟨k, v⟩ hmem
    have hget := (mem_entries_iff ⟨es, hes⟩ k v).mp hmem
    rw [h k] at hget
    cases hget
  rfl

theorem get?_foldl_insert (es : List (α × β)) (m : FinMap α β) (k : α) :
    (es.foldl (fun m e => m.insert e.1 e.2) m).get? k = (es.reverse.lookup k).or (m.get? k) := by
  induction es generalizing m with
  | nil => rfl
  | cons e es ih =>
    obtain ⟨k', v⟩ := e
    simp only [List.foldl_cons, ih, get?_insert, List.reverse_cons, List.lookup_append,
      Option.or_assoc]
    by_cases h : k = k' <;> simp [h, lookup_cons_of_ne]

theorem get?_ofList (es : List (α × β)) (k : α) : (ofList es).get? k = es.reverse.lookup k := by
  simp [ofList, get?_foldl_insert]

/-- The entry is listed, and no later one for its key is. -/
theorem get?_ofList_eq_some_iff (es : List (α × β)) (k : α) (v : β) :
    (ofList es).get? k = some v ↔
      ∃ before after, es = before ++ (k, v) :: after ∧ ∀ v', (k, v') ∉ after := by
  rw [get?_ofList, List.lookup_eq_some_iff]
  constructor
  · rintro ⟨after, before, hes, hafter⟩
    refine ⟨before.reverse, after.reverse, by simpa using congrArg List.reverse hes, ?_⟩
    intro v' hv'
    simpa using hafter _ (List.mem_reverse.mp hv')
  · rintro ⟨before, after, rfl, hafter⟩
    refine ⟨after.reverse, before.reverse, by simp, ?_⟩
    rintro ⟨k', v'⟩ hv'
    have hne : k ≠ k' := by
      rintro rfl
      exact hafter v' (List.mem_reverse.mp hv')
    simpa using hne

theorem get?_ofList_eq_none_iff (es : List (α × β)) (k : α) :
    (ofList es).get? k = none ↔ k ∉ es.map Prod.fst := by
  rw [get?_ofList, ← Option.not_isSome_iff_eq_none, lookup_isSome_iff, List.map_reverse,
    List.mem_reverse]

theorem putEntry_of_not_mem {k : α} {es : List (α × β)} (h : k ∉ es.map Prod.fst) (v : β) :
    putEntry k v es = es ++ [(k, v)] := by
  induction es with
  | nil => rfl
  | cons e es ih =>
    rw [List.map_cons, List.mem_cons, not_or] at h
    rw [putEntry, if_neg (Ne.symm h.1), ih h.2, List.cons_append]

theorem entries_foldl_insert {es : List (α × β)} {m : FinMap α β}
    (h : ((m.entries ++ es).map Prod.fst).Nodup) :
    (es.foldl (fun m e => m.insert e.1 e.2) m).entries = m.entries ++ es := by
  induction es generalizing m with
  | nil => exact (List.append_nil _).symm
  | cons e es ih =>
    have hnew : e.1 ∉ m.entries.map Prod.fst := by
      rw [List.map_append, List.map_cons, List.nodup_append] at h
      intro hmem
      exact h.2.2 _ hmem _ List.mem_cons_self rfl
    have hinsert : (m.insert e.1 e.2).entries ++ es = m.entries ++ e :: es := by
      change putEntry e.1 e.2 m.entries ++ es = _
      rw [putEntry_of_not_mem hnew, List.append_assoc, List.singleton_append]
    rw [List.foldl_cons, ih (by rw [hinsert]; exact h), hinsert]

theorem entries_ofList {es : List (α × β)} (h : (es.map Prod.fst).Nodup) :
    (ofList es).entries = es :=
  entries_foldl_insert (m := ∅) h

theorem ofList_entries (m : FinMap α β) : ofList m.entries = m :=
  eq_of_entries_eq (entries_ofList m.nodup)

/-- Entries with different keys may be listed in any order. -/
theorem get?_ofList_perm {es es' : List (α × β)} (h : es.Perm es')
    (hnodup : (es.map Prod.fst).Nodup) (k : α) : (ofList es).get? k = (ofList es').get? k := by
  have hnodup' : (es'.map Prod.fst).Nodup := (h.map Prod.fst).nodup_iff.mp hnodup
  ext v
  rw [← mem_entries_iff, ← mem_entries_iff, entries_ofList hnodup, entries_ofList hnodup',
    h.mem_iff]

end FinMap
end WordMachines
