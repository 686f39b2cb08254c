/-!
# Finite maps in insertion order

A finite map is a list of entries with distinct keys, oldest key first. Giving a key a new value
leaves the key where it is. Two maps are equal for `==` when they hold the same entries, in
whatever order the keys came: `beq_iff` says so through `get?`.
-/

namespace WordMachines

structure FinMap (α β : Type) where
  entries : List (α × β)
  nodup : (entries.map Prod.fst).Nodup

namespace FinMap

variable {α β : Type}

instance : EmptyCollection (FinMap α β) := ⟨⟨[], List.nodup_nil⟩⟩

instance : Inhabited (FinMap α β) := ⟨∅⟩

def keys (m : FinMap α β) : List α := m.entries.map Prod.fst

def values (m : FinMap α β) : List β := m.entries.map Prod.snd

def size (m : FinMap α β) : Nat := m.entries.length

/-- The number of entries that the maps in a map of maps have together. -/
def innerSize {γ : Type} (m : FinMap α (FinMap β γ)) : Nat :=
  (m.values.map size).foldr (· + ·) 0

theorem eq_of_entries_eq {m n : FinMap α β} (h : m.entries = n.entries) : m = n := by
  cases m
  cases n
  cases h
  rfl

@[simp] theorem keys_empty : (∅ : FinMap α β).keys = [] := rfl

theorem nodup_keys (m : FinMap α β) : m.keys.Nodup := m.nodup

theorem length_keys (m : FinMap α β) : m.keys.length = m.size := List.length_map _

variable [DecidableEq α]

def get? (m : FinMap α β) (k : α) : Option β := m.entries.lookup k

def contains (m : FinMap α β) (k : α) : Bool := (m.get? k).isSome

/-- The entries after `k` is given the value `v`: in place if `k` is there, else at the end. -/
def putEntry (k : α) (v : β) : List (α × β) → List (α × β)
  | [] => [(k, v)]
  | (k', v') :: rest => if k' = k then (k, v) :: rest else (k', v') :: putEntry k v rest

theorem map_fst_putEntry (k : α) (v : β) (es : List (α × β)) :
    (putEntry k v es).map Prod.fst =
      if k ∈ es.map Prod.fst then es.map Prod.fst else es.map Prod.fst ++ [k] := by
  induction es with
  | nil => simp [putEntry]
  | cons e rest ih =>
    obtain ⟨k', v'⟩ := e
    by_cases h : k' = k
    · simp [putEntry, h]
    · have h' : k ≠ k' := fun e => h e.symm
      by_cases hm : k ∈ rest.map Prod.fst <;> simp_all [putEntry]

theorem nodup_putEntry (k : α) (v : β) {es : List (α × β)} (h : (es.map Prod.fst).Nodup) :
    ((putEntry k v es).map Prod.fst).Nodup := by
  rw [map_fst_putEntry]
  split
  · exact h
  · rename_i hk
    refine List.nodup_append.mpr ⟨h, by simp, fun a ha b hb hab => hk ?_⟩
    rw [List.mem_singleton.mp hb] at hab
    exact hab ▸ ha

theorem lookup_cons_of_ne {k x : α} (h : x ≠ k) (v : β) (es : List (α × β)) :
    ((k, v) :: es).lookup x = es.lookup x := by
  rw [List.lookup_cons, beq_eq_false_iff_ne.mpr h]

theorem lookup_putEntry (k : α) (v : β) (es : List (α × β)) (x : α) :
    (putEntry k v es).lookup x = if x = k then some v else es.lookup x := by
  induction es with
  | nil => by_cases h : x = k <;> simp [putEntry, h, lookup_cons_of_ne]
  | cons e rest ih =>
    obtain ⟨k', v'⟩ := e
    by_cases hk : k' = k
    · subst hk
      by_cases h : x = k' <;> simp [putEntry, h, lookup_cons_of_ne]
    · by_cases h : x = k'
      · subst h
        simp [putEntry, hk]
      · simp [putEntry, hk, h, lookup_cons_of_ne, ih]

def insert (m : FinMap α β) (k : α) (v : β) : FinMap α β :=
  ⟨putEntry k v m.entries, nodup_putEntry k v m.nodup⟩

/-- The value that the key had before, and the map in which it has the new one. -/
def getThenInsert? (m : FinMap α β) (k : α) (v : β) : Option β × FinMap α β :=
  (m.get? k, m.insert k v)

/-- Of the values listed for one key the last stays. -/
def ofList (es : List (α × β)) : FinMap α β :=
  es.foldl (fun m e => m.insert e.1 e.2) ∅

@[simp] theorem get?_empty (k : α) : (∅ : FinMap α β).get? k = none := rfl

theorem get?_insert (m : FinMap α β) (k : α) (v : β) (x : α) :
    (m.insert k v).get? x = if x = k then some v else m.get? x :=
  lookup_putEntry k v m.entries x

theorem contains_insert (m : FinMap α β) (k : α) (v : β) (x : α) :
    (m.insert k v).contains x ↔ x = k ∨ m.contains x := by
  by_cases h : x = k <;> simp [contains, get?_insert, h]

theorem keys_insert (m : FinMap α β) (k : α) (v : β) :
    (m.insert k v).keys = if k ∈ m.keys then m.keys else m.keys ++ [k] :=
  map_fst_putEntry k v m.entries

theorem lookup_isSome_iff (es : List (α × β)) (k : α) :
    (es.lookup k).isSome ↔ k ∈ es.map Prod.fst := by
  induction es with
  | nil => simp
  | cons e rest ih =>
    obtain ⟨k', v'⟩ := e
    by_cases h : k = k'
    · simp [h]
    · simp only [lookup_cons_of_ne h, ih, List.map_cons, List.mem_cons, h, false_or]

theorem contains_iff_mem_keys (m : FinMap α β) (k : α) : m.contains k ↔ k ∈ m.keys :=
  lookup_isSome_iff m.entries k

theorem mem_entries_iff (m : FinMap α β) (k : α) (v : β) :
    (k, v) ∈ m.entries ↔ m.get? k = some v := by
  obtain ⟨es, hes⟩ := m
  simp only [get?]
  induction es with
  | nil => simp
  | cons e rest ih =>
    obtain ⟨k', v'⟩ := e
    simp only [List.map_cons, List.nodup_cons] at hes
    by_cases h : k = k'
    · subst h
      have hk : (k, v) ∉ rest := fun hm => hes.1 (List.mem_map.mpr ⟨_, hm, rfl⟩)
      simp [hk, eq_comm]
    · simp [lookup_cons_of_ne h, h, ih hes.2]

instance [BEq β] : BEq (FinMap α β) where
  beq m n := (m.entries.all fun e => (n.get? e.1).any (e.2 == ·)) &&
    n.keys.all m.contains

theorem beq_iff [BEq β] (m n : FinMap α β) : m == n ↔ ∀ k, m.get? k == n.get? k := by
  have hbeq : (m == n) = ((m.entries.all fun e => (n.get? e.1).any (e.2 == ·)) &&
      n.keys.all m.contains) := rfl
  rw [hbeq, Bool.and_eq_true, List.all_eq_true, List.all_eq_true]
  constructor
  · rintro ⟨hmn, hnm⟩ k
    cases hm : m.get? k with
    | some v =>
      have h := hmn (k, v) ((mem_entries_iff m k v).mpr hm)
      cases hn : n.get? k with
      | some w => simpa [hn] using h
      | none => simp [hn] at h
    | none =>
      cases hn : n.get? k with
      | none => rfl
      | some w =>
        have h := hnm k ((contains_iff_mem_keys n k).mp (by simp [contains, hn]))
        simp [contains, hm] at h
  · intro h
    constructor
    · rintro ⟨k, v⟩ he
      have hk := h k
      rw [(mem_entries_iff m k v).mp he] at hk
      cases hn : n.get? k with
      | some w => simpa [hn] using hk
      | none => simp [hn] at hk
    · intro k hk
      have hn := (contains_iff_mem_keys n k).mpr hk
      have hk := h k
      cases hm : m.get? k with
      | some v => simp [contains, hm]
      | none =>
        cases hn' : n.get? k with
        | some w => simp [hm, hn'] at hk
        | none => simp [contains, hn'] at hn

end FinMap

end WordMachines
