import Mathlib.Tactic
import Mathlib.Data.Prod.Lex
import Mathlib.Order.Bounds.Basic
import WordMachines.Dfa.Valid

/-!
# The first problem of an automaton

The rules of well-formed automata come in an order, and within a rule the places where it may be
broken: one after the other in a list, row by row in the table. Validation refuses an automaton for
the first place at which the first broken rule is broken, and for nothing else.
-/

namespace WordMachines

section Places

variable {α : Type}

/-- The item at place `i` stands at an earlier place too. -/
def RepeatsAt (xs : List α) (i : ℕ) : Prop := ∃ j < i, ∃ x, xs[j]? = some x ∧ xs[i]? = some x

theorem getElem?_length_append_cons (xs : List α) (x : α) (ys : List α) :
    (xs ++ x :: ys)[xs.length]? = some x := by
  simp

theorem mem_of_getElem?_append_cons {xs ys : List α} {x y : α} {i : ℕ} (hi : i < xs.length)
    (h : (xs ++ x :: ys)[i]? = some y) : y ∈ xs := by
  rw [List.getElem?_append_left hi] at h
  exact List.mem_of_getElem? h

theorem not_repeatsAt_of_nodup {xs : List α} (h : xs.Nodup) (i : ℕ) : ¬ RepeatsAt xs i := by
  rintro ⟨j, hj, x, hjx, hix⟩
  obtain ⟨hi, -⟩ := List.getElem?_eq_some_iff.mp hix
  exact List.nodup_iff_getElem?_ne_getElem?.mp h j i hj hi (hjx.trans hix.symm)

theorem find?_eq_some_iff_isLeast (wrong : α → Bool) (xs : List α) (x : α) :
    xs.find? wrong = some x ↔
      ∃ i : ℕ, IsLeast {i : ℕ | ∃ y, wrong y ∧ xs[i]? = some y} i ∧ xs[i]? = some x := by
  rw [List.find?_eq_some_iff_getElem]
  constructor
  · rintro ⟨hx, i, hi, hplace, hbefore⟩
    have hx' : xs[i]? = some x := by rw [← hplace, List.getElem?_eq_getElem hi]
    refine ⟨i, ⟨⟨x, hx, hx'⟩, ?_⟩, hx'⟩
    rintro j ⟨y, hy, hjy⟩
    by_contra hlt
    obtain ⟨hj, rfl⟩ := List.getElem?_eq_some_iff.mp hjy
    exact absurd hy (by simpa using hbefore j (not_le.mp hlt))
  · rintro ⟨i, ⟨⟨y, hy, hiy⟩, hleast⟩, hx⟩
    obtain rfl := Option.some.inj (hiy.symm.trans hx)
    obtain ⟨hi, hplace⟩ := List.getElem?_eq_some_iff.mp hx
    refine ⟨hy, i, hi, hplace, ?_⟩
    intro j hj
    by_contra hne
    have hwrong : wrong xs[j] := by simpa using hne
    exact absurd (hleast ⟨_, hwrong, List.getElem?_eq_getElem _⟩) (by omega)

variable [DecidableEq α]

theorem firstRepeatAfter_eq_some {seen xs : List α} {x : α}
    (h : firstRepeatAfter seen xs = some x) :
    ∃ before after, xs = before ++ x :: after ∧ (x ∈ seen ∨ x ∈ before) ∧ before.Nodup ∧
      ∀ y ∈ before, y ∉ seen := by
  induction xs generalizing seen with
  | nil => cases h
  | cons y xs ih =>
    by_cases hy : y ∈ seen
    · rw [firstRepeatAfter, if_pos hy] at h
      obtain rfl := Option.some.inj h
      exact ⟨[], xs, rfl, Or.inl hy, List.nodup_nil, by simp⟩
    · rw [firstRepeatAfter, if_neg hy] at h
      obtain ⟨before, after, rfl, hx, hnodup, hbefore⟩ := ih h
      have hfresh : y ∉ before := fun hmem => hbefore y hmem List.mem_cons_self
      refine ⟨y :: before, after, rfl, ?_, List.nodup_cons.mpr ⟨hfresh, hnodup⟩, ?_⟩
      · rcases hx with hx | hx
        · rcases List.mem_cons.mp hx with rfl | hx
          · exact Or.inr List.mem_cons_self
          · exact Or.inl hx
        · exact Or.inr (List.mem_cons_of_mem y hx)
      · intro z hz
        rcases List.mem_cons.mp hz with rfl | hz
        · exact hy
        · exact fun hmem => hbefore z hz (List.mem_cons_of_mem y hmem)

theorem exists_isLeast_of_firstRepeat {xs : List α} {x : α} (h : firstRepeat xs = some x) :
    ∃ i, IsLeast {i | RepeatsAt xs i} i ∧ xs[i]? = some x := by
  obtain ⟨before, after, rfl, hmem, hnodup, -⟩ := firstRepeatAfter_eq_some h
  have hplace := getElem?_length_append_cons before x after
  refine ⟨before.length, ⟨?_, ?_⟩, hplace⟩
  · have hmem : x ∈ before := by simpa using hmem
    obtain ⟨j, hj, hjx⟩ := List.mem_iff_getElem.mp hmem
    exact ⟨j, hj, x, by rw [List.getElem?_append_left hj, ← hjx]; simp, hplace⟩
  · rintro i ⟨j, hj, z, hjz, hiz⟩
    by_contra hi
    rw [List.getElem?_append_left (by omega)] at hjz hiz
    exact not_repeatsAt_of_nodup hnodup i ⟨j, hj, z, hjz, hiz⟩

theorem firstRepeat_eq_some_iff (xs : List α) (x : α) :
    firstRepeat xs = some x ↔ ∃ i, IsLeast {i | RepeatsAt xs i} i ∧ xs[i]? = some x := by
  constructor
  · exact exists_isLeast_of_firstRepeat
  · rintro ⟨i, hi, hx⟩
    cases h : firstRepeat xs with
    | none =>
      have hnodup := (firstRepeat_eq_none_iff xs).mp h
      exact absurd hi.1 (not_repeatsAt_of_nodup hnodup i)
    | some y =>
      obtain ⟨j, hj, hy⟩ := exists_isLeast_of_firstRepeat h
      rw [hi.unique hj, hy] at hx
      exact hx

theorem find?_not_mem_eq_some_iff (xs ys : List α) (x : α) :
    xs.find? (· ∉ ys) = some x ↔
      ∃ i : ℕ, IsLeast {i : ℕ | ∃ y ∉ ys, xs[i]? = some y} i ∧ xs[i]? = some x := by
  simpa using find?_eq_some_iff_isLeast (· ∉ ys) xs x

end Places

namespace Dfa

variable {S A : Type} [DecidableEq S] [DecidableEq A] [Shown S] [Shown A] (d : Dfa S A)

/-- The state and the symbol at these two places have no target that is declared. -/
def FailsAt (ij : ℕ ×ₗ ℕ) : Prop :=
  ∃ q a, d.states[(ofLex ij).1]? = some q ∧ d.alphabet[(ofLex ij).2]? = some a ∧
    ∀ t ∈ d.states, d.next? q a ≠ some t

/-- What breaks the rules first. Each case presumes the rules before its own. -/
inductive FirstProblem (d : Dfa S A) : Defect → Prop
  | state {i : ℕ} {q : S} (hi : IsLeast {i | RepeatsAt d.states i} i)
    (hq : d.states[i]? = some q) : FirstProblem d (.duplicateState (shown q))
  | symbol {j : ℕ} {a : A} (hstates : d.states.Nodup)
    (hj : IsLeast {j | RepeatsAt d.alphabet j} j) (ha : d.alphabet[j]? = some a) :
    FirstProblem d (.duplicateSymbol (shown a))
  | noTarget {i j : ℕ} {q : S} {a : A} (hstates : d.states.Nodup) (halphabet : d.alphabet.Nodup)
    (hij : IsLeast {ij | d.FailsAt ij} (toLex (i, j))) (hq : d.states[i]? = some q)
    (ha : d.alphabet[j]? = some a) (hnext : d.next? q a = none) :
    FirstProblem d (.missingTransition (shown q) (shown a))
  | target {i j : ℕ} {q t : S} {a : A} (hstates : d.states.Nodup) (halphabet : d.alphabet.Nodup)
    (hij : IsLeast {ij | d.FailsAt ij} (toLex (i, j))) (hq : d.states[i]? = some q)
    (ha : d.alphabet[j]? = some a) (hnext : d.next? q a = some t) (ht : t ∉ d.states) :
    FirstProblem d (.invalidTarget (shown q) (shown a) (shown t))
  | start (hstates : d.states.Nodup) (halphabet : d.alphabet.Nodup) (htable : ∀ ij, ¬ d.FailsAt ij)
    (hstart : d.start ∉ d.states) : FirstProblem d (.invalidStart (shown d.start))
  | accept {i : ℕ} {q : S} (hstates : d.states.Nodup) (halphabet : d.alphabet.Nodup)
    (htable : ∀ ij, ¬ d.FailsAt ij) (hstart : d.start ∈ d.states)
    (hi : IsLeast {i | ∃ q ∉ d.states, d.accept[i]? = some q} i)
    (hq : d.accept[i]? = some q) : FirstProblem d (.invalidAccept (shown q))

theorem transitionDefect?_eq_some_iff (q : S) (a : A) (e : Defect) :
    d.transitionDefect? q a = some e ↔
      d.next? q a = none ∧ e = .missingTransition (shown q) (shown a) ∨
        ∃ t ∉ d.states, d.next? q a = some t ∧
          e = .invalidTarget (shown q) (shown a) (shown t) := by
  unfold transitionDefect?
  cases d.next? q a with
  | none => simp [eq_comm]
  | some t => by_cases ht : t ∈ d.states <;> simp [ht, eq_comm]

theorem transitionDefect?_isSome_iff (q : S) (a : A) :
    (d.transitionDefect? q a).isSome ↔ ∀ t ∈ d.states, d.next? q a ≠ some t := by
  rw [← not_iff_not, Option.not_isSome_iff_eq_none, transitionDefect?_eq_none_iff]
  push Not
  rfl

theorem tableDefect?_eq_none_iff :
    (d.states.findSome? fun q => d.alphabet.findSome? (d.transitionDefect? q)) = none ↔
      ∀ ij, ¬ d.FailsAt ij := by
  simp only [List.findSome?_eq_none_iff]
  constructor
  · rintro h ij ⟨q, a, hq, ha, hfails⟩
    have hsome := (d.transitionDefect?_isSome_iff q a).mpr hfails
    rw [h q (List.mem_of_getElem? hq) a (List.mem_of_getElem? ha)] at hsome
    cases hsome
  · intro h q hq a ha
    obtain ⟨i, hi⟩ := List.mem_iff_getElem?.mp hq
    obtain ⟨j, hj⟩ := List.mem_iff_getElem?.mp ha
    by_contra hsome
    exact h (toLex (i, j)) ⟨q, a, hi, hj,
      (d.transitionDefect?_isSome_iff q a).mp (Option.isSome_iff_ne_none.mpr hsome)⟩

/-- Rows are scanned before columns, so the first pair found is the least in the order of places. -/
theorem exists_isLeast_of_tableDefect? {e : Defect}
    (h : (d.states.findSome? fun q => d.alphabet.findSome? (d.transitionDefect? q)) = some e) :
    ∃ i j q a, IsLeast {ij | d.FailsAt ij} (toLex (i, j)) ∧ d.states[i]? = some q ∧
      d.alphabet[j]? = some a ∧ d.transitionDefect? q a = some e := by
  obtain ⟨qs, q, qs', hstates, hrow, hrows⟩ := List.findSome?_eq_some_iff.mp h
  obtain ⟨as, a, as', halphabet, he, hcells⟩ := List.findSome?_eq_some_iff.mp hrow
  have hq : d.states[qs.length]? = some q := by simp [hstates]
  have ha : d.alphabet[as.length]? = some a := by simp [halphabet]
  have hfails := (d.transitionDefect?_isSome_iff q a).mp (by rw [he]; rfl)
  refine ⟨qs.length, as.length, q, a, ⟨⟨q, a, hq, ha, hfails⟩, ?_⟩, hq, ha, he⟩
  rintro ij ⟨r, b, hr, hb, hrb⟩
  have hsome := (d.transitionDefect?_isSome_iff r b).mpr hrb
  by_contra hlt
  rw [not_le] at hlt
  rcases Prod.Lex.toLex_lt_toLex.mp hlt with hi | ⟨hi, hj⟩
  · -- the whole row of `r` was passed before that of `q`
    rw [hstates] at hr
    have hnone := hrows r (mem_of_getElem?_append_cons hi hr)
    rw [List.findSome?_eq_none_iff] at hnone
    rw [hnone b (List.mem_of_getElem? hb)] at hsome
    cases hsome
  · rw [halphabet] at hb
    have hrq : r = q := Option.some.inj ((hr.symm.trans (congrArg _ hi)).trans hq)
    rw [hrq, hcells b (mem_of_getElem?_append_cons hj hb)] at hsome
    cases hsome

theorem tableDefect?_eq_some_iff (e : Defect) :
    (d.states.findSome? fun q => d.alphabet.findSome? (d.transitionDefect? q)) = some e ↔
      ∃ i j q a, IsLeast {ij | d.FailsAt ij} (toLex (i, j)) ∧ d.states[i]? = some q ∧
        d.alphabet[j]? = some a ∧ d.transitionDefect? q a = some e := by
  constructor
  · exact d.exists_isLeast_of_tableDefect?
  · rintro ⟨i, j, q, a, hij, hq, ha, he⟩
    cases h : d.states.findSome? fun q => d.alphabet.findSome? (d.transitionDefect? q) with
    | none => exact absurd hij.1 (d.tableDefect?_eq_none_iff.mp h (toLex (i, j)))
    | some e' =>
      obtain ⟨i', j', q', a', hij', hq', ha', he'⟩ := d.exists_isLeast_of_tableDefect? h
      obtain ⟨rfl, rfl⟩ := Prod.mk.inj (toLex_inj.mp (hij.unique hij'))
      rw [hq] at hq'
      rw [ha] at ha'
      obtain rfl := Option.some.inj hq'
      obtain rfl := Option.some.inj ha'
      rw [← he', he]

theorem firstDefect?_eq_some_iff (e : Defect) : d.firstDefect? = some e ↔ d.FirstProblem e := by
  simp only [firstDefect?, Option.or_eq_some_iff, Option.or_eq_none_iff, Option.map_eq_none_iff,
    Option.map_eq_some_iff, firstRepeat_eq_none_iff, firstRepeat_eq_some_iff,
    tableDefect?_eq_none_iff, tableDefect?_eq_some_iff, find?_not_mem_eq_some_iff,
    ite_eq_left_iff, ite_eq_iff, reduceCtorEq, and_false, false_or, imp_false, not_not]
  constructor
  · rintro ((((⟨q, ⟨i, hi, hq⟩, rfl⟩ | ⟨hstates, a, ⟨j, hj, ha⟩, rfl⟩) |
      ⟨⟨hstates, halphabet⟩, i, j, q, a, hij, hq, ha, he⟩) |
      ⟨⟨⟨hstates, halphabet⟩, htable⟩, hstart, he⟩) |
      ⟨⟨⟨⟨hstates, halphabet⟩, htable⟩, hstart⟩, q, ⟨i, hi, hq⟩, rfl⟩)
    · exact .state hi hq
    · exact .symbol hstates hj ha
    · rcases (d.transitionDefect?_eq_some_iff q a e).mp he with
        ⟨hnext, rfl⟩ | ⟨t, ht, hnext, rfl⟩
      · exact .noTarget hstates halphabet hij hq ha hnext
      · exact .target hstates halphabet hij hq ha hnext ht
    · obtain rfl := Option.some.inj he
      exact .start hstates halphabet htable hstart
    · exact .accept hstates halphabet htable hstart hi hq
  · rintro (⟨hi, hq⟩ | ⟨hstates, hj, ha⟩ | ⟨hstates, halphabet, hij, hq, ha, hnext⟩ |
      ⟨hstates, halphabet, hij, hq, ha, hnext, ht⟩ | ⟨hstates, halphabet, htable, hstart⟩ |
      ⟨hstates, halphabet, htable, hstart, hi, hq⟩)
    · exact .inl (.inl (.inl (.inl ⟨_, ⟨_, hi, hq⟩, rfl⟩)))
    · exact .inl (.inl (.inl (.inr ⟨hstates, _, ⟨_, hj, ha⟩, rfl⟩)))
    · refine .inl (.inl (.inr ⟨⟨hstates, halphabet⟩, _, _, _, _, hij, hq, ha, ?_⟩))
      exact (d.transitionDefect?_eq_some_iff _ _ _).mpr (.inl ⟨hnext, rfl⟩)
    · refine .inl (.inl (.inr ⟨⟨hstates, halphabet⟩, _, _, _, _, hij, hq, ha, ?_⟩))
      exact (d.transitionDefect?_eq_some_iff _ _ _).mpr (.inr ⟨_, ht, hnext, rfl⟩)
    · exact .inl (.inr ⟨⟨⟨hstates, halphabet⟩, htable⟩, hstart, rfl⟩)
    · exact .inr ⟨⟨⟨⟨hstates, halphabet⟩, htable⟩, hstart⟩, _, ⟨_, hi, hq⟩, rfl⟩

theorem validate_eq_ok_iff (v : ValidDfa S A) : d.validate = .ok v ↔ v.toDfa = d := by
  unfold validate
  split
  · rename_i e h
    have hdefect : v.toDfa ≠ d := by
      rintro rfl
      rw [(firstDefect?_eq_none_iff _).mpr v.wellFormed] at h
      cases h
    simp [hdefect]
  · constructor
    · intro h
      exact congrArg ValidDfa.toDfa (Except.ok.inj h).symm
    · rintro rfl
      rfl

theorem validate_eq_error_iff (e : Defect) : d.validate = .error e ↔ d.firstDefect? = some e := by
  unfold validate
  split
  · rename_i h
    simp [h]
  · rename_i h
    simp [h]

/-- Just the well-formed automata pass, and each other one is refused for its first problem. -/
theorem validation_decides :
    (d.firstDefect? = none ↔ d.WellFormed) ∧ (∀ e, d.firstDefect? = some e ↔ d.FirstProblem e) ∧
      (∀ v, d.validate = .ok v ↔ v.toDfa = d) ∧ ∀ e, d.validate = .error e ↔ d.FirstProblem e := by
  refine ⟨d.firstDefect?_eq_none_iff, d.firstDefect?_eq_some_iff, d.validate_eq_ok_iff, ?_⟩
  intro e
  rw [validate_eq_error_iff, firstDefect?_eq_some_iff]

end Dfa
end WordMachines
