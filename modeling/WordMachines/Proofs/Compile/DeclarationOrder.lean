import Mathlib.Tactic
import WordMachines.Proofs.Compile.Rules
import WordMachines.Proofs.Dfa.Validation
import WordMachines.Proofs.Turing.Renaming
import WordMachines.Proofs.Walk.Emptiness
import WordMachines.Proofs.Walk.Reachable

/-!
# The order of declarations

States, symbols and accepting states may be listed in any order. The order tells in what the walk
yields first, in which of several shortest words is found, and in the listing of the program; it
does not tell in what is accepted, reached or found empty, in the length of the word found, or in any
run, for the program has the same action for every pair.
-/

namespace WordMachines

variable {S A : Type} [DecidableEq S] [DecidableEq A]

/-- The same targets and the same start; states and symbols in some order, accepting states in some
order and number. -/
structure Redeclared (d e : Dfa S A) : Prop where
  states_perm : d.states.Perm e.states
  alphabet_perm : d.alphabet.Perm e.alphabet
  next?_eq : ∀ q a, d.next? q a = e.next? q a
  start_eq : d.start = e.start
  accept_iff : ∀ q, q ∈ d.accept ↔ q ∈ e.accept

namespace Redeclared

variable {d e : Dfa S A} (h : Redeclared d e)
include h

theorem symm : Redeclared e d where
  states_perm := h.states_perm.symm
  alphabet_perm := h.alphabet_perm.symm
  next?_eq q a := (h.next?_eq q a).symm
  start_eq := h.start_eq.symm
  accept_iff q := (h.accept_iff q).symm

theorem wellFormed (hd : d.WellFormed) : e.WellFormed where
  states_nodup := h.states_perm.nodup_iff.mp hd.states_nodup
  alphabet_nodup := h.alphabet_perm.nodup_iff.mp hd.alphabet_nodup
  total := by
    intro q hq a ha
    obtain ⟨t, ht, hnext⟩ :=
      hd.total q (h.states_perm.mem_iff.mpr hq) a (h.alphabet_perm.mem_iff.mpr ha)
    exact ⟨t, h.states_perm.mem_iff.mp ht, by rw [← h.next?_eq, hnext]⟩
  start_mem := by
    rw [← h.start_eq]
    exact h.states_perm.mem_iff.mp hd.start_mem
  accept_subset := by
    intro q hq
    exact h.states_perm.mem_iff.mp (hd.accept_subset q ((h.accept_iff q).mpr hq))

theorem subset_alphabet_iff (w : List A) : w ⊆ d.alphabet ↔ w ⊆ e.alphabet :=
  ⟨fun hw => List.Subset.trans hw h.alphabet_perm.subset,
    fun hw => List.Subset.trans hw h.alphabet_perm.symm.subset⟩

theorem run?_eq (q : S) (w : List A) : d.run? q w = e.run? q w := by
  have hnext : d.next? = e.next? := funext fun q => funext fun a => h.next?_eq q a
  rw [Dfa.run?, hnext, Dfa.run?]

theorem isAccepting_eq (q : S) : d.isAccepting q = e.isAccepting q :=
  decide_eq_decide.mpr (h.accept_iff q)

theorem accepts_eq (w : List A) : d.accepts w = e.accepts w := by
  have haccepting : d.isAccepting = e.isAccepting := funext h.isAccepting_eq
  rw [Dfa.accepts, h.run?_eq, h.start_eq, haccepting, Dfa.accepts]

end Redeclared

namespace ValidDfa

variable {d e : ValidDfa S A} (h : Redeclared d.toDfa e.toDfa)
include h

theorem isEmpty_redeclared : d.isEmpty = e.isEmpty := by
  rw [Bool.eq_iff_iff, isEmpty_iff_rejects, isEmpty_iff_rejects]
  simp only [h.accepts_eq, h.subset_alphabet_iff]

theorem reachable_redeclared : d.reachable.Perm e.reachable := by
  rw [List.perm_ext_iff_of_nodup d.nodup_reachable e.nodup_reachable]
  intro q
  rw [mem_reachable_iff, mem_reachable_iff, ← h.start_eq]
  simp only [h.run?_eq, h.subset_alphabet_iff]

/-- The word found on one side is a candidate on the other. -/
theorem length_le_of_redeclared {u v : List A} (hu : d.IsLeastAccepted u)
    (hv : e.IsLeastAccepted v) : u.length ≤ v.length := by
  have hacc : d.accepts v := (h.accepts_eq v).trans hv.accepts
  have hsub : v ⊆ d.alphabet := (h.subset_alphabet_iff v).mpr hv.subset
  exact Dfa.length_le_of_rank_le (hu.rank_le v hsub hacc)

theorem shortestAccepted?_redeclared :
    d.shortestAccepted?.map List.length = e.shortestAccepted?.map List.length := by
  have hempty := isEmpty_redeclared h
  rcases d.search_cases with ⟨hd, hnone, -⟩ | ⟨u, hd, hsome, hu, -⟩ <;>
    rcases e.search_cases with ⟨he, hnone', -⟩ | ⟨v, he, hsome', hv, -⟩
  · rw [hnone, hnone']
  · exact absurd (hempty.symm.trans hd) he
  · exact absurd (hempty.trans he) hd
  · rw [hsome, hsome']
    have hlength := (length_le_of_redeclared h hu hv).antisymm (length_le_of_redeclared h.symm hv hu)
    exact congrArg some hlength

variable [Shown S]

theorem actionOf?_redeclared (q : S) (c : Cell A) : d.actionOf? q c = e.actionOf? q c := by
  cases c with
  | symbol a => simp only [Dfa.actionOf?, h.next?_eq, h.alphabet_perm.mem_iff]
  | blank => simp only [Dfa.actionOf?, h.isAccepting_eq]

variable (hd : ∀ q ∈ d.states, ∀ r ∈ d.states, shown q = shown r → q = r)
include hd

/-- With distinct texts it makes no difference which state with a text comes last. -/
theorem representative?_redeclared (t : String) :
    d.representative? t = e.representative? t := by
  have he : ∀ q ∈ e.states, ∀ r ∈ e.states, shown q = shown r → q = r := by
    intro q hq r hr
    exact hd q (h.states_perm.mem_iff.mpr hq) r (h.states_perm.mem_iff.mpr hr)
  ext q
  rw [d.representative?_eq_some_iff hd, e.representative?_eq_some_iff he, h.states_perm.mem_iff]

theorem renamed_redeclared : Program.Renamed id d.compile e.compile where
  start_eq := by rw [start_compile, start_compile, h.start_eq]
  hasState_start := by
    rw [start_compile, start_compile, e.hasState_compile e.wellFormed.start_mem,
      d.hasState_compile d.wellFormed.start_mem]
  takes_eq a := by
    rw [Bool.eq_iff_iff, id, takes_compile_iff, takes_compile_iff, h.alphabet_perm.mem_iff]
  action?_eq t c := by
    have hactions : d.actionOf? = e.actionOf? :=
      funext fun q => funext fun c => actionOf?_redeclared h q c
    have hid : Action.map (id : A → A) = id := funext Action.map_id
    rw [Cell.map_id_eq_id, id, hid, Option.map_id, id, action?_compile_named, action?_compile_named,
      representative?_redeclared h hd, hactions]

theorem run_compile_redeclared [Shown A] (w : List A) (n : ℕ) :
    d.compile.run w n = e.compile.run w n :=
  ((renamed_redeclared h hd).run_eq w n).symm

end ValidDfa

section Validated

variable [Shown S] [Shown A] {d e : Dfa S A}

theorem Redeclared.isOk_validate (h : Redeclared d e) : d.validate.isOk → e.validate.isOk := by
  intro hd
  cases hv : d.validate with
  | error defect =>
    rw [hv] at hd
    cases hd
  | ok v =>
    obtain rfl := (d.validate_eq_ok_iff v).mp hv
    have he : e.validate = .ok ⟨e, h.wellFormed v.wellFormed⟩ := (e.validate_eq_ok_iff _).mpr rfl
    rw [he]
    rfl

/-- The order of declarations decides neither validity nor the accepted words, the runs or the
length of a shortest word. -/
theorem declaration_order_irrelevant (h : Redeclared d e)
    (hd : ∀ q ∈ d.states, ∀ r ∈ d.states, shown q = shown r → q = r) :
    d.validate.isOk = e.validate.isOk ∧
      ∀ v, d.validate = .ok v → ∃ u, e.validate = .ok u ∧
        (∀ w, v.accepts w = u.accepts w) ∧ v.isEmpty = u.isEmpty ∧
        v.reachable.Perm u.reachable ∧
        v.shortestAccepted?.map List.length = u.shortestAccepted?.map List.length ∧
        ∀ w n, v.compile.run w n = u.compile.run w n := by
  constructor
  · rw [Bool.eq_iff_iff]
    exact ⟨h.isOk_validate, h.symm.isOk_validate⟩
  · intro v hv
    obtain rfl := (d.validate_eq_ok_iff v).mp hv
    have he := h.wellFormed v.wellFormed
    have hu : Redeclared v.toDfa (ValidDfa.mk e he).toDfa := h
    refine ⟨⟨e, he⟩, (e.validate_eq_ok_iff _).mpr rfl, h.accepts_eq, ?_, ?_, ?_, ?_⟩
    · exact ValidDfa.isEmpty_redeclared hu
    · exact ValidDfa.reachable_redeclared hu
    · exact ValidDfa.shortestAccepted?_redeclared hu
    · exact ValidDfa.run_compile_redeclared hu hd

end Validated

/-- Each of the two symbols leads to an accepting state. -/
def forked : ValidDfa UInt32 Char where
  states := [0, 1, 2]
  alphabet := ['a', 'b']
  transitions := .ofTriples
    [(0, 'a', 1), (0, 'b', 2), (1, 'a', 0), (1, 'b', 1), (2, 'a', 2), (2, 'b', 0)]
  start := 0
  accept := [1, 2]
  wellFormed := (Dfa.firstDefect?_eq_none_iff _).mp (by decide +kernel)

/-- The word found first is another one, and so is the state that the walk yields second. -/
def forkedReversed : Dfa UInt32 Char :=
  { forked.toDfa with states := [2, 1, 0], alphabet := ['b', 'a'], accept := [2, 1, 2] }

theorem forkedReversed_alike :
    Redeclared forked.toDfa forkedReversed ∧
      (∀ q ∈ forked.states, ∀ r ∈ forked.states, shown q = shown r → q = r) ∧
      forked.toDfa.validate = .ok forked ∧ forked.shortestAccepted? = some ['a'] ∧
      ∃ u, forkedReversed.validate = .ok u ∧ u.shortestAccepted?.map List.length = some 1 ∧
        u.shortestAccepted? ≠ forked.shortestAccepted? ∧
        forked.compile.run ['a', 'b'] 3 = u.compile.run ['a', 'b'] 3 := by
  have hredeclared : Redeclared forked.toDfa forkedReversed := by
    refine ⟨by decide +kernel, by decide +kernel, fun _ _ => rfl, rfl, ?_⟩
    intro q
    change q ∈ [1, 2] ↔ q ∈ [2, 1, 2]
    simp only [List.mem_cons, List.not_mem_nil, or_false]
    tauto
  have htexts : ∀ q ∈ forked.states, ∀ r ∈ forked.states, shown q = shown r → q = r :=
    fun _ _ _ _ h => shown_uint32_injective h
  have hvalid : forked.toDfa.validate = .ok forked := (Dfa.validate_eq_ok_iff _ _).mpr rfl
  have hword : forked.shortestAccepted? = some ['a'] := by decide +kernel
  obtain ⟨u, hu, -, -, -, hlength, hrun⟩ :=
    (declaration_order_irrelevant hredeclared htexts).2 forked hvalid
  rw [hword] at hlength
  refine ⟨hredeclared, htexts, hvalid, hword, u, hu, hlength.symm, ?_, hrun _ _⟩
  have hother : (forkedReversed.firstAccepting? 3 (.init 0)).map (fun (q, w) => w.pathTo q) ≠
      some ['a'] := by decide +kernel
  rw [hword, ValidDfa.shortestAccepted?, (Dfa.validate_eq_ok_iff _ u).mp hu]
  exact hother

end WordMachines
