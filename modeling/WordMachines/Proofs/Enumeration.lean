import Mathlib.Tactic
import WordMachines.Enumeration

/-!
# Calls of an enumeration

An enumeration may be asked for the next automaton, or for one some places on. The second answers
what asking for the next one that often would, and leaves the enumeration in the same place, even if
its position is a number of 64 bits and the places asked for would lead beyond all of them. Nothing
but the calls made of an enumeration itself changes its answers, so it may be cloned at any time.
-/

namespace WordMachines
namespace Enumeration

inductive Call
  | next
  | nth (n : UInt64)

/-- The number of automata that a call leaves out. -/
def Call.skipped : Call → ℕ
  | next => 0
  | nth n => n.toNat

def call (e : Enumeration) : Call → Option (Dfa UInt32 Char) × Enumeration
  | .next => e.next
  | .nth n => e.nth n.toNat

/-- Asks for the next automaton `n + 1` times, but not again once there is none, and answers as the
last time. -/
def nextAfter (e : Enumeration) : ℕ → Option (Dfa UInt32 Char) × Enumeration
  | 0 => e.next
  | n + 1 =>
    match e.next with
    | (none, e) => (none, e)
    | (some _, e) => e.nextAfter n

def callByNext (e : Enumeration) : Call → Option (Dfa UInt32 Char) × Enumeration
  | .next => e.next
  | .nth n => e.nextAfter n.toNat

theorem dfa?_of_lt {k : ℕ} (h : k < total) : dfa? k = some (dfaOfBits k) := if_pos h

theorem dfa?_eq_none_iff {k : ℕ} : dfa? k = none ↔ total ≤ k := by
  simp [dfa?]

theorem dfa?_of_le {k : ℕ} (h : total ≤ k) : dfa? k = none := dfa?_eq_none_iff.mpr h

variable {e : Enumeration}

theorem next_of_le (h : total ≤ e.position) : e.next = (none, e) := by
  rw [next, dfa?_of_le h]

theorem next_eq (he : e.position ≤ total) :
    e.next = (dfa? e.position, ⟨min (e.position + 1) total⟩) := by
  rcases he.lt_or_eq with hlt | heq
  · rw [next, dfa?_of_lt hlt, min_eq_left (Nat.succ_le_of_lt hlt)]
  · rw [next_of_le heq.ge, dfa?_of_le heq.ge, heq, min_eq_right (Nat.le_succ _), ← heq]

theorem nth_eq (e : Enumeration) (n : ℕ) :
    e.nth n = (dfa? (e.position + n), ⟨min (e.position + n + 1) total⟩) := by
  rw [nth, next_eq (min_le_right _ _)]
  rcases le_total (e.position + n) total with hle | hle
  · rw [min_eq_left hle]
  · simp only [min_eq_right hle, dfa?_of_le le_rfl, dfa?_of_le hle,
      min_eq_right (Nat.le_succ total), min_eq_right (hle.trans (Nat.le_succ _))]

theorem nextAfter_eq (he : e.position ≤ total) (n : ℕ) :
    e.nextAfter n = (dfa? (e.position + n), ⟨min (e.position + n + 1) total⟩) := by
  induction n generalizing e with
  | zero => exact next_eq he
  | succ n ih =>
    rw [nextAfter, next_eq he]
    rcases he.lt_or_eq with hlt | heq
    · rw [dfa?_of_lt hlt, min_eq_left (Nat.succ_le_of_lt hlt)]
      have hplaces : e.position + 1 + n = e.position + (n + 1) := by omega
      rw [← hplaces]
      exact ih hlt
    · have hbeyond : total ≤ e.position + (n + 1) := by omega
      rw [dfa?_of_le heq.ge, dfa?_of_le hbeyond, heq, min_eq_right (Nat.le_succ _),
        min_eq_right (by omega)]

theorem call_eq (he : e.position ≤ total) (c : Call) :
    e.call c = (dfa? (e.position + c.skipped), ⟨min (e.position + c.skipped + 1) total⟩) := by
  cases c with
  | next => exact next_eq he
  | nth n => exact e.nth_eq n.toNat

theorem callByNext_eq (he : e.position ≤ total) (c : Call) : e.callByNext c = e.call c := by
  cases c with
  | next => rfl
  | nth n => exact (nextAfter_eq he n.toNat).trans (e.nth_eq n.toNat).symm

theorem position_call_le (he : e.position ≤ total) (c : Call) : (e.call c).2.position ≤ total := by
  rw [call_eq he]
  exact min_le_right _ _

/-- The sum, or the greatest number of 64 bits if the sum has more. -/
def saturatingAdd (m n : UInt64) : UInt64 := .ofNat (min (m.toNat + n.toNat) (UInt64.size - 1))

/-- An enumeration whose position is a number of 64 bits. -/
structure Counter where
  position : UInt64 := 0

namespace Counter

def enumeration (c : Counter) : Enumeration := ⟨c.position.toNat⟩

def next (c : Counter) : Option (Dfa UInt32 Char) × Counter :=
  match dfa? c.position.toNat with
  | some d => (some d, ⟨c.position + 1⟩)
  | none => (none, c)

def nth (c : Counter) (n : UInt64) : Option (Dfa UInt32 Char) × Counter :=
  next ⟨min (saturatingAdd c.position n) (.ofNat total)⟩

def call (c : Counter) : Call → Option (Dfa UInt32 Char) × Counter
  | .next => c.next
  | .nth n => c.nth n

end Counter

theorem toNat_saturatingAdd (m n : UInt64) :
    (saturatingAdd m n).toNat = min (m.toNat + n.toNat) (UInt64.size - 1) := by
  apply UInt64.toNat_ofNat_of_lt'
  exact (min_le_right _ _).trans_lt (by decide)

theorem toNat_min (m n : UInt64) : (min m n).toNat = min m.toNat n.toNat := by
  have hmin : min m n = if m ≤ n then m else n := rfl
  rw [hmin, min_def]
  simp only [UInt64.le_iff_toNat_le]
  split_ifs <;> rfl

theorem toNat_min_saturatingAdd (m n : UInt64) :
    (min (saturatingAdd m n) (.ofNat total)).toNat = min (m.toNat + n.toNat) total := by
  have htotal : (UInt64.ofNat total).toNat = total := UInt64.toNat_ofNat_of_lt' (by decide)
  have hcap : total ≤ UInt64.size - 1 := by decide
  rw [toNat_min, toNat_saturatingAdd, htotal]
  omega

theorem Counter.map_next {c : Counter} (hc : c.position.toNat ≤ total) :
    Prod.map id enumeration c.next = c.enumeration.next := by
  rcases hc.lt_or_eq with hlt | heq
  · have hsucc : (c.position + 1).toNat = c.position.toNat + 1 := by
      have hcap : total < 2 ^ 64 := by decide
      rw [UInt64.toNat_add, UInt64.toNat_one]
      omega
    simp [next, Enumeration.next, enumeration, dfa?_of_lt hlt, hsucc]
  · simp [next, Enumeration.next, enumeration, dfa?_of_le heq.ge]

theorem Counter.map_call {c : Counter} (hc : c.position.toNat ≤ total) (k : Call) :
    Prod.map id enumeration (c.call k) = c.enumeration.call k := by
  cases k with
  | next => exact map_next hc
  | nth n =>
    have hposition := toNat_min_saturatingAdd c.position n
    rw [call, nth, map_next (hposition.trans_le (min_le_right _ _)), enumeration, hposition]
    rfl

section Answers

variable {σ τ : Type}

/-- The answers to the calls, and what is left after them. -/
def answers (f : σ → Call → Option (Dfa UInt32 Char) × σ) :
    List Call → σ → List (Option (Dfa UInt32 Char)) × σ
  | [], s => ([], s)
  | c :: cs, s =>
    let (answer, s) := f s c
    let (rest, s) := answers f cs s
    (answer :: rest, s)

/-- Two ways to answer calls agree if they do so call by call. -/
theorem answers_map {f : σ → Call → Option (Dfa UInt32 Char) × σ}
    {g : τ → Call → Option (Dfa UInt32 Char) × τ} {P : σ → Prop} (φ : σ → τ)
    (hP : ∀ s, P s → ∀ c, P (f s c).2) (hφ : ∀ s, P s → ∀ c, Prod.map id φ (f s c) = g (φ s) c)
    (cs : List Call) {s : σ} (hs : P s) : Prod.map id φ (answers f cs s) = answers g cs (φ s) := by
  induction cs generalizing s with
  | nil => rfl
  | cons c cs ih =>
    have hcall := hφ s hs c
    have hrest := ih (hP s hs c)
    simp only [answers, ← hcall, Prod.map_fst, Prod.map_snd, ← hrest]
    rfl

end Answers

theorem answers_callByNext (he : e.position ≤ total) (cs : List Call) :
    answers callByNext cs e = answers call cs e := by
  apply answers_map id (P := fun e => e.position ≤ total)
  · intro e he c
    rw [callByNext_eq he]
    exact position_call_le he c
  · intro e he c
    exact callByNext_eq he c
  · exact he

theorem map_answers_counter {c : Counter} (hc : c.position.toNat ≤ total) (cs : List Call) :
    Prod.map id Counter.enumeration (answers Counter.call cs c) =
      answers call cs c.enumeration := by
  apply answers_map Counter.enumeration (P := fun c => c.position.toNat ≤ total)
  · intro c hc k
    have hposition := position_call_le (e := c.enumeration) hc k
    rw [← Counter.map_call hc] at hposition
    exact hposition
  · intro c hc k
    exact Counter.map_call hc k
  · exact hc

theorem position_answers_le (he : e.position ≤ total) (cs : List Call) :
    (answers call cs e).2.position ≤ total := by
  induction cs generalizing e with
  | nil => exact he
  | cons c cs ih => exact ih (position_call_le he c)

theorem answers_next {k : ℕ} (h : e.position + k ≤ total) :
    answers call (List.replicate k .next) e =
      ((List.range k).map fun i => some (dfaOfBits (e.position + i)), ⟨e.position + k⟩) := by
  induction k generalizing e with
  | zero => rfl
  | succ k ih =>
    have hlt : e.position < total := by omega
    have hnext : e.next = (some (dfaOfBits e.position), ⟨e.position + 1⟩) := by
      rw [next, dfa?_of_lt hlt]
    have hrest := ih (e := ⟨e.position + 1⟩) (by change e.position + 1 + k ≤ total; omega)
    simp only [List.replicate_succ, answers, call, hnext, hrest, List.range_succ_eq_map]
    simp [Nat.add_assoc, Nat.add_comm 1]

theorem call_at_end (c : Call) : call ⟨total⟩ c = (none, ⟨total⟩) := by
  have hend : total ≤ total + c.skipped := Nat.le_add_right _ _
  rw [call_eq (e := ⟨total⟩) (Nat.le_refl total)]
  simp only [dfa?_of_le hend, min_eq_right (hend.trans (Nat.le_succ _))]

theorem answers_at_end (cs : List Call) :
    answers call cs ⟨total⟩ = (List.replicate cs.length none, ⟨total⟩) := by
  induction cs with
  | nil => rfl
  | cons c cs ih => simp only [answers, call_at_end, ih, List.length_cons, List.replicate_succ]

theorem call_of_none (he : e.position ≤ total) {c : Call} (h : (e.call c).1 = none) :
    (e.call c).2 = ⟨total⟩ := by
  rw [call_eq he] at h ⊢
  have hend : total ≤ e.position + c.skipped := dfa?_eq_none_iff.mp h
  simp only [min_eq_right (hend.trans (Nat.le_succ _))]

theorem answers_remaining (he : e.position ≤ total) :
    answers call (List.replicate e.remaining .next) e = (e.toList.map some, ⟨total⟩) := by
  have hend : e.position + e.remaining = total := Nat.add_sub_of_le he
  rw [answers_next hend.le, toList, List.map_map, hend]
  rfl

/-- What is done in a pool of enumerations: the `i`th is called, or it is cloned, and the clone goes
to the end. -/
inductive Act
  | call (i : ℕ) (c : Call)
  | clone (i : ℕ)

/-- The call made of the `i`th enumeration. -/
def Act.callOf? (i : ℕ) : Act → Option Call
  | call j c => if j = i then some c else none
  | clone _ => none

/-- The answer with the place of the enumeration that gave it, and the pool after it. -/
def act (es : List Enumeration) : Act → Option (ℕ × Option (Dfa UInt32 Char)) × List Enumeration
  | .call i c =>
    match es[i]? with
    | none => (none, es)
    | some e => (some (i, (e.call c).1), es.set i (e.call c).2)
  | .clone i => (none, es ++ es[i]?.toList)

def actAll (es : List Enumeration) :
    List Act → List (ℕ × Option (Dfa UInt32 Char)) × List Enumeration
  | [] => ([], es)
  | a :: as =>
    let (answer?, es) := act es a
    let (rest, es) := actAll es as
    (answer?.toList ++ rest, es)

/-- The answers given by the `i`th enumeration. -/
def answersOf (i : ℕ) (log : List (ℕ × Option (Dfa UInt32 Char))) :
    List (Option (Dfa UInt32 Char)) :=
  log.filterMap fun x => if x.1 = i then some x.2 else none

theorem actAll_spec {es : List Enumeration} {i : ℕ} (h : es[i]? = some e) (as : List Act) :
    answersOf i (actAll es as).1 = (answers call (as.filterMap (Act.callOf? i)) e).1 ∧
      (actAll es as).2[i]? = some (answers call (as.filterMap (Act.callOf? i)) e).2 := by
  have hi : i < es.length := (List.getElem?_eq_some_iff.mp h).1
  induction as generalizing es e with
  | nil => exact ⟨rfl, h⟩
  | cons a as ih =>
    cases a with
    | clone j =>
      have hcloned : (es ++ es[j]?.toList)[i]? = some e := by rw [List.getElem?_append_left hi, h]
      simpa [actAll, act, List.filterMap_cons, Act.callOf?] using ih hcloned (by simp; omega)
    | call j c =>
      by_cases hj : j = i
      · subst hj
        have hcalled : (es.set j (e.call c).2)[j]? = some (e.call c).2 := by simp [hi]
        have hrest := ih hcalled (by simpa)
        simpa [actAll, act, h, Act.callOf?, answersOf, answers] using hrest
      · cases hother : es[j]? with
        | none => simpa [actAll, act, hother, Act.callOf?, hj] using ih h hi
        | some e' =>
          have hkept : (es.set j (e'.call c).2)[i]? = some e := by rw [List.getElem?_set_ne hj, h]
          have hrest := ih hkept (by simpa)
          simpa [actAll, act, hother, Act.callOf?, hj, answersOf] using hrest

/-- A call is answered as if it asked for one automaton after another, also where the position is
counted in 64 bits, and the answers of a clone are its own. -/
theorem calls_as_by_next {cs : List Call} {as : List (Option (Dfa UInt32 Char))}
    (h : answers call cs {} = (as, e)) :
    answers callByNext cs {} = (as, e) ∧
      Prod.map id Counter.enumeration (answers Counter.call cs {}) = (as, e) ∧
      (∀ c, e.position ≤ (e.call c).2.position ∧ (e.call c).2.position ≤ total) ∧
      (∀ c d, (e.call c).1 = some d →
        dfa? (e.position + c.skipped) = some d ∧
          (e.call c).2.position = e.position + c.skipped + 1) ∧
      (answers call (List.replicate e.remaining .next) e = (e.toList.map some, ⟨total⟩) ∧
        e.toList.length = e.remaining) ∧
      (∀ c, (e.call c).1 = none → ∀ later, ∀ a ∈ (answers call later (e.call c).2).1, a = none) ∧
      ∀ (es : List Enumeration) (i : ℕ), es[i]? = some e → ∀ j, j = i ∨ j = es.length →
        ∀ acts log es', actAll es (.clone i :: acts) = (log, es') →
          (answersOf j log, es'[j]?) =
            Prod.map id some (answers call (acts.filterMap (Act.callOf? j)) e) := by
  have he : e.position ≤ total := by
    have hle := position_answers_le (e := {}) (Nat.zero_le _) cs
    rwa [h] at hle
  refine ⟨?_, ?_, ?_, ?_, ⟨answers_remaining he, by simp [toList]⟩, ?_, ?_⟩
  · rw [answers_callByNext (Nat.zero_le _), h]
  · rw [map_answers_counter (Nat.zero_le _)]
    exact h
  · intro c
    rw [call_eq he]
    exact ⟨by simp only; omega, min_le_right _ _⟩
  · intro c d hd
    rw [call_eq he] at hd ⊢
    replace hd : dfa? (e.position + c.skipped) = some d := hd
    have hlt : e.position + c.skipped < total := by
      rw [← not_le, ← dfa?_eq_none_iff, hd]
      exact Option.some_ne_none d
    exact ⟨hd, min_eq_left hlt⟩
  · intro c hnone later a ha
    rw [call_of_none he hnone, answers_at_end] at ha
    exact List.eq_of_mem_replicate ha
  · intro es i hi j hj acts log es' hacts
    have hlt : i < es.length := (List.getElem?_eq_some_iff.mp hi).1
    have hcloned : (es ++ es[i]?.toList)[j]? = some e := by
      rcases hj with rfl | rfl
      · rw [List.getElem?_append_left hlt, hi]
      · simp [hi]
    obtain ⟨hlog, hleft⟩ := actAll_spec hcloned acts
    obtain ⟨rfl, rfl⟩ := Prod.mk.inj hacts
    exact Prod.ext hlog hleft

/-- Ten places on, a clone takes over, and a call for more places than there are ends it. -/
theorem clone_of_tenth_called :
    answers call [.nth 9] {} = ([some (dfaOfBits 9)], ⟨10⟩) ∧
      Prod.map id Counter.enumeration (answers Counter.call [.nth 9] {}) =
        ([some (dfaOfBits 9)], ⟨10⟩) ∧
      (∀ a ∈ (answers call [.next, .nth 0] (call ⟨10⟩ (.nth 18446744073709551615)).2).1,
        a = none) ∧
      answersOf 1 (actAll [⟨10⟩] [.clone 0, .call 0 (.nth 200), .call 1 .next]).1 =
        [some (dfaOfBits 10)] := by
  have htenth : answers call [.nth 9] {} = ([some (dfaOfBits 9)], ⟨10⟩) := rfl
  have hbeyond : (call ⟨10⟩ (.nth 18446744073709551615)).1 = none := rfl
  obtain ⟨-, hcounter, -, -, -, hend, hclone⟩ := calls_as_by_next htenth
  have hanswers := hclone [⟨10⟩] 0 rfl 1 (.inr rfl) [.call 0 (.nth 200), .call 1 .next] _ _ rfl
  exact ⟨htenth, hcounter, hend _ hbeyond _, congrArg Prod.fst hanswers⟩

end Enumeration
end WordMachines
