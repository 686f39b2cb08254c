import Mathlib.Tactic
import Mathlib.Data.Finset.Lattice.Fold
import WordMachines.Proofs.Turing.Calls
import WordMachines.Proofs.Turing.Configuration
import WordMachines.Proofs.Turing.Declarations
import WordMachines.Proofs.Turing.Window

/-!
# Machines stay within their bounds

A tape knows that its head is on a stored cell. A machine that keeps a list of cells and a number
instead, and fails where it is to write on no cell or its window begins beyond its head, would do as
well: it never fails. For as many cells are stored as the word has, or as the head has come past,
and at least one. The head moves one place a step at most, and neither the states entered nor the
cells written leave what the program declares.
-/

namespace WordMachines

theorem Configuration.movedHead_le (d : Direction) (i : ℕ) : movedHead d i ≤ i + 1 := by
  unfold movedHead
  split <;> omega

namespace Tape

variable {α : Type} (t : Tape α)

theorem cells_ofWord (w : List α) :
    (ofWord w).cells = if w = [] then [.blank] else w.map .symbol := by
  cases w with
  | nil => rfl
  | cons a w => exact (if_neg (List.cons_ne_nil a w)).symm

theorem length_cells_ofWord (w : List α) : (ofWord w).cells.length = max 1 w.length := by
  rw [cells_ofWord]
  split_ifs with h
  · simp [h]
  · have hpos := List.length_pos_iff.mpr h
    rw [List.length_map]
    omega

/-- A cell is added just if the head comes past the last one. -/
theorem cells_write_move (c : Cell α) (d : Direction) :
    ((t.write c).move d).cells = t.cells.set t.head c ++
      if Configuration.movedHead d t.head < t.cells.length then [] else [.blank] := by
  have hhead := t.head_lt
  cases d with
  | left =>
    have hleft : Configuration.movedHead .left t.head < t.cells.length := by
      rw [← head_write_move t c]
      exact Nat.lt_of_le_of_lt (Nat.sub_le _ _) hhead
    rw [if_pos hleft]
    exact (List.append_nil _).symm
  | stay =>
    have hstay : Configuration.movedHead .stay t.head < t.cells.length := hhead
    rw [if_pos hstay]
    exact (List.append_nil _).symm
  | right =>
    have hlength : (t.write c).cells.length = t.cells.length := List.length_set
    rw [cells_move_right, hlength]
    rfl

theorem length_cells_write_move (c : Cell α) (d : Direction) :
    ((t.write c).move d).cells.length =
      max t.cells.length (((t.write c).move d).head + 1) := by
  have hhead := t.head_lt
  have hmoved := Configuration.movedHead_le d t.head
  rw [cells_write_move, head_write_move, List.length_append, List.length_set]
  split_ifs with h
  · rw [List.length_nil]
    omega
  · rw [List.length_singleton]
    omega

theorem mem_cells_write_move {c c' : Cell α} {d : Direction}
    (h : c' ∈ ((t.write c).move d).cells) : c' ∈ t.cells ∨ c' = c ∨ c' = .blank := by
  rw [cells_write_move] at h
  rcases List.mem_append.mp h with hset | hnew
  · rcases List.mem_or_eq_of_mem_set hset with hold | hc
    · exact .inl hold
    · exact .inr (.inl hc)
  · split_ifs at hnew
    · cases hnew
    · exact .inr (.inr (List.mem_singleton.mp hnew))

end Tape

/-- The head is any number, and may point where no cell is stored. -/
structure LooseMachine (α : Type) where
  state : MachineState
  cells : List (Cell α)
  head : ℕ
  stepCount : ℕ
  trace : Array (Snapshot α)
  stuck : Bool

namespace LooseMachine

variable {α : Type} (m : LooseMachine α)

/-- What is not stored reads as blank. -/
def cellAt (i : ℕ) : Cell α := m.cells[i]?.getD .blank

def windowEnds : ℕ × ℕ :=
  let last? := (m.cells.reverse.findIdx? (!·.isBlank)).map (m.cells.length - 1 - ·)
  match m.cells.findIdx? (!·.isBlank), last? with
  | some first, some last => (min first m.head, max last m.head)
  | _, _ => (0, m.head)

/-- Fails if the window begins beyond the head. -/
def record? : Option (LooseMachine α) :=
  let (left, right) := m.windowEnds
  if left ≤ m.head then
    some { m with
      trace := m.trace.push ⟨m.stepCount, m.state,
        (List.range' left (right + 1 - left)).map m.cellAt, m.head - left⟩ }
  else none

def init? (start : MachineState) (w : List α) : Option (LooseMachine α) :=
  record? ⟨start, if w = [] then [.blank] else w.map .symbol, 0, 0, #[], false⟩

def isHalted : Bool := m.stuck || m.state.isHalting

/-- Fails if there is no cell to write on. -/
def perform? (r : Action α) : Option (LooseMachine α) :=
  let head := Configuration.movedHead r.move m.head
  if m.head < m.cells.length then
    record? { m with
      state := r.next
      cells := m.cells.set m.head r.write ++ if head < m.cells.length then [] else [.blank]
      head := head
      stepCount := m.stepCount + 1 }
  else none

def giveUp? : Option (LooseMachine α) :=
  record? { m with stepCount := m.stepCount + 1, stuck := true }

variable [DecidableEq α] (p : Program α)

def step? : Option (LooseMachine α) :=
  if m.isHalted then some m
  else
    match p.action? m.state (m.cellAt m.head) with
    | some r => m.perform? r
    | none => m.giveUp?

def after? : ℕ → LooseMachine α → Option (LooseMachine α)
  | 0, m => some m
  | n + 1, m => (m.step? p).bind (after? n)

end LooseMachine

namespace Machine

variable {α : Type} (m : Machine α)

def loose : LooseMachine α :=
  ⟨m.state, m.tape.cells, m.tape.head, m.stepCount, m.trace, m.stuck⟩

theorem loose_record : m.loose.record? = some m.record.loose := by
  have hleft := m.tape.windowEnds_fst_le_head
  have hends : m.loose.windowEnds = m.tape.windowEnds := rfl
  unfold LooseMachine.record?
  rw [hends]
  change (if m.tape.windowEnds.1 ≤ m.tape.head then _ else _) = _
  rw [if_pos hleft, record, snapshot, Tape.window_eq_stretch]
  rfl

theorem loose_init (start : MachineState) (w : List α) :
    LooseMachine.init? start w = some (init start w).loose := by
  have hhead := Tape.head_ofWord w
  have hcells := Tape.cells_ofWord w
  unfold LooseMachine.init?
  rw [init, ← loose_record, loose, hhead, hcells]

theorem loose_perform (r : Action α) : m.loose.perform? r = some (m.perform r).loose := by
  unfold LooseMachine.perform?
  change (if m.tape.head < m.tape.cells.length then _ else _) = _
  rw [if_pos m.tape.head_lt, perform, ← loose_record]
  change _ = LooseMachine.record? ⟨r.next, ((m.tape.write r.write).move r.move).cells,
    ((m.tape.write r.write).move r.move).head, m.stepCount + 1, m.trace, m.stuck⟩
  rw [Tape.cells_write_move, Tape.head_write_move]
  rfl

theorem loose_giveUp : m.loose.giveUp? = some m.giveUp.loose := by
  unfold LooseMachine.giveUp?
  rw [giveUp, ← loose_record]
  rfl

variable [DecidableEq α] (p : Program α)

/-- Neither check fails: the head is on a stored cell, and the window does not begin beyond it. -/
theorem loose_step : m.loose.step? p = some (m.step p).1.loose := by
  have hread : m.loose.cellAt m.loose.head = m.tape.read := m.tape.read_eq_cellAt.symm
  have hrunning := m.verdict?_eq_none_iff
  rw [← Bool.or_eq_false_iff] at hrunning
  unfold LooseMachine.step?
  rw [hread]
  rcases step_cases p m with ⟨v, hv, hs⟩ | ⟨r, hv, hr, hs⟩ | ⟨hv, hr, hs⟩
  · have hhalted : m.loose.isHalted := by
      rw [← Bool.not_eq_false]
      intro hfalse
      rw [hrunning.mpr hfalse] at hv
      cases hv
    rw [if_pos hhalted, hs]
  · have hnot : m.loose.isHalted = false := hrunning.mp hv
    have hrule : p.action? m.loose.state m.tape.read = some r := hr
    rw [hnot, hrule, hs]
    exact m.loose_perform r
  · have hnot : m.loose.isHalted = false := hrunning.mp hv
    have hrule : p.action? m.loose.state m.tape.read = none := hr
    rw [hnot, hrule, hs]
    exact m.loose_giveUp

theorem loose_after (n : ℕ) : m.loose.after? p n = some (m.after p n).loose := by
  induction n generalizing m with
  | zero => rfl
  | succ n ih =>
    unfold LooseMachine.after?
    rw [loose_step, Option.bind_some, ih]
    rfl

theorem head_step_le : (m.step p).1.tape.head ≤ m.tape.head + 1 := by
  rcases step_cases p m with ⟨v, -, hs⟩ | ⟨r, -, -, hs⟩ | ⟨-, -, hs⟩
  · rw [hs]
    exact Nat.le_succ _
  · rw [hs]
    apply le_of_eq_of_le (m.tape.head_write_move r.write r.move)
    exact Configuration.movedHead_le r.move m.tape.head
  · rw [hs]
    exact Nat.le_succ _

variable {p m} in
/-- The head moves with a step that counts, or not at all. -/
theorem head_le_stepCount_step (h : m.tape.head ≤ m.stepCount) :
    (m.step p).1.tape.head ≤ (m.step p).1.stepCount := by
  cases hv : m.verdict? with
  | some v =>
    rw [step_of_halted hv]
    exact h
  | none =>
    have hcount := stepCount_step_of_running (p := p) hv
    have hhead := m.head_step_le p
    omega

variable {m} in
theorem head_le_stepCount_after (h : m.tape.head ≤ m.stepCount) (n : ℕ) :
    (m.after p n).tape.head ≤ (m.after p n).stepCount := by
  induction n with
  | zero => exact h
  | succ n ih =>
    rw [after_succ']
    exact head_le_stepCount_step ih

theorem length_cells_step :
    (m.step p).1.tape.cells.length = max m.tape.cells.length ((m.step p).1.tape.head + 1) := by
  have hhead := m.tape.head_lt
  rcases step_cases p m with ⟨v, -, hs⟩ | ⟨r, -, -, hs⟩ | ⟨-, -, hs⟩
  · rw [hs]
    exact (max_eq_left hhead).symm
  · rw [hs]
    exact m.tape.length_cells_write_move r.write r.move
  · rw [hs]
    exact (max_eq_left hhead).symm

/-- The furthest place the head has been at, up to the `n`-th step. -/
def furthestHead (n : ℕ) : ℕ := (Finset.range (n + 1)).sup fun k => (m.after p k).tape.head

theorem furthestHead_succ (n : ℕ) :
    m.furthestHead p (n + 1) = max (m.after p (n + 1)).tape.head (m.furthestHead p n) := by
  unfold furthestHead
  rw [Finset.range_add_one, Finset.sup_insert]

theorem length_cells_after (n : ℕ) :
    (m.after p n).tape.cells.length = max m.tape.cells.length (m.furthestHead p n + 1) := by
  induction n with
  | zero =>
    have hhead := m.tape.head_lt
    have hfurthest : m.furthestHead p 0 = m.tape.head := by simp [furthestHead]
    rw [hfurthest]
    exact (max_eq_left hhead).symm
  | succ n ih =>
    have hstep := (m.after p n).length_cells_step p
    rw [← after_succ', ih] at hstep
    rw [hstep, furthestHead_succ]
    omega

theorem length_cells_le_after (n : ℕ) :
    m.tape.cells.length ≤ (m.after p n).tape.cells.length := by
  rw [length_cells_after]
  exact le_max_left _ _

theorem length_cells_step_le : (m.step p).1.tape.cells.length ≤ m.tape.cells.length + 1 := by
  have hhead := m.tape.head_lt
  have hmoved := m.head_step_le p
  rw [length_cells_step]
  omega

/-- The machine is in a declared state, and its cells are blank or in the tape alphabet. -/
structure Within : Prop where
  state_mem : m.state ∈ p.states
  cells_mem : ∀ c ∈ m.tape.cells, c = .blank ∨ c ∈ p.tapeAlphabet

variable {p m}

theorem Within.step (hp : p.Closed) (h : m.Within p) : (m.step p).1.Within p := by
  rcases step_cases p m with ⟨v, -, hs⟩ | ⟨r, -, hr, hs⟩ | ⟨-, -, hs⟩
  · rw [hs]
    exact h
  · obtain ⟨-, -, hwrite, hnext⟩ := hp _ _ _ hr
    rw [hs]
    refine ⟨hnext, ?_⟩
    intro c hc
    rcases m.tape.mem_cells_write_move hc with hold | rfl | hblank
    · exact h.cells_mem c hold
    · exact .inr hwrite
    · exact .inl hblank
  · rw [hs]
    exact ⟨h.state_mem, h.cells_mem⟩

theorem Within.after (hp : p.Closed) (h : m.Within p) (n : ℕ) : (m.after p n).Within p := by
  induction n with
  | zero => exact h
  | succ n ih =>
    rw [after_succ']
    exact ih.step hp

theorem within_of_start [Shown α] {w : List α} (h : start p w = .ok m) : m.Within p := by
  obtain ⟨hstart, hw, rfl⟩ := (p.start_eq_ok_iff w m).mp h
  refine ⟨(p.mem_states_iff p.start).mpr hstart, ?_⟩
  intro c hc
  change c ∈ (Tape.ofWord w).cells at hc
  rw [Tape.cells_ofWord] at hc
  split_ifs at hc
  · exact .inl (List.mem_singleton.mp hc)
  · obtain ⟨a, ha, rfl⟩ := List.mem_map.mp hc
    have htakes := hw a ha
    simp only [Program.takes, decide_eq_true_eq] at htakes
    exact .inr htakes

end Machine

namespace Program

variable {α : Type} [DecidableEq α] [Shown α] {p : Program α} {name : String}
  {start : MachineState} {es : List (Edit α)} {w : List α} {m₀ m : Machine α}
  {cs : List Machine.Call}

/-- No call leads the head off the stored cells, so that a machine without this guarantee comes as
far. A step stores one cell more at most. -/
theorem machine_stays_within_bounds (hp : p = (new name start).edits es)
    (hm₀ : Machine.start p w = .ok m₀) (hm : m₀.afterCalls p cs = m) :
    (m.tape.head < m.tape.cells.length ∧ m.tape.windowEnds.1 ≤ m.tape.head ∧
        (LooseMachine.init? start w).bind (·.after? p m.stepCount) = some m.loose) ∧
      (m = m₀.after p m.stepCount ∧
        m.tape.cells.length = max (max 1 w.length) (1 + m₀.furthestHead p m.stepCount)) ∧
      (∀ later, m.tape.cells.length ≤ (m.afterCalls p later).tape.cells.length) ∧
      (m.step p).1.tape.cells.length ≤ m.tape.cells.length + 1 ∧
      m.tape.head ≤ m.stepCount ∧
      m.state ∈ p.states ∧
      ∀ c ∈ m.tape.cells, c = .blank ∨ c ∈ p.tapeAlphabet := by
  have hclosed : p.Closed := by
    rw [hp]
    exact closed_new_edits name start es
  have hstart : p.start = start := by
    rw [hp]
    exact start_edits (new name start) es
  have hafter := Machine.afterCalls_eq_after_stepCount p (stepCount_of_start hm₀) cs
  rw [hm] at hafter
  have hwithin := (Machine.within_of_start hm₀).after hclosed m.stepCount
  obtain ⟨-, -, hinit⟩ := (p.start_eq_ok_iff w m₀).mp hm₀
  have hoffset : m₀.tape.head ≤ m₀.stepCount := by
    rw [hinit]
    exact (Tape.head_ofWord w).le
  have hhead := Machine.head_le_stepCount_after p hoffset m.stepCount
  have hlength := m₀.length_cells_after p m.stepCount
  have hloose := m₀.loose_after p m.stepCount
  rw [← hafter] at hwithin hhead hlength hloose
  refine ⟨⟨m.tape.head_lt, m.tape.windowEnds_fst_le_head, ?_⟩, ⟨hafter, ?_⟩, ?_,
    m.length_cells_step_le p, hhead, hwithin.state_mem, hwithin.cells_mem⟩
  · rw [Machine.loose_init, Option.bind_some, ← hstart, ← hinit]
    exact hloose
  · have hword : m₀.tape.cells.length = max 1 w.length := by
      rw [hinit]
      exact Tape.length_cells_ofWord w
    rw [hlength, hword, Nat.add_comm 1]
  · intro later
    obtain ⟨n, hn⟩ := m.exists_afterCalls_eq_after p later
    rw [hn]
    exact m.length_cells_le_after p n

/-- The first step is held up at the first cell; a cell is added before the head leaves the word,
and another before the last rule is missed. -/
theorem margins_within_bounds :
    ∃ p m₀ m, p = (new "margins" (.named "q")).edits margins ∧
      Machine.start p ['a'] = .ok m₀ ∧ m₀.afterCalls p [.run 2, .step, .run 10] = m ∧
      m.stepCount = 4 ∧ m.stuck ∧ m.tape.head = 2 ∧
      (LooseMachine.init? (.named "q") ['a']).bind (·.after? p m.stepCount) = some m.loose ∧
      m.tape.cells.length = 3 ∧
      m.tape.cells.length = max (max 1 1) (1 + m₀.furthestHead p m.stepCount) := by
  obtain ⟨p, hp⟩ : ∃ p, p = (new "margins" (.named "q")).edits margins := ⟨_, rfl⟩
  obtain ⟨m₀, hm₀⟩ : ∃ m₀, Machine.start p ['a'] = .ok m₀ := by
    rw [hp]
    exact ⟨_, rfl⟩
  obtain ⟨m, hm⟩ : ∃ m, m₀.afterCalls p [.run 2, .step, .run 10] = m := ⟨_, rfl⟩
  obtain ⟨⟨-, -, hloose⟩, ⟨-, hlength⟩, -⟩ := machine_stays_within_bounds hp hm₀ hm
  have hm₀' : m₀ = .init (.named "q") ['a'] := by
    rw [hp] at hm₀
    exact (Except.ok.inj hm₀).symm
  have hend : m.stepCount = 4 ∧ m.stuck ∧ m.tape.head = 2 ∧ m.tape.cells.length = 3 := by
    rw [← hm, hm₀', hp]
    decide +kernel
  obtain ⟨hcount, hstuck, hhead, hthree⟩ := hend
  exact ⟨p, m₀, m, hp, hm₀, hm, hcount, hstuck, hhead, hloose, hthree, hlength⟩

end Program

end WordMachines
