import Mathlib.Tactic
import WordMachines.Proofs.Turing.Steps

/-!
# Programs on renamed symbols

Symbols may be given other names on the tape. If one program does on the new names what another
does on the old ones, in every state that does not halt, the runs of the two are the same snapshot by
snapshot, up to the names on the tape. The new names need not tell all symbols apart, for a machine
compares nothing itself; and they may be the old ones, so programs that act alike run alike.
-/

namespace WordMachines

variable {α β : Type}

namespace Cell

def map (g : α → β) : Cell α → Cell β
  | symbol a => symbol (g a)
  | blank => blank

@[simp] theorem map_symbol (g : α → β) (a : α) : (symbol a).map g = symbol (g a) := rfl

@[simp] theorem map_blank (g : α → β) : (blank : Cell α).map g = blank := rfl

@[simp] theorem isBlank_map (g : α → β) (c : Cell α) : (c.map g).isBlank = c.isBlank := by
  cases c <;> rfl

@[simp] theorem map_id_eq_id : map (id : α → α) = id := by
  funext c
  cases c <;> rfl

theorem map_injective {g : α → β} (hg : g.Injective) : (map g).Injective := by
  intro c d h
  cases c <;> cases d <;> simp_all [hg.eq_iff]

end Cell

namespace Tape

attribute [ext] Tape

variable (g : α → β) (t : Tape α)

def map : Tape β := ⟨t.cells.map (.map g), t.head, by simpa using t.head_lt⟩

theorem map_ofWord (w : List α) : (ofWord w).map g = ofWord (w.map g) := by
  cases w with
  | nil => rfl
  | cons a w => ext1 <;> simp [map, ofWord]

theorem read_map : (t.map g).read = t.read.map g := by
  simp [read, map]

theorem map_write (c : Cell α) : (t.write c).map g = (t.map g).write (c.map g) := by
  ext1
  · exact List.map_set
  · rfl

theorem map_move (d : Direction) : (t.move d).map g = (t.map g).move d := by
  cases d with
  | left => rfl
  | stay => rfl
  | right =>
    ext1
    · change (t.move .right).cells.map (Cell.map g) = _
      rw [cells_move_right, cells_move_right, List.map_append]
      simp only [map, List.length_map]
      split_ifs <;> rfl
    · change (t.move .right).head = _
      rw [head_move_right, head_move_right]
      rfl

/-- Blanks stay blanks and symbols symbols, so the window does not move. -/
theorem windowEnds_map : (t.map g).windowEnds = t.windowEnds := by
  have hblank : (fun c : Cell α => !(c.map g).isBlank) = fun c => !c.isBlank := by
    funext c
    rw [Cell.isBlank_map]
  have hfirst : (t.map g).firstSymbol? = t.firstSymbol? := by
    simp only [firstSymbol?, map, List.findIdx?_map, Function.comp_def, hblank]
  have hlast : (t.map g).lastSymbol? = t.lastSymbol? := by
    simp only [lastSymbol?, map, ← List.map_reverse, List.findIdx?_map, Function.comp_def, hblank,
      List.length_map]
  rw [windowEnds, hfirst, hlast]
  rfl

theorem window_map : (t.map g).window = t.window.map (.map g) := by
  rw [window, windowEnds_map, window, List.map_drop, List.map_take]
  rfl

theorem headOffset_map : (t.map g).headOffset = t.headOffset := by
  rw [headOffset, windowEnds_map, headOffset]
  rfl

end Tape

def Action.map (g : α → β) (r : Action α) : Action β := ⟨r.write.map g, r.move, r.next⟩

def Snapshot.map (g : α → β) (s : Snapshot α) : Snapshot β :=
  ⟨s.step, s.state, s.window.map (.map g), s.headOffset⟩

def Report.map (g : α → β) (r : Report α) : Report β :=
  ⟨r.verdict, r.stepCount, r.finalTape.map (.map g), r.trace.map (.map g)⟩

@[simp] theorem Action.map_id (r : Action α) : r.map id = r := by
  rw [map, Cell.map_id_eq_id]
  rfl

@[simp] theorem Report.map_id (r : Report α) : r.map id = r := by
  have hsnapshot : Snapshot.map (id : α → α) = id := by
    funext s
    rw [Snapshot.map, Cell.map_id_eq_id, List.map_id]
    rfl
  rw [map, hsnapshot, Cell.map_id_eq_id, List.map_id, Array.map_id]

namespace Machine

variable (g : α → β) (m : Machine α)

def map : Machine β :=
  ⟨m.state, m.tape.map g, m.stepCount, m.trace.map (.map g), m.stuck⟩

@[simp] theorem verdict?_map : (m.map g).verdict? = m.verdict? := rfl

theorem snapshot_map : (m.map g).snapshot = m.snapshot.map g := by
  have hwindow := m.tape.window_map g
  have hoffset := m.tape.headOffset_map g
  simp only [snapshot, map, Snapshot.map, hwindow, hoffset]

theorem map_record : m.record.map g = (m.map g).record := by
  have htrace : (m.trace.push m.snapshot).map (.map g) =
      (m.map g).trace.push (m.map g).snapshot := by
    rw [Array.map_push, snapshot_map]
    rfl
  rw [record, record, ← htrace]
  rfl

theorem map_init (start : MachineState) (w : List α) :
    (init start w).map g = init start (w.map g) := by
  rw [init, map_record, init, ← Tape.map_ofWord, map, Array.map_empty]

theorem map_perform (r : Action α) : (m.perform r).map g = (m.map g).perform (r.map g) := by
  have htape : ((m.tape.write r.write).move r.move).map g =
      ((m.tape.map g).write (r.write.map g)).move r.move := by
    rw [Tape.map_move, Tape.map_write]
  rw [perform, map_record]
  simp only [map, htape]
  rfl

theorem map_giveUp : m.giveUp.map g = (m.map g).giveUp := by
  rw [giveUp, map_record]
  rfl

theorem map_report (v : Verdict) : (m.report v).map g = (m.map g).report v := rfl

end Machine

namespace Program

variable [DecidableEq α] [DecidableEq β]

/-- In every state that does not halt, `q` does with the new names what `p` does with the old. -/
structure Renamed (g : α → β) (p : Program α) (q : Program β) : Prop where
  start_eq : q.start = p.start
  hasState_start : q.hasState q.start = p.hasState p.start
  takes_eq : ∀ a, q.takes (g a) = p.takes a
  action?_eq : ∀ t c, q.action? (.named t) (c.map g) = (p.action? (.named t) c).map (.map g)

namespace Renamed

variable {g : α → β} {p : Program α} {q : Program β} (h : Renamed g p q)
include h

theorem action?_read {m : Machine α} (hm : m.verdict? = none) :
    q.action? m.state (m.map g).tape.read = (p.action? m.state m.tape.read).map (.map g) := by
  obtain ⟨-, hstate⟩ := m.verdict?_eq_none_iff.mp hm
  have hread : (m.map g).tape.read = m.tape.read.map g := m.tape.read_map g
  cases hs : m.state with
  | named t => rw [hread, h.action?_eq]
  | accept => simp [hs, MachineState.isHalting] at hstate
  | reject => simp [hs, MachineState.isHalting] at hstate

theorem step_map (m : Machine α) : ((m.map g).step q).1 = (m.step p).1.map g := by
  rcases m.step_cases p with ⟨v, hv, hs⟩ | ⟨r, hv, hr, hs⟩ | ⟨hv, hr, hs⟩
  · rw [hs, Machine.step_of_halted (m := m.map g) hv]
  · have hrule := h.action?_read hv
    rw [hr] at hrule
    rw [hs, Machine.step_of_rule (m := m.map g) hv hrule, Machine.map_perform]
  · have hrule := h.action?_read hv
    rw [hr] at hrule
    rw [hs, Machine.step_of_no_rule (m := m.map g) hv hrule, Machine.map_giveUp]

theorem after_map (n : ℕ) (m : Machine α) : (m.map g).after q n = (m.after p n).map g := by
  induction n with
  | zero => rfl
  | succ n ih => rw [Machine.after_succ', ih, h.step_map, Machine.after_succ']

variable [Shown α] [Shown β]

theorem start_map (hg : ∀ a, shown (g a) = shown a) (w : List α) :
    Machine.start q (w.map g) = (Machine.start p w).map (.map g) := by
  have hfind : (w.map g).find? (!q.takes ·) = (w.find? (!p.takes ·)).map g := by
    rw [List.find?_map]
    simp only [Function.comp_def, h.takes_eq]
  rw [Machine.start, Machine.start, h.hasState_start, h.start_eq, hfind]
  split_ifs
  · cases w.find? (!p.takes ·) with
    | none => exact congrArg Except.ok (Machine.map_init g p.start w).symm
    | some a => exact congrArg (Except.error ∘ StartError.unknownSymbol) (hg a)
  · rfl

theorem run_map (hg : ∀ a, shown (g a) = shown a) (w : List α) (n : ℕ) :
    q.run (w.map g) n = (p.run w n).map (.map g) := by
  have hstart := h.start_map hg w
  cases hm : Machine.start p w with
  | error e =>
    rw [hm] at hstart
    rw [Program.run, Program.run, hstart, hm]
    rfl
  | ok m =>
    rw [hm] at hstart
    rw [run_of_start hstart, run_of_start hm, h.after_map, Machine.verdict?_map]
    exact congrArg Except.ok (Machine.map_report g _ _).symm

end Renamed

/-- Programs that act alike where a run can come run alike. -/
theorem Renamed.run_eq [Shown α] {p q : Program α} (h : Renamed id p q) (w : List α) (n : ℕ) :
    q.run w n = p.run w n := by
  have hrun := h.run_map (fun _ => rfl) w n
  rw [List.map_id] at hrun
  rw [hrun]
  cases p.run w n with
  | error e => rfl
  | ok r => exact congrArg Except.ok r.map_id

end Program
end WordMachines
