import Mathlib.Tactic
import WordMachines.Turing.Machine

/-!
# The window of a snapshot

A stretch of the unbounded tape covers what a snapshot has to show if the head and every symbol are
in it. The window is the least such stretch; on a blank tape it reaches from the first cell to the
head. It is read off the unbounded tape, so it does not tell how many cells are stored. The text of a
snapshot puts the caret below the place where the cell of the head is shown.
-/

namespace WordMachines

namespace Cell

variable {α : Type} (c : Cell α)

@[simp] theorem isBlank_eq_true_iff : c.isBlank = true ↔ c = .blank := by
  cases c <;> simp [isBlank]

@[simp] theorem isBlank_eq_false_iff : c.isBlank = false ↔ c ≠ .blank := by
  cases c <;> simp [isBlank]

end Cell

namespace Tape

variable {α : Type} (t : Tape α)

theorem cellAt_of_lt {i : ℕ} (h : i < t.cells.length) : t.cellAt i = t.cells[i] := by
  simp [cellAt, h]

theorem cellAt_of_le {i : ℕ} (h : t.cells.length ≤ i) : t.cellAt i = .blank := by
  simp [cellAt, h]

theorem lt_length_of_cellAt {i : ℕ} (h : t.cellAt i ≠ .blank) : i < t.cells.length := by
  by_contra hle
  exact h (t.cellAt_of_le (not_lt.mp hle))

theorem cellAt_eq_blank (h : ∀ c ∈ t.cells, c = .blank) (i : ℕ) : t.cellAt i = .blank := by
  by_contra hsymbol
  have hi := t.lt_length_of_cellAt hsymbol
  rw [t.cellAt_of_lt hi] at hsymbol
  exact hsymbol (h _ (List.getElem_mem hi))

theorem firstSymbol?_eq_some_iff (i : ℕ) :
    t.firstSymbol? = some i ↔ t.cellAt i ≠ .blank ∧ ∀ j < i, t.cellAt j = .blank := by
  rw [firstSymbol?, List.findIdx?_eq_some_iff_getElem]
  constructor
  · rintro ⟨hi, hsymbol, hbefore⟩
    refine ⟨?_, ?_⟩
    · simpa [t.cellAt_of_lt hi] using hsymbol
    · intro j hj
      simpa [t.cellAt_of_lt (hj.trans hi)] using hbefore j hj
  · rintro ⟨hsymbol, hbefore⟩
    have hi := t.lt_length_of_cellAt hsymbol
    refine ⟨hi, ?_, ?_⟩
    · simpa [t.cellAt_of_lt hi] using hsymbol
    · intro j hj
      simpa [t.cellAt_of_lt (hj.trans hi)] using hbefore j hj

theorem lastSymbol?_eq_some_iff (i : ℕ) :
    t.lastSymbol? = some i ↔ t.cellAt i ≠ .blank ∧ ∀ j, i < j → t.cellAt j = .blank := by
  rw [lastSymbol?, Option.map_eq_some_iff]
  simp only [List.findIdx?_eq_some_iff_getElem, List.getElem_reverse, List.length_reverse]
  constructor
  · rintro ⟨k, ⟨hk, hsymbol, hafter⟩, rfl⟩
    refine ⟨?_, ?_⟩
    · have hi : t.cells.length - 1 - k < t.cells.length := by omega
      simpa [t.cellAt_of_lt hi] using hsymbol
    · intro j hj
      rcases Nat.lt_or_ge j t.cells.length with hlt | hle
      · have hblank := hafter (t.cells.length - 1 - j) (by omega)
        have hj' : t.cells.length - 1 - (t.cells.length - 1 - j) = j := by omega
        simpa [hj', t.cellAt_of_lt hlt] using hblank
      · exact t.cellAt_of_le hle
  · rintro ⟨hsymbol, hafter⟩
    have hi := t.lt_length_of_cellAt hsymbol
    have hi' : t.cells.length - 1 - (t.cells.length - 1 - i) = i := by omega
    refine ⟨t.cells.length - 1 - i, ⟨by omega, ?_, ?_⟩, hi'⟩
    · simpa [hi', t.cellAt_of_lt hi] using hsymbol
    · intro j hj
      have hlt : t.cells.length - 1 - j < t.cells.length := by omega
      have hblank := hafter (t.cells.length - 1 - j) (by omega)
      simpa [t.cellAt_of_lt hlt] using hblank

theorem symbols_cases :
    (∃ i j, t.firstSymbol? = some i ∧ t.lastSymbol? = some j) ∨ ∀ i, t.cellAt i = .blank := by
  cases hfirst : t.firstSymbol? with
  | none =>
    right
    exact t.cellAt_eq_blank (by simpa [firstSymbol?] using hfirst)
  | some i =>
    cases hlast : t.lastSymbol? with
    | none =>
      right
      exact t.cellAt_eq_blank (by simpa [lastSymbol?] using hlast)
    | some j =>
      left
      exact ⟨i, j, rfl, rfl⟩

/-- The cells from the `l`-th to the `r`-th. -/
def stretch (l r : ℕ) : List (Cell α) := (List.range' l (r + 1 - l)).map t.cellAt

/-- The head and every symbol are between `l` and `r`. -/
structure Covers (l r : ℕ) : Prop where
  head_mem : l ≤ t.head ∧ t.head ≤ r
  symbol_mem : ∀ i, t.cellAt i ≠ .blank → l ≤ i ∧ i ≤ r

variable {t}

theorem windowEnds_of_symbols {i j : ℕ} (hfirst : t.firstSymbol? = some i)
    (hlast : t.lastSymbol? = some j) : t.windowEnds = (min i t.head, max j t.head) := by
  rw [windowEnds, hfirst, hlast]

theorem windowEnds_of_blank (h : ∀ i, t.cellAt i = .blank) : t.windowEnds = (0, t.head) := by
  have hfirst : t.firstSymbol? = none := by
    rw [Option.eq_none_iff_forall_ne_some]
    intro i hi
    exact ((t.firstSymbol?_eq_some_iff i).mp hi).1 (h i)
  rw [windowEnds, hfirst]

variable (t)

theorem covers_windowEnds : t.Covers t.windowEnds.1 t.windowEnds.2 := by
  rcases t.symbols_cases with ⟨i, j, hfirst, hlast⟩ | hblank
  · rw [windowEnds_of_symbols hfirst hlast]
    refine ⟨⟨min_le_right _ _, le_max_right _ _⟩, ?_⟩
    intro k hk
    have hik : i ≤ k := by
      by_contra hlt
      exact hk (((t.firstSymbol?_eq_some_iff i).mp hfirst).2 k (not_le.mp hlt))
    have hkj : k ≤ j := by
      by_contra hlt
      exact hk (((t.lastSymbol?_eq_some_iff j).mp hlast).2 k (not_le.mp hlt))
    exact ⟨(min_le_left _ _).trans hik, hkj.trans (le_max_left _ _)⟩
  · rw [windowEnds_of_blank hblank]
    exact ⟨⟨Nat.zero_le _, le_rfl⟩, fun k hk => absurd (hblank k) hk⟩

theorem windowEnds_fst_le_head : t.windowEnds.1 ≤ t.head := t.covers_windowEnds.head_mem.1

theorem head_le_windowEnds_snd : t.head ≤ t.windowEnds.2 := t.covers_windowEnds.head_mem.2

variable {t}

theorem Covers.windowEnds_within {l r : ℕ} (h : t.Covers l r) (hsymbol : ∃ i, t.cellAt i ≠ .blank) :
    l ≤ t.windowEnds.1 ∧ t.windowEnds.2 ≤ r := by
  rcases t.symbols_cases with ⟨i, j, hfirst, hlast⟩ | hblank
  · have hi := h.symbol_mem i ((t.firstSymbol?_eq_some_iff i).mp hfirst).1
    have hj := h.symbol_mem j ((t.lastSymbol?_eq_some_iff j).mp hlast).1
    rw [windowEnds_of_symbols hfirst hlast]
    exact ⟨le_min hi.1 h.head_mem.1, max_le hj.2 h.head_mem.2⟩
  · obtain ⟨i, hi⟩ := hsymbol
    exact absurd (hblank i) hi

variable (t)

theorem windowEnds_snd_lt_length : t.windowEnds.2 < t.cells.length := by
  have hhead := t.head_lt
  rcases t.symbols_cases with ⟨i, j, hfirst, hlast⟩ | hblank
  · have hj := t.lt_length_of_cellAt ((t.lastSymbol?_eq_some_iff j).mp hlast).1
    rw [windowEnds_of_symbols hfirst hlast]
    exact max_lt hj hhead
  · rw [windowEnds_of_blank hblank]
    exact hhead

theorem length_stretch (l r : ℕ) : (t.stretch l r).length = r + 1 - l := by
  simp [stretch]

/-- The window may be read cell by cell from the unbounded tape. -/
theorem window_eq_stretch : t.window = t.stretch t.windowEnds.1 t.windowEnds.2 := by
  have hright := t.windowEnds_snd_lt_length
  have hlength : t.window.length = t.windowEnds.2 + 1 - t.windowEnds.1 := by
    unfold window
    rw [List.length_drop, List.length_take]
    omega
  apply List.ext_getElem
  · rw [hlength, length_stretch]
  · intro i hi _
    rw [hlength] at hi
    have hstored : t.windowEnds.1 + i < t.cells.length := by omega
    simp [window, stretch, cellAt, hstored]

theorem window_eq_cells (hfirst : t.windowEnds.1 = 0)
    (hlast : t.cells.length ≤ t.windowEnds.2 + 1) : t.window = t.cells := by
  rw [window, hfirst, List.drop_zero, List.take_of_length_le hlast]

theorem headOffset_eq_head (hfirst : t.windowEnds.1 = 0) : t.headOffset = t.head := by
  rw [headOffset, hfirst, Nat.sub_zero]

theorem window_getElem?_headOffset : t.window[t.headOffset]? = some t.read := by
  obtain ⟨hleft, hright⟩ := t.covers_windowEnds.head_mem
  have hplace : t.windowEnds.1 + t.headOffset = t.head := by
    unfold headOffset
    omega
  have hlt : t.headOffset < t.windowEnds.2 + 1 - t.windowEnds.1 := by omega
  rw [window_eq_stretch, stretch, List.getElem?_map, List.getElem?_range' hlt, Option.map_some,
    Nat.one_mul, hplace, read_eq_cellAt]

/-- The same tape with `n` more blank cells stored. -/
def pad (n : ℕ) : Tape α :=
  ⟨t.cells ++ List.replicate n .blank, t.head, by
    rw [List.length_append]
    exact Nat.lt_add_right _ t.head_lt⟩

theorem cellAt_pad (n i : ℕ) : (t.pad n).cellAt i = t.cellAt i := by
  rcases Nat.lt_or_ge i t.cells.length with hlt | hle
  · simp [pad, cellAt, hlt, List.getElem?_append]
  · have hblank := t.cellAt_of_le hle
    rw [hblank, cellAt, pad, List.getElem?_append_right hle, List.getElem?_replicate]
    split_ifs <;> rfl

variable {t}

/-- Only what the unbounded tape has and where the head is count. -/
theorem windowEnds_congr {u : Tape α} (hcells : ∀ i, t.cellAt i = u.cellAt i)
    (hhead : t.head = u.head) : t.windowEnds = u.windowEnds := by
  have hfirst : t.firstSymbol? = u.firstSymbol? := by
    ext i
    simp only [firstSymbol?_eq_some_iff, hcells]
  have hlast : t.lastSymbol? = u.lastSymbol? := by
    ext i
    simp only [lastSymbol?_eq_some_iff, hcells]
  rw [windowEnds, windowEnds, hfirst, hlast, hhead]

theorem window_congr {u : Tape α} (hcells : ∀ i, t.cellAt i = u.cellAt i)
    (hhead : t.head = u.head) : t.window = u.window := by
  rw [window_eq_stretch, window_eq_stretch, windowEnds_congr hcells hhead, stretch, stretch,
    funext hcells]

end Tape

theorem cellsText_append {α : Type} [Shown α] (cs cs' : List (Cell α)) :
    cellsText (cs ++ cs') = cellsText cs ++ cellsText cs' := by
  simp [cellsText, String.join_append]

namespace Snapshot

variable {α : Type} [Shown α] (s : Snapshot α)

theorem caretColumn_eq_length :
    s.caretColumn = (cellsText (s.window.take s.headOffset)).length := by
  rw [cellsText, String.length_join, List.map_map]
  rfl

variable {s} {before after : List (Cell α)} {c : Cell α}

theorem cellsText_of_window (hwindow : s.window = before ++ c :: after) :
    cellsText s.window = cellsText before ++ shown c ++ cellsText after := by
  rw [hwindow, List.append_cons, cellsText_append, cellsText_append]
  simp [cellsText]

theorem caretColumn_of_window (hwindow : s.window = before ++ c :: after)
    (hoffset : before.length = s.headOffset) : s.caretColumn = (cellsText before).length := by
  rw [caretColumn_eq_length, hwindow, ← hoffset, List.take_left]

end Snapshot

namespace Machine

variable {α : Type} (m : Machine α)

theorem snapshot_pad (n : ℕ) :
    ({ m with tape := m.tape.pad n } : Machine α).snapshot = m.snapshot := by
  have hwindow : (m.tape.pad n).window = m.tape.window :=
    Tape.window_congr (m.tape.cellAt_pad n) rfl
  have hends : (m.tape.pad n).windowEnds = m.tape.windowEnds :=
    Tape.windowEnds_congr (m.tape.cellAt_pad n) rfl
  change Snapshot.mk _ _ (m.tape.pad n).window (m.tape.head - (m.tape.pad n).windowEnds.1) = _
  rw [hwindow, hends]
  rfl

theorem exists_window_eq_append : ∃ before after,
    m.snapshot.window = before ++ m.tape.read :: after ∧ before.length = m.snapshot.headOffset := by
  obtain ⟨hlt, hread⟩ := List.getElem?_eq_some_iff.mp m.tape.window_getElem?_headOffset
  refine ⟨m.tape.window.take m.tape.headOffset, m.tape.window.drop (m.tape.headOffset + 1), ?_, ?_⟩
  · rw [← hread, List.cons_getElem_drop_succ, List.take_append_drop]
    rfl
  · rw [List.length_take, min_eq_left hlt.le]
    rfl

/-- The window is the shortest stretch of the tape that holds the head and every symbol, and on a
blank tape all cells up to the head. The caret stands below the head. -/
theorem snapshot_covers_tape [Shown α] :
    ((∃ i, m.tape.cellAt i ≠ .blank) → ∃ l r, m.snapshot.window = m.tape.stretch l r ∧
        m.tape.Covers l r ∧ m.tape.head = l + m.snapshot.headOffset ∧
        ∀ l' r', m.tape.Covers l' r' → (l' ≤ l ∧ r ≤ r') ∧
          m.snapshot.window.length ≤ (m.tape.stretch l' r').length) ∧
      ((∀ i, m.tape.cellAt i = .blank) →
        m.snapshot.window = m.tape.stretch 0 m.tape.head ∧ m.snapshot.headOffset = m.tape.head) ∧
      (m.snapshot.headOffset < m.snapshot.window.length ∧
        m.snapshot.window[m.snapshot.headOffset]? = some m.tape.read) ∧
      (∀ n, ({ m with tape := m.tape.pad n } : Machine α).snapshot = m.snapshot) ∧
      ∃ before after, m.snapshot.window = before ++ m.tape.read :: after ∧
        before.length = m.snapshot.headOffset ∧
        cellsText m.snapshot.window =
          cellsText before ++ shown m.tape.read ++ cellsText after ∧
        m.snapshot.text =
          "step " ++ m.stepCount.repr ++ ": state=" ++ shown m.state ++ " head=" ++
            m.snapshot.headOffset.repr ++ "\n" ++
            "  " ++ cellsText m.snapshot.window ++ "\n" ++
            "  " ++ String.ofList (List.replicate (cellsText before).length ' ') ++ "^" := by
  have hcovers := m.tape.covers_windowEnds
  have hread := m.tape.window_getElem?_headOffset
  refine ⟨?_, ?_, ⟨?_, hread⟩, m.snapshot_pad, ?_⟩
  · intro hsymbol
    refine ⟨_, _, m.tape.window_eq_stretch, hcovers, ?_, ?_⟩
    · exact (Nat.add_sub_of_le hcovers.head_mem.1).symm
    · intro l r h
      have hwithin := h.windowEnds_within hsymbol
      refine ⟨hwithin, ?_⟩
      change m.tape.window.length ≤ _
      rw [m.tape.window_eq_stretch, Tape.length_stretch, Tape.length_stretch]
      omega
  · intro hblank
    have hends := Tape.windowEnds_of_blank hblank
    have hwindow := m.tape.window_eq_stretch
    rw [hends] at hwindow
    refine ⟨hwindow, ?_⟩
    change m.tape.head - m.tape.windowEnds.1 = m.tape.head
    rw [hends, Nat.sub_zero]
  · exact (List.getElem?_eq_some_iff.mp hread).1
  · obtain ⟨before, after, hwindow, hoffset⟩ := m.exists_window_eq_append
    refine ⟨before, after, hwindow, hoffset, Snapshot.cellsText_of_window hwindow, ?_⟩
    rw [← Snapshot.caretColumn_of_window hwindow hoffset]
    rfl

/-- Symbols that read as two characters, as one that might be the blank, and as none; the head has
been two cells further. -/
def ragged : Machine Label where
  state := .named "q"
  tape := ⟨[.blank, .symbol ⟨"ab"⟩, .symbol ⟨"_"⟩, .symbol ⟨""⟩, .blank, .blank], 3, by decide⟩
  stepCount := 5
  trace := #[]
  stuck := false

def erased : Machine Label :=
  { ragged with tape := ⟨[.blank, .blank, .blank], 1, by decide⟩ }

theorem ragged_covered :
    ragged.tape.cellAt 1 ≠ .blank ∧ ragged.tape.Covers 1 3 ∧
      (∃ l r, ragged.snapshot.window = ragged.tape.stretch l r ∧ (1 ≤ l ∧ r ≤ 3) ∧
        ragged.snapshot.window.length ≤ 3) ∧
      ragged.snapshot.window[2]? = some (.symbol ⟨""⟩) ∧
      (∃ before after : List (Cell Label), before.length = 2 ∧ (cellsText before).length = 3 ∧
        cellsText ragged.snapshot.window = cellsText before ++ "" ++ cellsText after) ∧
      ragged.snapshot.text = "step 5: state=q head=2\n  ab_\n     ^" ∧
      (∀ i, erased.tape.cellAt i = .blank) ∧
        erased.snapshot.window = [.blank, .blank] ∧ erased.snapshot.headOffset = 1 := by
  have hsymbol : ragged.tape.cellAt 1 ≠ .blank := by decide
  have hcovers : ragged.tape.Covers 1 3 := by
    have hstored : ∀ i < 6, ragged.tape.cellAt i ≠ .blank → 1 ≤ i ∧ i ≤ 3 := by decide
    exact ⟨by decide, fun i hi => hstored i (ragged.tape.lt_length_of_cellAt hi) hi⟩
  have hblank := erased.tape.cellAt_eq_blank (by decide)
  obtain ⟨hleast, -, ⟨-, hread⟩, -, before, after, hwindow, hlength, hcells, -⟩ :=
    ragged.snapshot_covers_tape
  obtain ⟨l, r, hstretch, -, -, hwithin⟩ := hleast ⟨1, hsymbol⟩
  obtain ⟨herased, hoffset⟩ := erased.snapshot_covers_tape.2.1 hblank
  have htwo : ragged.snapshot.headOffset = 2 := by decide
  rw [htwo] at hread hlength
  have hbefore : before = [.symbol ⟨"ab"⟩, .symbol ⟨"_"⟩] := by
    have htake := congrArg (List.take 2) hwindow
    rw [← hlength, List.take_left, hlength] at htake
    exact htake.symm.trans (by decide)
  have hthree : (cellsText before).length = 3 := by
    rw [hbefore]
    decide
  exact ⟨hsymbol, hcovers, ⟨l, r, hstretch, hwithin 1 3 hcovers⟩, hread,
    ⟨before, after, hlength, hthree, hcells⟩, by decide +kernel, hblank, herased, hoffset⟩

end Machine
end WordMachines
