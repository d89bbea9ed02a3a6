import Mathlib.Data.List.GetD
import Mathlib.Tactic.SplitIfs
import OpenKernel.Console.Model

/-!
# The console as a list of rows

Printed text falls into rows: a row ends at each newline and after its 80th
character. The scrollback holds the last 100 rows of everything printed since
the screen was cleared, and the VGA buffer shows the last 25 of them.
-/

namespace OpenKernel.Console

/-! ### Rows of a text -/

/-- The rows of a text that continues the row `current`. -/
def rowsFrom (current : List UInt8) : List UInt8 → List (List UInt8)
  | [] => [current]
  | c :: text =>
    if c = 10 then current :: rowsFrom [] text
    else if current.length + 1 = vgaCols then (current ++ [c]) :: rowsFrom [] text
    else rowsFrom (current ++ [c]) text

def rows (text : List UInt8) : List (List UInt8) := rowsFrom [] text

/-- The last `n` rows, or all if there are fewer. -/
def lastRows (n : ℕ) (all : List (List UInt8)) : List (List UInt8) := all.drop (all.length - n)

/-- A cell with a character or a blank, white on black. -/
def shownCell : Option UInt8 → UInt16
  | none => 0x0720
  | some c => 0x0700 + c.toUInt16

/-- The cell `j` of the row `i` of some rows, with blanks where they have nothing. -/
def cellAt (all : List (List UInt8)) (i j : ℕ) : UInt16 := shownCell (all.getD i [])[j]?

theorem cellAt_lastRows (n : ℕ) (all : List (List UInt8)) (i j : ℕ) :
    cellAt (lastRows n all) i j = cellAt all (all.length - n + i) j := by
  unfold cellAt lastRows
  rw [List.getD_eq_getElem?_getD, List.getD_eq_getElem?_getD, List.getElem?_drop]

theorem length_lastRows (n : ℕ) (all : List (List UInt8)) :
    (lastRows n all).length = min all.length n := by
  unfold lastRows
  rw [List.length_drop]
  omega

theorem cellAt_of_length_le {all : List (List UInt8)} {i : ℕ} (h : all.length ≤ i) (j : ℕ) :
    cellAt all i j = 0x0720 := by
  unfold cellAt
  rw [List.getD_eq_default _ _ h]
  rfl

theorem cellAt_append_nil (all : List (List UInt8)) (i j : ℕ) :
    cellAt (all ++ [[]]) i j = cellAt all i j := by
  rcases Nat.lt_or_ge i all.length with hi | hi
  · unfold cellAt
    rw [List.getD_append _ _ _ _ hi]
  · rw [cellAt_of_length_le hi]
    unfold cellAt
    rw [List.getD_append_right _ _ _ _ hi]
    cases i - all.length <;> rfl

theorem cellAt_concat (finished : List (List UInt8)) (current : List UInt8) (c : UInt8) (i j : ℕ) :
    cellAt (finished ++ [current ++ [c]]) i j =
      if i = finished.length ∧ j = current.length then shownCell (some c)
      else cellAt (finished ++ [current]) i j := by
  unfold cellAt
  rcases Nat.lt_or_ge i finished.length with hi | hi
  · rw [if_neg (by omega), List.getD_append _ _ _ _ hi, List.getD_append _ _ _ _ hi]
  · rw [List.getD_append_right _ _ _ _ hi, List.getD_append_right _ _ _ _ hi]
    rcases Nat.eq_or_lt_of_le hi with rfl | hlt
    · by_cases hj : j = current.length
      · simp [hj]
      · simp only [Nat.sub_self, List.getD_cons_zero, hj, and_false, if_false]
        rcases Nat.lt_or_gt_of_ne hj with hlt | hgt
        · rw [List.getElem?_append_left hlt]
        · rw [List.getElem?_append_right (Nat.le_of_lt hgt), List.getElem?_eq_none (by simp; omega),
            List.getElem?_eq_none (Nat.le_of_lt hgt)]
    · rw [if_neg (by omega)]
      obtain ⟨m, hm⟩ : ∃ m, i - finished.length = m + 1 := ⟨i - finished.length - 1, by omega⟩
      rw [hm]
      rfl

namespace Terminal

variable {s : Terminal}

theorem cell_vgaAttr {c : UInt8} (h : c < 128) : cell vgaAttr c = shownCell (some c) := by
  have hall : ∀ n : Fin 128, cell vgaAttr (UInt8.ofNat n) = shownCell (some (UInt8.ofNat n)) := by
    decide
  have hlt : c.toNat < 128 := h
  have := hall ⟨c.toNat, hlt⟩
  simpa using this

/-! ### The scrollback -/

/-- The scrollback holds the last of the given rows. -/
structure Holds (s : Terminal) (all : List (List UInt8)) : Prop where
  lines : s.terminalTotalLines = min all.length scrollbackSize
  offset : s.scrollViewOffset = 0
  cells : ∀ i j, i < scrollbackSize → j < vgaCols →
    s.terminalHistory i j = cellAt (lastRows scrollbackSize all) i j

theorem Holds.addRow {all : List (List UInt8)} (h : Holds s all) :
    Holds (addRow s) (all ++ [[]]) := by
  have hlines := h.lines
  have hlength : (all ++ [[]]).length = all.length + 1 := by simp
  unfold Terminal.addRow
  split_ifs with hfull
  · have hge : scrollbackSize ≤ all.length := by omega
    refine ⟨?_, h.offset, ?_⟩
    · dsimp only
      omega
    · intro i j hi hj
      dsimp only
      rw [cellAt_lastRows, cellAt_append_nil, hlength]
      unfold shiftHistory
      rw [if_pos hj]
      split_ifs with hlt hlast
      · have hrow : all.length - scrollbackSize + (i + 1) =
            all.length + 1 - scrollbackSize + i := by omega
        rw [h.cells (i + 1) j (by omega) hj, cellAt_lastRows, hrow]
      · rw [cellAt_of_length_le (by omega)]
        decide
      · omega
  · refine ⟨?_, h.offset, ?_⟩
    · dsimp only
      omega
    · intro i j hi hj
      dsimp only
      have hrow : all.length - scrollbackSize + i = all.length + 1 - scrollbackSize + i := by omega
      rw [h.cells i j hi hj, cellAt_lastRows, cellAt_lastRows, cellAt_append_nil, hlength, hrow]

/-- A character written behind the last of the current row. -/
theorem Holds.write {finished : List (List UInt8)} {current : List UInt8} {c : UInt8}
    (h : Holds s (finished ++ [current])) (hcol : s.cursorCol = current.length) (hc : c < 128)
    {row col : ℕ} :
    Holds { s with
      terminalHistory := writeCell s.terminalHistory (s.terminalTotalLines - 1) s.cursorCol
        (cell vgaAttr c)
      cursorRow := row
      cursorCol := col } (finished ++ [current ++ [c]]) := by
  have hlines := h.lines
  have hlength : ∀ last : List UInt8, (finished ++ [last]).length = finished.length + 1 := by simp
  refine ⟨?_, h.offset, ?_⟩
  · change s.terminalTotalLines = _
    rw [hlines, hlength, hlength]
  · intro i j hi hj
    change writeCell s.terminalHistory _ _ _ i j = _
    rw [cellAt_lastRows, hlength, cellAt_concat]
    rw [hlength] at hlines
    by_cases hcell : i = s.terminalTotalLines - 1 ∧ j = s.cursorCol
    · obtain ⟨rfl, rfl⟩ := hcell
      have hlast : finished.length + 1 - scrollbackSize + (s.terminalTotalLines - 1) =
          finished.length := by omega
      rw [if_pos ⟨hlast, hcol⟩, ← cell_vgaAttr hc]
      simp [writeCell]
    · rw [if_neg fun hlast => hcell ⟨by omega, by omega⟩]
      have hold := h.cells i j hi hj
      rw [cellAt_lastRows, hlength] at hold
      rw [← hold]
      unfold writeCell
      by_cases hi' : i = s.terminalTotalLines - 1
      · have hj' : j ≠ s.cursorCol := fun hj' => hcell ⟨hi', hj'⟩
        rw [← hi', Function.update_self, Function.update_of_ne hj']
      · rw [Function.update_of_ne hi']

/-- The scrollback holds the rows, and the cursor stands behind the last of them. -/
structure Shows (s : Terminal) (finished : List (List UInt8)) (current : List UInt8) : Prop where
  holds : Holds s (finished ++ [current])
  row : s.cursorRow = 0
  col : s.cursorCol = current.length
  short : current.length < vgaCols

variable {finished : List (List UInt8)} {current : List UInt8} {c : UInt8}

theorem Shows.vgaRefresh (h : Shows s finished current) : Shows (vgaRefresh s) finished current :=
  ⟨⟨h.holds.lines, h.holds.offset, h.holds.cells⟩, h.row, h.col, h.short⟩

theorem Shows.heartbeat (h : Shows s finished current) : Shows (heartbeat s) finished current :=
  ⟨⟨h.holds.lines, h.holds.offset, h.holds.cells⟩, h.row, h.col, h.short⟩

theorem breakLine_of_cursorRow (hrow : s.cursorRow = 0) : breakLine s = s := if_neg (by omega)

theorem Holds.breakLine (h : Holds s (finished ++ [current])) (hrow : s.cursorRow = 1)
    (hcol : s.cursorCol = 0) : Shows (breakLine s) (finished ++ [current]) [] := by
  have hadd := h.addRow
  rw [Terminal.breakLine, if_pos (by omega)]
  apply Shows.vgaRefresh
  refine ⟨⟨hadd.lines, hadd.offset, hadd.cells⟩, rfl, ?_, by decide⟩
  unfold Terminal.addRow
  split_ifs <;> exact hcol

/-- One character moves from the text that is still to be printed to the rows. -/
theorem Shows.putChar (h : Shows s finished current) (hc : c < 128) :
    ∃ finished' current', Shows (vgaPutcharWithScrollback s c) finished' current' ∧
      ∀ text, finished' ++ rowsFrom current' text = finished ++ rowsFrom current (c :: text) := by
  have hrow := h.row
  have hcol := h.col
  have hshort := h.short
  unfold vgaPutcharWithScrollback placeChar
  by_cases hnl : c = 10
  · rw [if_pos hnl]
    refine ⟨finished ++ [current], [], Holds.breakLine ⟨h.holds.lines, h.holds.offset,
      h.holds.cells⟩ ?_ rfl, ?_⟩
    · dsimp only
      omega
    · intro text
      rw [rowsFrom, if_pos hnl, List.append_assoc]
      rfl
  rw [if_neg hnl]
  dsimp only
  by_cases hedge : (s.cursorCol + 1) % 256 ≥ vgaCols
  · have hlast : current.length + 1 = vgaCols := by
      unfold vgaCols at *
      omega
    rw [if_pos hedge]
    refine ⟨finished ++ [current ++ [c]], [], (h.holds.write hcol hc).breakLine ?_ rfl, ?_⟩
    · dsimp only
      omega
    · intro text
      rw [rowsFrom, if_neg hnl, if_pos hlast, List.append_assoc]
      rfl
  · have hinside : current.length + 1 < vgaCols := by
      unfold vgaCols at *
      omega
    rw [if_neg hedge]
    refine ⟨finished, current ++ [c], ?_, ?_⟩
    · rw [breakLine_of_cursorRow (by exact hrow)]
      refine ⟨h.holds.write hcol hc, hrow, ?_, ?_⟩
      · dsimp only
        rw [List.length_append, List.length_singleton]
        unfold vgaCols at *
        omega
      · rw [List.length_append, List.length_singleton]
        exact hinside
    · intro text
      rw [rowsFrom, if_neg hnl, if_neg (by omega)]

theorem Shows.print {text : List UInt8} (h : Shows s finished current) (hc : ∀ c ∈ text, c < 128) :
    ∃ finished' current', Shows (text.foldl vgaPutcharWithScrollback s) finished' current' ∧
      ∀ rest, finished' ++ rowsFrom current' rest = finished ++ rowsFrom current (text ++ rest) := by
  induction text generalizing s finished current with
  | nil => exact ⟨finished, current, h, fun _ => rfl⟩
  | cons c text ih =>
    obtain ⟨finished₁, current₁, h₁, hrows₁⟩ := h.putChar (hc c (by simp))
    obtain ⟨finished₂, current₂, h₂, hrows₂⟩ := ih h₁ fun c' hc' => hc c' (by simp [hc'])
    refine ⟨finished₂, current₂, h₂, fun rest => ?_⟩
    rw [hrows₂, hrows₁, List.cons_append]

/-! ### The screen -/

/-- The VGA buffer shows the last of the given rows, apart from the cell of the heartbeat. -/
def Displays (s : Terminal) (all : List (List UInt8)) : Prop :=
  ∀ r c, r < vgaRows → c < vgaCols → r * vgaCols + c ≠ heartbeatCell →
    s.vgaBuffer (r * vgaCols + c) = cellAt (lastRows vgaRows all) r c

theorem Holds.displays {all : List (List UInt8)} (h : Holds s all) :
    Displays (Terminal.vgaRefresh s) all := by
  intro r c hr hc _
  have hlines := h.lines
  have hoffset := h.offset
  have hstart : s.startRow = s.terminalTotalLines - vgaRows := by
    unfold startRow
    omega
  have hdiv : (r * vgaCols + c) / vgaCols = r := by
    unfold vgaCols at *
    omega
  have hmod : (r * vgaCols + c) % vgaCols = c := by
    unfold vgaCols at *
    omega
  have hinside : r * vgaCols + c < vgaRows * vgaCols := by
    unfold vgaCols vgaRows at *
    omega
  unfold Terminal.vgaRefresh
  dsimp only
  rw [if_pos hinside, hdiv, hmod, hstart, cellAt_lastRows]
  unfold vgaRows scrollbackSize at *
  split_ifs with hlt
  · rw [h.cells _ c (by unfold scrollbackSize; omega) hc, cellAt_lastRows]
    congr 1
    unfold scrollbackSize
    omega
  · rw [cellAt_of_length_le (by omega)]
    decide

theorem Displays.heartbeat {all : List (List UInt8)} (h : Displays s all) :
    Displays (heartbeat s) all := by
  intro r c hr hc hne
  rw [← h r c hr hc hne]
  exact Function.update_of_ne hne _ _

/-! ### Whole runs -/

/-- What is printed, and the interrupts in between. -/
inductive Output
  | putchar (c : UInt8)
  | puts (str : List UInt8)
  | printk (buffer : List UInt8)
  | heartbeat

def Output.text : Output → List UInt8
  | .putchar c => [c]
  | .puts str => cString str
  | .printk buffer => cString buffer
  | .heartbeat => []

def output (s : Terminal) : Output → Terminal
  | .putchar c => s.putchar c
  | .puts str => s.puts str
  | .printk buffer => s.printk buffer
  | .heartbeat => s.heartbeat

/-- The text of a sequence of calls. -/
def printed (outputs : List Output) : List UInt8 := outputs.flatMap Output.text

theorem Shows.output {o : Output} (h : Shows s finished current)
    (hscreen : Displays s (finished ++ [current])) (hc : ∀ c ∈ o.text, c < 128) :
    ∃ finished' current', Shows (output s o) finished' current' ∧
      Displays (output s o) (finished' ++ [current']) ∧
      ∀ rest, finished' ++ rowsFrom current' rest = finished ++ rowsFrom current (o.text ++ rest) := by
  cases o with
  | putchar c =>
    obtain ⟨finished', current', h', hrows⟩ := h.putChar (hc c (by simp [Output.text]))
    exact ⟨finished', current', h'.vgaRefresh, h'.holds.displays, hrows⟩
  | puts str =>
    obtain ⟨finished', current', h', hrows⟩ := h.print hc
    exact ⟨finished', current', h'.vgaRefresh, h'.holds.displays, hrows⟩
  | printk buffer =>
    obtain ⟨finished', current', h', hrows⟩ := h.print hc
    exact ⟨finished', current', h'.vgaRefresh, h'.holds.displays, hrows⟩
  | heartbeat => exact ⟨finished, current, h.heartbeat, hscreen.heartbeat, fun _ => rfl⟩

theorem Shows.outputs {os : List Output} (h : Shows s finished current)
    (hscreen : Displays s (finished ++ [current])) (hc : ∀ c ∈ printed os, c < 128) :
    ∃ finished' current', Shows (os.foldl Terminal.output s) finished' current' ∧
      Displays (os.foldl Terminal.output s) (finished' ++ [current']) ∧
      ∀ rest, finished' ++ rowsFrom current' rest =
        finished ++ rowsFrom current (printed os ++ rest) := by
  induction os generalizing s finished current with
  | nil => exact ⟨finished, current, h, hscreen, fun _ => rfl⟩
  | cons o os ih =>
    have htext : printed (o :: os) = o.text ++ printed os := List.flatMap_cons
    rw [htext] at hc ⊢
    obtain ⟨finished₁, current₁, h₁, hscreen₁, hrows₁⟩ :=
      h.output hscreen fun c hc' => hc c (List.mem_append_left _ hc')
    obtain ⟨finished₂, current₂, h₂, hscreen₂, hrows₂⟩ :=
      ih h₁ hscreen₁ fun c hc' => hc c (List.mem_append_right _ hc')
    refine ⟨finished₂, current₂, h₂, hscreen₂, fun rest => ?_⟩
    rw [hrows₂, hrows₁, List.append_assoc]

theorem exists_shows_of_vgaClear (s : Terminal) :
    ∃ u, vgaClear s = Terminal.vgaRefresh u ∧ Shows u [] [] := by
  refine ⟨_, rfl, ⟨rfl, rfl, ?_⟩, rfl, rfl, by decide⟩
  intro i j hi hj
  dsimp only
  rw [if_pos ⟨hi, hj⟩, cellAt_lastRows]
  cases i <;> rfl

/-- After every sequence of calls that print 7-bit characters on a cleared screen, the scrollback
is the last 100 rows of what was printed, and the screen shows the last 25 of them. -/
theorem console_shows_rows (s : Terminal) (os : List Output) (hc : ∀ c ∈ printed os, c < 128) :
    let t := os.foldl output (vgaClear s)
    let all := rows (printed os)
    t.terminalTotalLines = (lastRows scrollbackSize all).length ∧
      (∀ i j, i < t.terminalTotalLines → j < vgaCols →
        t.terminalHistory i j = cellAt (lastRows scrollbackSize all) i j) ∧
      t.cursorCol = (all.getLastD []).length ∧
      ∀ r c, r < vgaRows → c < vgaCols → r * vgaCols + c ≠ heartbeatCell →
        t.vgaBuffer (r * vgaCols + c) = cellAt (lastRows vgaRows all) r c := by
  obtain ⟨u, hclear, hu⟩ := exists_shows_of_vgaClear s
  obtain ⟨finished, current, h, hdisplays, hrows⟩ := hu.vgaRefresh.outputs hu.holds.displays hc
  have hall : rows (printed os) = finished ++ [current] := by
    have := hrows []
    rw [List.append_nil] at this
    exact this.symm
  dsimp only
  rw [hall, hclear]
  refine ⟨?_, ?_, ?_, hdisplays⟩
  · rw [h.holds.lines, length_lastRows]
  · intro i j hi hj
    have hlines := h.holds.lines
    exact h.holds.cells i j (by omega) hj
  · rw [h.col]
    simp

/-- `"hi\n"`, a heartbeat and `x`: two rows, with `x` in the first cell of the second. -/
theorem console_shows_rows_two :
    let os : List Output := [.puts [104, 105, 10], .heartbeat, .putchar 120]
    let t := os.foldl output (vgaClear (bootTerminal fun _ => 0))
    (∀ c ∈ printed os, c < 128) ∧ rows (printed os) = [[104, 105], [120]] ∧
      t.terminalTotalLines = 2 ∧ t.terminalHistory 1 0 = 0x0778 ∧ t.vgaBuffer 80 = 0x0778 := by
  have hc : ∀ c ∈ printed [.puts [104, 105, 10], .heartbeat, .putchar 120], c < 128 := by
    simp [printed, Output.text, cString]
  obtain ⟨hlines, hcells, -, hscreen⟩ := console_shows_rows (bootTerminal fun _ => 0) _ hc
  refine ⟨hc, by decide, hlines, ?_, ?_⟩
  · exact hcells 1 0 (by rw [hlines]; decide) (by decide)
  · exact hscreen 1 0 (by decide) (by decide) (by decide)

end Terminal

end OpenKernel.Console
