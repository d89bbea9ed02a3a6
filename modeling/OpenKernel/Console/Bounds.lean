import Mathlib.Data.List.TakeWhile
import OpenKernel.Console.Rows

/-!
# The bounds of the console

Every writer of the console keeps the line count, the column of the cursor and the
scroll offset in their ranges, except the prompt: it puts the cursor as many
columns behind the prefix as characters stand before the cursor of the command,
also when the row has no such column. The next character printed is then
written outside its row.
-/

namespace OpenKernel.Console.Terminal

structure Bounded (s : Terminal) : Prop where
  lines_pos : 1 ≤ s.terminalTotalLines
  lines_le : s.terminalTotalLines ≤ scrollbackSize
  col : s.cursorCol < vgaCols
  offset_nonneg : 0 ≤ s.scrollViewOffset
  offset_le : s.scrollViewOffset ≤ max 0 ((s.terminalTotalLines : ℤ) - vgaRows)

/-- The next character printed changes no cell outside the rows of the scrollback. -/
def PrintsInside (s : Terminal) : Prop :=
  ∀ c i j, scrollbackSize ≤ i ∨ vgaCols ≤ j →
    (vgaPutcharWithScrollback s c).terminalHistory i j = s.terminalHistory i j

/-- Everything that writes to the console. -/
inductive Operation
  | clear
  | putchar (c : UInt8)
  | puts (str : List UInt8)
  | printk (buffer : List UInt8)
  | scroll (delta : ℤ)
  | loadingStart (label : List UInt8)
  | loadingTick
  | loadingSetProgress (percent : ℤ)
  | loadingDone
  | reservePromptLine
  | prompt (editPath : Option (List UInt8)) (cmd : List UInt8) (cmdCursor : ℕ)

def operate (s : Terminal) : Operation → Terminal
  | .clear => s.vgaClear
  | .putchar c => s.putchar c
  | .puts str => s.puts str
  | .printk buffer => s.printk buffer
  | .scroll delta => s.vgaScroll delta
  | .loadingStart label => s.loadingStatusStart label
  | .loadingTick => s.loadingStatusTick
  | .loadingSetProgress percent => s.loadingStatusSetProgress percent
  | .loadingDone => s.loadingStatusDone
  | .reservePromptLine => s.vgaReservePromptLine
  | .prompt editPath cmd cmdCursor => s.showTextPrompt editPath cmd cmdCursor

namespace Operation

/-- The command has at most 127 characters, and its cursor is a position in it. -/
def Allowed : Operation → Prop
  | .prompt _ cmd cmdCursor => cmd.length ≤ 127 ∧ cmdCursor ≤ cmd.length
  | _ => True

def getPromptPrefixLen : Option (List UInt8) → ℕ
  | none => 2
  | some path => 5 + (cString path).length + 2

/-- The cursor of the command has a column on the row of the prompt. -/
def InRow : Operation → Prop
  | .prompt editPath _ cmdCursor => getPromptPrefixLen editPath + cmdCursor < vgaCols
  | _ => True

instance (op : Operation) : Decidable op.Allowed :=
  match op with
  | .prompt _ cmd cmdCursor =>
    inferInstanceAs (Decidable (cmd.length ≤ 127 ∧ cmdCursor ≤ cmd.length))
  | .clear | .putchar _ | .puts _ | .printk _ | .scroll _ | .loadingStart _ | .loadingTick
  | .loadingSetProgress _ | .loadingDone | .reservePromptLine => .isTrue trivial

instance (op : Operation) : Decidable op.InRow :=
  match op with
  | .prompt editPath _ cmdCursor =>
    inferInstanceAs (Decidable (getPromptPrefixLen editPath + cmdCursor < vgaCols))
  | .clear | .putchar _ | .puts _ | .printk _ | .scroll _ | .loadingStart _ | .loadingTick
  | .loadingSetProgress _ | .loadingDone | .reservePromptLine => .isTrue trivial

end Operation

/-! ### One operation -/

variable {s : Terminal}

namespace Bounded

theorem of_counters {t : Terminal} (h : Bounded s)
    (hlines : t.terminalTotalLines = s.terminalTotalLines)
    (hoffset : t.scrollViewOffset = s.scrollViewOffset) (hcol : t.cursorCol < vgaCols) :
    Bounded t := by
  obtain ⟨hpos, hle, -, hnonneg, hmax⟩ := h
  rw [← hlines] at hpos hle hmax
  rw [← hoffset] at hnonneg hmax
  exact ⟨hpos, hle, hcol, hnonneg, hmax⟩

theorem vgaRefresh (h : Bounded s) : Bounded (vgaRefresh s) := h.of_counters rfl rfl h.col

theorem of_reset {t : Terminal} (hpos : 1 ≤ t.terminalTotalLines)
    (hle : t.terminalTotalLines ≤ scrollbackSize) (hoffset : t.scrollViewOffset = 0)
    (hcol : t.cursorCol = 0) : Bounded t := by
  refine ⟨hpos, hle, ?_, by omega, by omega⟩
  rw [hcol]
  decide

theorem addRow (h : Bounded s) : Bounded (addRow s) := by
  obtain ⟨hpos, hle, hcol, hnonneg, hmax⟩ := h
  unfold Terminal.addRow
  split_ifs with hfull
  · refine ⟨?_, ?_, hcol, hnonneg, ?_⟩ <;> dsimp only <;> omega
  · refine ⟨?_, ?_, hcol, hnonneg, ?_⟩ <;> dsimp only <;> omega

theorem breakLine (h : Bounded s) : Bounded (breakLine s) := by
  unfold Terminal.breakLine
  split_ifs
  · apply vgaRefresh
    exact h.addRow.of_counters rfl rfl h.addRow.col
  · exact h

theorem placeChar (h : Bounded s) (c : UInt8) : Bounded (placeChar s c) := by
  have hzero : 0 < vgaCols := by decide
  unfold Terminal.placeChar
  dsimp only
  split_ifs with hnl hedge
  · exact h.of_counters rfl rfl hzero
  · exact h.of_counters rfl rfl hzero
  · exact h.of_counters rfl rfl (Nat.lt_of_not_le hedge)

theorem putChar (h : Bounded s) (c : UInt8) : Bounded (vgaPutcharWithScrollback s c) :=
  (h.placeChar c).breakLine

theorem print (h : Bounded s) (text : List UInt8) :
    Bounded (text.foldl vgaPutcharWithScrollback s) := by
  induction text generalizing s with
  | nil => exact h
  | cons c text ih => exact ih (h.putChar c)

theorem vgaClear (s : Terminal) : Bounded (vgaClear s) := by
  have hle : 1 ≤ scrollbackSize := by decide
  apply vgaRefresh
  exact of_reset (Nat.le_refl 1) hle rfl rfl

theorem vgaScroll (h : Bounded s) (delta : ℤ) : Bounded (vgaScroll s delta) := by
  apply vgaRefresh
  refine ⟨h.lines_pos, h.lines_le, h.col, ?_, ?_⟩
  · dsimp only
    split_ifs <;> omega
  · dsimp only
    split_ifs <;> omega

theorem vgaReservePromptLine (s : Terminal) : Bounded (vgaReservePromptLine s) := by
  have hle : 1 ≤ scrollbackSize := by decide
  unfold Terminal.vgaReservePromptLine
  apply vgaRefresh
  by_cases hfull : s.terminalTotalLines ≥ scrollbackSize
  · rw [if_pos hfull]
    exact of_reset hle (Nat.le_refl _) rfl rfl
  · rw [if_neg hfull]
    exact of_reset (Nat.le_add_left 1 _) (Nat.lt_of_not_le hfull) rfl rfl

theorem length_cString_le (text : List UInt8) : (cString text).length ≤ text.length :=
  (List.takeWhile_prefix _).length_le

theorem vgaReplaceLineText (h : Bounded s) (line : ℤ) {text : List UInt8}
    (htext : text.length < vgaCols) : Bounded (vgaReplaceLineText s line text) := by
  have hle := length_cString_le text
  unfold Terminal.vgaReplaceLineText
  split_ifs
  · exact h
  · apply vgaRefresh
    refine h.of_counters rfl rfl ?_
    dsimp only
    rw [List.length_take]
    unfold vgaCols at *
    omega

theorem length_loadingLine (status : LoadingStatus) : (loadingLine status).length < vgaCols := by
  have hdots : (status.frame % 3 + 1).toNat ≤ 3 := by
    have hmod : status.frame.toNat % 3 < 3 := Nat.mod_lt _ (by decide)
    have hsum : (status.frame % 3 + 1).toNat = (status.frame.toNat % 3 + 1) % 2 ^ 32 := by simp
    omega
  unfold loadingLine vgaCols
  simp only [List.length_append, List.length_cons, List.length_nil, List.length_replicate,
    List.length_map, List.length_range, List.length_take]
  omega

theorem renderLoadingStatus (h : Bounded s) : Bounded (renderLoadingStatus s) := by
  unfold Terminal.renderLoadingStatus
  split_ifs
  · exact h
  · exact h.vgaReplaceLineText _ (length_loadingLine _)

theorem loadingStatusDone (h : Bounded s) : Bounded (loadingStatusDone s) := by
  unfold Terminal.loadingStatusDone
  split_ifs
  · apply vgaReplaceLineText
    · exact h.of_counters rfl rfl h.col
    · unfold vgaCols
      simp only [List.length_append, List.length_cons, List.length_nil, List.length_take]
      omega
  · exact h

/-! ### The prompt -/

theorem cString_eq_self {text : List UInt8} (h : ∀ c ∈ text, c ≠ 0) : cString text = text := by
  unfold cString
  rw [List.takeWhile_eq_self_iff]
  simpa using h

theorem ne_zero_of_mem_cString {text : List UInt8} {c : UInt8} (h : c ∈ cString text) :
    c ≠ 0 := by
  simpa using List.mem_takeWhile_imp h

theorem ne_zero_of_mem_promptPrefix {editPath : Option (List UInt8)} {c : UInt8}
    (h : c ∈ promptPrefix editPath) : c ≠ 0 := by
  cases editPath with
  | none =>
    have hall : ∀ c ∈ promptPrefix none, c ≠ 0 := by simp [promptPrefix]
    exact hall c h
  | some path =>
    have hedit : ∀ c ∈ ([101, 100, 105, 116, 58] : List UInt8), c ≠ 0 := by simp
    have htext : ∀ c ∈ ([101, 100, 105, 116, 58] ++ cString path).take (prefixSize - 1), c ≠ 0 := by
      intro c hc
      rcases List.mem_append.mp (List.mem_of_mem_take hc) with hc | hc
      · exact hedit c hc
      · exact ne_zero_of_mem_cString hc
    unfold promptPrefix at h
    dsimp only at h
    rcases List.mem_append.mp h with h | h
    · split_ifs at h
      · rcases List.mem_append.mp h with h | h
        · exact htext c h
        · rw [List.mem_singleton.mp h]
          decide
      · exact htext c h
    · rw [List.mem_singleton.mp h]
      decide

theorem length_take_promptPrefix (editPath : Option (List UInt8)) :
    ((cString (promptPrefix editPath)).take vgaCols).length =
      min (Operation.getPromptPrefixLen editPath) vgaCols := by
  rw [cString_eq_self fun c => ne_zero_of_mem_promptPrefix, List.length_take]
  cases editPath with
  | none => rfl
  | some path =>
    unfold promptPrefix Operation.getPromptPrefixLen prefixSize vgaCols
    dsimp only
    split_ifs with hroom
    · simp only [List.length_append, List.length_take, List.length_cons, List.length_nil] at *
      omega
    · simp only [List.length_append, List.length_take, List.length_cons, List.length_nil] at *
      omega

theorem cursorCol_showTextPrompt (hlines : 1 ≤ s.terminalTotalLines)
    (editPath : Option (List UInt8)) (cmd : List UInt8) (cmdCursor : ℕ) :
    (showTextPrompt s editPath cmd cmdCursor).cursorCol =
      (min (Operation.getPromptPrefixLen editPath) vgaCols + cmdCursor) % 256 := by
  have hstart := length_take_promptPrefix editPath
  unfold showTextPrompt vgaReplaceCurrentInputLine
  rw [if_neg (by omega), ← hstart]
  simp [Terminal.vgaRefresh]

/-- Every operation but a prompt whose cursor has no column keeps the bounds. -/
theorem operate (h : Bounded s) {op : Operation} (hrow : op.InRow) : Bounded (operate s op) := by
  cases op with
  | clear => exact vgaClear s
  | putchar c => exact (h.putChar c).vgaRefresh
  | puts str => exact (h.print _).vgaRefresh
  | printk buffer => exact (h.print _).vgaRefresh
  | scroll delta => exact h.vgaScroll delta
  | loadingStart label =>
    apply renderLoadingStatus
    exact h.of_counters rfl rfl h.col
  | loadingTick =>
    unfold Terminal.operate loadingStatusTick
    split_ifs
    · apply renderLoadingStatus
      exact h.of_counters rfl rfl h.col
    · exact h
  | loadingSetProgress percent =>
    unfold Terminal.operate loadingStatusSetProgress
    split_ifs
    · apply renderLoadingStatus
      exact h.of_counters rfl rfl h.col
    · exact h
  | loadingDone => exact h.loadingStatusDone
  | reservePromptLine => exact vgaReservePromptLine s
  | prompt editPath cmd cmdCursor =>
    have hcol := cursorCol_showTextPrompt h.lines_pos editPath cmd cmdCursor
    have hlt : Operation.getPromptPrefixLen editPath + cmdCursor < vgaCols := hrow
    refine h.of_counters ?_ ?_ ?_
    · unfold Terminal.operate showTextPrompt vgaReplaceCurrentInputLine
      split_ifs <;> rfl
    · unfold Terminal.operate showTextPrompt vgaReplaceCurrentInputLine
      split_ifs <;> rfl
    · change (showTextPrompt s editPath cmd cmdCursor).cursorCol < vgaCols
      rw [hcol]
      unfold vgaCols at *
      omega

theorem inRow (h : Bounded s) {op : Operation} (hallowed : op.Allowed)
    (hnext : Bounded (Terminal.operate s op)) : op.InRow := by
  cases op with
  | prompt editPath cmd cmdCursor =>
    have hcol := cursorCol_showTextPrompt h.lines_pos editPath cmd cmdCursor
    have hlt : (showTextPrompt s editPath cmd cmdCursor).cursorCol < vgaCols := hnext.col
    obtain ⟨hlen, hcursor⟩ : cmd.length ≤ 127 ∧ cmdCursor ≤ cmd.length := hallowed
    change Operation.getPromptPrefixLen editPath + cmdCursor < vgaCols
    rw [hcol] at hlt
    unfold vgaCols at *
    omega
  | _ => trivial

theorem printsInside (h : Bounded s) : PrintsInside s := by
  intro c i j hout
  have hlines := h.lines_pos
  have hle := h.lines_le
  have hcol := h.col
  have hplace : (Terminal.placeChar s c).terminalHistory i j = s.terminalHistory i j := by
    have hwrite : ∀ v, writeCell s.terminalHistory (s.terminalTotalLines - 1) s.cursorCol v i j =
        s.terminalHistory i j := by
      intro v
      unfold writeCell
      by_cases hi : i = s.terminalTotalLines - 1
      · rw [← hi, Function.update_self, Function.update_of_ne (by omega)]
      · rw [Function.update_of_ne hi]
    unfold Terminal.placeChar
    dsimp only
    split_ifs
    · rfl
    · exact hwrite _
    · exact hwrite _
  have hshift : ∀ t : Terminal, (Terminal.addRow t).terminalHistory i j = t.terminalHistory i j := by
    intro t
    unfold Terminal.addRow
    split_ifs
    · dsimp only
      unfold shiftHistory
      split_ifs <;> first | rfl | omega
    · rfl
  rw [← hplace]
  unfold vgaPutcharWithScrollback Terminal.breakLine
  split_ifs
  · exact hshift _
  · rfl

end Bounded

/-! ### Sequences of operations -/

theorem bounded_bootTerminal (vgaBuffer : ℕ → UInt16) : Bounded (bootTerminal vgaBuffer) := by
  have hle : 1 ≤ scrollbackSize := by decide
  exact Bounded.of_reset (Nat.le_refl 1) hle rfl rfl

theorem Bounded.foldl {ops : List Operation} (h : Bounded s)
    (hops : ∀ op ∈ ops, op.InRow) : Bounded (ops.foldl Terminal.operate s) := by
  induction ops generalizing s with
  | nil => exact h
  | cons op ops ih =>
    exact ih (h.operate (hops op (by simp))) fun op' hop' => hops op' (by simp [hop'])

/-- In every sequence of operations the bounds hold after each of them, and the next character
printed stays inside its row, exactly when each prompt has a column for its cursor. -/
theorem bounded_iff (vgaBuffer : ℕ → UInt16) (ops : List Operation)
    (hallowed : ∀ op ∈ ops, op.Allowed) :
    (∀ done, done <+: ops → Bounded (done.foldl operate (bootTerminal vgaBuffer)) ∧
        PrintsInside (done.foldl operate (bootTerminal vgaBuffer))) ↔
      ∀ op ∈ ops, op.InRow := by
  constructor
  · intro h op hop
    obtain ⟨before, after, rfl⟩ := List.append_of_mem hop
    have hbefore := (h before (List.prefix_append _ _)).1
    have hnext := (h (before ++ [op]) ⟨after, by simp⟩).1
    rw [List.foldl_append] at hnext
    exact hbefore.inRow (hallowed op hop) hnext
  · intro h done hdone
    have hbounded : Bounded (done.foldl operate (bootTerminal vgaBuffer)) :=
      (bounded_bootTerminal vgaBuffer).foldl fun op hop => h op (hdone.subset hop)
    exact ⟨hbounded, hbounded.printsInside⟩

/-- With the cursor behind the 77th character of a command it stands in the last column. -/
theorem bounded_iff_last_column :
    ∃ t, t = [.clear, .prompt none (List.replicate 77 97) 77].foldl operate
        (bootTerminal fun _ => 0) ∧
      t.cursorCol = 79 ∧ Bounded t ∧ PrintsInside t := by
  have hallowed : ∀ op ∈ [Operation.clear, .prompt none (List.replicate 77 97) 77],
      op.Allowed := by decide
  have hrow : ∀ op ∈ [Operation.clear, .prompt none (List.replicate 77 97) 77], op.InRow := by
    decide
  exact ⟨_, rfl, by decide, (bounded_iff (fun _ => 0) _ hallowed).mpr hrow _ List.prefix_rfl⟩

/-- With the cursor behind the 78th character of a command the next character printed is written
behind the row of the prompt. -/
theorem cursor_leaves_row :
    ∃ t, t = [.clear, .prompt none (List.replicate 78 97) 78].foldl operate
        (bootTerminal fun _ => 0) ∧
      Operation.Allowed (.prompt none (List.replicate 78 97) 78) ∧
      t.cursorCol = 80 ∧ ¬ Bounded t ∧
      (vgaPutcharWithScrollback t 97).terminalHistory 0 80 ≠ t.terminalHistory 0 80 := by
  obtain ⟨t, ht, hcol, hcell⟩ : ∃ t, t = [.clear, .prompt none (List.replicate 78 97) 78].foldl
      operate (bootTerminal fun _ => 0) ∧ t.cursorCol = 80 ∧
      (vgaPutcharWithScrollback t 97).terminalHistory 0 80 ≠ t.terminalHistory 0 80 :=
    ⟨_, rfl, by decide, by decide⟩
  refine ⟨t, ht, by decide, hcol, ?_, hcell⟩
  intro h
  have hlt := h.col
  rw [hcol] at hlt
  revert hlt
  decide

end OpenKernel.Console.Terminal
