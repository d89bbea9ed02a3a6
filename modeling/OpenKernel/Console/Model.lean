import Mathlib.Logic.Function.Basic
import Mathlib.Data.Int.Notation
import Mathlib.Data.Nat.Notation

/-!
# The text console

The console of `kernel.c`: the scrollback `terminal_history`, the cursor, the window
shown in the VGA buffer, and everything that writes to them, which is the
printing of characters, scrolling, the loading status, and the prompt. The
ports of the hardware cursor are left out. `printk` is modelled from the moment
its buffer holds the formatted text.
-/

namespace OpenKernel.Console

def vgaRows : ℕ := 25

def vgaCols : ℕ := 80

def vgaAttr : UInt16 := 0x07

def scrollbackSize : ℕ := 100

/-- `c | (attr << 8)`, where `char` is signed. -/
def cell (attr : UInt16) (c : UInt8) : UInt16 := c.toInt8.toInt16.toUInt16 ||| (attr <<< 8)

/-- `' ' | (VGA_ATTR << 8)`. -/
def blank : UInt16 := cell vgaAttr 32

/-- The bytes of a string up to its terminator. -/
def cString (str : List UInt8) : List UInt8 := str.takeWhile (· ≠ 0)

structure LoadingStatus where
  active : Bool
  line : ℤ
  frame : UInt32
  label : List UInt8
  progress : ℕ

/-- The statics of `kernel.c` that the console uses, and the VGA buffer. -/
structure Terminal where
  terminalHistory : ℕ → ℕ → UInt16
  terminalTotalLines : ℕ
  scrollViewOffset : ℤ
  cursorRow : ℕ
  cursorCol : ℕ
  vgaBuffer : ℕ → UInt16
  loading : LoadingStatus

/-- The statics before anything runs, with any contents of the VGA buffer. -/
def bootTerminal (vgaBuffer : ℕ → UInt16) : Terminal where
  terminalHistory _ _ := 0
  terminalTotalLines := 1
  scrollViewOffset := 0
  cursorRow := 0
  cursorCol := 0
  vgaBuffer := vgaBuffer
  loading := ⟨false, -1, 0, [], 0⟩

namespace Terminal

/-- The first row shown. -/
def startRow (s : Terminal) : ℕ :=
  ((s.terminalTotalLines : ℤ) - vgaRows - s.scrollViewOffset).toNat

def vgaRefresh (s : Terminal) : Terminal :=
  { s with vgaBuffer := fun i =>
      if i < vgaRows * vgaCols then
        if s.startRow + i / vgaCols < s.terminalTotalLines then
          s.terminalHistory (s.startRow + i / vgaCols) (i % vgaCols)
        else blank
      else s.vgaBuffer i }

def vgaScroll (s : Terminal) (delta : ℤ) : Terminal :=
  let offset := s.scrollViewOffset + delta
  let offset := if offset < 0 then 0 else offset
  let maxOffset := (s.terminalTotalLines : ℤ) - vgaRows
  let maxOffset := if maxOffset < 0 then 0 else maxOffset
  let offset := if offset > maxOffset then maxOffset else offset
  vgaRefresh { s with scrollViewOffset := offset }

def vgaClear (s : Terminal) : Terminal :=
  vgaRefresh { s with
    terminalHistory := fun i j =>
      if i < scrollbackSize ∧ j < vgaCols then blank else s.terminalHistory i j
    terminalTotalLines := 1
    scrollViewOffset := 0
    cursorRow := 0
    cursorCol := 0 }

/-! ### Printing -/

/-- The two loops that drop the oldest row and clear the newest. -/
def shiftHistory (history : ℕ → ℕ → UInt16) : ℕ → ℕ → UInt16 := fun i j =>
  if j < vgaCols then
    if i < scrollbackSize - 1 then history (i + 1) j
    else if i = scrollbackSize - 1 then blank
    else history i j
  else history i j

/-- `terminal_history[i][j] = v`. -/
def writeCell (history : ℕ → ℕ → UInt16) (i j : ℕ) (v : UInt16) : ℕ → ℕ → UInt16 :=
  Function.update history i (Function.update (history i) j v)

/-- The first half of `vga_putchar_with_scrollback`: the cell and the cursor. -/
def placeChar (s : Terminal) (c : UInt8) : Terminal :=
  if c = 10 then { s with cursorCol := 0, cursorRow := (s.cursorRow + 1) % 256 }
  else
    let history := writeCell s.terminalHistory (s.terminalTotalLines - 1) s.cursorCol
      (cell vgaAttr c)
    let col := (s.cursorCol + 1) % 256
    if col ≥ vgaCols then
      { s with
        terminalHistory := history
        cursorCol := 0
        cursorRow := (s.cursorRow + 1) % 256 }
    else { s with terminalHistory := history, cursorCol := col }

/-- The row that a newline or a wrap starts. -/
def addRow (s : Terminal) : Terminal :=
  if s.terminalTotalLines + 1 > scrollbackSize then
    { s with
      terminalHistory := shiftHistory s.terminalHistory
      terminalTotalLines := scrollbackSize }
  else { s with terminalTotalLines := s.terminalTotalLines + 1 }

/-- The second half: the screen is refreshed at a line break only. -/
def breakLine (s : Terminal) : Terminal :=
  if s.cursorRow > 0 then vgaRefresh { addRow s with cursorRow := 0 } else s

def vgaPutcharWithScrollback (s : Terminal) (c : UInt8) : Terminal := breakLine (placeChar s c)

def putchar (s : Terminal) (c : UInt8) : Terminal := vgaRefresh (vgaPutcharWithScrollback s c)

def puts (s : Terminal) (str : List UInt8) : Terminal :=
  vgaRefresh ((cString str).foldl vgaPutcharWithScrollback s)

/-- `printk` with the formatted text in its buffer. -/
def printk (s : Terminal) (buffer : List UInt8) : Terminal :=
  vgaRefresh ((cString buffer).foldl vgaPutcharWithScrollback s)

/-- The cell that `irq_handler` toggles. -/
def heartbeatCell : ℕ := 79

def heartbeat (s : Terminal) : Terminal :=
  let v := s.vgaBuffer heartbeatCell
  -- `'*'` and `'.'`
  let mark := if v &&& 0xFF = 42 then 46 else 42
  { s with vgaBuffer := Function.update s.vgaBuffer heartbeatCell (v &&& 0xFF00 ||| mark) }

/-! ### The loading status -/

/-- The row `line` with the given cells, and blanks behind them. -/
def writeLine (history : ℕ → ℕ → UInt16) (line : ℕ) (cells : List UInt16) : ℕ → ℕ → UInt16 :=
  fun i j => if i = line ∧ j < vgaCols then cells.getD j blank else history i j

def vgaReplaceLineText (s : Terminal) (line : ℤ) (text : List UInt8) : Terminal :=
  if line < 0 ∨ line ≥ scrollbackSize then s
  else
    let shown := (cString text).take vgaCols
    vgaRefresh { s with
      terminalHistory := writeLine s.terminalHistory line.toNat (shown.map (cell vgaAttr))
      cursorCol := shown.length % 256 }

/-- `'0' + n % 10`. -/
def digit (n : ℕ) : UInt8 := 48 + UInt8.ofNat (n % 10)

/-- The text that `render_loading_status` puts together in `line`. -/
def loadingLine (status : LoadingStatus) : List UInt8 :=
  let dotCount := (status.frame % 3 + 1).toNat
  let barFilled := status.progress * 10 / 100
  -- `"[...] "`
  let line := [91] ++ List.replicate dotCount 46 ++ List.replicate (3 - dotCount) 32 ++ [93, 32]
  -- `"[##........] "`
  let line := line ++ [91] ++ (List.range 10).map (fun i => if i < barFilled then 35 else 46) ++
    [93, 32]
  -- `" 020% "`
  let line := line ++ [32, digit (status.progress / 100), digit (status.progress / 10),
    digit status.progress, 37, 32]
  line ++ status.label.take (79 - line.length)

def renderLoadingStatus (s : Terminal) : Terminal :=
  if ¬ s.loading.active ∨ s.loading.line < 0 then s
  else s.vgaReplaceLineText s.loading.line (loadingLine s.loading)

/-- `sizeof(loading_status_label)`. -/
def labelSize : ℕ := 48

def loadingStatusStart (s : Terminal) (label : List UInt8) : Terminal :=
  renderLoadingStatus { s with loading := { s.loading with
    active := true
    line := (s.terminalTotalLines : ℤ) - 1
    frame := 0
    label := (cString label).take (labelSize - 1) } }

def loadingStatusTick (s : Terminal) : Terminal :=
  if ¬ s.loading.active then s
  else renderLoadingStatus { s with loading := { s.loading with frame := s.loading.frame + 1 } }

def loadingStatusSetProgress (s : Terminal) (percent : ℤ) : Terminal :=
  if ¬ s.loading.active then s
  else
    let percent := if percent < 0 then 0 else percent
    let percent := if percent > 100 then 100 else percent
    renderLoadingStatus { s with loading := { s.loading with progress := percent.toNat } }

def loadingStatusDone (s : Terminal) : Terminal :=
  if ¬ s.loading.active then s
  else
    let s := { s with loading := { s.loading with active := false } }
    -- `"[OK] "`
    let okLine := [91, 79, 75, 93, 32]
    s.vgaReplaceLineText s.loading.line (okLine ++ s.loading.label.take (79 - okLine.length))

/-! ### The prompt -/

def vgaReservePromptLine (s : Terminal) : Terminal :=
  let s :=
    if s.terminalTotalLines ≥ scrollbackSize then
      { s with
        terminalHistory := fun i j =>
          if i < scrollbackSize - 1 ∧ j < vgaCols then s.terminalHistory (i + 1) j
          else s.terminalHistory i j
        terminalTotalLines := scrollbackSize }
    else { s with terminalTotalLines := s.terminalTotalLines + 1 }
  vgaRefresh { s with
    terminalHistory := writeLine s.terminalHistory (s.terminalTotalLines - 1) []
    cursorCol := 0
    cursorRow := 0
    scrollViewOffset := 0 }

/-- Black on white, for the character at the cursor. -/
def inverseAttr : UInt16 := 0x70

def vgaReplaceCurrentInputLine (s : Terminal) (prompt input : List UInt8) (cursorPos : ℕ) :
    Terminal :=
  if s.terminalTotalLines = 0 then s
  else
    let promptCells := ((cString prompt).take vgaCols).map (cell vgaAttr)
    let inputStart := promptCells.length
    let inputCells := (cString input).mapIdx fun i c =>
      if i = cursorPos then cell inverseAttr c else cell vgaAttr c
    let cells := (promptCells ++ inputCells).take vgaCols
    let cells :=
      if cursorPos ≥ (cString input).length ∧ cells.length < vgaCols then
        -- `'_'`
        cells ++ [cell inverseAttr 95]
      else cells
    vgaRefresh { s with
      cursorRow := 0
      terminalHistory := writeLine s.terminalHistory (s.terminalTotalLines - 1) cells
      cursorCol := (inputStart + cursorPos) % 256 }

/-- `sizeof(prefix)`, with `FS_MAX_PATH` as 256. -/
def prefixSize : ℕ := 264

/-- The prompt: `"> "`, or in an edit session `"edit:"`, the path and `"> "`. -/
def promptPrefix : Option (List UInt8) → List UInt8
  | none => [62, 32]
  | some path =>
    let text := ([101, 100, 105, 116, 58] ++ cString path).take (prefixSize - 1)
    let text := if text.length < prefixSize - 2 then text ++ [62] else text
    text ++ [32]

/-- `show_text_prompt`, with the path of the edit session if there is one. -/
def showTextPrompt (s : Terminal) (editPath : Option (List UInt8)) (cmd : List UInt8)
    (cmdCursor : ℕ) : Terminal :=
  s.vgaReplaceCurrentInputLine (promptPrefix editPath) cmd cmdCursor

end Terminal

end OpenKernel.Console
