import OpenKernel.Input.CommandLine
import OpenKernel.FileSystem.LineEditing
import OpenKernel.Lib.TextCursor
import OpenKernel.Shell.Commands

/-!
# The keys of the shell

What the main loop of `kernel.c` does with a key: in text mode, on the test screen of the graphics
mode, and on the console drawn there. The two command buffers are edited in place,
byte by byte; what they hold is a text with a cursor all the same. Enter runs the command
and leaves the buffer empty, or with the line that the editor has loaded. In an edit session a key
that no longer fits into the row of the prompt first submits a part of the buffer. Drawing is
left out.
-/

namespace OpenKernel.Shell

open FileSystem
open Input (CommandBuffer KeyEvent cmdCapacity printable applyEvent)

/-! ### The buffers -/

/-- `sizeof(pseudo_cmd) - 1`. -/
def pseudoCapacity : ℕ := 63

section Buffers

variable (b : CommandBuffer)

/-- The characters in the buffer. -/
def bytes : Bytes := (List.range b.cmdLen).map b.cmd

/-- What a function that is given the buffer reads of it. -/
def command : Bytes := (bytes b).takeWhile (· ≠ 0)

/-- A key that edits the command, in a buffer with room for `capacity` characters. -/
def editKey (capacity : ℕ) : KeyEvent → CommandBuffer
  | .backspace => b.backspace
  | .character ch => if printable ch then b.insert capacity (ch.getD 0) else b
  | .navigate n => b.navigate n

/-- `cmd[cmd_len] = '\0'`. -/
def terminated : CommandBuffer := { b with cmd := Function.update b.cmd b.cmdLen 0 }

def reset : CommandBuffer := ⟨Function.update b.cmd 0 0, 0, 0⟩

/-- The loop that copies a line into the buffer. -/
def load (line : Bytes) : CommandBuffer :=
  ⟨Function.update (fun i => line.getD i (b.cmd i)) line.length 0, line.length, line.length⟩

end Buffers

/-! ### Lines that are too long for the prompt -/

def vgaCols : ℕ := 80

def getPromptPrefixLen (fs : Okfs) : ℕ :=
  if fs.editActive then 5 + fs.editPath.length + 2 else 2

/-- The columns behind the prompt, at least one. -/
def avail (fs : Okfs) : ℕ :=
  if vgaCols ≤ getPromptPrefixLen fs then 1 else vgaCols - getPromptPrefixLen fs

/-- The search for a space from position `i - 1` down. -/
def lastSpace (cmd : ℕ → UInt8) : ℕ → Option ℕ
  | 0 => none
  | i + 1 => if cmd i = space then some i else lastSpace cmd i

def breakPos (cmd : ℕ → UInt8) (avail : ℕ) : ℕ :=
  match lastSpace cmd avail with
  | none => avail - 1
  | some i => if i = 0 then avail - 1 else i

/-- `cmd[i] = cmd[break_pos + 1 + i]`, with the number of rounds left. -/
def copyDown (off : ℕ) : ℕ → ℕ → (ℕ → UInt8) → ℕ → UInt8
  | 0, _, cmd => cmd
  | rounds + 1, i, cmd => copyDown off rounds (i + 1) (Function.update cmd i (cmd (off + i)))

/-- The buffer after `pos` has become the end of a line, with `ch` behind what is left. -/
def wrapped (b : CommandBuffer) (pos : ℕ) (ch : UInt8) : CommandBuffer :=
  let cmd := Function.update b.cmd pos 0
  let savedLen := b.cmdLen - pos - 1
  let cmd := copyDown (pos + 1) (min savedLen 126) 0 cmd
  let cmd := Function.update (Function.update cmd savedLen ch) (savedLen + 1) 0
  ⟨cmd, savedLen + 1, savedLen + 1⟩

/-- The line in front of `pos`, as it is submitted. -/
def submittedLine (b : CommandBuffer) (pos : ℕ) : Bytes :=
  ((List.range pos).map b.cmd).takeWhile (· ≠ 0)

/-! ### The shell -/

/-- Text mode, the test screen, and the console drawn in graphics mode. -/
inductive Mode
  | text
  | graphics
  | pseudo
  deriving DecidableEq, Repr

/-- The file system, and the statics of `kernel.c` that belong to the command line. -/
structure ShellState where
  fs : Okfs
  mode : Mode
  cmd : CommandBuffer
  pseudo : CommandBuffer

/-- Keys that edit the command, and Enter and Ctrl+T with whether the display would take the
graphics mode. -/
inductive Key
  | edit (e : KeyEvent)
  | enter (entered : Bool)
  | toggle (entered : Bool)
  deriving DecidableEq

section Step

variable (alloc : Allocator)

/-- `execute_text_command`, as far as the file system goes: `execute_console_command` does not
touch it. -/
def executeTextCommand (fs : Okfs) (command : Bytes) : Okfs :=
  if fs.editActive then (fsEditHandleLine alloc fs command).1
  else (fsHandleCommand alloc fs command).1

/-- The command is left to `execute_console_command`, and there it asks for the test screen. -/
def asksForGraphics (fs : Okfs) (command : Bytes) : Bool :=
  !fs.editActive && !(fsHandleCommand alloc fs command).2.1 && command == ascii "gfx"

/-- The row of the prompt is full, and the buffer is not. -/
def wraps (fs : Okfs) (b : CommandBuffer) : Bool :=
  fs.editActive && avail fs ≤ b.cmdLen && b.cmdLen < cmdCapacity

/-- A printable key in text mode. -/
def typeCharacter (fs : Okfs) (b : CommandBuffer) (ch : UInt8) : Okfs × CommandBuffer :=
  if wraps fs b then
    let pos := breakPos b.cmd (avail fs)
    (executeTextCommand alloc fs (submittedLine b pos), wrapped b pos ch)
  else (fs, b.insert cmdCapacity ch)

/-- The line that the editor has loaded, if there is one. -/
def takePending (fs : Okfs) (b : CommandBuffer) (size : ℕ) : Okfs × CommandBuffer :=
  match fsEditGetPendingLine fs with
  | (fs, some pending) => (fs, load b (prefill size pending))
  | (fs, none) => (fs, reset b)

def enterText (s : ShellState) (entered : Bool) : ShellState :=
  let b := terminated s.cmd
  if 0 < b.cmdLen then
    let fs := executeTextCommand alloc s.fs (command b)
    let r := takePending fs b (commandSize .text)
    let mode := if asksForGraphics alloc s.fs (command b) && entered then .graphics else .text
    { s with fs := r.1, mode := mode, cmd := r.2 }
  else { s with cmd := reset b }

/-- `pseudo_console_execute`, and the cursor that is set behind it. -/
def enterPseudo (s : ShellState) : ShellState :=
  let b := terminated s.pseudo
  let run := 0 < b.cmdLen
  let fs := if run then executeTextCommand alloc s.fs (command b) else s.fs
  let mode := if run ∧ asksForGraphics alloc s.fs (command b) then .graphics else .pseudo
  let r := takePending fs b (commandSize .graphics)
  { s with fs := r.1, mode := mode, pseudo := { r.2 with cmdCursor := 0 } }

def textKey (fs : Okfs) (b : CommandBuffer) : KeyEvent → Okfs × CommandBuffer
  | .character ch => if printable ch then typeCharacter alloc fs b (ch.getD 0) else (fs, b)
  | e => (fs, editKey b cmdCapacity e)

/-- A key on the test screen, which takes no notice of the arrows and of Delete. -/
def graphicsKey (b : CommandBuffer) : KeyEvent → CommandBuffer
  | .navigate _ => b
  | e => editKey b pseudoCapacity e

def step (s : ShellState) : Key → ShellState
  | .edit e =>
    match s.mode with
    | .text =>
      let r := textKey alloc s.fs s.cmd e
      { s with fs := r.1, cmd := r.2 }
    | .graphics => { s with pseudo := graphicsKey s.pseudo e }
    | .pseudo => { s with pseudo := editKey s.pseudo pseudoCapacity e }
  | .enter entered =>
    match s.mode with
    | .text => enterText alloc s entered
    | .graphics => { s with mode := .pseudo, pseudo := reset s.pseudo }
    | .pseudo => enterPseudo alloc s
  | .toggle entered =>
    match s.mode with
    | .text => { s with mode := if entered then .graphics else .text }
    | .graphics => { s with mode := .pseudo }
    | .pseudo => { s with mode := .graphics }

/-- The shell when the main loop is reached. -/
def start : ShellState := ⟨fsInit alloc boot, .text, ⟨fun _ => 0, 0, 0⟩, ⟨fun _ => 0, 0, 0⟩⟩

end Step

/-! ### The loops that move bytes -/

section Loops

variable {cmd : ℕ → UInt8} {cursor off : ℕ}

theorem shiftUp_apply (n j : ℕ) : CommandBuffer.shiftUp cursor n cmd j =
    if cursor < j ∧ j ≤ n then cmd (j - 1) else cmd j := by
  induction n generalizing cmd with
  | zero => rw [CommandBuffer.shiftUp, if_neg (by omega)]
  | succ n ih =>
    rw [CommandBuffer.shiftUp]
    by_cases hn : cursor < n + 1
    · rw [if_pos hn, ih]
      by_cases hj : j = n + 1
      · rw [if_neg (by omega), if_pos (by omega), hj, Function.update_self, Nat.add_sub_cancel]
      · rw [Function.update_of_ne hj]
        by_cases hle : cursor < j ∧ j ≤ n
        · rw [if_pos hle, if_pos (by omega), Function.update_of_ne (by omega)]
        · rw [if_neg hle, if_neg (by omega)]
    · rw [if_neg hn, if_neg (by omega)]

theorem copyDown_apply (hoff : 0 < off) (rounds i j : ℕ) : copyDown off rounds i cmd j =
    if i ≤ j ∧ j < i + rounds then cmd (off + j) else cmd j := by
  induction rounds generalizing i cmd with
  | zero => rw [copyDown, if_neg (by omega)]
  | succ rounds ih =>
    rw [copyDown, ih]
    by_cases hj : j = i
    · rw [if_neg (by omega), if_pos (by omega), hj, Function.update_self]
    · rw [Function.update_of_ne hj]
      by_cases hle : i + 1 ≤ j ∧ j < i + 1 + rounds
      · rw [if_pos hle, if_pos (by omega), Function.update_of_ne (by omega)]
      · rw [if_neg hle, if_neg (by omega)]

theorem shiftDown_eq (rounds i : ℕ) :
    CommandBuffer.shiftDown rounds i cmd = copyDown 1 rounds i cmd := by
  induction rounds generalizing i cmd with
  | zero => rfl
  | succ rounds ih => rw [CommandBuffer.shiftDown, copyDown, ih, Nat.add_comm 1 i]

theorem shiftDown_apply (rounds i j : ℕ) : CommandBuffer.shiftDown rounds i cmd j =
    if i ≤ j ∧ j < i + rounds then cmd (j + 1) else cmd j := by
  rw [shiftDown_eq, copyDown_apply (by decide), Nat.add_comm 1 j]

end Loops

/-! ### The text with a cursor -/

/-- A key that edits the command, in the model. -/
def editCursor (capacity : ℕ) (t : TextCursor UInt8) : KeyEvent → TextCursor UInt8
  | .backspace => t.backspace
  | .character ch => if printable ch then t.insert capacity (ch.getD 0) else t
  | .navigate .left => t.left
  | .navigate .right => t.right
  | .navigate .delete => t.delete

/-- The buffer holds the text, with its cursor and a NUL behind it. -/
structure Shows (capacity : ℕ) (b : CommandBuffer) (t : TextCursor UInt8) : Prop where
  text : bytes b = t.text
  cursor : b.cmdCursor = t.cursor
  nul : b.cmd b.cmdLen = 0
  fits : b.cmdLen ≤ capacity

section Shows

variable {capacity : ℕ} {b : CommandBuffer} {t : TextCursor UInt8}

@[simp] theorem length_bytes (b : CommandBuffer) : (bytes b).length = b.cmdLen := by
  simp [bytes]

theorem getElem?_bytes (b : CommandBuffer) (i : ℕ) :
    (bytes b)[i]? = if i < b.cmdLen then some (b.cmd i) else none := by
  unfold bytes
  rw [List.getElem?_map]
  split_ifs with hi
  · rw [List.getElem?_range hi, Option.map_some]
  · rw [List.getElem?_eq_none (by simpa using hi), Option.map_none]

theorem bytes_wrapped {pos : ℕ} (hpos : pos < b.cmdLen) (hroom : b.cmdLen ≤ cmdCapacity)
    (ch : UInt8) : bytes (wrapped b pos ch) = (bytes b).drop (pos + 1) ++ [ch] := by
  unfold cmdCapacity at hroom
  apply List.ext_getElem?
  intro i
  rw [getElem?_bytes, List.getElem?_append, List.length_drop, length_bytes, List.getElem?_drop,
    getElem?_bytes]
  unfold wrapped
  dsimp only
  rcases Nat.lt_trichotomy i (b.cmdLen - pos - 1) with hi | rfl | hi
  · rw [if_pos (by omega), if_pos (by omega), if_pos (by omega), Function.update_of_ne (by omega),
      Function.update_of_ne (by omega), copyDown_apply (Nat.succ_pos pos), if_pos (by omega),
      Function.update_of_ne (by omega)]
  · rw [if_pos (by omega), if_neg (by omega), Function.update_of_ne (by omega),
      Function.update_self, Nat.sub_add_eq, Nat.sub_self, List.getElem?_cons_zero]
  · rw [if_neg (by omega), if_neg (by omega), List.getElem?_eq_none]
    rw [List.length_singleton]
    omega

namespace Shows

theorem length (h : Shows capacity b t) : b.cmdLen = t.text.length := by
  rw [← h.text, length_bytes]

theorem cursor_le (h : Shows capacity b t) : b.cmdCursor ≤ b.cmdLen := by
  rw [h.cursor, h.length]
  exact t.le

theorem insert (h : Shows capacity b t) (ch : UInt8) :
    Shows capacity (b.insert capacity ch) (t.insert capacity ch) := by
  have hle := h.cursor_le
  unfold CommandBuffer.insert TextCursor.insert
  rw [h.length]
  by_cases hfull : t.text.length < capacity
  · rw [if_pos hfull, if_pos hfull]
    unfold TextCursor.typed
    refine ⟨?_, congrArg (· + 1) h.cursor, Function.update_self .., hfull⟩
    dsimp only
    apply List.ext_getElem?
    intro i
    rw [getElem?_bytes, List.getElem?_insertIdx, ← h.text, ← h.cursor, getElem?_bytes,
      getElem?_bytes, length_bytes]
    dsimp only
    rcases Nat.lt_trichotomy i b.cmdCursor with hi | rfl | hi
    · rw [if_pos (by omega), if_pos hi, if_pos (by omega), Function.update_of_ne (by omega),
        Function.update_of_ne hi.ne, shiftUp_apply, if_neg (by omega)]
    · rw [if_pos (by omega), if_neg (by omega), if_pos rfl, if_pos hle,
        Function.update_of_ne (by omega), Function.update_self]
    · by_cases hlen : i < b.cmdLen + 1
      · rw [if_pos hlen, if_neg (by omega), if_neg hi.ne', if_pos (by omega),
          Function.update_of_ne (by omega), Function.update_of_ne hi.ne', shiftUp_apply,
          if_pos (by omega)]
      · rw [if_neg hlen, if_neg (by omega), if_neg hi.ne', if_neg (by omega)]
  · rw [if_neg hfull, if_neg hfull]
    exact h

theorem erase (h : Shows capacity b t) {pos : ℕ} (hpos : pos < b.cmdLen) :
    bytes ⟨Function.update (CommandBuffer.shiftDown (b.cmdLen - 1 - pos) pos b.cmd)
      (b.cmdLen - 1) 0, b.cmdLen - 1, b.cmdCursor⟩ = t.text.eraseIdx pos := by
  apply List.ext_getElem?
  intro i
  rw [getElem?_bytes, List.getElem?_eraseIdx, ← h.text, getElem?_bytes, getElem?_bytes]
  dsimp only
  by_cases hi : i < b.cmdLen - 1
  · rw [if_pos hi, Function.update_of_ne hi.ne, shiftDown_apply]
    by_cases hlt : i < pos
    · rw [if_pos hlt, if_neg (by omega), if_pos (by omega)]
    · rw [if_neg hlt, if_pos (by omega), if_pos (by omega)]
  · rw [if_neg hi]
    by_cases hlt : i < pos
    · omega
    · rw [if_neg hlt, if_neg (by omega)]

theorem backspace (h : Shows capacity b t) : Shows capacity b.backspace t.backspace := by
  have hle := h.cursor_le
  have hfits := h.fits
  unfold CommandBuffer.backspace TextCursor.backspace
  rw [h.cursor]
  by_cases hpos : 0 < t.cursor
  · rw [if_pos hpos, dif_pos hpos]
    have hcursor := h.cursor
    refine ⟨h.erase (by omega), rfl, Function.update_self .., ?_⟩
    dsimp only
    omega
  · rw [if_neg hpos, dif_neg hpos]
    exact h

theorem delete (h : Shows capacity b t) : Shows capacity b.delete t.delete := by
  have hfits := h.fits
  have hiff : b.cmdCursor < b.cmdLen ↔ t.cursor < t.text.length := by rw [h.cursor, h.length]
  unfold CommandBuffer.delete TextCursor.delete
  by_cases hpos : b.cmdCursor < b.cmdLen
  · rw [if_pos hpos, dif_pos (hiff.mp hpos)]
    refine ⟨(h.erase hpos).trans (congrArg _ h.cursor), h.cursor, Function.update_self .., ?_⟩
    dsimp only
    omega
  · rw [if_neg hpos, dif_neg (mt hiff.mpr hpos)]
    exact h

theorem left (h : Shows capacity b t) : Shows capacity b.left t.left := by
  have hcursor := h.cursor
  unfold CommandBuffer.left TextCursor.left
  split_ifs with hpos
  · exact ⟨h.text, congrArg (· - 1) h.cursor, h.nul, h.fits⟩
  · exact ⟨h.text, by dsimp only; omega, h.nul, h.fits⟩

theorem right (h : Shows capacity b t) : Shows capacity b.right t.right := by
  have hiff : b.cmdCursor < b.cmdLen ↔ t.cursor < t.text.length := by rw [h.cursor, h.length]
  unfold CommandBuffer.right TextCursor.right
  by_cases hpos : b.cmdCursor < b.cmdLen
  · rw [if_pos hpos, dif_pos (hiff.mp hpos)]
    exact ⟨h.text, congrArg (· + 1) h.cursor, h.nul, h.fits⟩
  · rw [if_neg hpos, dif_neg (mt hiff.mpr hpos)]
    exact h

theorem editKey (h : Shows capacity b t) (e : KeyEvent) :
    Shows capacity (editKey b capacity e) (editCursor capacity t e) := by
  cases e with
  | backspace => exact h.backspace
  | character ch =>
    unfold Shell.editKey editCursor
    dsimp only
    split_ifs
    · exact h.insert _
    · exact h
  | navigate n =>
    cases n with
    | left => exact h.left
    | right => exact h.right
    | delete => exact h.delete

theorem load {line : Bytes} (hlen : line.length ≤ capacity) :
    Shows capacity (load b line) (.atEnd line) := by
  unfold Shell.load TextCursor.atEnd
  refine ⟨?_, rfl, by simp, hlen⟩
  apply List.ext_getElem?
  intro i
  rw [getElem?_bytes]
  dsimp only
  split_ifs with hi
  · rw [Function.update_of_ne hi.ne, List.getD_eq_getElem?_getD, List.getElem?_eq_getElem hi,
      Option.getD_some]
  · exact (List.getElem?_eq_none (Nat.le_of_not_lt hi)).symm

theorem wrapped {pos : ℕ} (hpos : pos < b.cmdLen) (hroom : b.cmdLen ≤ cmdCapacity) (ch : UInt8) :
    Shows cmdCapacity (wrapped b pos ch) (.atEnd ((bytes b).drop (pos + 1) ++ [ch])) := by
  have hbytes := bytes_wrapped hpos hroom ch
  have hlen := congrArg List.length hbytes
  rw [length_bytes] at hlen
  refine ⟨hbytes, hlen, Function.update_self .., ?_⟩
  unfold Shell.wrapped
  dsimp only
  omega

end Shows

/-! ### Every key keeps the buffers in order -/

theorem ne_zero_of_printable {ch : Option UInt8} (h : printable ch = true) : ch.getD 0 ≠ 0 := by
  intro he
  cases ch with
  | none => simp [printable] at h
  | some c =>
    obtain rfl : c = 0 := he
    simp [printable] at h

/-- The buffer holds some text, without a NUL in it. -/
def Valid (capacity : ℕ) (b : CommandBuffer) : Prop := ∃ t, Shows capacity b t ∧ 0 ∉ t.text

theorem nul_not_mem_editCursor (h : 0 ∉ t.text) (e : KeyEvent) :
    0 ∉ (editCursor capacity t e).text := by
  intro hmem
  cases e with
  | backspace => exact h (TextCursor.mem_of_mem_backspace hmem)
  | character ch =>
    unfold editCursor at hmem
    dsimp only at hmem
    split_ifs at hmem with hprintable
    · rcases TextCursor.mem_of_mem_insert hmem with he | hmem
      · exact ne_zero_of_printable hprintable he.symm
      · exact h hmem
    · exact h hmem
  | navigate n =>
    cases n with
    | left => exact h hmem
    | right => exact h (TextCursor.mem_of_mem_right hmem)
    | delete => exact h (TextCursor.mem_of_mem_delete hmem)

theorem nul_not_mem_rest {pos : ℕ} {ch : UInt8} (h : 0 ∉ bytes b) (hch : ch ≠ 0) :
    0 ∉ (bytes b).drop (pos + 1) ++ [ch] := by
  intro hmem
  rcases List.mem_append.mp hmem with hmem | hmem
  · exact h (List.mem_of_mem_drop hmem)
  · exact hch (List.mem_singleton.mp hmem).symm

namespace Valid

theorem editKey (h : Valid capacity b) (e : KeyEvent) : Valid capacity (editKey b capacity e) := by
  obtain ⟨t, ht, hnul⟩ := h
  exact ⟨_, ht.editKey e, nul_not_mem_editCursor hnul e⟩

theorem empty (hlen : b.cmdLen = 0) (hcursor : b.cmdCursor = 0) (hnul : b.cmd 0 = 0) :
    Valid capacity b := by
  refine ⟨.atEnd [], ⟨?_, hcursor, ?_, ?_⟩, List.not_mem_nil⟩
  · exact List.length_eq_zero_iff.mp ((length_bytes b).trans hlen)
  · rwa [hlen]
  · rw [hlen]
    exact Nat.zero_le _

theorem reset : Valid capacity (reset b) := by
  unfold Shell.reset
  exact empty rfl rfl (by simp)

theorem takePending {fs : Okfs} {size : ℕ} (hsize : size - 2 ≤ capacity) :
    Valid capacity (takePending fs b size).2 := by
  unfold Shell.takePending
  split
  · refine ⟨_, Shows.load ((List.length_take_le _ _).trans hsize), fun hmem => ?_⟩
    exact Lines.sep_not_mem_takeWhile (List.mem_of_mem_take hmem)
  · exact reset

theorem home (h : Valid capacity b) : Valid capacity { b with cmdCursor := 0 } := by
  obtain ⟨t, ht, hnul⟩ := h
  exact ⟨⟨t.text, 0, Nat.zero_le _⟩, ⟨ht.text, rfl, ht.nul, ht.fits⟩, hnul⟩

theorem wrapped {pos : ℕ} {ch : UInt8} (h : Valid cmdCapacity b) (hpos : pos < b.cmdLen)
    (hch : ch ≠ 0) : Valid cmdCapacity (wrapped b pos ch) := by
  obtain ⟨t, ht, hnul⟩ := h
  exact ⟨_, Shows.wrapped hpos ht.fits ch, nul_not_mem_rest (ht.text ▸ hnul) hch⟩

end Valid

theorem lastSpace_spec {cmd : ℕ → UInt8} {n i : ℕ} (h : lastSpace cmd n = some i) :
    i < n ∧ cmd i = space := by
  induction n with
  | zero => cases h
  | succ n ih =>
    unfold lastSpace at h
    split_ifs at h with hspace
    · obtain rfl := Option.some.inj h
      exact ⟨Nat.lt_succ_self _, hspace⟩
    · exact (ih h).imp_left Nat.lt_succ_of_lt

theorem breakPos_lt (cmd : ℕ → UInt8) {n : ℕ} (hn : 0 < n) : breakPos cmd n < n := by
  unfold breakPos
  split
  case h_1 => exact Nat.sub_one_lt_of_lt hn
  case h_2 i hi =>
    split_ifs
    · exact Nat.sub_one_lt_of_lt hn
    · exact (lastSpace_spec hi).1

theorem avail_pos (fs : Okfs) : 0 < avail fs := by
  unfold avail
  split_ifs
  · exact Nat.one_pos
  · omega

end Shows

section Runs

variable {alloc : Allocator} {s : ShellState}

/-- Both buffers hold a text. -/
structure ShellInv (s : ShellState) : Prop where
  cmd : Valid cmdCapacity s.cmd
  pseudo : Valid pseudoCapacity s.pseudo

namespace ShellInv

theorem textKey (h : ShellInv s) (e : KeyEvent) :
    Valid cmdCapacity (textKey alloc s.fs s.cmd e).2 := by
  cases e with
  | backspace => exact h.cmd.editKey .backspace
  | navigate n => exact h.cmd.editKey (.navigate n)
  | character ch =>
    unfold Shell.textKey
    dsimp only
    split_ifs with hprintable
    · unfold typeCharacter
      split_ifs with hwraps
      · unfold wraps at hwraps
        simp only [Bool.and_eq_true, decide_eq_true_eq] at hwraps
        exact h.cmd.wrapped ((breakPos_lt _ (avail_pos _)).trans_le hwraps.1.2)
          (ne_zero_of_printable hprintable)
      · have hinsert := h.cmd.editKey (.character ch)
        unfold editKey at hinsert
        dsimp only at hinsert
        rwa [if_pos hprintable] at hinsert
    · exact h.cmd

theorem graphicsKey (h : ShellInv s) (e : KeyEvent) :
    Valid pseudoCapacity (graphicsKey s.pseudo e) := by
  cases e with
  | backspace => exact h.pseudo.editKey .backspace
  | character ch => exact h.pseudo.editKey (.character ch)
  | navigate n => exact h.pseudo

theorem enterText (h : ShellInv s) (entered : Bool) : ShellInv (enterText alloc s entered) := by
  unfold Shell.enterText
  dsimp only
  split_ifs
  · exact ⟨.takePending (by decide), h.pseudo⟩
  · exact ⟨.takePending (by decide), h.pseudo⟩
  · exact ⟨.reset, h.pseudo⟩

theorem enterPseudo (h : ShellInv s) : ShellInv (enterPseudo alloc s) :=
  ⟨h.cmd, Valid.home (.takePending (by decide))⟩

theorem step (h : ShellInv s) (key : Key) : ShellInv (step alloc s key) := by
  cases key with
  | edit e =>
    unfold Shell.step
    dsimp only
    split
    · exact ⟨h.textKey e, h.pseudo⟩
    · exact ⟨h.cmd, h.graphicsKey e⟩
    · exact ⟨h.cmd, h.pseudo.editKey e⟩
  | enter entered =>
    unfold Shell.step
    dsimp only
    split
    · exact h.enterText entered
    · exact ⟨h.cmd, .reset⟩
    · exact h.enterPseudo
  | toggle entered =>
    unfold Shell.step
    dsimp only
    split
    · exact ⟨h.cmd, h.pseudo⟩
    · exact ⟨h.cmd, h.pseudo⟩
    · exact ⟨h.cmd, h.pseudo⟩

theorem run (h : ShellInv s) (keys : List Key) : ShellInv (keys.foldl (Shell.step alloc) s) := by
  induction keys generalizing s with
  | nil => exact h
  | cons key keys ih => exact ih (h.step key)

end ShellInv

theorem shellInv_start (alloc : Allocator) : ShellInv (start alloc) :=
  ⟨.empty rfl rfl rfl, .empty rfl rfl rfl⟩

theorem editKey_cmdCapacity (b : CommandBuffer) (e : KeyEvent) :
    editKey b cmdCapacity e = applyEvent b e := by
  cases e with
  | backspace => rfl
  | navigate n => rfl
  | character ch => rfl

theorem textKey_of_not_active {fs : Okfs} (hactive : fs.editActive = false) (b : CommandBuffer)
    (e : KeyEvent) : textKey alloc fs b e = (fs, applyEvent b e) := by
  rw [← editKey_cmdCapacity]
  cases e with
  | backspace => rfl
  | navigate n => rfl
  | character ch =>
    unfold textKey editKey typeCharacter wraps
    rw [hactive]
    dsimp only
    split_ifs with hprintable hwraps
    · simp at hwraps
    · rfl
    · rfl

theorem step_character {ch : UInt8} (htext : s.mode = .text)
    (hprintable : printable (some ch) = true) :
    step alloc s (.edit (.character (some ch))) = { s with
      fs := (typeCharacter alloc s.fs s.cmd ch).1
      cmd := (typeCharacter alloc s.fs s.cmd ch).2 } := by
  unfold step textKey
  dsimp only
  rw [htext]
  dsimp only
  rw [if_pos hprintable, Option.getD_some]

theorem textEdits {t : TextCursor UInt8} (hmode : s.mode = .text)
    (hactive : s.fs.editActive = false) (h : Shows cmdCapacity s.cmd t) (edits : List KeyEvent) :
    Shows cmdCapacity ((edits.map Key.edit).foldl (step alloc) s).cmd
      (edits.foldl (editCursor cmdCapacity) t) := by
  induction edits generalizing s t with
  | nil => exact h
  | cons e edits ih =>
    have hstep : step alloc s (.edit e) = { s with cmd := editKey s.cmd cmdCapacity e } := by
      unfold step
      rw [hmode]
      dsimp only
      rw [textKey_of_not_active hactive, editKey_cmdCapacity]
    rw [List.map_cons, List.foldl_cons, hstep]
    exact ih hmode hactive (h.editKey e)

theorem pseudoEdits {t : TextCursor UInt8} (hmode : s.mode = .pseudo)
    (h : Shows pseudoCapacity s.pseudo t) (edits : List KeyEvent) :
    Shows pseudoCapacity ((edits.map Key.edit).foldl (step alloc) s).pseudo
      (edits.foldl (editCursor pseudoCapacity) t) := by
  induction edits generalizing s t with
  | nil => exact h
  | cons e edits ih =>
    have hstep : step alloc s (.edit e) =
        { s with pseudo := editKey s.pseudo pseudoCapacity e } := by
      unfold step
      rw [hmode]
    rw [List.map_cons, List.foldl_cons, hstep]
    exact ih hmode (h.editKey e)

/-- After any keys each buffer holds a text with a cursor, and the keys that edit the command
edit that text. -/
theorem command_line_follows_text (alloc : Allocator) (keys : List Key) :
    let s := keys.foldl (step alloc) (start alloc)
    ∃ t p, Shows cmdCapacity s.cmd t ∧ Shows pseudoCapacity s.pseudo p ∧
      ∀ edits : List KeyEvent,
        let u := (edits.map Key.edit).foldl (step alloc) s
        (s.mode = .text → s.fs.editActive = false →
          Shows cmdCapacity u.cmd (edits.foldl (editCursor cmdCapacity) t)) ∧
        (s.mode = .pseudo →
          Shows pseudoCapacity u.pseudo (edits.foldl (editCursor pseudoCapacity) p)) := by
  intro s
  obtain ⟨⟨t, ht, -⟩, p, hp, -⟩ : ShellInv s := (shellInv_start alloc).run keys
  refine ⟨t, p, ht, hp, fun edits => ⟨fun hmode hactive => ?_, fun hmode => ?_⟩⟩
  · exact textEdits hmode hactive ht edits
  · exact pseudoEdits hmode hp edits

/-- A character typed in front of another, with a key that is not printable between them. -/
theorem typed_before_last : ∃ t : TextCursor UInt8, t.text = ascii "ok" ∧ t.cursor = 1 ∧
    Shows cmdCapacity (([.character (some 107), .navigate .left, .character none,
      .character (some 111)].map Key.edit).foldl (step clearedAlloc) (start clearedAlloc)).cmd
        t := by
  obtain ⟨t, p, ht, -, hedits⟩ := command_line_follows_text clearedAlloc []
  obtain ⟨htext, -⟩ := hedits [.character (some 107), .navigate .left, .character none,
    .character (some 111)]
  have hactive : (fsInit clearedAlloc boot).editActive = false := by
    rw [fsInit_cleared]
    rfl
  obtain ⟨text, cursor, hle⟩ := t
  obtain rfl : [] = text := ht.text
  obtain rfl : 0 = cursor := ht.cursor
  exact ⟨_, rfl, rfl, htext rfl hactive⟩

/-! ### Enter in an edit session -/

section Session

variable {b : CommandBuffer}

theorem command_terminated {capacity : ℕ} (h : Valid capacity b) :
    command (terminated b) = bytes b := by
  obtain ⟨t, ht, hnul⟩ := h
  have hbytes : bytes (terminated b) = bytes b := by
    unfold bytes terminated
    refine List.map_congr_left fun i hi => ?_
    exact Function.update_of_ne (List.mem_range.mp hi).ne _ _
  unfold command
  rw [hbytes, ht.text]
  exact Lines.takeWhile_of_not_mem hnul

theorem takePending_eq (fs : Okfs) (b : CommandBuffer) (size : ℕ) :
    ((takePending fs b size).1, bytes (takePending fs b size).2) = loadPending fs size := by
  unfold takePending loadPending
  cases hpending : fsEditGetPendingLine fs with
  | mk fs pending =>
    cases pending with
    | none => rfl
    | some pending => exact congrArg (Prod.mk fs) (Shows.load (le_refl _)).text

theorem enterText_session (h : ShellInv s) (hactive : s.fs.editActive = true) (entered : Bool) :
    ((enterText alloc s entered).fs, bytes (enterText alloc s entered).cmd) =
      textEnter alloc s.fs (bytes s.cmd) := by
  have hcommand := command_terminated h.cmd
  unfold enterText textEnter executeTextCommand
  dsimp only
  rw [hcommand, length_bytes, if_pos hactive]
  by_cases hlen : 0 < (terminated s.cmd).cmdLen
  · rw [if_pos hlen, if_pos (show 0 < s.cmd.cmdLen from hlen)]
    exact takePending_eq _ _ _
  · rw [if_neg hlen, if_neg (show ¬0 < s.cmd.cmdLen from hlen)]
    rfl

theorem enterPseudo_session (h : ShellInv s) (hactive : s.fs.editActive = true) :
    ((enterPseudo alloc s).fs, bytes (enterPseudo alloc s).pseudo) =
      pseudoConsoleExecute alloc s.fs (bytes s.pseudo) := by
  have hcommand := command_terminated h.pseudo
  unfold enterPseudo pseudoConsoleExecute executeTextCommand
  dsimp only
  rw [hcommand, length_bytes, if_pos hactive]
  exact takePending_eq _ _ _

end Session

end Runs

end OpenKernel.Shell
