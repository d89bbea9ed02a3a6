import OpenKernel.FileSystem.EditCommands

/-!
# Loading a line and submitting it again

In an edit session `:e <n>` loads line `n` into the command buffer of the console,
for the user to change, and Enter puts it back. The way leads through the
pending line of the editor, the command buffer of the text or the graphics
console, and a command that is parsed again. A line that fits into each of them,
has no NUL and does not look like a command comes back as it was. A line that does is
run as the command, and few of these leave the buffer alone.
-/

namespace OpenKernel.FileSystem

/-! ### The consoles -/

/-- Text mode, and the console drawn in graphics mode. -/
inductive ConsoleKind
  | text
  | graphics
  deriving DecidableEq, Repr

/-- `sizeof(cmd)` and `sizeof(pseudo_cmd)`. -/
def commandSize : ConsoleKind → ℕ
  | .text => 128
  | .graphics => 64

/-- The loop that copies the pending line into a command buffer of `size` bytes. -/
def prefill (size : ℕ) (pending : Bytes) : Bytes := (pending.takeWhile (· ≠ 0)).take (size - 2)

section Enter

variable (alloc : Allocator) (s : Okfs)

/-- The command buffer after a command: the pending line, if there is one. -/
def loadPending (size : ℕ) : Okfs × Bytes :=
  match fsEditGetPendingLine s with
  | (s, some pending) => (s, prefill size pending)
  | (s, none) => (s, [])

/-- Enter in the main loop, in an edit session. -/
def textEnter (cmd : Bytes) : Okfs × Bytes :=
  if 0 < cmd.length then loadPending (fsEditHandleLine alloc s cmd).1 (commandSize .text)
  else (s, [])

/-- `pseudo_console_execute` in an edit session. -/
def pseudoConsoleExecute (cmd : Bytes) : Okfs × Bytes :=
  let s := if 0 < cmd.length then (fsEditHandleLine alloc s cmd).1 else s
  loadPending s (commandSize .graphics)

def enter : ConsoleKind → Bytes → Okfs × Bytes
  | .text => textEnter alloc s
  | .graphics => pseudoConsoleExecute alloc s

def reload (console : ConsoleKind) (n : ℕ) : Okfs :=
  let loaded := enter alloc s console (ascii ":e " ++ decimal 10 n)
  (enter alloc loaded.1 console loaded.2).1

end Enter

section Numbers

/-! ### Line numbers -/

theorem digit_spec {d : ℕ} (hd : d < 10) :
    digitZero ≤ digitZero + d.toUInt8 ∧ digitZero + d.toUInt8 ≤ digitZero + 9 ∧
      (((digitZero + d.toUInt8).toNat : ℤ) - digitZero.toNat) = d := by
  have hall : ∀ d : Fin 10, digitZero ≤ digitZero + (d : ℕ).toUInt8 ∧
      digitZero + (d : ℕ).toUInt8 ≤ digitZero + 9 ∧
      (((digitZero + (d : ℕ).toUInt8).toNat : ℤ) - digitZero.toNat) = (d : ℕ) := by decide
  exact hall ⟨d, hd⟩

theorem bmod_of_lt {n : ℕ} (hn : n < 2 ^ 31) : Int.bmod n (2 ^ 32) = n :=
  Int.bmod_eq_of_le (by omega) (by omega)

theorem length_decimal_le (rounds n : ℕ) : (decimal rounds n).length ≤ rounds := by
  induction rounds generalizing n with
  | zero => exact Nat.le_refl 0
  | succ rounds ih =>
    have hrest := ih (n / 10)
    rw [decimal]
    split_ifs
    · exact Nat.le_add_left 1 rounds
    · rw [List.length_append, List.length_singleton]
      omega

theorem length_decimal_of_lt (rounds : ℕ) {digits n : ℕ} (hn : n < 10 ^ digits)
    (hdigits : 0 < digits) : (decimal rounds n).length ≤ digits := by
  induction rounds generalizing digits n with
  | zero => exact Nat.zero_le _
  | succ rounds ih =>
    rw [decimal]
    split_ifs with hsmall
    · exact hdigits
    obtain ⟨digits, rfl⟩ : ∃ k, digits = k + 1 := ⟨digits - 1, by omega⟩
    rw [pow_succ] at hn
    have hpos : 0 < digits := by
      rcases Nat.eq_zero_or_pos digits with rfl | hpos
      · omega
      · exact hpos
    have hrest := ih (show n / 10 < 10 ^ digits by omega) hpos
    rw [List.length_append, List.length_singleton]
    omega

theorem parseNumber_range {ln : ℤ} (hlow : -2147483648 ≤ ln) (hhigh : ln < 2147483648)
    (p : Bytes) : -2147483648 ≤ (parseNumber ln p).1 ∧ (parseNumber ln p).1 < 2147483648 := by
  induction p generalizing ln with
  | nil => exact ⟨hlow, hhigh⟩
  | cons c p ih =>
    rw [parseNumber]
    split_ifs
    · apply ih
      · exact Int.le_bmod (by decide)
      · exact Int.bmod_lt (by decide)
    · exact ⟨hlow, hhigh⟩

/-- Reading a number gives what was written, before whatever follows. -/
theorem parseNumber_decimal {rounds n : ℕ} (hrounds : n < 10 ^ rounds) (hpos : 0 < rounds)
    (hn : n < 2 ^ 31) (p : Bytes) : parseNumber 0 (decimal rounds n ++ p) = parseNumber n p := by
  induction rounds generalizing n p with
  | zero => omega
  | succ rounds ih =>
    have hdigit := digit_spec (Nat.mod_lt n (show 0 < 10 by decide))
    have hlast : ∀ m : ℕ, m * 10 + n % 10 = n →
        parseNumber m ((digitZero + (n % 10).toUInt8) :: p) = parseNumber n p := by
      intro m hm
      have hsum : ((m : ℤ) * 10 + ((n % 10 : ℕ) : ℤ)) = n := by omega
      rw [parseNumber, if_pos ⟨hdigit.1, hdigit.2.1⟩, hdigit.2.2, hsum, bmod_of_lt hn]
    rw [decimal]
    split_ifs with hsmall
    · exact hlast 0 (by omega)
    · have hlt : n / 10 < 10 ^ rounds := by
        rw [pow_succ] at hrounds
        omega
      have hsome : 0 < rounds := by
        rcases Nat.eq_zero_or_pos rounds with rfl | hpos
        · rw [pow_zero] at hlt
          omega
        · exact hpos
      rw [List.append_assoc, ih hlt hsome (by omega), List.singleton_append]
      exact hlast (n / 10) (by omega)

end Numbers

/-! ### The first Enter -/

section Load

variable {alloc : Allocator} {s : Okfs} {old : Holding} {n : ℕ}

theorem seekLine_eq {k : ℕ} {text : Bytes} (n cur : ℤ) (hk : cur + k = n)
    (hdrop : Lines.drop newline k text ≠ []) :
    seekLine n cur text = some (Lines.drop newline k text) := by
  induction text generalizing cur k with
  | nil => exact absurd Lines.drop_nil hdrop
  | cons c text ih =>
    rw [seekLine]
    cases k with
    | zero =>
      rw [if_neg (by omega), if_pos (by omega)]
      rfl
    | succ k =>
      rw [if_pos (by omega)]
      by_cases hc : c = newline
      · have hstep : Lines.drop newline (k + 1) (c :: text) = Lines.drop newline k text := by
          simp [Lines.drop, hc]
        rw [hstep] at hdrop ⊢
        rw [if_pos hc]
        exact ih (cur + 1) (by omega) hdrop
      · have hstep : Lines.drop newline (k + 1) (c :: text) = Lines.drop newline (k + 1) text := by
          simp [Lines.drop, hc]
        rw [hstep] at hdrop ⊢
        rw [if_neg hc]
        exact ih cur hk hdrop

theorem totalLines_le_length {text : Bytes} (htext : text ≠ []) :
    totalLines text ≤ text.length := by
  have hcount : text.count newline ≤ text.length := List.count_le_length
  unfold totalLines
  split_ifs with hlast
  · exact hcount
  · have hne : text.count newline ≠ text.length := by
      intro he
      have hall := List.count_eq_length.mp he
      have hmem := List.getLast_mem htext
      refine hlast ?_
      rw [List.getLast?_eq_some_getLast htext, hall _ hmem]
    omega

theorem OwnershipInv.totalLines_lt (h : OwnershipInv s old) :
    totalLines (editText s) < 2 ^ 17 := by
  have hlen := h.length_editText
  have hcap := h.editLen_le_editCap.trans h.editCap_le
  have hcount : (editText s).count newline ≤ (editText s).length := List.count_le_length
  unfold totalLines
  unfold fsMaxFileSize at hcap
  split_ifs <;> omega

structure HasLine (s : Okfs) (n : ℕ) : Prop where
  inv : OwnershipInv s .empty
  active : s.editActive = true
  text : editText s ≠ []
  pos : 1 ≤ n
  le : n ≤ totalLines (editText s)

def lineText (s : Okfs) (n : ℕ) : Bytes := Lines.line newline (n - 1) (editText s)

/-- The session right after `:e <n>`. -/
def fetched (s : Okfs) (n : ℕ) : Okfs :=
  { s with
    editPendingLine := (lineText s n).take (fsMaxPath - 1)
    editPendingLineValid := true
    editTargetLine := n }

def loaded (s : Okfs) (n : ℕ) : Okfs :=
  { s with
    editPendingLine := (lineText s n).take (fsMaxPath - 1)
    editPendingLineValid := false
    editTargetLine := n }

namespace HasLine

theorem drop_ne_nil (h : HasLine s n) : Lines.drop newline (n - 1) (editText s) ≠ [] := by
  have hpos := h.pos
  have hle : n ≤ Lines.count newline (editText s) := h.le
  exact Lines.drop_ne_nil h.text (by omega)

theorem lt (h : HasLine s n) : n < 2 ^ 17 := h.le.trans_lt h.inv.totalLines_lt

theorem parseNumber_eq (h : HasLine s n) (p : Bytes) :
    parseNumber 0 (decimal 10 n ++ p) = parseNumber n p := by
  have hlt := h.lt
  exact parseNumber_decimal (by omega) (by decide) (by omega) p

theorem idx_eq (h : HasLine s n) : Int.bmod ((n : ℤ) - 1) (2 ^ 32) = ((n - 1 : ℕ) : ℤ) := by
  have hlt := h.lt
  have hpos := h.pos
  have hcast : (n : ℤ) - 1 = ((n - 1 : ℕ) : ℤ) := by omega
  rw [hcast]
  exact bmod_of_lt (by omega)

theorem editLen_ne_zero (h : HasLine s n) : s.editLen ≠ 0 := h.inv.editLen_ne_zero h.text

theorem editFetchLine_eq (h : HasLine s n) :
    editFetchLine s n fsMaxPath = some ((lineText s n).take (fsMaxPath - 1)) := by
  have hpos := h.pos
  have hdrop := h.drop_ne_nil
  have hseek : seekLine n 1 (editText s) = some (Lines.drop newline (n - 1) (editText s)) :=
    seekLine_eq n 1 (by omega) hdrop
  unfold editFetchLine
  rw [if_neg (by have := h.editLen_ne_zero; omega), hseek]
  cases hd : Lines.drop newline (n - 1) (editText s) with
  | nil => exact absurd hd hdrop
  | cons c rest =>
    dsimp only
    rw [lineText, Lines.line, hd]

theorem editCommand_of_line (h : HasLine s n) {arg p : Bytes} :
    parseNumber 0 arg = ((n : ℤ), p) → editCommand alloc s arg =
      match p with
      | [] => (fetched s n, .ok (), [])
      | c :: text =>
        if c ≠ space then (s, .error .invalid, [ascii "Usage: :e <n> [text]"])
        else (replaceLine alloc s (n - 1 : ℕ) text, .ok (), [ascii "Line updated."]) := by
  intro hparse
  have hle := h.le
  have hpos := h.pos
  unfold editCommand
  rw [hparse]
  dsimp only
  rw [h.idx_eq, if_neg (by omega), if_neg h.editLen_ne_zero, if_neg (by omega)]
  cases p with
  | nil =>
    rw [h.editFetchLine_eq]
    rfl
  | cons c text => rfl

theorem editCommand_of_fetch (h : HasLine s n) {arg : Bytes}
    (hparse : parseNumber 0 arg = ((n : ℤ), [])) :
    editCommand alloc s arg = (fetched s n, .ok (), []) := h.editCommand_of_line hparse

theorem editCommand_of_text (h : HasLine s n) {arg text : Bytes}
    (hparse : parseNumber 0 arg = ((n : ℤ), space :: text)) :
    editCommand alloc s arg =
      (replaceLine alloc s (n - 1 : ℕ) text, .ok (), [ascii "Line updated."]) :=
  (h.editCommand_of_line hparse).trans (if_neg (not_not.mpr rfl))

theorem editCommand_of_junk (h : HasLine s n) {arg text : Bytes} {c : UInt8}
    (hparse : parseNumber 0 arg = ((n : ℤ), c :: text)) (hc : c ≠ space) :
    editCommand alloc s arg = (s, .error .invalid, [ascii "Usage: :e <n> [text]"]) :=
  (h.editCommand_of_line hparse).trans (if_pos hc)

/-- A number of no line is rejected. -/
theorem editCommand_of_no_line (alloc : Allocator) (hinv : OwnershipInv s .empty)
    (hactive : s.editActive = true) {arg : Bytes}
    (hno : ∀ n : ℕ, HasLine s n → (parseNumber 0 arg).1 ≠ n) :
    ∃ out, editCommand alloc s arg = (s, .error .invalid, out) := by
  have hrange := parseNumber_range (show -2147483648 ≤ (0 : ℤ) by decide) (by decide) arg
  unfold editCommand
  cases hp : parseNumber 0 arg with
  | mk ln p =>
    rw [hp] at hno hrange
    dsimp only at hno hrange ⊢
    by_cases hneg : Int.bmod (ln - 1) (2 ^ 32) < 0
    · rw [if_pos hneg]
      exact ⟨_, rfl⟩
    rw [if_neg hneg]
    by_cases hlen : s.editLen = 0
    · rw [if_pos hlen]
      exact ⟨_, rfl⟩
    rw [if_neg hlen]
    by_cases hle : (totalLines (editText s) : ℤ) ≤ Int.bmod (ln - 1) (2 ^ 32)
    · rw [if_pos hle]
      exact ⟨_, rfl⟩
    -- the number is that of a line after all
    have htext : editText s ≠ [] := by
      intro hnil
      have := hinv.length_editText
      rw [hnil] at this
      exact hlen this.symm
    have htotal := hinv.totalLines_lt
    have hidx : Int.bmod (ln - 1) (2 ^ 32) = ln - 1 := by
      rcases eq_or_ne ln (-2 ^ 31) with rfl | hne
      · have hlast : Int.bmod (-2 ^ 31 - 1) (2 ^ 32) = 2 ^ 31 - 1 := by decide
        omega
      · exact Int.bmod_eq_of_le (by omega) (by omega)
    refine absurd ?_ (hno ln.toNat ⟨hinv, hactive, htext, ?_, ?_⟩)
    · omega
    · omega
    · omega

theorem editCommand_load (h : HasLine s n) :
    editCommand alloc s (decimal 10 n) = (fetched s n, .ok (), []) :=
  h.editCommand_of_fetch (by simpa [parseNumber] using h.parseNumber_eq [])

theorem editCommand_replace (h : HasLine s n) (text : Bytes) :
    editCommand alloc s (decimal 10 n ++ space :: text) =
      (replaceLine alloc s (n - 1 : ℕ) text, .ok (), [ascii "Line updated."]) := by
  have hspace : ¬ (digitZero ≤ space ∧ space ≤ digitZero + 9) := by decide
  apply h.editCommand_of_text
  rw [h.parseNumber_eq, parseNumber, if_neg hspace]

theorem fsEditHandleLine_of_colon (alloc : Allocator) {line : Bytes} (hactive : s.editActive = true)
    (hcolon : line.head? = some colon) : ∃ target, fsEditHandleLine alloc s line =
      handleCommand alloc { s with editTargetLine := target } line := by
  unfold fsEditHandleLine
  rw [if_neg (by simp [hactive])]
  by_cases htarget : 0 < s.editTargetLine
  · rw [if_pos htarget, if_neg (not_not.mpr hcolon)]
    exact ⟨0, rfl⟩
  · rw [if_neg htarget]
    exact ⟨s.editTargetLine, rfl⟩

theorem handleCommand_edit (alloc : Allocator) (s : Okfs) (arg : Bytes) :
    handleCommand alloc s (ascii ":e " ++ arg) = editCommand alloc s arg := by
  have htake : (ascii ":e " ++ arg).take 3 = ascii ":e " := rfl
  have hdrop : (ascii ":e " ++ arg).drop 3 = arg := rfl
  have hclosing := not_mem_closing htake
  rw [mem_closing, not_or] at hclosing
  have hprint : ascii ":e " ++ arg ≠ ascii ":p" := by
    intro he
    rw [he] at htake
    revert htake
    decide
  unfold handleCommand
  rw [if_neg hclosing.1, if_neg hclosing.2, if_neg hprint, if_pos htake, hdrop]

/-- The first Enter sets the target line and fills the command buffer. -/
theorem enter_load (h : HasLine s n) (console : ConsoleKind) :
    enter alloc s console (ascii ":e " ++ decimal 10 n) =
      (loaded s n, prefill (commandSize console) ((lineText s n).take (fsMaxPath - 1))) := by
  have hcommand : ∀ target, handleCommand alloc { s with editTargetLine := target }
      (ascii ":e " ++ decimal 10 n) = (fetched s n, .ok (), []) := by
    intro target
    have h' : HasLine { s with editTargetLine := target } n :=
      ⟨h.inv.congr rfl rfl rfl, h.active, h.text, h.pos, h.le⟩
    rw [handleCommand_edit]
    exact h'.editCommand_load
  obtain ⟨target, hhandle⟩ := fsEditHandleLine_of_colon alloc h.active
    (show (ascii ":e " ++ decimal 10 n).head? = some colon from rfl)
  have hlen : 0 < (ascii ":e " ++ decimal 10 n).length := by
    rw [List.length_append]
    exact Nat.lt_add_right _ (by decide)
  cases console with
  | text =>
    rw [enter, textEnter, if_pos hlen, hhandle, hcommand]
    rfl
  | graphics =>
    rw [enter, pseudoConsoleExecute, if_pos hlen, hhandle, hcommand]
    rfl

end HasLine

end Load

/-! ### The second Enter -/

section Submit

variable {alloc : Allocator} {s : Okfs} {n : ℕ}

theorem isPrefix_prefill (size : ℕ) (pending : Bytes) : prefill size pending <+: pending :=
  (List.take_prefix _ _).trans (List.takeWhile_prefix _)

theorem prefill_pending (console : ConsoleKind) (text : Bytes) :
    prefill (commandSize console) (text.take (fsMaxPath - 1)) =
      prefill (commandSize console) text := by
  have hmin : min (commandSize console - 2) (fsMaxPath - 1) = commandSize console - 2 := by
    cases console <;> decide
  unfold prefill
  rw [← List.take_takeWhile, List.take_take, hmin]

theorem prefill_eq_iff {size : ℕ} {text : Bytes} :
    prefill size text = text ↔ text.length ≤ size - 2 ∧ 0 ∉ text := by
  constructor
  · intro he
    have hlen : text.length ≤ size - 2 := by
      rw [← he]
      exact List.length_take_le _ _
    refine ⟨hlen, fun hzero => ?_⟩
    rw [← he] at hzero
    have := List.mem_takeWhile_imp (List.mem_of_mem_take hzero)
    simp at this
  · rintro ⟨hlen, hzero⟩
    rw [prefill, Lines.takeWhile_of_not_mem hzero, List.take_of_length_le hlen]

theorem prefill_eq_nil_iff {console : ConsoleKind} {text : Bytes} :
    prefill (commandSize console) text = [] ↔ text = [] ∨ text.head? = some 0 := by
  have hsize : commandSize console - 2 ≠ 0 := by cases console <;> decide
  cases text with
  | nil => simp [prefill]
  | cons c text => simp [prefill, hsize, List.takeWhile_cons]

theorem editText_loadPending (s : Okfs) (size : ℕ) :
    editText (loadPending s size).1 = editText s := by
  unfold loadPending fsEditGetPendingLine
  split_ifs <;> rfl

theorem editText_enter (alloc : Allocator) (s : Okfs) (console : ConsoleKind) (cmd : Bytes) :
    editText (enter alloc s console cmd).1 =
      if cmd = [] then editText s else editText (fsEditHandleLine alloc s cmd).1 := by
  cases console with
  | text =>
    rw [enter, textEnter]
    cases cmd with
    | nil => rfl
    | cons c cmd => simp [editText_loadPending]
  | graphics =>
    rw [enter, pseudoConsoleExecute, editText_loadPending]
    cases cmd with
    | nil => rfl
    | cons c cmd => simp

/-- What the synthetic command for line `n` leaves of a text. -/
def targetRoom (n : ℕ) : ℕ :=
  fsCmdTextMax - 2 - (ascii ":e " ++ decimal 10 n ++ [space]).length

theorem HasLine.le_targetRoom (h : HasLine s n) : 4085 ≤ targetRoom n := by
  have hmax : n < 10 ^ 5 := by
    have hle := h.le.trans (totalLines_le_length h.text)
    have hlen := h.inv.length_editText
    have hcap := h.inv.editLen_le_editCap.trans h.inv.editCap_le
    unfold fsMaxFileSize at hcap
    omega
  have hdecimal := length_decimal_of_lt 10 hmax (by decide)
  have hcommand : (ascii ":e ").length = 3 := by decide
  unfold targetRoom fsCmdTextMax
  rw [List.length_append, List.length_append, hcommand, List.length_singleton]
  omega

theorem HasLine.handle_target (h : HasLine s n) (htarget : s.editTargetLine = n) {text : Bytes}
    (hcolon : text.head? ≠ some colon) :
    fsEditHandleLine alloc s text =
      (replaceLine alloc { s with editTargetLine := 0 } (n - 1 : ℕ) (text.take (targetRoom n)),
        .ok (), [ascii "Line updated."]) := by
  have hpos := h.pos
  have h' : HasLine { s with editTargetLine := 0 } n :=
    ⟨h.inv.congr rfl rfl rfl, h.active, h.text, h.pos, h.le⟩
  have hroom := h.le_targetRoom
  have hsyn : (ascii ":e " ++ decimal 10 n ++ [space] ++ text).take (fsCmdTextMax - 2) =
      ascii ":e " ++ (decimal 10 n ++ space :: text.take (targetRoom n)) := by
    unfold targetRoom at hroom ⊢
    rw [List.take_append, List.take_of_length_le (by omega), List.append_assoc, List.append_assoc,
      List.singleton_append]
  unfold fsEditHandleLine
  rw [if_neg (by simp [h.active]), htarget, if_pos (by omega), if_pos hcolon, Int.toNat_natCast]
  dsimp only
  rw [hsyn, HasLine.handleCommand_edit]
  exact h'.editCommand_replace _

theorem HasLine.handle_text (h : HasLine s n) {text : Bytes} (hcolon : text.head? ≠ some colon)
    (hlen : text.length ≤ fsMaxPath) :
    (fsEditHandleLine alloc (loaded s n) text).1 =
      replaceLine alloc { loaded s n with editTargetLine := 0 } (n - 1 : ℕ) text := by
  have h' : HasLine (loaded s n) n := ⟨h.inv.congr rfl rfl rfl, h.active, h.text, h.pos, h.le⟩
  have hroom := h.le_targetRoom
  unfold fsMaxPath at hlen
  rw [h'.handle_target rfl hcolon, List.take_of_length_le (by omega)]

/-- What happens to the line that is submitted: nothing if it is empty for the console; a line
that starts with a colon is a command; any other passes through every buffer on its way. -/
def Returns (console : ConsoleKind) (alloc : Allocator) (s : Okfs) (n : ℕ) : Prop :=
  (lineText s n = [] ∨ (lineText s n).head? = some 0) ∨
    ((lineText s n).head? = some colon ∧
      CommandKeeps alloc s (prefill (commandSize console) (lineText s n))) ∨
    ((lineText s n).head? ≠ some colon ∧ (lineText s n).length ≤ commandSize console - 2 ∧
      0 ∉ lineText s n ∧ Rebuilds alloc s)

theorem HasLine.submit_command (h : HasLine s n) (alloc : Allocator) {text : Bytes}
    (hpre : text <+: lineText s n) (hcolon : text.head? = some colon) :
    editText (fsEditHandleLine alloc (loaded s n) text).1 = editText s ↔
      CommandKeeps alloc s text := by
  obtain ⟨target, hhandle⟩ := fsEditHandleLine_of_colon alloc (s := loaded s n) h.active hcolon
  have hu : OwnershipInv { loaded s n with editTargetLine := target } .empty :=
    h.inv.congr rfl rfl rfl
  have hne : text ≠ [] := by
    rintro rfl
    cases hcolon
  have hline : newline ∉ text := fun hmem => Lines.sep_not_mem_line (hpre.subset hmem)
  have hpending : CommandKeeps alloc { loaded s n with editTargetLine := target } text ↔
      CommandKeeps alloc s text :=
    commandKeeps_pending (s := s) ((lineText s n).take (fsMaxPath - 1)) false target
  rw [hhandle]
  exact (hu.editText_handleCommand_eq_iff alloc h.text hne hline).trans hpending

theorem HasLine.submit_text (h : HasLine s n) (alloc : Allocator) {text : Bytes}
    (hpre : text <+: lineText s n) (hcolon : text.head? ≠ some colon)
    (hlen : text.length ≤ fsMaxPath) :
    editText (fsEditHandleLine alloc (loaded s n) text).1 = editText s ↔
      text = lineText s n ∧ Rebuilds alloc s := by
  have hu : OwnershipInv { loaded s n with editTargetLine := 0 } .empty := h.inv.congr rfl rfl rfl
  have hline : newline ∉ text := fun hmem => Lines.sep_not_mem_line (hpre.subset hmem)
  rw [h.handle_text hcolon hlen]
  exact (hu.editText_replaceLine_eq_iff alloc _ hline).trans
    (replaces_line_iff (s := s) h.drop_ne_nil hpre)

/-- Loading a line and submitting it leaves the buffer exactly when the line returns as it was or
is a command that leaves the text. -/
theorem reload_keeps_iff (console : ConsoleKind) (alloc : Allocator) (h : HasLine s n) :
    editText (reload alloc s console n) = editText s ↔ Returns console alloc s n := by
  unfold reload Returns
  rw [h.enter_load, prefill_pending]
  dsimp only
  rw [editText_enter]
  by_cases hnil : prefill (commandSize console) (lineText s n) = []
  · rw [if_pos hnil]
    exact iff_of_true rfl (Or.inl (prefill_eq_nil_iff.mp hnil))
  have hempty : ¬ (lineText s n = [] ∨ (lineText s n).head? = some 0) :=
    fun hl => hnil (prefill_eq_nil_iff.mpr hl)
  rw [if_neg hnil, or_iff_right hempty]
  have hpre := isPrefix_prefill (commandSize console) (lineText s n)
  have hhead : (prefill (commandSize console) (lineText s n)).head? = (lineText s n).head? := by
    obtain ⟨rest, hrest⟩ := hpre
    conv_rhs => rw [← hrest]
    rw [List.head?_append_of_ne_nil _ hnil]
  by_cases hcolon : (lineText s n).head? = some colon
  · rw [h.submit_command alloc hpre (hhead.trans hcolon)]
    constructor
    · intro hkeeps
      exact Or.inl ⟨hcolon, hkeeps⟩
    · rintro (⟨-, hkeeps⟩ | ⟨hne, -⟩)
      · exact hkeeps
      · exact absurd hcolon hne
  · have hlen : (prefill (commandSize console) (lineText s n)).length ≤ fsMaxPath := by
      have hsize : commandSize console - 2 ≤ fsMaxPath := by cases console <;> decide
      exact (List.length_take_le _ _).trans hsize
    rw [h.submit_text alloc hpre (by rw [hhead]; exact hcolon) hlen, prefill_eq_iff]
    constructor
    · rintro ⟨⟨hfits, hzero⟩, hbuilt⟩
      exact Or.inr ⟨hcolon, hfits, hzero, hbuilt⟩
    · rintro (⟨he, -⟩ | ⟨-, hfits, hzero, hbuilt⟩)
      · exact absurd he hcolon
      · exact ⟨⟨hfits, hzero⟩, hbuilt⟩

end Submit

/-- The second line of the file that `fs_init` writes. -/
theorem reload_keeps_iff_readme :
    ∃ s, Run (step clearedAlloc) anyCall (fsInit clearedAlloc boot)
        [.editBegin (ascii "/readme.txt")] s ∧
      HasLine s 2 ∧ lineText s 2 = ascii "Use 'help --fs' for file commands." ∧
      editText (reload clearedAlloc s .text 2) = editText s := by
  obtain ⟨s, hrun, hactive, htext, -⟩ := readme_opened
  have hinv : OwnershipInv s .empty := (invariants_of_run hrun).2
  have h : HasLine s 2 :=
    ⟨hinv, hactive, by rw [htext]; decide, by decide, by rw [htext]; decide⟩
  have hline : lineText s 2 = ascii "Use 'help --fs' for file commands." := by
    rw [lineText, htext]
    decide
  have hreturns : Returns .text clearedAlloc s 2 := by
    have hbuilt : Rebuilds clearedAlloc s := hinv.rebuilds fun _ _ => Option.some_ne_none _
    refine Or.inr (Or.inr ?_)
    rw [hline]
    exact ⟨by decide, by decide, by decide, hbuilt⟩
  exact ⟨s, hrun, h, hline, (reload_keeps_iff .text clearedAlloc h).mpr hreturns⟩

/-- A line that starts with a colon is taken for a command, and appended once more. -/
theorem colon_line_is_doubled :
    ∃ s, Run (step clearedAlloc) anyCall (fsInit clearedAlloc boot)
        [.editBegin (ascii "/readme.txt"), .editHandleLine (ascii ":todo")] s ∧
      HasLine s 4 ∧ lineText s 4 = ascii ":todo" ∧
      editText s = readmeText ++ ascii ":todo\n" ∧
      editText (reload clearedAlloc s .text 4) = readmeText ++ ascii ":todo\n:todo\n" := by
  obtain ⟨s, hs, hactive, htext, hafter⟩ :
      ∃ s, [.editBegin (ascii "/readme.txt"), .editHandleLine (ascii ":todo")].foldlM
        (step clearedAlloc) (fsInit clearedAlloc boot) = some s ∧ s.editActive = true ∧
        editText s = readmeText ++ ascii ":todo\n" ∧
        editText (reload clearedAlloc s .text 4) = readmeText ++ ascii ":todo\n:todo\n" := by
    rw [fsInit_cleared]
    exact ⟨_, rfl, rfl, by decide, by decide⟩
  have hrun : Run (step clearedAlloc) anyCall (fsInit clearedAlloc boot)
      [.editBegin (ascii "/readme.txt"), .editHandleLine (ascii ":todo")] s := Run.of_foldlM hs
  have h : HasLine s 4 :=
    ⟨(invariants_of_run hrun).2, hactive, by rw [htext]; decide, by decide, by rw [htext]; decide⟩
  have hline : lineText s 4 = ascii ":todo" := by
    rw [lineText, htext]
    decide
  exact ⟨s, hrun, h, hline, htext, hafter⟩

end OpenKernel.FileSystem
