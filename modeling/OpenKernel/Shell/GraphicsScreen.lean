import OpenKernel.Display.Pictures
import OpenKernel.Lib.Buffer
import OpenKernel.Lib.RecentLog
import OpenKernel.Shell.Keys

/-!
# The screens of the graphics mode

The console that `kernel.c` draws, with the last 24 lines of its log and the prompt below them, and
the test screen. Each is painted in layers. The prompt lies altogether on a bar, so
that painting bar and prompt again is as good as painting the whole screen again.
-/

namespace OpenKernel.Shell

open FileSystem
open Input (CommandBuffer)
open Display (displayRgb displayClear displayFillRect displayDrawRect displayPuts displayPutsLine)
open Display (drawEach InRect OnBorder InText InLine visible columns bochsMode vgaMode13)

/-! ### The log -/

def gfxLogLines : ℕ := 24

def gfxLogCols : ℕ := 64

abbrev GfxLog := RecentLog (ℕ → UInt8)

/-- A row of the log with a string in it; what was there behind the terminator stays. -/
def putRow (row : ℕ → UInt8) (msg : Bytes) : ℕ → UInt8 :=
  let text := (msg.takeWhile (· ≠ 0)).take (gfxLogCols - 1)
  Function.update (fun i => text.getD i (row i)) text.length 0

def clearGfxLog (log : GfxLog) : GfxLog where
  rows i := if i < gfxLogLines then Function.update (log.rows i) 0 0 else log.rows i
  count := 0

def appendGfxLog (log : GfxLog) (msg : Bytes) : GfxLog :=
  log.append gfxLogLines (putRow (log.rows (log.slot gfxLogLines)) msg)

def appendGfxPromptLine (log : GfxLog) (command : Bytes) : GfxLog :=
  appendGfxLog log ((ascii "> " ++ command.takeWhile (· ≠ 0)).take (gfxLogCols - 1))

def rowText (row : ℕ → UInt8) : Bytes :=
  ((List.range gfxLogCols).map row).takeWhile (· ≠ 0)

/-- What the log keeps of a line. -/
def entryText (msg : Bytes) : Bytes := (msg.takeWhile (· ≠ 0)).take (gfxLogCols - 1)

section Log

theorem rowText_putRow (row : ℕ → UInt8) (msg : Bytes) :
    rowText (putRow row msg) = entryText msg := by
  have hzero : 0 ∉ entryText msg := fun hmem =>
    Lines.sep_not_mem_takeWhile (List.mem_of_mem_take hmem)
  have hlen : (entryText msg).length < gfxLogCols := by
    have hle := List.length_take_le (gfxLogCols - 1) (msg.takeWhile (· ≠ 0))
    change (entryText msg).length ≤ 63 at hle
    unfold gfxLogCols
    omega
  refine HoldsString.takeWhile_eq ⟨fun i a ha => ?_, hzero⟩ hlen
  change Function.update (fun i => (entryText msg).getD i (row i)) (entryText msg).length 0 i = a
  rw [List.getElem?_append] at ha
  split_ifs at ha with hi
  · rw [Function.update_of_ne hi.ne, List.getD_eq_getElem?_getD]
    rw [ha, Option.getD_some]
  · obtain ⟨hlt, hval⟩ := List.getElem?_eq_some_iff.mp ha
    rw [List.length_singleton] at hlt
    obtain rfl : i = (entryText msg).length := by omega
    rw [Function.update_self, ← hval, List.getElem_singleton]

theorem holds_clearGfxLog (log : GfxLog) :
    RecentLog.Holds gfxLogLines rowText (clearGfxLog log) ([] : List Bytes) :=
  RecentLog.holds_nil _ _ _

theorem holds_appendGfxLog {log : GfxLog} {entries : List Bytes}
    (h : log.Holds gfxLogLines rowText entries) (msg : Bytes) :
    (appendGfxLog log msg).Holds gfxLogLines rowText (entries ++ [entryText msg]) := by
  have happend := h.append (putRow (log.rows (log.slot gfxLogLines)) msg)
  rwa [rowText_putRow] at happend

end Log

/-! ### The prompt -/

def cursorMark : UInt8 := 95

/-- The loop of `build_pseudo_prompt`, with the number of characters from `i` on. -/
def promptLoop (b : CommandBuffer) (maxLen : ℕ) : ℕ → ℕ → Bytes → Bytes
  | 0, _, prompt => prompt
  | rounds + 1, i, prompt =>
    if prompt.length < maxLen - 1 then
      let prompt := if i = b.cmdCursor then prompt ++ [cursorMark] else prompt
      promptLoop b maxLen rounds (i + 1) (prompt ++ [b.cmd i])
    else prompt

def buildPseudoPrompt (b : CommandBuffer) (maxLen : ℕ) : Bytes :=
  let prompt := promptLoop b maxLen b.cmdLen 0 ((ascii "> ").take (maxLen - 1))
  if b.cmdLen ≤ b.cmdCursor ∧ prompt.length < maxLen - 1 then prompt ++ [cursorMark] else prompt

/-- The text with a mark in front of the character at the cursor. -/
def promptText (t : TextCursor UInt8) : Bytes :=
  ascii "> " ++ t.text.take t.cursor ++ cursorMark :: t.text.drop t.cursor

section Prompt

variable {b : CommandBuffer} {t : TextCursor UInt8} {maxLen : ℕ}

theorem drop_bytes {i : ℕ} (hi : i < b.cmdLen) :
    (bytes b).drop i = b.cmd i :: (bytes b).drop (i + 1) := by
  rw [List.drop_eq_getElem_cons (by rwa [length_bytes])]
  congr 1
  simp [bytes]

theorem promptLoop_copies {rounds i : ℕ} {prompt : Bytes} (hrounds : i + rounds = b.cmdLen)
    (hcursor : b.cmdCursor < i ∨ b.cmdLen ≤ b.cmdCursor)
    (hroom : prompt.length + rounds ≤ maxLen - 1) :
    promptLoop b maxLen rounds i prompt = prompt ++ (bytes b).drop i := by
  induction rounds generalizing i prompt with
  | zero =>
    rw [promptLoop, List.drop_eq_nil_of_le (by rw [length_bytes]; omega), List.append_nil]
  | succ rounds ih =>
    have hnext : (prompt ++ [b.cmd i]).length + rounds ≤ maxLen - 1 := by
      rw [List.length_append, List.length_singleton]
      omega
    rw [promptLoop, if_pos (by omega)]
    dsimp only
    rw [if_neg (by omega), ih (by omega) (by omega) hnext, drop_bytes (i := i) (by omega),
      List.append_assoc, List.singleton_append]

/-- The mark comes in front of the character at the cursor. -/
theorem promptLoop_marks {rounds i : ℕ} {prompt : Bytes} (hrounds : i + rounds = b.cmdLen)
    (hcursor : i ≤ b.cmdCursor) (hlt : b.cmdCursor < b.cmdLen)
    (hroom : prompt.length + rounds + 1 ≤ maxLen - 1) :
    promptLoop b maxLen rounds i prompt = prompt ++ ((bytes b).drop i).take (b.cmdCursor - i) ++
      cursorMark :: (bytes b).drop b.cmdCursor := by
  induction rounds generalizing i prompt with
  | zero => omega
  | succ rounds ih =>
    rw [promptLoop, if_pos (by omega)]
    dsimp only
    by_cases hi : i = b.cmdCursor
    · have hnext : (prompt ++ [cursorMark] ++ [b.cmd i]).length + rounds ≤ maxLen - 1 := by
        simp only [List.length_append, List.length_singleton]
        omega
      rw [if_pos hi, promptLoop_copies (by omega) (by omega) hnext, ← hi, Nat.sub_self,
        List.take_zero, List.append_nil, drop_bytes (i := i) (by omega)]
      simp
    · have hnext : (prompt ++ [b.cmd i]).length + rounds + 1 ≤ maxLen - 1 := by
        rw [List.length_append, List.length_singleton]
        omega
      have hstep : b.cmdCursor - i = b.cmdCursor - (i + 1) + 1 := by omega
      rw [if_neg hi, ih (by omega) (by omega) hnext, drop_bytes (i := i) (by omega), hstep,
        List.take_succ_cons]
      simp

theorem buildPseudoPrompt_eq (h : Shows pseudoCapacity b t) :
    buildPseudoPrompt b 80 = promptText t := by
  have hfits : b.cmdLen ≤ 63 := h.fits
  have hle := h.cursor_le
  have hstart : (ascii "> ").take (80 - 1) = ascii "> " := rfl
  have hlen : (ascii "> ").length = 2 := rfl
  unfold buildPseudoPrompt promptText
  rw [hstart, ← h.text, ← h.cursor]
  by_cases hcursor : b.cmdCursor < b.cmdLen
  · rw [promptLoop_marks (Nat.zero_add _) (Nat.zero_le _) hcursor (by omega), List.drop_zero,
      Nat.sub_zero]
    dsimp only
    exact if_neg fun hend => by omega
  · rw [promptLoop_copies (Nat.zero_add _) (by omega) (by omega), List.drop_zero]
    dsimp only
    rw [if_pos ⟨by omega, by rw [List.length_append, length_bytes, hlen]; omega⟩,
      List.take_of_length_le (by rw [length_bytes]; omega),
      List.drop_eq_nil_of_le (by rw [length_bytes]; omega)]

end Prompt

/-! ### The screens -/

def gfxConsoleBg : UInt32 := displayRgb 0 0 0x40

section Screens

variable (m : Display.Mode)

def renderPseudoTextPrompt (b : CommandBuffer) : Option (List (Store UInt8)) :=
  drawEach id [some (displayFillRect m 0 558 m.width.toUInt32 24 gfxConsoleBg),
    displayPutsLine m ((buildPseudoPrompt b 80).takeWhile (· ≠ 0)) 20 560
      (displayRgb 0xFF 0xFF 0x80)]

def renderLog (lines : List Bytes) (start : ℕ) : Option (List (Store UInt8)) :=
  drawEach (fun (line, i) => displayPutsLine m line 20 (64 + i.toUInt32 * 20)
    (displayRgb 0xFF 0xFF 0xFF)) (lines.zipIdx start)

def renderPseudoTextScreen (b : CommandBuffer) (log : GfxLog) : Option (List (Store UInt8)) :=
  drawEach id [some (displayClear m gfxConsoleBg),
    displayPuts m (ascii "openkernel Command Line") 20 20 (displayRgb 0xFF 0xFF 0xFF),
    displayPuts m (ascii "Type 'help' for available commands.") 20 40
      (displayRgb 0xA0 0xA0 0xA0),
    renderLog m ((log.recent gfxLogLines).map rowText) 0,
    renderPseudoTextPrompt m b]

def renderGraphicsTestScreen : Option (List (Store UInt8)) :=
  drawEach id [some (displayClear m (displayRgb 0 0 0x40)),
    some (displayFillRect m 30 30 100 100 (displayRgb 0xFF 0 0)),
    some (displayFillRect m 150 30 100 100 (displayRgb 0 0xFF 0)),
    some (displayFillRect m 270 30 100 100 (displayRgb 0 0 0xFF)),
    some (displayFillRect m 390 30 100 100 (displayRgb 0xFF 0xFF 0)),
    some (displayFillRect m 510 30 100 100 (displayRgb 0xFF 0 0xFF)),
    some (displayDrawRect m 30 160 100 100 (displayRgb 0xFF 0xFF 0xFF)),
    some (displayDrawRect m 150 160 100 100 (displayRgb 0xFF 0xFF 0xFF)),
    some (displayDrawRect m 270 160 100 100 (displayRgb 0xFF 0xFF 0xFF)),
    some (displayDrawRect m 390 160 100 100 (displayRgb 0xFF 0xFF 0xFF)),
    some (displayDrawRect m 510 160 100 100 (displayRgb 0xFF 0xFF 0xFF)),
    displayPuts m (ascii "TEST TEXT! TEST TEXT! TEST TEXT!") 30 320 (displayRgb 0xFF 0xFF 0xFF),
    displayPuts m (ascii "TEST TEXT! TEST TEXT! TEST TEXT!") 30 340 (displayRgb 0xB0 0xB0 0xB0),
    displayPuts m (ascii "TEST TEXT! TEST TEXT! TEST TEXT!") 30 360
      (displayRgb 0x80 0xFF 0x80)]

/-! ### Their pictures -/

def promptLayers (prompt : Bytes) : List (Layer UInt8) :=
  [m.layer (InRect 0 558 m.width.toUInt32 24) gfxConsoleBg,
    m.layer (InLine (visible m 20 prompt) 20 560) (displayRgb 0xFF 0xFF 0x80)]

def logLayers (lines : List Bytes) (start : ℕ) : List (Layer UInt8) :=
  (lines.zipIdx start).map fun (line, i) =>
    m.layer (InLine (visible m 20 line) 20 (64 + 20 * i)) (displayRgb 0xFF 0xFF 0xFF)

/-- The console above the prompt. -/
def bodyLayers (lines : List Bytes) : List (Layer UInt8) :=
  m.cleared gfxConsoleBg ::
    m.layer (InText m (ascii "openkernel Command Line") 20 20) (displayRgb 0xFF 0xFF 0xFF) ::
    m.layer (InText m (ascii "Type 'help' for available commands.") 20 40)
      (displayRgb 0xA0 0xA0 0xA0) ::
    logLayers m lines 0

def consoleLayers (lines : List Bytes) (prompt : Bytes) : List (Layer UInt8) :=
  bodyLayers m lines ++ promptLayers m prompt

def testLayers : List (Layer UInt8) :=
  [m.cleared (displayRgb 0 0 0x40),
    m.layer (InRect 30 30 100 100) (displayRgb 0xFF 0 0),
    m.layer (InRect 150 30 100 100) (displayRgb 0 0xFF 0),
    m.layer (InRect 270 30 100 100) (displayRgb 0 0 0xFF),
    m.layer (InRect 390 30 100 100) (displayRgb 0xFF 0xFF 0),
    m.layer (InRect 510 30 100 100) (displayRgb 0xFF 0 0xFF),
    m.layer (OnBorder 30 160 100 100) (displayRgb 0xFF 0xFF 0xFF),
    m.layer (OnBorder 150 160 100 100) (displayRgb 0xFF 0xFF 0xFF),
    m.layer (OnBorder 270 160 100 100) (displayRgb 0xFF 0xFF 0xFF),
    m.layer (OnBorder 390 160 100 100) (displayRgb 0xFF 0xFF 0xFF),
    m.layer (OnBorder 510 160 100 100) (displayRgb 0xFF 0xFF 0xFF),
    m.layer (InText m (ascii "TEST TEXT! TEST TEXT! TEST TEXT!") 30 320)
      (displayRgb 0xFF 0xFF 0xFF),
    m.layer (InText m (ascii "TEST TEXT! TEST TEXT! TEST TEXT!") 30 340)
      (displayRgb 0xB0 0xB0 0xB0),
    m.layer (InText m (ascii "TEST TEXT! TEST TEXT! TEST TEXT!") 30 360)
      (displayRgb 0x80 0xFF 0x80)]

variable {m} {b : CommandBuffer} {log : GfxLog} {lines : List Bytes} {t : TextCursor UInt8}

theorem noWrap_bar (m : Display.Mode) : Display.NoWrap 0 558 m.width.toUInt32 24 := by
  have hwidth := m.width.toNat_lt
  refine ⟨?_, by decide⟩
  rw [UInt16.toNat_toUInt32]
  change 0 + m.width.toNat ≤ 2 ^ 32
  omega

theorem paints_prompt (hm : m.Drawable) (h : Shows pseudoCapacity b t) (hnul : 0 ∉ t.text) :
    m.Paints (promptLayers m (promptText t)) (renderPseudoTextPrompt m b) := by
  have hzero : 0 ∉ promptText t := by
    unfold promptText
    rw [List.mem_append, List.mem_append, List.mem_cons]
    rintro ((hpre | hmem) | hmark | hmem)
    · exact absurd hpre (by decide)
    · exact hnul (List.mem_of_mem_take hmem)
    · exact absurd hmark (by decide)
    · exact hnul (List.mem_of_mem_drop hmem)
  have hline := hm.paints_putsLine (promptText t) 20 (y := 560) (by decide)
    (displayRgb 0xFF 0xFF 0x80)
  unfold renderPseudoTextPrompt
  rw [buildPseudoPrompt_eq h, Lines.takeWhile_of_not_mem hzero]
  exact Display.Mode.paints_drawEach
    (.cons (hm.paints_fillRect (noWrap_bar m) gfxConsoleBg) (.cons hline .nil))

theorem paints_log (hm : m.Drawable) (lines : List Bytes) {start : ℕ}
    (hshort : start + lines.length < 2 ^ 16) :
    m.Paints (logLayers m lines start) (renderLog m lines start) := by
  induction lines generalizing start with
  | nil => exact ⟨[], rfl, fun hapart => Grid.paints_nil _⟩
  | cons line lines ih =>
    rw [List.length_cons] at hshort
    have hrow : (64 + start.toUInt32 * 20).toNat = 64 + 20 * start := by
      have hstart : start.toUInt32.toNat = start := Display.toNat_toUInt32 (by omega)
      rw [UInt32.toNat_add, UInt32.toNat_mul, hstart]
      change (64 + start * 20 % 2 ^ 32) % 2 ^ 32 = _
      omega
    have hfirst := hm.paints_putsLine line 20 (y := 64 + start.toUInt32 * 20)
      (by rw [hrow]; omega) (displayRgb 0xFF 0xFF 0xFF)
    rw [hrow] at hfirst
    exact Display.Mode.Paints.append hfirst (ih (by omega))

theorem paints_screen (hm : m.Regular) (h : Shows pseudoCapacity b t) (hnul : 0 ∉ t.text)
    {entries : List Bytes} (hlog : log.Holds gfxLogLines rowText entries) :
    m.Paints (consoleLayers m (entries.drop (entries.length - gfxLogLines)) (promptText t))
      (renderPseudoTextScreen m b log) := by
  have hd := hm.drawable
  have hshort : 0 + (entries.drop (entries.length - gfxLogLines)).length < 2 ^ 16 := by
    rw [List.length_drop]
    unfold gfxLogLines
    omega
  have htitle := hd.paints_puts (ascii "openkernel Command Line") (x := 20) (y := 20) (by decide)
    (by decide) (displayRgb 0xFF 0xFF 0xFF)
  have hhint := hd.paints_puts (ascii "Type 'help' for available commands.") (x := 20) (y := 40)
    (by decide) (by decide) (displayRgb 0xA0 0xA0 0xA0)
  have hall := Display.Mode.paints_drawEach (.cons (hm.paints_clear gfxConsoleBg)
    (.cons htitle (.cons hhint (.cons (paints_log hd _ hshort)
      (.cons (paints_prompt hd h hnul) .nil)))))
  rw [← hlog.recent] at hall ⊢
  have hlayers : ∀ c a b : Layer UInt8, ∀ l p : List (Layer UInt8),
      [[c], [a], [b], l, p].flatten = c :: a :: b :: l ++ p := by
    intro c a b l p
    simp
  rw [hlayers] at hall
  exact hall

theorem paints_testScreen (hm : m.Regular) :
    m.Paints (testLayers m) (renderGraphicsTestScreen m) := by
  have hd := hm.drawable
  have hfill : ∀ x color, x.toNat + 100 ≤ 2 ^ 32 →
      m.Paints [m.layer (InRect x 30 100 100) color]
        (some (displayFillRect m x 30 100 100 color)) :=
    fun x color hx => hd.paints_fillRect ⟨hx, by decide⟩ color
  have hdraw : ∀ x color, x.toNat + 100 ≤ 2 ^ 32 →
      m.Paints [m.layer (OnBorder x 160 100 100) color]
        (some (displayDrawRect m x 160 100 100 color)) :=
    fun x color hx => hd.paints_drawRect (by decide) (by decide) ⟨hx, by decide⟩ color
  have hputs : ∀ y color, y.toNat + 32 < 2 ^ 32 →
      m.Paints [m.layer (InText m (ascii "TEST TEXT! TEST TEXT! TEST TEXT!") 30 y.toNat) color]
        (displayPuts m (ascii "TEST TEXT! TEST TEXT! TEST TEXT!") 30 y color) :=
    fun y color hy => hd.paints_puts _ (x := 30) (by decide) hy color
  exact Display.Mode.paints_drawEach (.cons (hm.paints_clear _)
    (.cons (hfill 30 _ (by decide)) (.cons (hfill 150 _ (by decide))
    (.cons (hfill 270 _ (by decide)) (.cons (hfill 390 _ (by decide))
    (.cons (hfill 510 _ (by decide)) (.cons (hdraw 30 _ (by decide))
    (.cons (hdraw 150 _ (by decide)) (.cons (hdraw 270 _ (by decide))
    (.cons (hdraw 390 _ (by decide)) (.cons (hdraw 510 _ (by decide))
    (.cons (hputs 320 _ (by decide)) (.cons (hputs 340 _ (by decide))
    (.cons (hputs 360 _ (by decide)) .nil))))))))))))))

theorem prompt_on_bar (prompt : Bytes) {px py : ℕ}
    (hin : InLine (visible m 20 prompt) 20 560 px py) :
    InRect 0 558 m.width.toUInt32 24 px py := by
  obtain ⟨i, c, hi, ⟨-, hx⟩, ⟨hy, hy'⟩, -⟩ := hin
  have hlen := Display.length_visible_le m 20 prompt
  obtain ⟨hlt, -⟩ := List.getElem?_eq_some_iff.mp hi
  refine ⟨⟨Nat.zero_le _, ?_⟩, ?_, ?_⟩
  · rw [UInt16.toNat_toUInt32]
    change px < 0 + m.width.toNat
    omega
  · change 558 ≤ py
    omega
  · change py < 558 + 24
    omega

theorem displays_prompt {f : ℕ → UInt8} {stores : List (Store UInt8)} {old new : Bytes}
    (hm : m.Regular) (hf : m.Displays f (consoleLayers m lines old))
    (hpaints : m.Paints (promptLayers m new) (some stores)) :
    m.Displays (paint stores f) (consoleLayers m lines new) := by
  have hhidden : overlay (promptLayers m old ++ promptLayers m new) =
      overlay (promptLayers m new) := by
    funext pic
    refine overlay_hidden fun layer hlayer px py hin => ?_
    rcases List.mem_cons.mp hlayer with rfl | hlayer
    · exact hin
    · obtain rfl := List.mem_singleton.mp hlayer
      exact prompt_on_bar old hin
  intro px py hx hy
  rw [hf.paint hm hpaints px py hx hy]
  unfold consoleLayers
  rw [List.append_assoc, overlay_append, hhidden, ← overlay_append]

/-! ### Telling the screens apart -/

theorem overlay_testLayers (m : Display.Mode) (pic : Picture UInt8) :
    overlay (testLayers m) pic 35 100 = m.pixelBytes (displayRgb 0xFF 0 0) := by
  have hfill : ∀ x color, 35 < x.toNat → ¬(m.layer (InRect x 30 100 100) color).region 35 100 :=
    fun x color hx hin => absurd hin.1.1 (by omega)
  have hdraw : ∀ x color, ¬(m.layer (OnBorder x 160 100 100) color).region 35 100 :=
    fun x color hin => absurd hin.1.2.1 (by decide)
  have hputs : ∀ str y color, 100 < y → ¬(m.layer (InText m str 30 y) color).region 35 100 :=
    fun str y color hy hin => absurd hin.row_le (by omega)
  unfold testLayers
  rw [overlay_cons, overlay_cons, overlay_of_not_region]
  · exact Layer.over_of_region (l := m.layer (InRect 30 30 100 100) (displayRgb 0xFF 0 0))
      ⟨⟨by decide, by decide⟩, by decide, by decide⟩
  · simp only [List.forall_mem_cons]
    exact ⟨hfill _ _ (by decide), hfill _ _ (by decide), hfill _ _ (by decide),
      hfill _ _ (by decide), hdraw _ _, hdraw _ _, hdraw _ _, hdraw _ _, hdraw _ _,
      hputs _ _ _ (by decide), hputs _ _ _ (by decide), hputs _ _ _ (by decide), nofun⟩

theorem overlay_consoleLayers (hcolumns : 18 ≤ columns m 20) (lines : List Bytes)
    (prompt : Bytes) (pic : Picture UInt8) :
    overlay (consoleLayers m lines prompt) pic 35 100 = m.clearBytes gfxConsoleBg := by
  have hputs : ∀ str y color, 10 ∉ str → str.length ≤ 36 → y ≤ 40 →
      ¬(m.layer (InText m str 20 y) color).region 35 100 := by
    intro str y color hnewline hlen hy hin
    have hlt := hin.lt_row 2 hnewline (by omega)
    omega
  unfold consoleLayers bodyLayers
  rw [List.cons_append, overlay_cons, overlay_of_not_region]
  · exact Layer.over_of_region trivial
  · rw [List.cons_append, List.cons_append, List.forall_mem_cons, List.forall_mem_cons]
    refine ⟨hputs _ _ _ (by decide) (by decide) (by decide),
      hputs _ _ _ (by decide) (by decide) (by decide), fun l hl hin => ?_⟩
    rcases List.mem_append.mp hl with hl | hl
    · -- the pixel lies between the second line and the third
      obtain ⟨⟨line, i⟩, -, rfl⟩ := List.mem_map.mp hl
      obtain ⟨j, c, -, -, hrow, -⟩ := hin
      omega
    · rcases List.mem_cons.mp hl with rfl | hl
      · exact absurd hin.2.1 (by decide)
      · obtain rfl := List.mem_singleton.mp hl
        obtain ⟨j, c, -, -, hrow, -⟩ := hin
        omega

theorem not_displays_console {f : ℕ → UInt8} (hm : m = bochsMode ∨ m = vgaMode13)
    (htest : m.Displays f (testLayers m)) (lines : List Bytes) (prompt : Bytes) :
    ¬m.Displays f (consoleLayers m lines prompt) := by
  intro hconsole
  obtain ⟨hwidth, hheight, hcolumns, hne⟩ : 35 < m.width.toNat ∧ 100 < m.height.toNat ∧
      18 ≤ columns m 20 ∧ m.pixelBytes (displayRgb 0xFF 0 0) ≠ m.clearBytes gfxConsoleBg := by
    rcases hm with rfl | rfl <;> decide
  have heq := (htest 35 100 hwidth hheight).symm.trans (hconsole 35 100 hwidth hheight)
  rw [overlay_testLayers, overlay_consoleLayers hcolumns] at heq
  exact hne heq

end Screens

end OpenKernel.Shell
