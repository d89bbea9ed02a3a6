import OpenKernel.Lib.History
import OpenKernel.Shell.ConsoleCommands
import OpenKernel.Shell.GraphicsScreen
import OpenKernel.Shell.MainLoop

/-!
# What the console shows

The shell with the log of the graphics console and the framebuffer. Most keys only paint the prompt
again; Enter paints the whole screen. The console always shows the last lines that were logged
since it was cleared, and the command that is being typed. The test screen is on the screen in
the mode that has it, but for one way to get there: after the command `gfx` the console is painted
over it.
-/

namespace OpenKernel.Shell

open FileSystem
open Display (bochsMode)
open Input (CommandBuffer KeyEvent printable)

/-! ### The machine -/

/-- The shell, `gfx_log`, and the bytes of the framebuffer. -/
structure Console where
  shell : ShellState
  log : GfxLog
  frame : ℕ → UInt8

def logCall (log : GfxLog) : ConsoleCall → GfxLog
  | .log line => appendGfxLog log line
  | .clear => clearGfxLog log

/-- `gfx_redraw` is set for the key: it changes the command. -/
def redraws (b : CommandBuffer) : KeyEvent → Bool
  | .backspace => 0 < b.cmdCursor
  | .character ch => printable ch && b.cmdLen < pseudoCapacity
  | .navigate .left => 0 < b.cmdCursor
  | .navigate .right => b.cmdCursor < b.cmdLen
  | .navigate .delete => b.cmdCursor < b.cmdLen

section Machine

variable (alloc : Allocator) (m : Display.Mode) (info : Boot.SavedInfo) (stack : ℕ → ℕ → UInt8)

/-- The calls that a command makes for its console. -/
def commandOutput (s : ShellState) (entered : Bool) (command : Bytes) :
    Option (List ConsoleCall) :=
  if s.fs.editActive then some ((fsEditHandleLine alloc s.fs command).2.2.map .log)
  else
    match fsHandleCommand alloc s.fs command with
    | (_, true, lines) => some (lines.map .log)
    | (_, false, _) => executeConsoleCommand info stack (s.mode = .pseudo) entered command

def keyOutput (s : ShellState) : Key → Option (List ConsoleCall)
  | .enter entered =>
    match enteredCommand s with
    | some command => commandOutput alloc info stack s entered command
    | none => some []
  | _ => some []

namespace Console

def draw (s : Console) (drawing : Option (List (Store UInt8))) : Option Console :=
  drawing.map fun stores => { s with frame := paint stores s.frame }

/-- A key. In text mode nothing is drawn in the framebuffer. -/
def step (s : Console) (key : Key) : Option Console := do
  let calls ← keyOutput alloc info stack s.shell key
  let next := { s with shell := Shell.step alloc s.shell key }
  match s.shell.mode, key with
  | .text, _ =>
    if next.shell.mode = .graphics then next.draw (renderGraphicsTestScreen m) else some next
  | .graphics, .edit _ => some next
  | .graphics, _ => next.draw (renderPseudoTextScreen m next.shell.pseudo next.log)
  | .pseudo, .edit e =>
    if redraws s.shell.pseudo e then next.draw (renderPseudoTextPrompt m next.shell.pseudo)
    else some next
  | .pseudo, .toggle _ => next.draw (renderGraphicsTestScreen m)
  | .pseudo, .enter _ =>
    match enteredCommand s.shell with
    | none => next.draw (renderPseudoTextPrompt m next.shell.pseudo)
    | some command => do
      let next := { next with log := calls.foldl logCall (appendGfxPromptLine s.log command) }
      let next ← if next.shell.mode = .graphics then next.draw (renderGraphicsTestScreen m)
        else some next
      next.draw (renderPseudoTextScreen m next.shell.pseudo next.log)

/-- The `int` that counts the lines goes on without an overflow. -/
def Fits (s : Console) (key : Key) : Prop :=
  s.log.count + ((keyOutput alloc info stack s.shell key).getD []).length + 1 < 2 ^ 31

/-- When the main loop is reached; nothing is known of the framebuffer. -/
def start (frame : ℕ → UInt8) : Console := ⟨Shell.start alloc, ⟨fun _ _ => 0, 0⟩, frame⟩

end Console

/-! ### What it should show -/

/-- The shell, and everything that has been logged since the console was cleared. -/
structure Conversation where
  shell : ShellState
  lines : List Bytes

def speak (lines : List Bytes) : ConsoleCall → List Bytes
  | .log line => lines ++ [line]
  | .clear => []

/-- The console logs the command that is run there, and what it answers. -/
def Conversation.next (c : Conversation) (key : Key) : Conversation where
  shell := step alloc c.shell key
  lines :=
    match c.shell.mode, key with
    | .pseudo, .enter _ =>
      match enteredCommand c.shell with
      | none => c.lines
      | some command =>
        ((keyOutput alloc info stack c.shell key).getD []).foldl speak
          (c.lines ++ [ascii "> " ++ command])
    | _, _ => c.lines

def conversation (keys : List Key) : Conversation :=
  keys.foldl (Conversation.next alloc info stack) ⟨start alloc, []⟩

/-- The last 24 lines, as far as they fit into a row of the log. -/
def shownLines (lines : List Bytes) : List Bytes :=
  (lines.map entryText).drop (lines.length - gfxLogLines)

def RunsGfx (s : ShellState) (key : Key) : Prop :=
  s.mode = .pseudo ∧ (∃ entered, key = .enter entered) ∧
    consoleCommand alloc s = some (ascii "gfx")

/-- The last key that is not one of the test screen's own has run `gfx` at the console. -/
def Stale (keys : List Key) : Prop :=
  ∃ before key, ∃ edits : List KeyEvent, keys = before ++ key :: edits.map .edit ∧
    RunsGfx alloc (conversation alloc info stack before).shell key

end Machine

/-! ### The log -/

section Log

variable {log : GfxLog} {lines : List Bytes}

theorem entryText_promptLine (command : Bytes) :
    entryText ((ascii "> " ++ command.takeWhile (· ≠ 0)).take (gfxLogCols - 1)) =
      entryText (ascii "> " ++ command) := by
  have hmark : 0 ∉ ascii "> " := by decide
  have hnul : 0 ∉ ascii "> " ++ command.takeWhile (· ≠ 0) := by
    rw [List.mem_append]
    rintro (hmem | hmem)
    · exact hmark hmem
    · exact Lines.sep_not_mem_takeWhile hmem
  have hne : ∀ c ∈ ascii "> ", decide (c ≠ 0) = true := fun c hc =>
    decide_eq_true fun he => hmark (he ▸ hc)
  unfold entryText
  rw [Lines.takeWhile_of_not_mem fun hmem => hnul (List.mem_of_mem_take hmem), List.take_take,
    min_self, List.takeWhile_append_of_pos hne]

theorem holds_appendGfxPromptLine (h : log.Holds gfxLogLines rowText (lines.map entryText))
    (command : Bytes) : (appendGfxPromptLine log command).Holds gfxLogLines rowText
      ((lines ++ [ascii "> " ++ command]).map entryText) := by
  rw [List.map_append, List.map_singleton, ← entryText_promptLine]
  exact holds_appendGfxLog h _

theorem holds_logCalls (calls : List ConsoleCall)
    (h : log.Holds gfxLogLines rowText (lines.map entryText)) :
    (calls.foldl logCall log).Holds gfxLogLines rowText
      ((calls.foldl speak lines).map entryText) := by
  induction calls generalizing log lines with
  | nil => exact h
  | cons call calls ih =>
    apply ih
    cases call with
    | log line =>
      rw [speak, List.map_append]
      exact holds_appendGfxLog h line
    | clear => exact holds_clearGfxLog log

end Log

/-! ### Drawing -/

section Drawing

variable {m : Display.Mode} {s t : Console} {lines : List Bytes}

theorem draw_eq_some {drawing : Option (List (Store UInt8))} (h : s.draw drawing = some t) :
    ∃ stores, drawing = some stores ∧ t = { s with frame := paint stores s.frame } := by
  obtain ⟨stores, hstores, rfl⟩ := Option.map_eq_some_iff.mp h
  exact ⟨stores, hstores, rfl⟩

theorem draw_of_paints {layers : List (Layer UInt8)}
    {drawing : Option (List (Store UInt8))} (h : m.Paints layers drawing) :
    ∃ t, s.draw drawing = some t := by
  obtain ⟨stores, rfl, -⟩ := h
  exact ⟨_, rfl⟩

/-- The console with these lines and the command that is being typed is on the screen. -/
def ConsoleShown (m : Display.Mode) (s : Console) (lines : List Bytes) : Prop :=
  ∃ p, Shows pseudoCapacity s.shell.pseudo p ∧
    m.Displays s.frame (consoleLayers m (shownLines lines) (promptText p))

theorem shown_screen (hm : m.Regular) (hvalid : ShellInv s.shell)
    (hlog : s.log.Holds gfxLogLines rowText (lines.map entryText))
    (h : s.draw (renderPseudoTextScreen m s.shell.pseudo s.log) = some t) :
    t.shell = s.shell ∧ t.log = s.log ∧ ConsoleShown m t lines := by
  obtain ⟨stores, hstores, rfl⟩ := draw_eq_some h
  obtain ⟨p, hp, hnul⟩ := hvalid.pseudo
  have hpaints := paints_screen hm hp hnul hlog
  rw [hstores, List.length_map] at hpaints
  exact ⟨rfl, rfl, p, hp, hm.displays hpaints s.frame⟩

theorem shown_prompt (hm : m.Regular) (hvalid : ShellInv s.shell) {old : Bytes}
    (hframe : m.Displays s.frame (consoleLayers m (shownLines lines) old))
    (h : s.draw (renderPseudoTextPrompt m s.shell.pseudo) = some t) :
    t.shell = s.shell ∧ t.log = s.log ∧ ConsoleShown m t lines := by
  obtain ⟨stores, hstores, rfl⟩ := draw_eq_some h
  obtain ⟨p, hp, hnul⟩ := hvalid.pseudo
  have hpaints := paints_prompt hm.drawable hp hnul
  rw [hstores] at hpaints
  exact ⟨rfl, rfl, p, hp, displays_prompt hm hframe hpaints⟩

theorem shown_test (hm : m.Regular) (h : s.draw (renderGraphicsTestScreen m) = some t) :
    t.shell = s.shell ∧ t.log = s.log ∧ m.Displays t.frame (testLayers m) := by
  obtain ⟨stores, hstores, rfl⟩ := draw_eq_some h
  have hpaints := paints_testScreen hm
  rw [hstores] at hpaints
  exact ⟨rfl, rfl, hm.displays hpaints s.frame⟩

end Drawing

/-! ### Keys -/

section Keys

variable {alloc : Allocator} {info : Boot.SavedInfo} {stack : ℕ → ℕ → UInt8} {s : ShellState}
  {key : Key} {keys : List Key}

theorem editKey_of_not_redraws {b : CommandBuffer} {e : KeyEvent} (h : redraws b e = false) :
    editKey b pseudoCapacity e = b := by
  cases e with
  | backspace => exact if_neg (of_decide_eq_false h)
  | character ch =>
    unfold editKey
    dsimp only
    split_ifs with hprintable
    · rw [redraws, hprintable, Bool.true_and] at h
      exact if_neg (of_decide_eq_false h)
    · rfl
  | navigate n =>
    cases n with
    | left => exact if_neg (of_decide_eq_false h)
    | right => exact if_neg (of_decide_eq_false h)
    | delete => exact if_neg (of_decide_eq_false h)

theorem mode_edit (alloc : Allocator) (s : ShellState) (e : KeyEvent) :
    (step alloc s (.edit e)).mode = s.mode := by
  unfold step
  cases hmode : s.mode <;> simp

/-- From text mode the console is not reached at once. -/
theorem mode_of_text (alloc : Allocator) (hmode : s.mode = .text) (key : Key) :
    (step alloc s key).mode ≠ .pseudo := by
  cases key with
  | edit e =>
    rw [mode_edit, hmode]
    exact nofun
  | enter entered =>
    unfold step
    rw [hmode]
    dsimp only
    unfold enterText
    dsimp only
    split_ifs
    · exact nofun
    · exact nofun
    · rw [hmode]
      exact nofun
  | toggle entered =>
    unfold step
    rw [hmode]
    dsimp only
    split_ifs
    · exact nofun
    · exact nofun

theorem mode_of_graphics (alloc : Allocator) (hmode : s.mode = .graphics)
    (hkey : ∀ e, key ≠ .edit e) : (step alloc s key).mode = .pseudo := by
  unfold step
  cases key with
  | edit e => exact absurd rfl (hkey e)
  | enter entered => rw [hmode]
  | toggle entered => rw [hmode]

/-- Enter at the console leaves it exactly with `gfx`. -/
theorem mode_enter_pseudo (hmode : s.mode = .pseudo) (entered : Bool) :
    (step alloc s (.enter entered)).mode =
      if consoleCommand alloc s = some (ascii "gfx") then .graphics else .pseudo := by
  have hstep : step alloc s (.enter entered) = enterPseudo alloc s := by
    unfold step
    rw [hmode]
  have hentered : enteredCommand s =
      if 0 < s.pseudo.cmdLen then some (command (terminated s.pseudo)) else none := by
    unfold enteredCommand
    rw [hmode]
  rw [hstep, consoleCommand, hentered]
  change (if 0 < s.pseudo.cmdLen ∧ asksForGraphics alloc s.fs (command (terminated s.pseudo)) then
    Mode.graphics else Mode.pseudo) = _
  congr 1
  rw [eq_iff_iff]
  by_cases hlen : 0 < s.pseudo.cmdLen
  · rw [if_pos hlen, and_iff_right hlen, Option.filter_some, asksForGraphics]
    cases !s.fs.editActive && !(fsHandleCommand alloc s.fs (command (terminated s.pseudo))).2.1 with
    | false => exact iff_of_false Bool.false_ne_true (Option.some_ne_none _).symm
    | true => simp
  · rw [if_neg hlen]
    exact iff_of_false (fun h => hlen h.1) (Option.some_ne_none _).symm

end Keys

/-! ### Runs -/

section Runs

variable {alloc : Allocator} {m : Display.Mode} {info : Boot.SavedInfo} {stack : ℕ → ℕ → UInt8}
  {s t : Console} {c : Conversation} {key : Key} {keys : List Key} {e : KeyEvent}

theorem conversation_concat (keys : List Key) (key : Key) :
    conversation alloc info stack (keys ++ [key]) =
      (conversation alloc info stack keys).next alloc info stack key :=
  List.foldl_concat ..

theorem lines_next_of_ne (h : c.shell.mode ≠ .pseudo) :
    (c.next alloc info stack key).lines = c.lines := by
  unfold Conversation.next
  cases hmode : c.shell.mode with
  | text => rfl
  | graphics => rfl
  | pseudo => exact absurd hmode h

theorem lines_next_edit : (c.next alloc info stack (.edit e)).lines = c.lines := by
  unfold Conversation.next
  cases c.shell.mode <;> rfl

theorem lines_next_toggle {entered : Bool} :
    (c.next alloc info stack (.toggle entered)).lines = c.lines := by
  unfold Conversation.next
  cases c.shell.mode <;> rfl

theorem lines_next_none {entered : Bool} (hnone : enteredCommand c.shell = none) :
    (c.next alloc info stack (.enter entered)).lines = c.lines := by
  unfold Conversation.next
  rw [hnone]
  cases c.shell.mode <;> rfl

theorem lines_next_some {entered : Bool} {calls : List ConsoleCall} {command : Bytes}
    (hmode : c.shell.mode = .pseudo) (hsome : enteredCommand c.shell = some command)
    (hcalls : keyOutput alloc info stack c.shell (.enter entered) = some calls) :
    (c.next alloc info stack (.enter entered)).lines =
      calls.foldl speak (c.lines ++ [ascii "> " ++ command]) := by
  unfold Conversation.next
  rw [hmode, hsome, hcalls]
  rfl

theorem stale_concat_iff : Stale alloc info stack (keys ++ [key]) ↔
    RunsGfx alloc (conversation alloc info stack keys).shell key ∨
      (∃ e, key = .edit e) ∧ Stale alloc info stack keys := by
  constructor
  · rintro ⟨before, gfx, edits, heq, hgfx⟩
    rcases append_singleton_eq_append_cons.mp heq with ⟨-, rfl, rfl⟩ | ⟨rest, hrest, rfl⟩
    · exact Or.inl hgfx
    · obtain ⟨edits, last, rfl, rfl, hlast⟩ := List.map_eq_append_iff.mp hrest
      obtain ⟨e, rfl, rfl⟩ := List.map_eq_singleton_iff.mp hlast
      exact Or.inr ⟨⟨e, rfl⟩, before, gfx, edits, rfl, hgfx⟩
  · rintro (hgfx | ⟨⟨e, rfl⟩, before, gfx, edits, rfl, hgfx⟩)
    · exact ⟨keys, key, [], rfl, hgfx⟩
    · exact ⟨before, gfx, edits ++ [e], by simp, hgfx⟩

/-- The machine is where the conversation is, and shows it. -/
structure Follows (alloc : Allocator) (m : Display.Mode) (info : Boot.SavedInfo)
    (stack : ℕ → ℕ → UInt8) (t : Console) (keys : List Key) : Prop where
  shell : t.shell = (conversation alloc info stack keys).shell
  buffers : ShellInv t.shell
  log : t.log.Holds gfxLogLines rowText
    ((conversation alloc info stack keys).lines.map entryText)
  console : t.shell.mode = .pseudo →
    ConsoleShown m t (conversation alloc info stack keys).lines
  test : t.shell.mode = .graphics → ¬Stale alloc info stack keys →
    m.Displays t.frame (testLayers m)
  stale : t.shell.mode = .graphics → Stale alloc info stack keys → ∃ prompt,
    m.Displays t.frame
      (consoleLayers m (shownLines (conversation alloc info stack keys).lines) prompt)

namespace Follows

variable (h : Follows alloc m info stack s keys)

include h

theorem next (key : Key) (hshell : t.shell = step alloc s.shell key) :
    t.shell = (conversation alloc info stack (keys ++ [key])).shell ∧ ShellInv t.shell := by
  refine ⟨?_, ?_⟩
  · rw [conversation_concat, hshell, h.shell]
    rfl
  · rw [hshell]
    exact h.buffers.step key

theorem log_next (key : Key) (hlog : t.log = s.log)
    (hlines : (conversation alloc info stack (keys ++ [key])).lines =
      (conversation alloc info stack keys).lines) :
    t.log.Holds gfxLogLines rowText
      ((conversation alloc info stack (keys ++ [key])).lines.map entryText) := by
  rw [hlog, hlines]
  exact h.log

theorem of_shown (key : Key) (hshell : t.shell = step alloc s.shell key)
    (hlog : t.log.Holds gfxLogLines rowText
      ((conversation alloc info stack (keys ++ [key])).lines.map entryText))
    (hmode : (step alloc s.shell key).mode = .pseudo)
    (hshown : ConsoleShown m t (conversation alloc info stack (keys ++ [key])).lines) :
    Follows alloc m info stack t (keys ++ [key]) := by
  obtain ⟨hconv, hbuffers⟩ := h.next key hshell
  have hnot : t.shell.mode ≠ .graphics := by
    rw [hshell, hmode]
    decide
  exact ⟨hconv, hbuffers, hlog, fun _ => hshown, fun hg => absurd hg hnot,
    fun hg => absurd hg hnot⟩

theorem text (hm : m.Regular) (hmode : s.shell.mode = .text)
    (hstep : s.step alloc m info stack key = some t) :
    Follows alloc m info stack t (keys ++ [key]) := by
  have hlines : (conversation alloc info stack (keys ++ [key])).lines =
      (conversation alloc info stack keys).lines := by
    rw [conversation_concat]
    exact lines_next_of_ne (by rw [← h.shell, hmode]; decide)
  have hstale : ∀ e, key = .edit e → (step alloc s.shell key).mode = .text := by
    rintro e rfl
    rw [mode_edit, hmode]
  have hnot : (step alloc s.shell key).mode = .graphics →
      ¬Stale alloc info stack (keys ++ [key]) := by
    rw [stale_concat_iff]
    rintro hgraphics (⟨hpseudo, -⟩ | ⟨⟨e, he⟩, -⟩)
    · rw [← h.shell, hmode] at hpseudo
      cases hpseudo
    · rw [hstale e he] at hgraphics
      cases hgraphics
  have hpseudo := mode_of_text alloc hmode key
  unfold Console.step at hstep
  obtain ⟨calls, -, hstep⟩ := Option.bind_eq_some_iff.mp hstep
  rw [hmode] at hstep
  dsimp only at hstep
  split_ifs at hstep with hgraphics
  · obtain ⟨hshell, hlog, htest⟩ := shown_test hm hstep
    obtain ⟨hconv, hbuffers⟩ := h.next key hshell
    refine ⟨hconv, hbuffers, h.log_next key hlog hlines, ?_, fun _ _ => htest, ?_⟩
    · rw [hshell]
      exact fun hp => absurd hp hpseudo
    · exact fun _ hst => absurd hst (hnot hgraphics)
  · obtain rfl := Option.some.inj hstep
    obtain ⟨hconv, hbuffers⟩ := h.next (t := { s with shell := step alloc s.shell key }) key rfl
    exact ⟨hconv, hbuffers, h.log_next key rfl hlines, fun hp => absurd hp hpseudo,
      fun hg => absurd hg hgraphics, fun hg => absurd hg hgraphics⟩

theorem graphics (hm : m.Regular) (hmode : s.shell.mode = .graphics)
    (hstep : s.step alloc m info stack key = some t) :
    Follows alloc m info stack t (keys ++ [key]) := by
  have hlines : (conversation alloc info stack (keys ++ [key])).lines =
      (conversation alloc info stack keys).lines := by
    rw [conversation_concat]
    exact lines_next_of_ne (by rw [← h.shell, hmode]; decide)
  obtain ⟨hconv, hbuffers⟩ := h.next (t := { s with shell := step alloc s.shell key }) key rfl
  have hlog := h.log_next (t := { s with shell := step alloc s.shell key }) key rfl hlines
  have hscreen : (∀ e, key ≠ .edit e) →
      ({ s with shell := step alloc s.shell key } : Console).draw (renderPseudoTextScreen m
        (step alloc s.shell key).pseudo s.log) = some t →
      Follows alloc m info stack t (keys ++ [key]) := by
    intro hkey hdraw
    obtain ⟨hshell, hkept, hshown⟩ := shown_screen hm hbuffers hlog hdraw
    exact h.of_shown key hshell (h.log_next key hkept hlines)
      (mode_of_graphics alloc hmode hkey) hshown
  unfold Console.step at hstep
  obtain ⟨calls, -, hstep⟩ := Option.bind_eq_some_iff.mp hstep
  rw [hmode] at hstep
  cases key with
  | enter entered => exact hscreen nofun hstep
  | toggle entered => exact hscreen nofun hstep
  | edit e =>
    obtain rfl := Option.some.inj hstep
    have hstale : Stale alloc info stack (keys ++ [.edit e]) ↔ Stale alloc info stack keys := by
      rw [stale_concat_iff]
      constructor
      · rintro (⟨-, ⟨entered, he⟩, -⟩ | ⟨-, hst⟩)
        · cases he
        · exact hst
      · exact fun hst => Or.inr ⟨⟨e, rfl⟩, hst⟩
    refine ⟨hconv, hbuffers, hlog, ?_, fun _ hst => ?_, fun _ hst => ?_⟩
    · intro hp
      change (step alloc s.shell (.edit e)).mode = .pseudo at hp
      rw [mode_edit, hmode] at hp
      cases hp
    · exact h.test hmode (fun hst' => hst (hstale.mpr hst'))
    · rw [hlines]
      exact h.stale hmode (hstale.mp hst)

theorem prompt (hm : m.Regular) (hmode : s.shell.mode = .pseudo)
    (hnext : (step alloc s.shell key).mode = .pseudo)
    (hlines : (conversation alloc info stack (keys ++ [key])).lines =
      (conversation alloc info stack keys).lines)
    (hdraw : ({ s with shell := step alloc s.shell key } : Console).draw
      (renderPseudoTextPrompt m (step alloc s.shell key).pseudo) = some t) :
    Follows alloc m info stack t (keys ++ [key]) := by
  obtain ⟨-, hvalid⟩ := h.next (t := { s with shell := step alloc s.shell key }) key rfl
  obtain ⟨p, -, hframe⟩ := h.console hmode
  obtain ⟨hshell, hlog, hshown⟩ := shown_prompt hm hvalid hframe hdraw
  rw [← hlines] at hshown
  exact h.of_shown key hshell (h.log_next key hlog hlines) hnext hshown

/-- Enter at the console, with a command. -/
theorem run {entered : Bool} (hm : m.Regular) (hmode : s.shell.mode = .pseudo) {command : Bytes}
    {calls : List ConsoleCall} (hcommand : enteredCommand s.shell = some command)
    (hcalls : keyOutput alloc info stack s.shell (.enter entered) = some calls) {u : Console}
    (hshell : u.shell = step alloc s.shell (.enter entered))
    (hlog : u.log = calls.foldl logCall (appendGfxPromptLine s.log command))
    (hdraw : u.draw (renderPseudoTextScreen m u.shell.pseudo u.log) = some t) :
    Follows alloc m info stack t (keys ++ [.enter entered]) := by
  have hlines : (conversation alloc info stack (keys ++ [.enter entered])).lines =
      calls.foldl speak
        ((conversation alloc info stack keys).lines ++ [ascii "> " ++ command]) := by
    rw [conversation_concat]
    rw [h.shell] at hmode hcommand hcalls
    exact lines_next_some hmode hcommand hcalls
  have hholds : u.log.Holds gfxLogLines rowText
      ((conversation alloc info stack (keys ++ [.enter entered])).lines.map entryText) := by
    rw [hlog, hlines]
    exact holds_logCalls calls (holds_appendGfxPromptLine h.log command)
  have hvalid : ShellInv u.shell := (h.next _ hshell).2
  obtain ⟨hsame, hkept, hshown⟩ := shown_screen hm hvalid hholds hdraw
  obtain ⟨hconv, hbuffers⟩ := h.next _ (hsame.trans hshell)
  refine ⟨hconv, hbuffers, hkept ▸ hholds, fun _ => hshown, fun hg hst => ?_, fun _ _ => ?_⟩
  · rw [hsame, hshell, mode_enter_pseudo hmode] at hg
    split_ifs at hg with hgfx
    rw [h.shell] at hmode hgfx
    exact absurd (stale_concat_iff.mpr (Or.inl ⟨hmode, ⟨entered, rfl⟩, hgfx⟩)) hst
  · obtain ⟨p, -, hframe⟩ := hshown
    exact ⟨promptText p, hframe⟩

theorem pseudo (hm : m.Regular) (hmode : s.shell.mode = .pseudo)
    (hstep : s.step alloc m info stack key = some t) :
    Follows alloc m info stack t (keys ++ [key]) := by
  unfold Console.step at hstep
  obtain ⟨calls, hcalls, hstep⟩ := Option.bind_eq_some_iff.mp hstep
  rw [hmode] at hstep
  cases key with
  | edit e =>
    have hlines : (conversation alloc info stack (keys ++ [.edit e])).lines =
        (conversation alloc info stack keys).lines := by
      rw [conversation_concat, lines_next_edit]
    have hnext : (step alloc s.shell (.edit e)).mode = .pseudo := by rw [mode_edit, hmode]
    dsimp only at hstep
    split_ifs at hstep with hredraw
    · exact h.prompt hm hmode hnext hlines hstep
    · obtain rfl := Option.some.inj hstep
      have hsame : step alloc s.shell (.edit e) = s.shell := by
        unfold step
        rw [hmode]
        dsimp only
        rw [editKey_of_not_redraws (Bool.eq_false_of_not_eq_true hredraw), ← hmode]
      refine h.of_shown (.edit e) rfl (h.log_next _ rfl hlines) hnext ?_
      rw [hlines, hsame]
      exact h.console hmode
  | toggle entered =>
    have hlines : (conversation alloc info stack (keys ++ [.toggle entered])).lines =
        (conversation alloc info stack keys).lines := by
      rw [conversation_concat, lines_next_toggle]
    have hnext : (step alloc s.shell (.toggle entered)).mode = .graphics := by
      unfold step
      rw [hmode]
    have hnot : ¬Stale alloc info stack (keys ++ [.toggle entered]) := by
      rw [stale_concat_iff]
      rintro (⟨-, ⟨entered', he⟩, -⟩ | ⟨⟨e, he⟩, -⟩)
      · cases he
      · cases he
    obtain ⟨hshell, hlog, htest⟩ := shown_test hm hstep
    obtain ⟨hconv, hbuffers⟩ := h.next (.toggle entered) hshell
    refine ⟨hconv, hbuffers, h.log_next _ hlog hlines, fun hp => ?_, fun _ _ => htest,
      fun _ hst => absurd hst hnot⟩
    rw [hshell, hnext] at hp
    cases hp
  | enter entered =>
    dsimp only at hstep
    cases hcommand : enteredCommand s.shell with
    | none =>
      rw [hcommand] at hstep
      have hlines : (conversation alloc info stack (keys ++ [.enter entered])).lines =
          (conversation alloc info stack keys).lines := by
        rw [conversation_concat]
        exact lines_next_none (by rw [← h.shell, hcommand])
      have hnext : (step alloc s.shell (.enter entered)).mode = .pseudo := by
        rw [mode_enter_pseudo hmode, consoleCommand, hcommand]
        rfl
      exact h.prompt hm hmode hnext hlines hstep
    | some command =>
      rw [hcommand] at hstep
      dsimp only at hstep
      split_ifs at hstep with hgraphics
      · obtain ⟨u, hu, hdraw⟩ := Option.bind_eq_some_iff.mp hstep
        obtain ⟨hshell, hlog, -⟩ := shown_test hm hu
        exact h.run hm hmode hcommand hcalls hshell hlog hdraw
      · obtain ⟨u, hu, hdraw⟩ := Option.bind_eq_some_iff.mp hstep
        obtain rfl := Option.some.inj hu
        exact h.run hm hmode hcommand hcalls rfl rfl hdraw

theorem step (hm : m.Regular) (hstep : s.step alloc m info stack key = some t) :
    Follows alloc m info stack t (keys ++ [key]) := by
  cases hmode : s.shell.mode with
  | text => exact h.text hm hmode hstep
  | graphics => exact h.graphics hm hmode hstep
  | pseudo => exact h.pseudo hm hmode hstep

/-- A key for which no command fails to return is dealt with: nothing that is drawn leaves the
font. -/
theorem returns_iff (hm : m.Regular) : (∃ t, s.step alloc m info stack key = some t) ↔
    keyOutput alloc info stack s.shell key ≠ none := by
  constructor
  · rintro ⟨t, hstep⟩ hnone
    unfold Console.step at hstep
    rw [hnone] at hstep
    cases hstep
  · intro hcalls
    obtain ⟨calls, hcalls⟩ := Option.ne_none_iff_exists'.mp hcalls
    obtain ⟨p, hp, hnul⟩ := (h.buffers.step key).pseudo
    have htest : ∀ u : Console, ∃ t, u.draw (renderGraphicsTestScreen m) = some t :=
      fun u => draw_of_paints (paints_testScreen hm)
    have hprompt : ∀ u : Console,
        ∃ t, u.draw (renderPseudoTextPrompt m (Shell.step alloc s.shell key).pseudo) = some t :=
      fun u => draw_of_paints (paints_prompt hm.drawable hp hnul)
    have hscreen : ∀ (u : Console) (log : GfxLog) (lines : List Bytes),
        log.Holds gfxLogLines rowText (lines.map entryText) →
        ∃ t, u.draw (renderPseudoTextScreen m (Shell.step alloc s.shell key).pseudo log) = some t :=
      fun u log lines hlog => draw_of_paints (paints_screen hm hp hnul hlog)
    unfold Console.step
    rw [hcalls, Option.bind_eq_bind, Option.bind_some]
    cases s.shell.mode with
    | text =>
      dsimp only
      split_ifs
      · exact htest _
      · exact ⟨_, rfl⟩
    | graphics =>
      cases key with
      | edit e => exact ⟨_, rfl⟩
      | enter entered => exact hscreen _ s.log _ h.log
      | toggle entered => exact hscreen _ s.log _ h.log
    | pseudo =>
      cases key with
      | edit e =>
        dsimp only
        split_ifs
        · exact hprompt _
        · exact ⟨_, rfl⟩
      | toggle entered => exact htest _
      | enter entered =>
        dsimp only
        cases enteredCommand s.shell with
        | none => exact hprompt _
        | some command =>
          have hlog := holds_logCalls calls (holds_appendGfxPromptLine h.log command)
          dsimp only
          split_ifs
          · obtain ⟨u, hu⟩ := htest { s with
              shell := Shell.step alloc s.shell (.enter entered)
              log := calls.foldl logCall (appendGfxPromptLine s.log command) }
            obtain ⟨hshell, hkept, -⟩ := shown_test hm hu
            rw [hu, Option.bind_eq_bind, Option.bind_some, hshell, hkept]
            exact hscreen u _ _ hlog
          · exact hscreen _ _ _ hlog

end Follows

theorem follows_start (frame : ℕ → UInt8) :
    Follows alloc m info stack (Console.start alloc frame) [] where
  shell := rfl
  buffers := shellInv_start alloc
  log := RecentLog.holds_nil _ _ _
  console := nofun
  test := nofun
  stale := nofun

/-- The command of the key returns, and its lines can be counted. -/
def Answers (alloc : Allocator) (info : Boot.SavedInfo) (stack : ℕ → ℕ → UInt8)
    (keys : List Key) (key : Key) : Prop :=
  ∃ calls, keyOutput alloc info stack (conversation alloc info stack keys).shell key = some calls ∧
    (conversation alloc info stack keys).lines.length + calls.length + 1 < 2 ^ 31

theorem answers_iff_any : Answers alloc info stack keys key ↔
    (keyOutput alloc info stack (conversation alloc info stack keys).shell key).any (fun calls =>
      decide ((conversation alloc info stack keys).lines.length + calls.length + 1 < 2 ^ 31)) := by
  unfold Answers
  rw [Option.any_eq_true]
  simp only [decide_eq_true_eq]

instance : Decidable (Answers alloc info stack keys key) :=
  decidable_of_iff _ answers_iff_any.symm

theorem Follows.answers_iff (h : Follows alloc m info stack s keys) (hm : m.Regular) :
    (∃ t, Console.Fits alloc info stack s key ∧ s.step alloc m info stack key = some t) ↔
      Answers alloc info stack keys key := by
  have hcount : s.log.count = (conversation alloc info stack keys).lines.length := by
    rw [h.log.count, List.length_map]
  unfold Answers Console.Fits
  rw [exists_and_left, h.returns_iff hm, Option.ne_none_iff_exists', hcount, ← h.shell]
  constructor
  · rintro ⟨hfits, calls, hcalls⟩
    rw [hcalls] at hfits
    exact ⟨calls, hcalls, hfits⟩
  · rintro ⟨calls, hcalls, hfits⟩
    rw [hcalls]
    exact ⟨hfits, calls, rfl⟩

theorem follows_run (hm : m.Regular) {frame : ℕ → UInt8}
    (hrun : Run (Console.step alloc m info stack) (Console.Fits alloc info stack)
      (Console.start alloc frame) keys t) : Follows alloc m info stack t keys :=
  hrun.keeps_history (Follows alloc m info stack) (fun _ _ _ _ h hstep => h.step hm hstep)
    (follows_start frame)

theorem exists_run_iff (hm : m.Regular) (frame : ℕ → UInt8) :
    (∃ t, Run (Console.step alloc m info stack) (Console.Fits alloc info stack)
      (Console.start alloc frame) keys t) ↔ Throughout (Answers alloc info stack) keys :=
  Run.exists_iff_throughout (Follows alloc m info stack)
    (fun _ _ _ _ h hstep => h.step hm hstep) (fun _ _ _ h => h.answers_iff hm)
    (follows_start frame)

theorem shell_conversation (keys : List Key) :
    (conversation alloc info stack keys).shell = keys.foldl (step alloc) (start alloc) := by
  induction keys using List.reverseRecOn with
  | nil => rfl
  | append_singleton keys key ih =>
    rw [conversation_concat, List.foldl_append, ← ih]
    rfl

end Runs

/-- From boot on, and in each of the modes that the display may take: the keys are dealt with as
long as their commands return. The rows of the log hold the last lines of the
conversation, and wherever the console is on, the screen shows these lines and the prompt with the
command that is being typed, although most keys only paint the prompt. -/
theorem console_shows_conversation {bochs writable : Bool} {vbe : Display.VbeRegisters}
    {m : Display.Mode} (hm : Display.displayEnterGfx bochs vbe writable = some m)
    (alloc : Allocator) (info : Boot.SavedInfo) (stack : ℕ → ℕ → UInt8) (frame : ℕ → UInt8)
    (keys : List Key) :
    let reaches := Run (Console.step alloc m info stack) (Console.Fits alloc info stack)
      (Console.start alloc frame) keys
    let lines := (conversation alloc info stack keys).lines
    ((∃ t, reaches t) ↔ Throughout (Answers alloc info stack) keys) ∧
      ∀ t, reaches t → t.shell = keys.foldl (step alloc) (start alloc) ∧
        (t.log.recent gfxLogLines).map rowText = shownLines lines ∧
        (t.shell.mode = .pseudo → ConsoleShown m t lines) := by
  have hregular := Display.regular_of_displayEnterGfx hm
  refine ⟨exists_run_iff hregular frame, fun t hrun => ?_⟩
  have hfollows := follows_run hregular hrun
  refine ⟨hfollows.shell.trans (shell_conversation keys), ?_, hfollows.console⟩
  rw [hfollows.log.recent, List.length_map]
  rfl

/-- `x` and Enter at the console. -/
theorem console_shows_conversation_unknown :
    let info : Boot.SavedInfo := ⟨0, 0, 0, 0, fun _ => 0, false⟩
    let keys : List Key :=
      [.toggle true, .enter true, .edit (.character (some 120)), .enter true]
    ∃ t, Run (Console.step clearedAlloc bochsMode info fun _ _ => 0)
        (Console.Fits clearedAlloc info fun _ _ => 0)
        (Console.start clearedAlloc fun _ => 0) keys t ∧
      ConsoleShown bochsMode t [ascii "> x", ascii "Unknown command",
        ascii "Type 'help' for available commands"] := by
  intro info keys
  have hm : Display.displayEnterGfx true ⟨800, 600, 32⟩ false = some bochsMode := by decide
  have hshows := console_shows_conversation hm clearedAlloc info (fun _ _ => 0) (fun _ => 0) keys
  have hlines : (conversation clearedAlloc info (fun _ _ => 0) keys).lines =
      [ascii "> x", ascii "Unknown command", ascii "Type 'help' for available commands"] := by
    decide +kernel
  have hmode : (keys.foldl (step clearedAlloc) (start clearedAlloc)).mode = .pseudo := by
    decide +kernel
  have hanswers : Throughout (Answers clearedAlloc info fun _ _ => 0) keys := by decide +kernel
  obtain ⟨t, hrun⟩ := hshows.1.mpr hanswers
  obtain ⟨hshell, -, hshown⟩ := hshows.2 t hrun
  refine ⟨t, hrun, ?_⟩
  rw [← hlines]
  exact hshown (by rw [hshell, hmode])

/-- On the test screen: it is shown unless the last command was `gfx`, run at the console, and
only text has been typed since. Then the console is still shown. -/
theorem test_screen_shown_iff {bochs writable : Bool} {vbe : Display.VbeRegisters}
    {m : Display.Mode} (hm : Display.displayEnterGfx bochs vbe writable = some m)
    {alloc : Allocator} {info : Boot.SavedInfo} {stack : ℕ → ℕ → UInt8} {frame : ℕ → UInt8}
    {keys : List Key} {t : Console}
    (hrun : Run (Console.step alloc m info stack) (Console.Fits alloc info stack)
      (Console.start alloc frame) keys t) (hmode : t.shell.mode = .graphics) :
    (m.Displays t.frame (testLayers m) ↔ ¬Stale alloc info stack keys) ∧
      (Stale alloc info stack keys → ∃ prompt, m.Displays t.frame (consoleLayers m
        (shownLines (conversation alloc info stack keys).lines) prompt)) := by
  have hfollows := follows_run (Display.regular_of_displayEnterGfx hm) hrun
  refine ⟨⟨fun htest hstale => ?_, hfollows.test hmode⟩, hfollows.stale hmode⟩
  obtain ⟨prompt, hconsole⟩ := hfollows.stale hmode hstale
  exact not_displays_console (Display.displayEnterGfx_eq hm) htest _ prompt hconsole

/-- `gfx` and Enter at the console. -/
theorem test_screen_shown_iff_gfx :
    let info : Boot.SavedInfo := ⟨0, 0, 0, 0, fun _ => 0, false⟩
    let keys : List Key := [.toggle true, .enter true] ++
      (ascii "gfx").map (fun c => .edit (.character (some c))) ++ [.enter true]
    ∃ t, Run (Console.step clearedAlloc bochsMode info fun _ _ => 0)
        (Console.Fits clearedAlloc info fun _ _ => 0)
        (Console.start clearedAlloc fun _ => 0) keys t ∧
      t.shell.mode = .graphics ∧ ¬bochsMode.Displays t.frame (testLayers bochsMode) := by
  intro info keys
  have hm : Display.displayEnterGfx true ⟨800, 600, 32⟩ false = some bochsMode := by decide
  have hregular := Display.regular_of_displayEnterGfx hm
  have hanswers : Throughout (Answers clearedAlloc info fun _ _ => 0) keys := by decide +kernel
  obtain ⟨t, hrun⟩ := (exists_run_iff hregular fun _ => 0).mpr hanswers
  have hmode : t.shell.mode = .graphics := by
    rw [(follows_run hregular hrun).shell]
    decide +kernel
  have hstale : Stale clearedAlloc info (fun _ _ => 0) keys :=
    ⟨keys.take 5, .enter true, [], rfl, by decide +kernel, ⟨true, rfl⟩, by decide +kernel⟩
  exact ⟨t, hrun, hmode, fun htest => (test_screen_shown_iff hm hrun hmode).1.mp htest hstale⟩

end OpenKernel.Shell
