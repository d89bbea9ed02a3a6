import OpenKernel.Input.CommandLine
import OpenKernel.Input.GraphicsToggle
import OpenKernel.Input.LayoutTables
import OpenKernel.Input.TypedCharacters
import OpenKernel.Lib.Rounds
import OpenKernel.Shell.Session

/-!
# The main loop and the keyboard

The loop of `kernel_main` with the keyboard interrupt between any two of its statements. It
serves five queues in a fixed order: the request of Ctrl+T, the scancode buffer, and the requests
of Left, Right and Delete. What a press means depends on the layout, which a command before it may
have changed. As long as every code comes in turn, the shell does what the codes mean in the
order in which they arrive, and so the files follow from the codes. The requests to scroll the
text screen are left out.
-/

namespace OpenKernel.Shell

open FileSystem
open Input (CommandBuffer KeyEvent Keyboard Layout Navigation GetScancode ReaderEvent)
open Input (keyboardIrqHandler getScancodeStep trackModifiers advanceTail shiftHeld capsOn asciiOf)
open Input (requested clearRequest navigationCode furtherCalls keyboardDetectLayout BehindTables)

/-! ### The desk -/

def enteredCommand (s : ShellState) : Option Bytes :=
  match s.mode with
  | .text => if 0 < s.cmd.cmdLen then some (command (terminated s.cmd)) else none
  | .graphics => none
  | .pseudo => if 0 < s.pseudo.cmdLen then some (command (terminated s.pseudo)) else none

def layoutParam (command : Bytes) : Bytes := ascii "layout=" ++ (command.drop 7).take 8

/-- The layout once `execute_console_command` has run a command. -/
def consoleLayout (layout : Layout) (command : Bytes) : Layout :=
  if (ascii "layout ").isPrefixOf command then
    keyboardDetectLayout layout (some (layoutParam command))
  else layout

/-- What the keys act on; `keys` records them. -/
structure Desk where
  shell : ShellState
  layout : Layout
  keys : List Key

/-- A key, once it is known whether the display takes the graphics mode and which layout is
selected. -/
abbrev Meaning := Bool → Layout → Key

section Desk

variable (alloc : Allocator) (display : ℕ → Bool)

/-- The command that Enter leaves to `execute_console_command`. -/
def consoleCommand (s : ShellState) : Option Bytes :=
  (enteredCommand s).filter fun c => !s.fs.editActive && !(fsHandleCommand alloc s.fs c).2.1

namespace Desk

def nextLayout (d : Desk) : Key → Layout
  | .enter _ =>
    match consoleCommand alloc d.shell with
    | some c => consoleLayout d.layout c
    | none => d.layout
  | _ => d.layout

/-- The commands that do not return. -/
def leaves (d : Desk) : Key → Bool
  | .enter _ =>
    (consoleCommand alloc d.shell).any fun c => c == ascii "reboot" || c == ascii "shutdown"
  | _ => false

def perform (d : Desk) (key : Key) : Desk :=
  ⟨step alloc d.shell key, d.nextLayout alloc key, d.keys ++ [key]⟩

/-- The key that is meant; `display` says for each whether the graphics mode would be taken. -/
def keyFor (d : Desk) (m : Meaning) : Key := m (display d.keys.length) d.layout

def handle (d : Desk) (m : Meaning) : Desk := d.perform alloc (d.keyFor display m)

end Desk

end Desk

/-! ### What arrives -/

/-- The requests that the handler leaves to the main loop. -/
inductive KeyRequest
  | toggle
  | navigate (n : Navigation)
  deriving DecidableEq

namespace KeyRequest

def raised (k : Keyboard) : KeyRequest → Bool
  | .toggle => k.graphicsToggleRequested
  | .navigate n => requested k n

def clear (k : Keyboard) : KeyRequest → Keyboard
  | .toggle => { k with graphicsToggleRequested := false }
  | .navigate n => clearRequest k n

def key : KeyRequest → Meaning
  | .toggle => fun entered _ => .toggle entered
  | .navigate n => fun _ _ => .edit (.navigate n)

end KeyRequest

def pressKey (sc : UInt8) (shifted caps : Bool) : Meaning := fun entered layout =>
  if sc = 0x1C then .enter entered
  else if sc = 0x0E then .edit .backspace
  else .edit (.character (asciiOf layout sc shifted caps))

/-- A press that is converted with these modifiers. -/
def pressOf (modifiers sc : UInt8) : Meaning := pressKey sc (shiftHeld modifiers) (capsOn modifiers)

/-- A press with the modifiers of that moment, or a request. -/
inductive Event
  | press (sc modifiers : UInt8)
  | request (r : KeyRequest)
  deriving DecidableEq

def Event.meaning : Event → Meaning
  | .press sc modifiers => pressOf modifiers sc
  | .request r => r.key

/-- The event that a code completes. -/
def received (k : Keyboard) (sc : UInt8) : Option Event :=
  if sc = 0xE0 then none
  else if k.extendedMode then
    if sc = 0x4B then some (.request (.navigate .left))
    else if sc = 0x4D then some (.request (.navigate .right))
    else if sc = 0x53 then some (.request (.navigate .delete))
    else none
  else if k.TogglesAt sc then some (.request .toggle)
  else if sc &&& 0x80 = 0 then some (.press sc (trackModifiers k.modifiers sc))
  else none

/-- The events in a stream of codes. -/
def decode (k : Keyboard) : List UInt8 → List Event
  | [] => []
  | sc :: codes => (received k sc).toList ++ decode (keyboardIrqHandler k sc) codes

/-! ### The loop -/

/-- Where the main loop stands: before the test of a request, before it is cleared and before it
is carried out; in `keyboard_get_scancode`; in `keyboard_scancode_to_ascii` before it looks at
Shift and before it looks at Caps Lock, with the number of conversions that follow; and at `hlt`. -/
inductive Place
  | testing (r : KeyRequest)
  | clearing (r : KeyRequest)
  | acting (r : KeyRequest)
  | polling (call : GetScancode)
  | checkShift (sc : UInt8) (calls : ℕ)
  | checkCaps (sc : UInt8) (calls : ℕ) (shifted : Bool)
  | halt
  deriving DecidableEq

/-- Where the loop goes once a request has been dealt with. -/
def KeyRequest.done : KeyRequest → Place
  | .toggle => .polling .test
  | .navigate .left => .testing (.navigate .right)
  | .navigate .right => .testing (.navigate .delete)
  | .navigate .delete => .halt

structure Machine where
  keyboard : Keyboard
  place : Place
  desk : Desk

section Loop

variable (alloc : Allocator) (display : ℕ → Bool)

namespace Machine

/-- The loop does what `m` means, if that returns. -/
def act (s : Machine) (m : Meaning) (place : Place) : Option Machine :=
  if s.desk.leaves alloc (s.desk.keyFor display m) then none
  else some { s with place := place, desk := s.desk.handle alloc display m }

/-- One statement of the main loop. -/
def statement (s : Machine) : Option Machine :=
  match s.place with
  | .testing r => some { s with place := if r.raised s.keyboard then .clearing r else r.done }
  | .clearing r => some { s with keyboard := r.clear s.keyboard, place := .acting r }
  | .acting r => s.act alloc display r.key r.done
  | .polling call =>
    match getScancodeStep s.keyboard call with
    | (k, call, none) => some { s with keyboard := k, place := .polling call }
    | (k, _, some sc) =>
      some { s with
        keyboard := k
        place := if sc = 0 then .testing (.navigate .left) else .checkShift sc (furtherCalls sc) }
  | .checkShift sc calls =>
    some { s with place := .checkCaps sc calls (shiftHeld s.keyboard.modifiers) }
  | .checkCaps sc (calls + 1) _ => some { s with place := .checkShift sc calls }
  | .checkCaps sc 0 shifted =>
    s.act alloc display (pressKey sc shifted (capsOn s.keyboard.modifiers)) (.polling .test)
  | .halt => some { s with place := .testing .toggle }

def step (s : Machine) : ReaderEvent → Option Machine
  | .irq scancode => some { s with keyboard := keyboardIrqHandler s.keyboard scancode }
  | .statement => s.statement alloc display

/-- The kernel when the main loop is reached, with the layout selected at boot. -/
def start (layout : Layout) : Machine :=
  ⟨Input.keyboardInit Input.bootKeyboard, .testing .toggle, ⟨Shell.start alloc, layout, []⟩⟩

end Machine

end Loop

/-! ### The order of service -/

def KeyRequest.index : KeyRequest → Fin 5
  | .toggle => 0
  | .navigate .left => 2
  | .navigate .right => 3
  | .navigate .delete => 4

/-- The queue an event joins. -/
def Event.index : Event → Fin 5
  | .press _ _ => 1
  | .request r => r.index

def flagged (k : Keyboard) (r : KeyRequest) : List Meaning := if r.raised k then [r.key] else []

/-- The five queues in the order of one turn of the loop. -/
def queue (k : Keyboard) : Fin 5 → List Meaning
  | 0 => flagged k .toggle
  | 1 => k.contents.map (pressOf k.modifiers)
  | 2 => flagged k (.navigate .left)
  | 3 => flagged k (.navigate .right)
  | 4 => flagged k (.navigate .delete)

namespace Place

/-- The queue that is served next. -/
def serving : Place → Fin 5
  | .testing r => r.index
  | .clearing r => r.index
  | .acting r => r.index + 1
  | .polling _ => 1
  | .checkShift _ _ => 1
  | .checkCaps _ _ _ => 1
  | .halt => 0

/-- What the loop has in hand, if the modifiers stay. -/
def held (modifiers : UInt8) : Place → List Meaning
  | .acting r => [r.key]
  | .checkShift sc _ => [pressOf modifiers sc]
  | .checkCaps sc 0 shifted => [pressKey sc shifted (capsOn modifiers)]
  | .checkCaps sc (_ + 1) _ => [pressOf modifiers sc]
  | _ => []

end Place

/-- What the loop will do, in this order, if nothing else arrives. -/
def upcoming (k : Keyboard) (place : Place) : List Meaning :=
  place.held k.modifiers ++ serviceRound (queue k) place.serving

/-- A press belongs to the keys that the tables cover, and finds room. -/
def Accepted (k : Keyboard) (sc : UInt8) : Prop :=
  k.Buffers sc → ¬k.Full ∧ sc ≠ 0 ∧ ¬BehindTables sc

/-- The code changes the meaning of no press that is waiting or being converted. -/
def KeepsMeaning (k : Keyboard) (place : Place) (sc : UInt8) : Prop :=
  let after := Keyboard.modifiersAfter k.modifiers sc
  place.held after = place.held k.modifiers ∧
    ∀ c ∈ k.contents, pressOf after c = pressOf k.modifiers c

/-- Nothing waits that is served after the event, and its request is not up already. -/
def InTurn (k : Keyboard) (place : Place) (e : Event) : Prop :=
  LastInRound (queue k) place.serving e.index ∧ ∀ r, e = .request r → r.raised k = false

/-- Every code comes in turn. -/
def Orderly (s : Machine) (event : ReaderEvent) : Prop :=
  ∀ sc, event = .irq sc → Accepted s.keyboard sc ∧ KeepsMeaning s.keyboard s.place sc ∧
    ∀ e, received s.keyboard sc = some e → InTurn s.keyboard s.place e

/-! ### What an interrupt adds -/

section Interrupt

variable {k : Keyboard} {sc : UInt8} {place : Place}

theorem received_congr {k' : Keyboard} (h : k.driver = k'.driver) (sc : UInt8) :
    received k sc = received k' sc := by
  simp only [Keyboard.driver, Prod.mk.injEq] at h
  obtain ⟨hm, hx, ht⟩ := h
  have htoggles : k.TogglesAt sc ↔ k'.TogglesAt sc := by simp only [Keyboard.TogglesAt, hm, ht]
  simp only [received, htoggles, hm, hx]

theorem decode_congr {k k' : Keyboard} (h : k.driver = k'.driver) (codes : List UInt8) :
    decode k codes = decode k' codes := by
  induction codes generalizing k k' with
  | nil => rfl
  | cons sc codes ih =>
    rw [decode, decode, received_congr h, ih (Keyboard.driver_keyboardIrqHandler h sc)]

theorem received_press_iff {c modifiers : UInt8} :
    received k sc = some (.press c modifiers) ↔
      k.Buffers sc ∧ c = sc ∧ modifiers = Keyboard.modifiersAfter k.modifiers sc := by
  unfold received Keyboard.Buffers Keyboard.modifiersAfter
  rw [← Keyboard.togglesAt_iff]
  by_cases hE : sc = 0xE0
  · simp [hE]
  cases hx : k.extendedMode with
  | true =>
    simp only [hE, if_false, if_true]
    split_ifs <;> simp
  | false =>
    simp only [hE, if_false, Bool.false_eq_true]
    split_ifs with htoggle h80
    · simp [htoggle]
    · simp [htoggle, h80, hE, eq_comm]
    · simp [h80]

/-- A request is up after a code if it was before, or if the code completes it. -/
theorem raised_irq (k : Keyboard) (sc : UInt8) (r : KeyRequest) :
    r.raised (keyboardIrqHandler k sc) =
      (r.raised k || decide (received k sc = some (.request r))) := by
  unfold received
  cases r with
  | toggle =>
    have h := congrArg (fun s => s.2.2) (k.toggleState_irq sc)
    change (keyboardIrqHandler k sc).graphicsToggleRequested = _
    rw [show (keyboardIrqHandler k sc).graphicsToggleRequested = _ from h]
    change _ = (k.graphicsToggleRequested || _)
    split_ifs <;> simp_all
  | navigate n =>
    change requested (keyboardIrqHandler k sc) n = (requested k n || _)
    rw [Input.requested_keyboardIrqHandler]
    congr 1
    by_cases hE : sc = 0xE0
    · cases n <;> simp [hE, navigationCode]
    cases hx : k.extendedMode with
    | true => cases n <;> simp only [navigationCode] <;> split_ifs <;> simp_all
    | false =>
      simp only [hE, if_false, Bool.false_eq_true, Bool.false_and]
      split_ifs <;> simp

theorem queue_index (k : Keyboard) (r : KeyRequest) : queue k r.index = flagged k r := by
  cases r with
  | toggle => rfl
  | navigate n => cases n <;> rfl

theorem KeyRequest.index_inj {r r' : KeyRequest} (h : r.index = r'.index) : r = r' := by
  cases r with
  | toggle =>
    cases r' with
    | toggle => rfl
    | navigate n => cases n <;> cases h
  | navigate n =>
    cases r' with
    | toggle => cases n <;> cases h
    | navigate m => cases n <;> cases m <;> first | rfl | cases h

/-- A queue is the buffer or a request. -/
theorem index_cases (i : Fin 5) : i = 1 ∨ ∃ r : KeyRequest, i = r.index := by
  match i with
  | 0 => exact Or.inr ⟨.toggle, rfl⟩
  | 1 => exact Or.inl rfl
  | 2 => exact Or.inr ⟨.navigate .left, rfl⟩
  | 3 => exact Or.inr ⟨.navigate .right, rfl⟩
  | 4 => exact Or.inr ⟨.navigate .delete, rfl⟩

theorem queue_irq_one (hrange : k.InRange)
    (hkeeps : ∀ c ∈ k.contents,
      pressOf (Keyboard.modifiersAfter k.modifiers sc) c = pressOf k.modifiers c) :
    queue (keyboardIrqHandler k sc) 1 = queue k 1 ++
      (k.pressed sc).map (pressOf (Keyboard.modifiersAfter k.modifiers sc)) := by
  unfold queue
  rw [hrange.contents_irq, k.modifiers_keyboardIrqHandler, List.map_append,
    List.map_congr_left hkeeps]

theorem queue_irq_of_ne (hrange : k.InRange) (hkeeps : KeepsMeaning k place sc) {i : Fin 5}
    (hne : ∀ e, received k sc = some e → e.index ≠ i) :
    queue (keyboardIrqHandler k sc) i = queue k i := by
  rcases index_cases i with rfl | ⟨r, rfl⟩
  · have hnot : ¬(k.Buffers sc ∧ ¬k.Full) := by
      rintro ⟨hb, -⟩
      exact hne _ (received_press_iff.mpr ⟨hb, rfl, rfl⟩) rfl
    rw [queue_irq_one hrange hkeeps.2, Keyboard.pressed, if_neg hnot, List.map_nil,
      List.append_nil]
  · have hnot : received k sc ≠ some (.request r) := fun he => hne _ he rfl
    rw [queue_index, queue_index, flagged, flagged, raised_irq]
    simp [hnot]

theorem queue_irq_index (hrange : k.InRange) (hok : Accepted k sc)
    (hkeeps : KeepsMeaning k place sc) {e : Event} (he : received k sc = some e)
    (hclear : ∀ r, e = .request r → r.raised k = false) :
    queue (keyboardIrqHandler k sc) e.index = queue k e.index ++ [e.meaning] := by
  cases e with
  | press c modifiers =>
    obtain ⟨hb, rfl, rfl⟩ := received_press_iff.mp he
    have hpressed : k.pressed c = [c] := if_pos ⟨hb, (hok hb).1⟩
    change queue (keyboardIrqHandler k c) 1 = queue k 1 ++ _
    rw [queue_irq_one hrange hkeeps.2, hpressed]
    rfl
  | request r =>
    change queue (keyboardIrqHandler k sc) r.index = queue k r.index ++ [r.key]
    rw [queue_index, queue_index, flagged, flagged, raised_irq, hclear r rfl, he]
    simp

theorem upcoming_irq (hrange : k.InRange) (hok : Accepted k sc) (hkeeps : KeepsMeaning k place sc)
    (hturn : ∀ e, received k sc = some e → InTurn k place e) :
    upcoming (keyboardIrqHandler k sc) place =
      upcoming k place ++ (received k sc).toList.map Event.meaning := by
  unfold upcoming
  rw [k.modifiers_keyboardIrqHandler, hkeeps.1, List.append_assoc]
  congr 1
  cases he : received k sc with
  | none =>
    have hsame : queue (keyboardIrqHandler k sc) = queue k :=
      funext fun i => queue_irq_of_ne hrange hkeeps (by simp [he])
    simp [hsame]
  | some e =>
    obtain ⟨hlast, hclear⟩ := hturn e he
    refine serviceRound_concat hlast (queue_irq_index hrange hok hkeeps he hclear) ?_
    intro i hi
    apply queue_irq_of_ne hrange hkeeps
    rintro e' he' rfl
    rw [he] at he'
    exact hi (congrArg Event.index (Option.some.inj he')).symm

end Interrupt

/-! ### What a statement does -/

section Statement

variable {alloc : Allocator} {display : ℕ → Bool} {s t : Machine} {k : Keyboard}

/-- What the loop relies on at each of its statements. -/
structure Machine.Sound (s : Machine) : Prop where
  range : s.keyboard.InRange
  reads : ∀ call, s.place = .polling call → s.keyboard.Reads call
  nonzero : ∀ c ∈ s.keyboard.contents, c ≠ 0
  raised : ∀ r, s.place = .clearing r → r.raised s.keyboard = true

/-- The desk once all that waits has been dealt with. -/
def Machine.pending (alloc : Allocator) (display : ℕ → Bool) (s : Machine) : Desk :=
  (upcoming s.keyboard s.place).foldl (Desk.handle alloc display) s.desk

/-- A statement neither adds to what the loop will do nor takes from it. -/
structure Settles (alloc : Allocator) (display : ℕ → Bool) (s t : Machine) : Prop where
  sound : t.Sound
  pending : t.pending alloc display = s.pending alloc display
  driver : t.keyboard.driver = s.keyboard.driver

theorem upcoming_of_empty {place place' : Place} (hheld : place.held k.modifiers = [])
    (hheld' : place'.held k.modifiers = []) (hserving : place'.serving = place.serving + 1)
    (h : queue k place.serving = []) : upcoming k place' = upcoming k place := by
  rw [upcoming, upcoming, hheld, hheld', hserving, serviceRound_succ h]

@[simp] theorem serving_done (r : KeyRequest) : r.done.serving = r.index + 1 := by
  cases r with
  | toggle => rfl
  | navigate n => cases n <;> rfl

@[simp] theorem held_done (r : KeyRequest) (modifiers : UInt8) : r.done.held modifiers = [] := by
  cases r with
  | toggle => rfl
  | navigate n => cases n <;> rfl

theorem done_polling {r : KeyRequest} {call : GetScancode} (h : r.done = .polling call) :
    call = .test := by
  cases r with
  | toggle => cases h; rfl
  | navigate n => cases n <;> cases h

theorem done_ne_clearing (r r' : KeyRequest) : r.done ≠ .clearing r' := by
  cases r with
  | toggle => nofun
  | navigate n => cases n <;> nofun

theorem round_advanceTail {c : UInt8} (h : k.contents = c :: (advanceTail k).contents) :
    serviceRound (queue k) 1 =
      pressOf k.modifiers c :: serviceRound (queue (advanceTail k)) 1 := by
  refine serviceRound_cons ?_ ?_
  · rw [queue, h, List.map_cons]
    rfl
  · intro i hi
    rcases index_cases i with rfl | ⟨r, rfl⟩
    · exact absurd rfl hi
    · rw [queue_index, queue_index]
      cases r with
      | toggle => rfl
      | navigate n => cases n <;> rfl

theorem clear_spec (k : Keyboard) (r : KeyRequest) :
    (r.clear k).ring = k.ring ∧ (r.clear k).driver = k.driver ∧ r.raised (r.clear k) = false ∧
      ∀ r', r' ≠ r → r'.raised (r.clear k) = r'.raised k := by
  cases r with
  | toggle =>
    refine ⟨rfl, rfl, rfl, fun r' hr => ?_⟩
    cases r' with
    | toggle => exact absurd rfl hr
    | navigate n => cases n <;> rfl
  | navigate n =>
    refine ⟨by cases n <;> rfl, by cases n <;> rfl, by cases n <;> rfl, fun r' hr => ?_⟩
    cases r' with
    | toggle => cases n <;> rfl
    | navigate m => cases n <;> cases m <;> first | rfl | exact absurd rfl hr

theorem round_clear {r : KeyRequest} (h : r.raised k = true) :
    serviceRound (queue k) r.index =
      r.key :: serviceRound (queue (r.clear k)) (r.index + 1) := by
  obtain ⟨hring, hdriver, hclear, hother⟩ := clear_spec k r
  have hcleared : queue (r.clear k) r.index = [] := by
    rw [queue_index, flagged, hclear]
    rfl
  rw [serviceRound_succ hcleared]
  refine serviceRound_cons ?_ ?_
  · rw [hcleared, queue_index, flagged, if_pos h]
  · intro i hi
    rcases index_cases i with rfl | ⟨r', rfl⟩
    · have hmod : (r.clear k).modifiers = k.modifiers := congrArg Prod.fst hdriver
      unfold queue
      rw [hmod, Keyboard.contents, hring]
      rfl
    · rw [queue_index, queue_index, flagged, flagged, hother r' fun he => hi (he ▸ rfl)]

namespace Machine.Sound

theorem goto {place : Place} (h : s.Sound)
    (hreads : ∀ call, place = .polling call → s.keyboard.Reads call)
    (hraised : ∀ r, place = .clearing r → r.raised s.keyboard = true)
    (hsame : upcoming s.keyboard place = upcoming s.keyboard s.place) :
    Settles alloc display s { s with place := place } := by
  refine ⟨⟨h.range, hreads, h.nonzero, hraised⟩, ?_, rfl⟩
  unfold Machine.pending
  dsimp only
  rw [hsame]

theorem act {m : Meaning} {place : Place} (h : s.Sound)
    (ht : s.act alloc display m place = some t)
    (hreads : ∀ call, place = .polling call → s.keyboard.Reads call)
    (hraised : ∀ r, place = .clearing r → r.raised s.keyboard = true)
    (hnext : upcoming s.keyboard s.place = m :: upcoming s.keyboard place) :
    Settles alloc display s t := by
  unfold Machine.act at ht
  split_ifs at ht
  obtain rfl := Option.some.inj ht
  refine ⟨⟨h.range, hreads, h.nonzero, hraised⟩, ?_, rfl⟩
  unfold Machine.pending
  rw [hnext]
  rfl

theorem polling {call : GetScancode} (h : s.Sound) (hplace : s.place = .polling call)
    (ht : s.statement alloc display = some t) : Settles alloc display s t := by
  rcases h.range.getScancodeStep_cases (h.reads call hplace) with ⟨rfl, hempty, hs⟩ |
    ⟨rfl, hne, hs⟩ | ⟨c, rfl, hhead, hs⟩ | ⟨c, rfl, hcons, hrange, hs⟩
  · simp only [Machine.statement, hplace, hs, if_pos, Option.some.injEq] at ht
    subst ht
    refine h.goto (by rintro call ⟨⟩) (by rintro r ⟨⟩) ?_
    rw [hplace]
    exact upcoming_of_empty rfl rfl rfl (by simp [Place.serving, queue, hempty])
  · simp only [Machine.statement, hplace, hs, Option.some.injEq] at ht
    subst ht
    refine h.goto ?_ (by rintro r ⟨⟩) (by rw [hplace]; rfl)
    rintro call ⟨⟩
    exact hne
  · simp only [Machine.statement, hplace, hs, Option.some.injEq] at ht
    subst ht
    refine h.goto ?_ (by rintro r ⟨⟩) (by rw [hplace]; rfl)
    rintro call ⟨⟩
    exact hhead
  · have hc : c ≠ 0 := h.nonzero c (by simp [hcons])
    simp only [Machine.statement, hplace, hs, if_neg hc, Option.some.injEq] at ht
    subst ht
    refine ⟨⟨hrange, by rintro call ⟨⟩, ?_, by rintro r ⟨⟩⟩, ?_, rfl⟩
    · intro c' hc'
      exact h.nonzero c' (by simp [hcons, hc'])
    · unfold Machine.pending
      rw [hplace]
      simp only [upcoming, Place.held, Place.serving, List.nil_append, round_advanceTail hcons]
      rfl

theorem testing {r : KeyRequest} (h : s.Sound) (hplace : s.place = .testing r)
    (ht : s.statement alloc display = some t) : Settles alloc display s t := by
  simp only [Machine.statement, hplace, Option.some.injEq] at ht
  subst ht
  cases hr : r.raised s.keyboard with
  | true =>
    refine h.goto (by rintro call ⟨⟩) ?_ (by rw [hplace]; rfl)
    rintro r' ⟨⟩
    exact hr
  | false =>
    have hnil : queue s.keyboard r.index = [] := by
      rw [queue_index, flagged, if_neg (by simp [hr])]
    refine h.goto ?_ (fun r' hr' => absurd hr' (done_ne_clearing r r')) ?_
    · intro call hcall
      obtain rfl := done_polling hcall
      trivial
    · rw [hplace]
      exact upcoming_of_empty rfl (held_done r _) (serving_done r) hnil

theorem clearing {r : KeyRequest} (h : s.Sound) (hplace : s.place = .clearing r)
    (ht : s.statement alloc display = some t) : Settles alloc display s t := by
  simp only [Machine.statement, hplace, Option.some.injEq] at ht
  subst ht
  obtain ⟨hring, hdriver, -⟩ := clear_spec s.keyboard r
  have hsame : (r.clear s.keyboard).contents = s.keyboard.contents :=
    congrArg (RingBuffer.contents Input.keybufSize) hring
  refine ⟨⟨?_, by rintro call ⟨⟩, ?_, by rintro r' ⟨⟩⟩, ?_, hdriver⟩
  · have hrange : s.keyboard.ring.InRange Input.keybufSize := h.range
    rw [← hring] at hrange
    exact hrange
  · dsimp only
    rw [hsame]
    exact h.nonzero
  · unfold Machine.pending
    rw [hplace]
    simp only [upcoming, Place.held, Place.serving, List.nil_append,
      round_clear (h.raised r hplace)]
    rfl

/-- One statement. -/
theorem statement (h : s.Sound) (ht : s.statement alloc display = some t) :
    Settles alloc display s t := by
  cases hplace : s.place with
  | testing r => exact h.testing hplace ht
  | clearing r => exact h.clearing hplace ht
  | polling call => exact h.polling hplace ht
  | acting r =>
    simp only [Machine.statement, hplace] at ht
    refine h.act ht ?_ (fun r' hr' => absurd hr' (done_ne_clearing r r')) ?_
    · intro call hcall
      obtain rfl := done_polling hcall
      trivial
    · rw [hplace, upcoming, upcoming, held_done, serving_done]
      rfl
  | checkShift sc calls =>
    simp only [Machine.statement, hplace, Option.some.injEq] at ht
    subst ht
    refine h.goto (by rintro call ⟨⟩) (by rintro r ⟨⟩) ?_
    rw [hplace]
    cases calls <;> rfl
  | checkCaps sc calls shifted =>
    cases calls with
    | zero =>
      simp only [Machine.statement, hplace] at ht
      refine h.act ht ?_ (by rintro r ⟨⟩) (by rw [hplace]; rfl)
      rintro call ⟨⟩
      trivial
    | succ calls =>
      simp only [Machine.statement, hplace, Option.some.injEq] at ht
      subst ht
      exact h.goto (by rintro call ⟨⟩) (by rintro r ⟨⟩) (by rw [hplace]; rfl)
  | halt =>
    simp only [Machine.statement, hplace, Option.some.injEq] at ht
    subst ht
    exact h.goto (by rintro call ⟨⟩) (by rintro r ⟨⟩) (by rw [hplace]; rfl)

/-- An interrupt that comes in turn adds its event. -/
theorem irq {sc : UInt8} (h : s.Sound) (hok : Orderly s (.irq sc))
    (ht : Machine.step alloc display s (.irq sc) = some t) :
    t.Sound ∧ t.pending alloc display =
      ((received s.keyboard sc).toList.map Event.meaning).foldl (Desk.handle alloc display)
        (s.pending alloc display) := by
  obtain rfl := Option.some.inj ht
  obtain ⟨haccepted, hkeeps, hturn⟩ := hok sc rfl
  refine ⟨⟨h.range.irq, fun call hc => h.range.reads_irq (h.reads call hc), ?_, ?_⟩, ?_⟩
  · intro c hc
    rw [h.range.contents_irq, List.mem_append] at hc
    rcases hc with hc | hc
    · exact h.nonzero c hc
    · unfold Keyboard.pressed at hc
      split_ifs at hc with hb
      · obtain rfl := List.mem_singleton.mp hc
        exact (haccepted hb.1).2.1
      · cases hc
  · intro r hr
    dsimp only
    rw [raised_irq, h.raised r hr, Bool.true_or]
  · unfold Machine.pending
    dsimp only
    rw [upcoming_irq h.range haccepted hkeeps hturn, List.foldl_append]

end Machine.Sound

end Statement

end OpenKernel.Shell
