import OpenKernel.Input.ScancodeRing
import OpenKernel.Lib.Rounds

/-!
# The command line

The keys of the main loop of `kernel.c` in text mode without an edit session.
Printable keys and Backspace come through the scancode buffer; Left, Right and
Delete set a request flag each, which the loop looks at after it has emptied the
buffer. One round of the loop serves four queues in a fixed order, and events
take effect in the order received as long as each joins the queue that is served
last among those with something in them. Enter, which runs the command, and
the drawing of the prompt are left out.
-/

namespace OpenKernel.Input

/-! ### The buffer of the command -/

structure CommandBuffer where
  cmd : ℕ → UInt8
  cmdLen : ℕ
  cmdCursor : ℕ

namespace CommandBuffer

/-- `for (i = cmd_len; i > cmd_cursor; i--) cmd[i] = cmd[i-1]`, from `i` on. -/
def shiftUp (cursor : ℕ) : ℕ → (ℕ → UInt8) → ℕ → UInt8
  | 0, cmd => cmd
  | i + 1, cmd =>
    if cursor < i + 1 then shiftUp cursor i (Function.update cmd (i + 1) (cmd i)) else cmd

/-- `for (...; i < cmd_len - 1; i++) cmd[i] = cmd[i+1]`, with the number of rounds left. -/
def shiftDown : ℕ → ℕ → (ℕ → UInt8) → ℕ → UInt8
  | 0, _, cmd => cmd
  | rounds + 1, i, cmd => shiftDown rounds (i + 1) (Function.update cmd i (cmd (i + 1)))

/-- A printable key, in a buffer with room for `capacity` characters. -/
def insert (capacity : ℕ) (b : CommandBuffer) (ch : UInt8) : CommandBuffer :=
  if b.cmdLen < capacity then
    let cmd := shiftUp b.cmdCursor b.cmdLen b.cmd
    let cmd := Function.update cmd b.cmdCursor ch
    { cmd := Function.update cmd (b.cmdLen + 1) 0
      cmdLen := b.cmdLen + 1
      cmdCursor := b.cmdCursor + 1 }
  else b

def backspace (b : CommandBuffer) : CommandBuffer :=
  if 0 < b.cmdCursor then
    let cmd := shiftDown (b.cmdLen - 1 - (b.cmdCursor - 1)) (b.cmdCursor - 1) b.cmd
    { cmd := Function.update cmd (b.cmdLen - 1) 0
      cmdLen := b.cmdLen - 1
      cmdCursor := b.cmdCursor - 1 }
  else b

def delete (b : CommandBuffer) : CommandBuffer :=
  if b.cmdCursor < b.cmdLen then
    let cmd := shiftDown (b.cmdLen - 1 - b.cmdCursor) b.cmdCursor b.cmd
    { b with cmd := Function.update cmd (b.cmdLen - 1) 0, cmdLen := b.cmdLen - 1 }
  else b

def left (b : CommandBuffer) : CommandBuffer :=
  if 0 < b.cmdCursor then { b with cmdCursor := b.cmdCursor - 1 } else b

def right (b : CommandBuffer) : CommandBuffer :=
  if b.cmdCursor < b.cmdLen then { b with cmdCursor := b.cmdCursor + 1 } else b

end CommandBuffer

/-- `sizeof(cmd) - 1`. -/
def cmdCapacity : ℕ := 127

/-- `ch >= 32 && ch <= 126`. -/
def printable (ch : Option UInt8) : Bool := ch.any fun c => 32 ≤ c && c ≤ 126

/-- What the main loop does with a code other than Enter, and with its character. -/
def handleScancode (b : CommandBuffer) (sc : UInt8) (ch : Option UInt8) : CommandBuffer :=
  if sc = 0x0E then b.backspace
  else if printable ch then b.insert cmdCapacity (ch.getD 0)
  else b

/-! ### The main loop -/

/-- The keys that set a request flag. -/
inductive Navigation
  | left
  | right
  | delete
  deriving DecidableEq, Repr

def requested (k : Keyboard) : Navigation → Bool
  | .left => k.arrowLeftRequested
  | .right => k.arrowRightRequested
  | .delete => k.deleteRequested

def clearRequest (k : Keyboard) : Navigation → Keyboard
  | .left => { k with arrowLeftRequested := false }
  | .right => { k with arrowRightRequested := false }
  | .delete => { k with deleteRequested := false }

def CommandBuffer.navigate (b : CommandBuffer) : Navigation → CommandBuffer
  | .left => b.left
  | .right => b.right
  | .delete => b.delete

/-- Where the main loop stands: in `keyboard_get_scancode`, in `keyboard_scancode_to_ascii` before
it looks at Shift and before it looks at Caps Lock, before the test of a request flag, before it
clears the flag, and before it does what was requested. -/
inductive Place
  | polling (call : GetScancode)
  | checkShift (sc : UInt8)
  | checkCaps (sc : UInt8) (shifted : Bool)
  | testing (n : Navigation)
  | clearing (n : Navigation)
  | moving (n : Navigation)
  deriving DecidableEq

/-- Where the loop goes once a flag has been dealt with. -/
def Navigation.done : Navigation → Place
  | .left => .testing .right
  | .right => .testing .delete
  | .delete => .polling .test

/-- What a key means for the command line. -/
inductive KeyEvent
  | backspace
  | character (ch : Option UInt8)
  | navigate (n : Navigation)
  deriving DecidableEq

def applyEvent (b : CommandBuffer) : KeyEvent → CommandBuffer
  | .backspace => b.backspace
  | .character ch => if printable ch then b.insert cmdCapacity (ch.getD 0) else b
  | .navigate n => b.navigate n

def pressEvent (layout : Layout) (sc : UInt8) (shifted caps : Bool) : KeyEvent :=
  if sc = 0x0E then .backspace else .character (asciiOf layout sc shifted caps)

/-- What a press means with the given modifiers. -/
def meaning (layout : Layout) (modifiers sc : UInt8) : KeyEvent :=
  pressEvent layout sc (shiftHeld modifiers) (capsOn modifiers)

/-- The event that a code completes. -/
def keyEvent (layout : Layout) (k : Keyboard) (sc : UInt8) : Option KeyEvent :=
  if k.extendedMode then
    if sc = 0x4B then some (.navigate .left)
    else if sc = 0x4D then some (.navigate .right)
    else if sc = 0x53 then some (.navigate .delete)
    else none
  else if sc &&& 0x80 = 0 then
    some (meaning layout (Keyboard.modifiersAfter k.modifiers sc) sc)
  else none

/-- The keyboard, the main loop and the command; `events` records what was received. -/
structure CommandLoop where
  keyboard : Keyboard
  place : Place
  command : CommandBuffer
  events : List KeyEvent

namespace CommandLoop

def start (k : Keyboard) (b : CommandBuffer) : CommandLoop := ⟨k, .polling .test, b, []⟩

def statement (layout : Layout) (s : CommandLoop) : CommandLoop :=
  match s.place with
  | .polling call =>
    match getScancodeStep s.keyboard call with
    | (k, call, none) => { s with keyboard := k, place := .polling call }
    | (k, _, some sc) =>
      { s with keyboard := k, place := if sc = 0 then .testing .left else .checkShift sc }
  | .checkShift sc => { s with place := .checkCaps sc (shiftHeld s.keyboard.modifiers) }
  | .checkCaps sc shifted =>
    let ch := asciiOf layout sc shifted (capsOn s.keyboard.modifiers)
    { s with place := .polling .test, command := handleScancode s.command sc ch }
  | .testing n => { s with place := if requested s.keyboard n then .clearing n else n.done }
  | .clearing n => { s with keyboard := clearRequest s.keyboard n, place := .moving n }
  | .moving n => { s with place := n.done, command := s.command.navigate n }

def step (layout : Layout) (s : CommandLoop) : ReaderEvent → Option CommandLoop
  | .irq scancode => some { s with
      keyboard := keyboardIrqHandler s.keyboard scancode
      events := s.events ++ (keyEvent layout s.keyboard scancode).toList }
  | .statement => some (statement layout s)

end CommandLoop

/-! ### The order of service -/

def Navigation.index : Navigation → Fin 4
  | .left => 1
  | .right => 2
  | .delete => 3

/-- The queue an event joins. -/
def KeyEvent.index : KeyEvent → Fin 4
  | .backspace => 0
  | .character _ => 0
  | .navigate n => n.index

def flagged (k : Keyboard) (n : Navigation) : List KeyEvent :=
  if requested k n then [.navigate n] else []

/-- The four queues in the order of one round: the buffer and the three flags. -/
def queue (layout : Layout) (k : Keyboard) : Fin 4 → List KeyEvent
  | 0 => k.contents.map (meaning layout k.modifiers)
  | 1 => flagged k .left
  | 2 => flagged k .right
  | 3 => flagged k .delete

/-- The queue that is served next. -/
def Place.serving : Place → Fin 4
  | .polling _ => 0
  | .checkShift _ => 0
  | .checkCaps _ _ => 0
  | .testing n => n.index
  | .clearing n => n.index
  | .moving n => n.index + 1

/-- The event in the hands of the loop, if the modifiers stay. -/
def Place.held (layout : Layout) (modifiers : UInt8) : Place → List KeyEvent
  | .checkShift sc => [meaning layout modifiers sc]
  | .checkCaps sc shifted => [pressEvent layout sc shifted (capsOn modifiers)]
  | .moving n => [.navigate n]
  | _ => []

/-- The queues from the one served next on. -/
def round (layout : Layout) (k : Keyboard) (first : Fin 4) : List KeyEvent :=
  (List.ofFn fun i : Fin 4 => queue layout k (first + i)).flatten

/-- The events that the loop will deal with, in this order, if nothing else arrives. -/
def upcoming (layout : Layout) (k : Keyboard) (place : Place) : List KeyEvent :=
  place.held layout k.modifiers ++ round layout k place.serving

/-- Nothing waits in a queue served later in the round than that of the event, and the event's
flag, if it has one, is clear. -/
def InTurn (layout : Layout) (k : Keyboard) (place : Place) (e : KeyEvent) : Prop :=
  (e.index ≠ 0 → queue layout k e.index = []) ∧
    ∀ i, e.index - place.serving < i → queue layout k (place.serving + i) = []

instance (layout : Layout) (k : Keyboard) (place : Place) (e : KeyEvent) :
    Decidable (InTurn layout k place e) :=
  inferInstanceAs (Decidable (_ ∧ _))

variable {layout : Layout} {k : Keyboard} {sc : UInt8}

theorem round_succ {first : Fin 4} (h : queue layout k first = []) :
    round layout k (first + 1) = round layout k first := by
  have hsum : ∀ f : Fin 4, f + 1 + 1 = f + 2 ∧ f + 1 + 2 = f + 3 ∧ f + 1 + 3 = f := by decide
  obtain ⟨h₂, h₃, h₄⟩ := hsum first
  simp [round, List.ofFn_succ, h, h₂, h₃, h₄]

theorem round_cons {k' : Keyboard} {first : Fin 4} {e : KeyEvent}
    (hfirst : queue layout k first = e :: queue layout k' first)
    (hother : ∀ i, i ≠ first → queue layout k' i = queue layout k i) :
    round layout k first = e :: round layout k' first := by
  have hne : ∀ f : Fin 4, f + 1 ≠ f ∧ f + 2 ≠ f ∧ f + 3 ≠ f := by decide
  obtain ⟨h₁, h₂, h₃⟩ := hne first
  simp [round, List.ofFn_succ, hfirst, hother _ h₁, hother _ h₂, hother _ h₃]

/-! ### What an interrupt adds -/

/-- The code is not Enter, and if it is a press then one that belongs into the buffer. -/
def TextKey (k : Keyboard) (sc : UInt8) : Prop :=
  k.extendedMode = false → sc &&& 0x80 = 0 → sc ≠ 0 ∧ sc ≠ 0x1C ∧ k.Buffers sc

instance (k : Keyboard) (sc : UInt8) : Decidable (TextKey k sc) :=
  inferInstanceAs (Decidable (_ → _ → _))

/-- The code changes the character of no press that is waiting or being converted. -/
def KeepsMeaning (layout : Layout) (k : Keyboard) (place : Place) (sc : UInt8) : Prop :=
  let after := Keyboard.modifiersAfter k.modifiers sc
  place.held layout after = place.held layout k.modifiers ∧
    ∀ c ∈ k.contents, meaning layout after c = meaning layout k.modifiers c

instance (layout : Layout) (k : Keyboard) (place : Place) (sc : UInt8) :
    Decidable (KeepsMeaning layout k place sc) :=
  letI : Decidable (∀ c ∈ k.contents, meaning layout (Keyboard.modifiersAfter k.modifiers sc) c =
    meaning layout k.modifiers c) := List.decidableBAll _ _
  inferInstanceAs (Decidable (_ ∧ _))

/-- A code behind the prefix that belongs to a navigation key. -/
def navigationCode : Navigation → UInt8
  | .left => 0x4B
  | .right => 0x4D
  | .delete => 0x53

theorem requested_keyboardIrqHandler (k : Keyboard) (sc : UInt8) (n : Navigation) :
    requested (keyboardIrqHandler k sc) n =
      (requested k n || (k.extendedMode && decide (sc = navigationCode n))) := by
  rcases Keyboard.keyboardIrqHandler_cases k sc with ⟨rfl, -, he⟩ | ⟨-, hx, -, he⟩ |
    ⟨-, hx, -, _, _, he⟩ | ⟨hb, he⟩
  · rw [he]
    cases n <;> simp [requested, navigationCode]
  · rw [he, hx]
    unfold handleExtended
    cases n <;> dsimp only [requested, navigationCode] <;> split_ifs <;> simp_all
  · rw [he, hx]
    cases n <;> simp [requested]
  · rw [he, hb.2.1]
    unfold bufferPress
    cases n <;> dsimp only [requested] <;> split_ifs <;> simp

theorem index_meaning (layout : Layout) (modifiers sc : UInt8) :
    (meaning layout modifiers sc).index = 0 := by
  unfold meaning pressEvent
  split_ifs <;> rfl

/-- Everything that a code can mean. -/
theorem keyEvent_cases (layout : Layout) (htext : TextKey k sc) :
    (k.extendedMode = true ∧ ∃ n, sc = navigationCode n ∧
      keyEvent layout k sc = some (.navigate n)) ∨
    (k.extendedMode = true ∧ (∀ n, sc ≠ navigationCode n) ∧ keyEvent layout k sc = none) ∨
    (k.extendedMode = false ∧ k.Buffers sc ∧ sc ≠ 0 ∧
      keyEvent layout k sc = some (meaning layout (Keyboard.modifiersAfter k.modifiers sc) sc)) ∨
    (k.extendedMode = false ∧ ¬ k.Buffers sc ∧ keyEvent layout k sc = none) := by
  unfold keyEvent
  cases hx : k.extendedMode with
  | true =>
    by_cases hn : ∃ n, sc = navigationCode n
    · obtain ⟨n, rfl⟩ := hn
      refine Or.inl ⟨rfl, n, rfl, ?_⟩
      cases n <;> rfl
    · have hne : ∀ n, sc ≠ navigationCode n := fun n he => hn ⟨n, he⟩
      refine Or.inr (Or.inl ⟨rfl, hne, ?_⟩)
      have hleft : sc ≠ 0x4B := hne .left
      have hright : sc ≠ 0x4D := hne .right
      have hdelete : sc ≠ 0x53 := hne .delete
      rw [if_pos rfl, if_neg hleft, if_neg hright, if_neg hdelete]
  | false =>
    rw [if_neg Bool.false_ne_true]
    by_cases h80 : sc &&& 0x80 = 0
    · obtain ⟨hzero, -, hb⟩ := htext hx h80
      exact Or.inr (Or.inr (Or.inl ⟨rfl, hb, hzero, if_pos h80⟩))
    · exact Or.inr (Or.inr (Or.inr ⟨rfl, fun hb => h80 hb.2.2.2, if_neg h80⟩))

theorem queue_index (layout : Layout) (k : Keyboard) (n : Navigation) :
    queue layout k n.index = flagged k n := by
  cases n <;> rfl

theorem index_ne_zero (n : Navigation) : n.index ≠ 0 := by cases n <;> decide

theorem index_inj {n m : Navigation} : n.index = m.index ↔ n = m := by
  cases n <;> cases m <;> decide

theorem navigationCode_inj {n m : Navigation} : navigationCode n = navigationCode m ↔ n = m := by
  cases n <;> cases m <;> decide

theorem index_cases (i : Fin 4) : i = 0 ∨ ∃ n : Navigation, i = n.index := by
  match i with
  | 0 => exact Or.inl rfl
  | 1 => exact Or.inr ⟨.left, rfl⟩
  | 2 => exact Or.inr ⟨.right, rfl⟩
  | 3 => exact Or.inr ⟨.delete, rfl⟩

theorem flagged_irq {n : Navigation}
    (hclear : k.extendedMode = true → sc = navigationCode n → flagged k n = []) :
    flagged (keyboardIrqHandler k sc) n = flagged k n ++
      if k.extendedMode = true ∧ sc = navigationCode n then [KeyEvent.navigate n] else [] := by
  by_cases hn : k.extendedMode = true ∧ sc = navigationCode n
  · rw [hclear hn.1 hn.2, if_pos hn, flagged, requested_keyboardIrqHandler, hn.1, hn.2]
    simp
  · rw [if_neg hn, List.append_nil, flagged, flagged, requested_keyboardIrqHandler]
    have hfalse : (k.extendedMode && decide (sc = navigationCode n)) = false := by
      simpa using hn
    rw [hfalse, Bool.or_false]

/-- A code adds its event to the queue of that event and leaves the others. -/
theorem queue_irq (hrange : k.InRange) (htext : TextKey k sc) (hroom : k.Buffers sc → ¬ k.Full)
    (hkeeps : ∀ c ∈ k.contents,
      meaning layout (Keyboard.modifiersAfter k.modifiers sc) c = meaning layout k.modifiers c)
    (hclear : ∀ e, keyEvent layout k sc = some e → e.index ≠ 0 → queue layout k e.index = [])
    (i : Fin 4) :
    queue layout (keyboardIrqHandler k sc) i =
      queue layout k i ++ (keyEvent layout k sc).toList.filter fun e => e.index = i := by
  have hcases := keyEvent_cases layout htext
  rcases index_cases i with rfl | ⟨n, rfl⟩
  · have hbuffer : queue layout (keyboardIrqHandler k sc) 0 = queue layout k 0 ++
        (k.pressed sc).map (meaning layout (Keyboard.modifiersAfter k.modifiers sc)) := by
      unfold queue
      rw [hrange.contents_irq, k.modifiers_keyboardIrqHandler, List.map_append,
        List.map_congr_left hkeeps]
    have hnot : k.extendedMode = true → k.pressed sc = [] := by
      intro hx
      exact if_neg fun hb => Bool.false_ne_true (hb.1.2.1.symm.trans hx)
    rw [hbuffer]
    rcases hcases with ⟨hx, m, -, he⟩ | ⟨hx, -, he⟩ | ⟨-, hb, -, he⟩ | ⟨-, hb, he⟩
    · simp [hnot hx, he, KeyEvent.index, index_ne_zero]
    · simp [hnot hx, he]
    · have hpressed : k.pressed sc = [sc] := if_pos ⟨hb, hroom hb⟩
      simp [hpressed, he, index_meaning]
    · have hpressed : k.pressed sc = [] := if_neg fun h => hb h.1
      simp [hpressed, he]
  · have hflag : queue layout (keyboardIrqHandler k sc) n.index = queue layout k n.index ++
        if k.extendedMode = true ∧ sc = navigationCode n then [KeyEvent.navigate n] else [] := by
      rw [queue_index, queue_index, flagged_irq]
      rintro hx rfl
      rw [← queue_index layout]
      rcases hcases with ⟨-, m, hm, he⟩ | ⟨-, hne, -⟩ | ⟨hx', -⟩ | ⟨hx', -⟩
      · obtain rfl := navigationCode_inj.mp hm
        exact hclear _ he (index_ne_zero n)
      · exact absurd rfl (hne n)
      · exact absurd (hx'.symm.trans hx) Bool.false_ne_true
      · exact absurd (hx'.symm.trans hx) Bool.false_ne_true
    rw [hflag]
    rcases hcases with ⟨hx, m, hm, he⟩ | ⟨-, hne, he⟩ | ⟨hx, -, -, he⟩ | ⟨hx, -, he⟩
    · rw [he]
      by_cases hmn : m = n
      · simp [hx, hm, hmn, KeyEvent.index]
      · simp [hm, hmn, KeyEvent.index, navigationCode_inj, index_inj]
    · simp [hne n, he]
    · simp [hx, he, index_meaning, (index_ne_zero n).symm]
    · simp [hx, he]

/-- An event that comes in turn is dealt with after all that wait. -/
theorem upcoming_irq {place : Place} (hrange : k.InRange) (htext : TextKey k sc)
    (hroom : k.Buffers sc → ¬ k.Full) (hkeeps : KeepsMeaning layout k place sc)
    (hturn : ∀ e, keyEvent layout k sc = some e → InTurn layout k place e) :
    upcoming layout (keyboardIrqHandler k sc) place =
      upcoming layout k place ++ (keyEvent layout k sc).toList := by
  have hqueue := queue_irq hrange htext hroom hkeeps.2 fun e he => (hturn e he).1
  unfold upcoming
  rw [k.modifiers_keyboardIrqHandler, hkeeps.1, List.append_assoc]
  congr 1
  cases he : keyEvent layout k sc with
  | none =>
    rw [he] at hqueue
    have hsame : queue layout (keyboardIrqHandler k sc) = queue layout k :=
      funext fun i => by simpa using hqueue i
    simp [round, hsame]
  | some e =>
    rw [he] at hqueue
    have hoffset : ∀ a b : Fin 4, a + (b - a) = b := by decide
    have hother : ∀ a b i : Fin 4, i ≠ b - a → b ≠ a + i := by decide
    refine flatten_ofFn_concat (j := e.index - place.serving) ?_ ?_ (hturn e he).2
    · rw [hoffset, hqueue]
      simp
    · intro i hi
      rw [hqueue]
      simp [hother _ _ _ hi]

/-! ### Runs -/

namespace CommandLoop

/-- What the claim of order is about: text keys, and room for every press. -/
def Typed (s : CommandLoop) : ReaderEvent → Prop
  | .statement => True
  | .irq sc => TextKey s.keyboard sc ∧ (s.keyboard.Buffers sc → ¬ s.keyboard.Full)

/-- Every event comes in turn, and no code changes the meaning of a press before it. -/
def Orderly (layout : Layout) (s : CommandLoop) (event : ReaderEvent) : Prop :=
  Typed s event ∧ ∀ sc, event = .irq sc → KeepsMeaning layout s.keyboard s.place sc ∧
    ∀ e ∈ keyEvent layout s.keyboard sc, InTurn layout s.keyboard s.place e

instance (s : CommandLoop) (event : ReaderEvent) : Decidable (Typed s event) :=
  match event with
  | .statement => inferInstanceAs (Decidable True)
  | .irq _ => inferInstanceAs (Decidable (_ ∧ _))

instance (layout : Layout) (s : CommandLoop) (event : ReaderEvent) :
    Decidable (Orderly layout s event) :=
  match event with
  | .statement => decidable_of_iff (Typed s .statement) (by simp [Orderly])
  | .irq sc => decidable_of_iff (Typed s (.irq sc) ∧ KeepsMeaning layout s.keyboard s.place sc ∧
      ∀ e ∈ keyEvent layout s.keyboard sc, InTurn layout s.keyboard s.place e) (by simp [Orderly])

/-- Nothing waits in the buffer or in a flag. -/
structure Idle (k : Keyboard) : Prop where
  range : k.InRange
  empty : k.contents = []
  clear : ∀ n, requested k n = false

/-- Dealing with what waits gives what all the events give. -/
structure Inv (layout : Layout) (b : CommandBuffer) (s : CommandLoop) : Prop where
  range : s.keyboard.InRange
  reads : ∀ call, s.place = .polling call → s.keyboard.Reads call
  nonzero : ∀ c ∈ s.keyboard.contents, c ≠ 0
  flag : ∀ n, s.place = .clearing n → requested s.keyboard n = true
  order : (upcoming layout s.keyboard s.place).foldl applyEvent s.command =
    s.events.foldl applyEvent b

theorem upcoming_idle {k : Keyboard} (h : Idle k) : upcoming layout k (.polling .test) = [] := by
  have hqueue : ∀ i, queue layout k i = [] := by
    intro i
    rcases index_cases i with rfl | ⟨n, rfl⟩
    · simp [queue, h.empty]
    · rw [queue_index, flagged, if_neg (by simp [h.clear n])]
  simp [upcoming, Place.held, round, hqueue]

theorem inv_start {k : Keyboard} (h : Idle k) (b : CommandBuffer) : Inv layout b (start k b) := by
  refine ⟨h.range, ?_, ?_, ?_, ?_⟩
  · rintro call ⟨⟩
    trivial
  · rw [start, h.empty]
    simp
  · rintro n ⟨⟩
  · rw [start, upcoming_idle h]

variable {b : CommandBuffer} {s t : CommandLoop}

theorem Inv.irq (h : Inv layout b s) (hok : Orderly layout s (.irq sc))
    (he : step layout s (.irq sc) = some t) : Inv layout b t := by
  obtain rfl := Option.some.inj he
  obtain ⟨⟨htext, hroom⟩, hirq⟩ := hok
  obtain ⟨hkeeps, hturn⟩ := hirq sc rfl
  refine ⟨h.range.irq, fun call hc => h.range.reads_irq (h.reads call hc), ?_, ?_, ?_⟩
  · intro c hc
    rw [h.range.contents_irq, List.mem_append] at hc
    rcases hc with hc | hc
    · exact h.nonzero c hc
    · unfold Keyboard.pressed at hc
      split_ifs at hc with hb
      · obtain rfl := List.mem_singleton.mp hc
        exact (htext hb.1.2.1 hb.1.2.2.2).1
      · cases hc
  · intro n hn
    rw [requested_keyboardIrqHandler, h.flag n hn, Bool.true_or]
  · rw [upcoming_irq h.range htext hroom hkeeps hturn, List.foldl_append, List.foldl_append,
      h.order]

theorem upcoming_succ {place place' : Place} (hheld : place.held layout k.modifiers = [])
    (hheld' : place'.held layout k.modifiers = [])
    (hserving : place'.serving = place.serving + 1) (h : queue layout k place.serving = []) :
    upcoming layout k place' = upcoming layout k place := by
  rw [upcoming, upcoming, hheld, hheld', hserving, round_succ h]

theorem round_advanceTail {c : UInt8} (h : k.contents = c :: (advanceTail k).contents) :
    round layout k 0 = meaning layout k.modifiers c :: round layout (advanceTail k) 0 := by
  refine round_cons ?_ ?_
  · rw [queue, h, List.map_cons]
    rfl
  · intro i hi
    rcases index_cases i with rfl | ⟨n, rfl⟩
    · exact absurd rfl hi
    · rw [queue_index, queue_index]
      cases n <;> rfl

theorem round_clearRequest {n : Navigation} (h : requested k n = true) :
    round layout k n.index = .navigate n :: round layout (clearRequest k n) (n.index + 1) := by
  have hcleared : queue layout (clearRequest k n) n.index = [] := by
    rw [queue_index]
    cases n <;> rfl
  rw [round_succ hcleared]
  refine round_cons ?_ ?_
  · rw [hcleared, queue_index, flagged, if_pos h]
  · intro i hi
    rcases index_cases i with rfl | ⟨m, rfl⟩
    · cases n <;> rfl
    · rw [queue_index, queue_index]
      cases n <;> cases m <;> first | rfl | exact absurd rfl hi

theorem handleScancode_eq (b : CommandBuffer) (sc : UInt8) (shifted caps : Bool) :
    handleScancode b sc (asciiOf layout sc shifted caps) =
      applyEvent b (pressEvent layout sc shifted caps) := by
  unfold handleScancode pressEvent
  split_ifs <;> simp_all [applyEvent]

theorem Inv.goto {place : Place} (h : Inv layout b s)
    (hreads : ∀ call, place = .polling call → s.keyboard.Reads call)
    (hflag : ∀ n, place = .clearing n → requested s.keyboard n = true)
    (hsame : upcoming layout s.keyboard place = upcoming layout s.keyboard s.place) :
    Inv layout b { s with place := place } := by
  refine ⟨h.range, hreads, h.nonzero, hflag, ?_⟩
  dsimp only
  rw [hsame]
  exact h.order

/-- One step of the call for a scancode. -/
theorem Inv.polling {call : GetScancode} (h : Inv layout b s) (hplace : s.place = .polling call) :
    Inv layout b (s.statement layout) := by
  rcases h.range.getScancodeStep_cases (h.reads call hplace) with ⟨rfl, hempty, hs⟩ |
    ⟨rfl, hne, hs⟩ | ⟨c, rfl, hhead, hs⟩ | ⟨c, rfl, hcons, hrange, hs⟩
  · simp only [CommandLoop.statement, hplace, hs, if_pos]
    apply h.goto
    · rintro call ⟨⟩
    · rintro n ⟨⟩
    · rw [hplace]
      exact upcoming_succ rfl rfl rfl (by simp [Place.serving, queue, hempty])
  · simp only [CommandLoop.statement, hplace, hs]
    apply h.goto
    · rintro call ⟨⟩
      exact hne
    · rintro n ⟨⟩
    · rw [hplace]
      rfl
  · simp only [CommandLoop.statement, hplace, hs]
    apply h.goto
    · rintro call ⟨⟩
      exact hhead
    · rintro n ⟨⟩
    · rw [hplace]
      rfl
  · have hc : c ≠ 0 := h.nonzero c (by simp [hcons])
    simp only [CommandLoop.statement, hplace, hs, if_neg hc]
    refine ⟨hrange, ?_, ?_, ?_, ?_⟩
    · rintro call ⟨⟩
    · intro c' hc'
      exact h.nonzero c' (by simp [hcons, hc'])
    · rintro n ⟨⟩
    · rw [← h.order, hplace]
      simp only [upcoming, Place.held, Place.serving, List.nil_append, round_advanceTail hcons]
      rfl

/-- A flag that is clear is passed over. -/
theorem Inv.testing {n : Navigation} (h : Inv layout b s) (hplace : s.place = .testing n) :
    Inv layout b (s.statement layout) := by
  simp only [CommandLoop.statement, hplace]
  cases hreq : requested s.keyboard n with
  | true =>
    apply h.goto
    · rintro call ⟨⟩
    · rintro m ⟨⟩
      exact hreq
    · rw [hplace]
      rfl
  | false =>
    have hnil : queue layout s.keyboard n.index = [] := by
      rw [queue_index, flagged, if_neg (by simp [hreq])]
    apply h.goto
    · intro call hc
      cases n <;> cases hc
      trivial
    · intro m hm
      cases n <;> cases hm
    · rw [hplace]
      refine upcoming_succ rfl ?_ ?_ hnil
      · cases n <;> rfl
      · cases n <;> rfl

theorem Inv.clearing {n : Navigation} (h : Inv layout b s) (hplace : s.place = .clearing n) :
    Inv layout b (s.statement layout) := by
  simp only [CommandLoop.statement, hplace]
  have hreq := h.flag n hplace
  have hring : (clearRequest s.keyboard n).ring = s.keyboard.ring := by cases n <;> rfl
  refine ⟨?_, ?_, ?_, ?_, ?_⟩
  · have hrange : s.keyboard.ring.InRange keybufSize := h.range
    rw [← hring] at hrange
    exact hrange
  · rintro call ⟨⟩
  · have hsame : (clearRequest s.keyboard n).contents = s.keyboard.contents :=
      congrArg (RingBuffer.contents keybufSize) hring
    rw [hsame]
    exact h.nonzero
  · rintro m ⟨⟩
  · rw [← h.order, hplace]
    simp only [upcoming, Place.held, Place.serving, List.nil_append, round_clearRequest hreq]
    rfl

theorem Inv.statement (h : Inv layout b s) (he : step layout s .statement = some t) :
    Inv layout b t := by
  obtain rfl := Option.some.inj he
  cases hplace : s.place with
  | polling call => exact h.polling hplace
  | testing n => exact h.testing hplace
  | clearing n => exact h.clearing hplace
  | checkShift sc =>
    simp only [CommandLoop.statement, hplace]
    apply h.goto
    · rintro call ⟨⟩
    · rintro n ⟨⟩
    · rw [hplace]
      rfl
  | checkCaps sc shifted =>
    simp only [CommandLoop.statement, hplace]
    refine ⟨h.range, ?_, h.nonzero, ?_, ?_⟩
    · rintro call ⟨⟩
      trivial
    · rintro n ⟨⟩
    · rw [← h.order, hplace, handleScancode_eq]
      rfl
  | moving n =>
    simp only [CommandLoop.statement, hplace]
    refine ⟨h.range, ?_, h.nonzero, ?_, ?_⟩
    · intro call hc
      cases n <;> cases hc
      trivial
    · intro m hm
      cases n <;> cases hm
    · rw [← h.order, hplace]
      cases n <;> rfl

/-- The loop is back at its start and nothing waits. -/
def AtRest (s : CommandLoop) : Prop := s.place = .polling .test ∧ Idle s.keyboard

/-- In every run in which the events come in turn, the command is that of the events in the order
in which they were received, once the events that wait have been dealt with. -/
theorem events_in_order {k : Keyboard} (hk : Idle k) {inputs : List ReaderEvent}
    (hrun : Run (step layout) (Orderly layout) (start k b) inputs t) :
    (upcoming layout t.keyboard t.place).foldl applyEvent t.command =
        t.events.foldl applyEvent b ∧
      (AtRest t → t.command = t.events.foldl applyEvent b) := by
  have h : Inv layout b t := by
    refine hrun.invariant (Inv layout b) ?_ (inv_start hk b)
    intro s event t h hok he
    cases event with
    | irq sc => exact h.irq hok he
    | statement => exact h.statement he
  refine ⟨h.order, ?_⟩
  rintro ⟨hplace, hidle⟩
  have horder := h.order
  rwa [hplace, upcoming_idle hidle] at horder

def emptyCommand : CommandBuffer := ⟨fun _ => 0, 0, 0⟩

theorem idle_bootKeyboard : Idle (keyboardInit bootKeyboard) := by
  refine ⟨bootKeyboard.inRange_keyboardInit, bootKeyboard.contents_keyboardInit, ?_⟩
  intro n
  cases n <;> rfl

theorem atRest_of {t : CommandLoop} (hplace : t.place = .polling .test)
    (hindices : t.keyboard.keybufHead < keybufSize ∧ t.keyboard.keybufTail < keybufSize)
    (hempty : t.keyboard.keybufTail = t.keyboard.keybufHead)
    (hleft : t.keyboard.arrowLeftRequested = false)
    (hright : t.keyboard.arrowRightRequested = false)
    (hdelete : t.keyboard.deleteRequested = false) : AtRest t := by
  have hrange : t.keyboard.InRange := ⟨hindices.1, hindices.2⟩
  refine ⟨hplace, hrange, (RingBuffer.InRange.contents_eq_nil_iff hrange).mpr hempty, ?_⟩
  intro n
  cases n with
  | left => exact hleft
  | right => exact hright
  | delete => exact hdelete

/-- `a` and Left arrive together, and `b` when both have been dealt with. -/
theorem events_in_order_three :
    ∃ t, Run (step .us) (Orderly .us) (start (keyboardInit bootKeyboard) emptyCommand)
        ([.irq 0x1E, .irq 0xE0, .irq 0x4B] ++ List.replicate 11 .statement ++
          .irq 0x30 :: List.replicate 9 .statement) t ∧
      t.events = [.character (some 97), .navigate .left, .character (some 98)] ∧
      t.command.cmd 0 = 98 ∧ t.command = t.events.foldl applyEvent emptyCommand := by
  obtain ⟨t, ht, hevents, hcmd, hrest⟩ : ∃ t, runChecked (step .us) (Orderly .us)
      (start (keyboardInit bootKeyboard) emptyCommand)
        ([ReaderEvent.irq 0x1E, .irq 0xE0, .irq 0x4B] ++ List.replicate 11 ReaderEvent.statement ++
          ReaderEvent.irq 0x30 :: List.replicate 9 .statement) = some t ∧
      t.events = [.character (some 97), .navigate .left, .character (some 98)] ∧
      t.command.cmd 0 = 98 ∧ AtRest t :=
    ⟨_, rfl, by decide, by decide, atRest_of rfl (by decide) rfl rfl rfl rfl⟩
  have hrun := Run.of_checked ht
  exact ⟨t, hrun, hevents, hcmd, (events_in_order idle_bootKeyboard hrun).2 hrest⟩

/-- `a` has been typed when Left and `b` arrive together: the loop takes `b` first. -/
theorem left_is_overtaken :
    ∃ t, Run (step .us) Typed (start (keyboardInit bootKeyboard) emptyCommand)
        (.irq 0x1E :: List.replicate 9 .statement ++
          [.irq 0xE0, .irq 0x4B, .irq 0x30] ++ List.replicate 11 .statement) t ∧ AtRest t ∧
      t.events = [.character (some 97), .navigate .left, .character (some 98)] ∧
      t.command.cmd 0 = 97 ∧ (t.events.foldl applyEvent emptyCommand).cmd 0 = 98 := by
  obtain ⟨t, ht, hrest, hevents, hcmd, hmeant⟩ : ∃ t, runChecked (step .us) Typed
      (start (keyboardInit bootKeyboard) emptyCommand)
        (ReaderEvent.irq 0x1E :: List.replicate 9 .statement ++
          [ReaderEvent.irq 0xE0, .irq 0x4B, .irq 0x30] ++
          List.replicate 11 ReaderEvent.statement) = some t ∧ AtRest t ∧
      t.events = [.character (some 97), .navigate .left, .character (some 98)] ∧
      t.command.cmd 0 = 97 ∧ (t.events.foldl applyEvent emptyCommand).cmd 0 = 98 :=
    ⟨_, rfl, atRest_of rfl (by decide) rfl rfl rfl rfl, by decide, by decide, by decide⟩
  exact ⟨t, Run.of_checked ht, hrest, hevents, hcmd, hmeant⟩

end CommandLoop

end OpenKernel.Input
