import OpenKernel.Lib.RingBuffer
import OpenKernel.Lib.Transition
import OpenKernel.Input.Layouts

/-!
# The keyboard driver

`keyboard_irq_handler`, `keyboard_get_scancode` and `keyboard_scancode_to_ascii` of
`keyboard.c`, over the static variables of that file. The handler runs to
completion with interrupts off; `keyboard_get_scancode` is interrupted between
any two of its statements and is a small program of its own. The controller
set-up of `keyboard_init` and the debug counter are left out.
-/

namespace OpenKernel.Input

def keybufSize : ℕ := 64

def keyboardCapsLock : UInt8 := 0x01

def keyboardLshift : UInt8 := 0x08

def keyboardRshift : UInt8 := 0x10

def keyboardLalt : UInt8 := 0x20

def keyboardLctrl : UInt8 := 0x40

def keyboardRctrl : UInt8 := 0x80

/-- The statics of `keyboard.c`, with the one inside `keyboard_irq_handler`. -/
structure Keyboard where
  keyBuffer : ℕ → UInt8
  keybufHead : ℕ
  keybufTail : ℕ
  modifiers : UInt8
  extendedMode : Bool
  tKeyPressed : Bool
  arrowLeftRequested : Bool
  arrowRightRequested : Bool
  arrowUpRequested : Bool
  arrowDownRequested : Bool
  deleteRequested : Bool
  graphicsToggleRequested : Bool

/-- The statics before anything runs. -/
def bootKeyboard : Keyboard where
  keyBuffer _ := 0
  keybufHead := 0
  keybufTail := 0
  modifiers := 0
  extendedMode := false
  tKeyPressed := false
  arrowLeftRequested := false
  arrowRightRequested := false
  arrowUpRequested := false
  arrowDownRequested := false
  deleteRequested := false
  graphicsToggleRequested := false

/-- The first `switch` of the handler. -/
def trackModifiers (modifiers scancode : UInt8) : UInt8 :=
  if scancode = 0x2A then modifiers ||| keyboardLshift
  else if scancode = 0xAA then modifiers &&& ~~~keyboardLshift
  else if scancode = 0x36 then modifiers ||| keyboardRshift
  else if scancode = 0xB6 then modifiers &&& ~~~keyboardRshift
  else if scancode = 0x38 then modifiers ||| keyboardLalt
  else if scancode = 0xB8 then modifiers &&& ~~~keyboardLalt
  else if scancode = 0x1D then modifiers ||| keyboardLctrl
  else if scancode = 0x9D then modifiers &&& ~~~keyboardLctrl
  else if scancode = 0x3A then modifiers ^^^ keyboardCapsLock
  else modifiers

/-- A code behind the prefix `0xE0`. -/
def handleExtended (k : Keyboard) (scancode : UInt8) : Keyboard :=
  let k := { k with extendedMode := false }
  if scancode = 0x48 then { k with arrowUpRequested := true }
  else if scancode = 0x50 then { k with arrowDownRequested := true }
  else if scancode = 0x4B then { k with arrowLeftRequested := true }
  else if scancode = 0x4D then { k with arrowRightRequested := true }
  else if scancode = 0x53 then { k with deleteRequested := true }
  else k

/-- The end of the handler: a press goes into the buffer if there is room. -/
def bufferPress (k : Keyboard) (scancode : UInt8) : Keyboard :=
  let next := (k.keybufHead + 1) % keybufSize
  if next ≠ k.keybufTail then
    { k with keyBuffer := Function.update k.keyBuffer k.keybufHead scancode, keybufHead := next }
  else k

def keyboardIrqHandler (k : Keyboard) (scancode : UInt8) : Keyboard :=
  if scancode = 0xE0 then { k with extendedMode := true }
  else
    let k := { k with modifiers := trackModifiers k.modifiers scancode }
    if k.extendedMode then handleExtended k scancode
    else if scancode = 0x14 ∧ ¬ k.tKeyPressed ∧
        k.modifiers &&& (keyboardLctrl ||| keyboardRctrl) ≠ 0 then
      { k with graphicsToggleRequested := true, tKeyPressed := true }
    else if scancode = 0x94 then { k with tKeyPressed := false }
    else if scancode &&& 0x80 = 0 then bufferPress k scancode
    else k

def keyboardInit (k : Keyboard) : Keyboard :=
  { k with keybufHead := 0, keybufTail := 0, modifiers := 0 }

/-- Where a call of `keyboard_get_scancode` stands: before its test, before it reads the slot,
and before it advances `keybuf_tail`, with the code it has read. -/
inductive GetScancode
  | test
  | readSlot
  | advanceTail (sc : UInt8)
  deriving DecidableEq

/-- The statement of `keyboard_get_scancode` that takes the code out of the buffer. -/
def advanceTail (k : Keyboard) : Keyboard :=
  { k with keybufTail := (k.keybufTail + 1) % keybufSize }

/-- One statement of `keyboard_get_scancode`, and what it returns if it is the last. -/
def getScancodeStep (k : Keyboard) : GetScancode → Keyboard × GetScancode × Option UInt8
  | .test => if k.keybufTail ≠ k.keybufHead then (k, .readSlot, none) else (k, .test, some 0)
  | .readSlot => (k, .advanceTail (k.keyBuffer k.keybufTail), none)
  | .advanceTail sc => (advanceTail k, .test, some sc)

def shiftHeld (modifiers : UInt8) : Bool := modifiers &&& (keyboardLshift ||| keyboardRshift) ≠ 0

def capsOn (modifiers : UInt8) : Bool := modifiers &&& keyboardCapsLock ≠ 0

/-- `keyboard_scancode_to_ascii` once it has read the modifiers. An index outside a table gives
`none`: the value is not that of the layout. -/
def asciiOf (layout : Layout) (scancode : UInt8) (shifted caps : Bool) : Option UInt8 :=
  if scancode &&& 0x80 ≠ 0 then some 0
  else if scancode < 0x59 then
    match layout.lower[scancode.toNat]? with
    | none => none
    | some c =>
      if c = 0 then some 0
      else if shifted || caps then
        match layout.upper[scancode.toNat]? with
        | none => none
        | some upper =>
          -- `'a'` to `'z'`
          if upper ≠ 0 ∧ (shifted ∨ (caps ∧ 97 ≤ c ∧ c ≤ 122)) then some upper else some c
      else some c
  else some 0

def keyboardScancodeToAscii (layout : Layout) (modifiers scancode : UInt8) : Option UInt8 :=
  asciiOf layout scancode (shiftHeld modifiers) (capsOn modifiers)

/-! ### The buffer -/

namespace Keyboard

def ring (k : Keyboard) : RingBuffer UInt8 := ⟨k.keyBuffer, k.keybufHead, k.keybufTail⟩

/-- The codes accepted and not yet taken. -/
def contents (k : Keyboard) : List UInt8 := k.ring.contents keybufSize

def InRange (k : Keyboard) : Prop := k.ring.InRange keybufSize

theorem inRange_keyboardInit (k : Keyboard) : (keyboardInit k).InRange := by
  have hlt : 0 < keybufSize := by decide
  exact ⟨hlt, hlt⟩

theorem contents_keyboardInit (k : Keyboard) : (keyboardInit k).contents = [] :=
  (RingBuffer.InRange.contents_eq_nil_iff k.inRange_keyboardInit).mpr rfl

/-- The handler takes the code for a press that belongs into the buffer. -/
def Buffers (k : Keyboard) (scancode : UInt8) : Prop :=
  scancode ≠ 0xE0 ∧ k.extendedMode = false ∧
    ¬ (scancode = 0x14 ∧ ¬ k.tKeyPressed ∧
      trackModifiers k.modifiers scancode &&& (keyboardLctrl ||| keyboardRctrl) ≠ 0) ∧
    scancode &&& 0x80 = 0

instance (k : Keyboard) (scancode : UInt8) : Decidable (k.Buffers scancode) :=
  inferInstanceAs (Decidable (_ ∧ _))

/-- No slot is left for another press. -/
def Full (k : Keyboard) : Prop := RingBuffer.next keybufSize k.keybufHead = k.keybufTail

instance (k : Keyboard) : Decidable k.Full := inferInstanceAs (Decidable (_ = _))

variable {k : Keyboard} {sc : UInt8}

/-- Everything the handler can do. -/
theorem keyboardIrqHandler_cases (k : Keyboard) (sc : UInt8) :
    (sc = 0xE0 ∧ ¬ k.Buffers sc ∧ keyboardIrqHandler k sc = { k with extendedMode := true }) ∨
    (sc ≠ 0xE0 ∧ k.extendedMode = true ∧ ¬ k.Buffers sc ∧ keyboardIrqHandler k sc =
      handleExtended { k with modifiers := trackModifiers k.modifiers sc } sc) ∨
    (sc ≠ 0xE0 ∧ k.extendedMode = false ∧ ¬ k.Buffers sc ∧ ∃ toggle pressed,
      keyboardIrqHandler k sc = { k with
        modifiers := trackModifiers k.modifiers sc
        graphicsToggleRequested := toggle
        tKeyPressed := pressed }) ∨
    (k.Buffers sc ∧ keyboardIrqHandler k sc =
      bufferPress { k with modifiers := trackModifiers k.modifiers sc } sc) := by
  by_cases hE : sc = 0xE0
  · refine Or.inl ⟨hE, fun h => h.1 hE, ?_⟩
    rw [keyboardIrqHandler, if_pos hE]
  have hstart : keyboardIrqHandler k sc = _ := if_neg hE
  dsimp only at hstart
  by_cases hx : k.extendedMode = true
  · refine Or.inr (Or.inl ⟨hE, hx, fun h => ?_, ?_⟩)
    · have := h.2.1
      rw [hx] at this
      cases this
    · rw [hstart, if_pos hx]
  have hplain : k.extendedMode = false := by simpa using hx
  refine Or.inr (Or.inr ?_)
  rw [if_neg hx] at hstart
  by_cases hT : sc = 0x14 ∧ ¬ k.tKeyPressed ∧
      trackModifiers k.modifiers sc &&& (keyboardLctrl ||| keyboardRctrl) ≠ 0
  · refine Or.inl ⟨hE, hplain, fun h => h.2.2.1 hT, true, true, ?_⟩
    rw [hstart, if_pos hT]
  rw [if_neg hT] at hstart
  by_cases h94 : sc = 0x94
  · refine Or.inl ⟨hE, hplain, fun h => ?_, k.graphicsToggleRequested, false, ?_⟩
    · have := h.2.2.2
      rw [h94] at this
      revert this
      decide
    · rw [hstart, if_pos h94]
  rw [if_neg h94] at hstart
  by_cases h80 : sc &&& 0x80 = 0
  · rw [if_pos h80] at hstart
    exact Or.inr ⟨⟨hE, hplain, hT, h80⟩, hstart⟩
  · rw [if_neg h80] at hstart
    exact Or.inl ⟨hE, hplain, fun h => h80 h.2.2.2, _, _, hstart⟩

theorem ring_handleExtended (k : Keyboard) (sc : UInt8) : (handleExtended k sc).ring = k.ring := by
  unfold handleExtended
  dsimp only
  split_ifs <;> rfl

theorem ring_bufferPress (k : Keyboard) (sc : UInt8) :
    (bufferPress k sc).ring = k.ring.push keybufSize sc := by
  unfold bufferPress RingBuffer.push
  by_cases hn : (k.keybufHead + 1) % keybufSize = k.keybufTail
  · rw [if_neg fun h => h hn, if_neg fun h => h hn]
  · rw [if_pos hn, if_pos (show RingBuffer.next keybufSize k.ring.head ≠ k.ring.tail from hn)]
    rfl

theorem ring_keyboardIrqHandler (k : Keyboard) (sc : UInt8) :
    (keyboardIrqHandler k sc).ring =
      if k.Buffers sc then k.ring.push keybufSize sc else k.ring := by
  rcases keyboardIrqHandler_cases k sc with ⟨-, hb, he⟩ | ⟨-, -, hb, he⟩ | ⟨-, -, hb, _, _, he⟩ |
    ⟨hb, he⟩
  · rw [if_neg hb, he]
    rfl
  · rw [if_neg hb, he, ring_handleExtended]
    rfl
  · rw [if_neg hb, he]
    rfl
  · rw [if_pos hb, he, ring_bufferPress]
    rfl

/-- The part of the state that decides what a code means. -/
def driver (k : Keyboard) : UInt8 × Bool × Bool := (k.modifiers, k.extendedMode, k.tKeyPressed)

/-- The modifiers once the handler has seen a code. -/
def modifiersAfter (modifiers scancode : UInt8) : UInt8 :=
  if scancode = 0xE0 then modifiers else trackModifiers modifiers scancode

theorem driver_handleExtended (k : Keyboard) (sc : UInt8) :
    (handleExtended k sc).driver = (k.modifiers, false, k.tKeyPressed) := by
  unfold handleExtended
  dsimp only
  split_ifs <;> rfl

theorem driver_bufferPress (k : Keyboard) (sc : UInt8) : (bufferPress k sc).driver = k.driver := by
  unfold bufferPress
  dsimp only
  split_ifs <;> rfl

theorem modifiers_keyboardIrqHandler (k : Keyboard) (sc : UInt8) :
    (keyboardIrqHandler k sc).modifiers = modifiersAfter k.modifiers sc := by
  unfold modifiersAfter
  rcases keyboardIrqHandler_cases k sc with ⟨hE, -, he⟩ | ⟨hE, -, -, he⟩ | ⟨hE, -, -, _, _, he⟩ |
    ⟨hb, he⟩
  · rw [he, if_pos hE]
  · rw [he, if_neg hE]
    exact congrArg Prod.fst (driver_handleExtended _ sc)
  · rw [he, if_neg hE]
  · rw [he, if_neg hb.1]
    exact congrArg Prod.fst (driver_bufferPress _ sc)

theorem extendedMode_irq (k : Keyboard) (sc : UInt8) :
    (keyboardIrqHandler k sc).extendedMode = true ↔ sc = 0xE0 := by
  rcases keyboardIrqHandler_cases k sc with ⟨hE, -, he⟩ | ⟨hE, -, -, he⟩ | ⟨hE, hx, -, _, _, he⟩ |
    ⟨hb, he⟩
  · rw [he]
    simp [hE]
  · have hmode := congrArg (fun d => d.2.1) (driver_handleExtended
      { k with modifiers := trackModifiers k.modifiers sc } sc)
    rw [he, show (handleExtended _ sc).extendedMode = false from hmode]
    simp [hE]
  · rw [he]
    simp [hx, hE]
  · have hmode := congrArg (fun d => d.2.1) (driver_bufferPress
      { k with modifiers := trackModifiers k.modifiers sc } sc)
    rw [he, show (bufferPress _ sc).extendedMode = false from hmode.trans hb.2.1]
    simp [hb.1]

/-- What a code means does not depend on the buffer, and neither does what it leads to. -/
theorem driver_keyboardIrqHandler {k k' : Keyboard} (h : k.driver = k'.driver) (sc : UInt8) :
    (keyboardIrqHandler k sc).driver = (keyboardIrqHandler k' sc).driver := by
  simp only [driver, Prod.mk.injEq] at h
  obtain ⟨hm, hx, ht⟩ := h
  unfold keyboardIrqHandler
  rw [← hm, ← hx, ← ht]
  by_cases hE : sc = 0xE0
  · rw [if_pos hE, if_pos hE]
    simp only [driver, hm, ht]
  rw [if_neg hE, if_neg hE]
  dsimp only
  cases hmode : k.extendedMode with
  | true =>
    rw [if_pos rfl, if_pos rfl, driver_handleExtended, driver_handleExtended]
  | false =>
    rw [if_neg Bool.false_ne_true, if_neg Bool.false_ne_true]
    by_cases hT : sc = 0x14 ∧ ¬ k.tKeyPressed ∧
        trackModifiers k.modifiers sc &&& (keyboardLctrl ||| keyboardRctrl) ≠ 0
    · rw [if_pos hT, if_pos hT]
      rfl
    rw [if_neg hT, if_neg hT]
    by_cases h94 : sc = 0x94
    · rw [if_pos h94, if_pos h94]
      rfl
    rw [if_neg h94, if_neg h94]
    by_cases h80 : sc &&& 0x80 = 0
    · rw [if_pos h80, if_pos h80, driver_bufferPress, driver_bufferPress]
      rfl
    · rw [if_neg h80, if_neg h80]
      rfl

theorem buffers_congr {k k' : Keyboard} (h : k.driver = k'.driver) (sc : UInt8) :
    k.Buffers sc ↔ k'.Buffers sc := by
  simp only [driver, Prod.mk.injEq] at h
  obtain ⟨hm, hx, ht⟩ := h
  simp only [Buffers, hm, hx, ht]

theorem InRange.irq (h : k.InRange) : (keyboardIrqHandler k sc).InRange := by
  unfold InRange at *
  rw [ring_keyboardIrqHandler]
  split_ifs
  · exact RingBuffer.InRange.push h sc
  · exact h

theorem InRange.full_iff (h : k.InRange) : k.Full ↔ k.contents.length = keybufSize - 1 :=
  RingBuffer.InRange.full_iff h

/-- What the handler adds to the codes in the buffer. -/
def pressed (k : Keyboard) (sc : UInt8) : List UInt8 :=
  if k.Buffers sc ∧ ¬ k.Full then [sc] else []

theorem InRange.contents_irq (h : k.InRange) :
    (keyboardIrqHandler k sc).contents = k.contents ++ k.pressed sc := by
  unfold contents pressed
  rw [ring_keyboardIrqHandler]
  by_cases hb : k.Buffers sc
  · rw [if_pos hb]
    by_cases hf : k.Full
    · have hpush : k.ring.push keybufSize sc = k.ring := if_neg fun hne => hne hf
      rw [hpush, if_neg fun hn => hn.2 hf, List.append_nil]
    · rw [if_pos ⟨hb, hf⟩]
      exact RingBuffer.InRange.contents_push h hf sc
  · rw [if_neg hb, if_neg fun hn => hb hn.1, List.append_nil]

/-- What the handler stores in the buffer: `keybuf_head` moves on when it does. -/
def stored (k : Keyboard) (sc : UInt8) : List UInt8 :=
  if (keyboardIrqHandler k sc).keybufHead = k.keybufHead then []
  else [(keyboardIrqHandler k sc).keyBuffer k.keybufHead]

theorem InRange.stored_eq (h : k.InRange) (sc : UInt8) : k.stored sc = k.pressed sc := by
  have hring := k.ring_keyboardIrqHandler sc
  have hhead : (keyboardIrqHandler k sc).keybufHead = (keyboardIrqHandler k sc).ring.head := rfl
  have hbuffer : (keyboardIrqHandler k sc).keyBuffer = (keyboardIrqHandler k sc).ring.slots := rfl
  rw [stored, hhead, hbuffer, hring]
  by_cases hb : k.Buffers sc
  · rw [if_pos hb]
    by_cases hf : k.Full
    · have hpush : k.ring.push keybufSize sc = k.ring := if_neg fun hne => hne hf
      rw [hpush, if_pos (show k.ring.head = k.keybufHead from rfl), pressed,
        if_neg fun hn => hn.2 hf]
    · have hpush : k.ring.push keybufSize sc = _ := if_pos hf
      have hmoves : RingBuffer.next keybufSize k.keybufHead ≠ k.keybufHead := by
        have hlt : k.keybufHead < keybufSize := h.head_lt
        rw [RingBuffer.next_eq hlt]
        unfold keybufSize at hlt ⊢
        split_ifs <;> omega
      rw [hpush, pressed, if_pos (And.intro hb hf)]
      simp [ring, hmoves]
  · rw [if_neg hb, if_pos (show k.ring.head = k.keybufHead from rfl), pressed,
      if_neg fun hn => hb hn.1]

theorem InRange.getStep (h : k.InRange) (g : GetScancode) :
    (getScancodeStep k g).1.InRange := by
  cases g with
  | test =>
    unfold getScancodeStep
    split_ifs <;> exact h
  | readSlot => exact h
  | advanceTail sc => exact RingBuffer.InRange.advance h

theorem driver_getScancodeStep (k : Keyboard) (g : GetScancode) :
    (getScancodeStep k g).1.driver = k.driver := by
  cases g with
  | test =>
    unfold getScancodeStep
    split_ifs <;> rfl
  | _ => rfl

/-- What a call of `keyboard_get_scancode` knows about the buffer at each of its statements. -/
def Reads (k : Keyboard) : GetScancode → Prop
  | .test => True
  | .readSlot => k.contents ≠ []
  | .advanceTail sc => k.contents.head? = some sc

theorem InRange.reads_irq (h : k.InRange) {g : GetScancode} (hg : k.Reads g) :
    (keyboardIrqHandler k sc).Reads g := by
  cases g with
  | test => trivial
  | readSlot =>
    change (keyboardIrqHandler k sc).contents ≠ []
    rw [h.contents_irq]
    exact List.append_ne_nil_of_left_ne_nil hg _
  | advanceTail c =>
    change (keyboardIrqHandler k sc).contents.head? = some c
    rw [h.contents_irq, List.head?_append, show k.contents.head? = some c from hg, Option.some_or]

/-- Everything a statement of `keyboard_get_scancode` can do. -/
theorem InRange.getScancodeStep_cases (h : k.InRange) {g : GetScancode} (hg : k.Reads g) :
    (g = .test ∧ k.contents = [] ∧ getScancodeStep k .test = (k, .test, some 0)) ∨
    (g = .test ∧ k.contents ≠ [] ∧ getScancodeStep k .test = (k, .readSlot, none)) ∨
    (∃ c, g = .readSlot ∧ k.contents.head? = some c ∧
      getScancodeStep k .readSlot = (k, .advanceTail c, none)) ∨
    (∃ c, g = .advanceTail c ∧ k.contents = c :: (advanceTail k).contents ∧
      (advanceTail k).InRange ∧
      getScancodeStep k (.advanceTail c) = (advanceTail k, .test, some c)) := by
  have hnil : k.contents = [] ↔ k.keybufTail = k.keybufHead := RingBuffer.InRange.contents_eq_nil_iff h
  have hfirst : k.contents ≠ [] →
      k.contents = k.keyBuffer k.keybufTail :: (advanceTail k).contents := fun hne =>
    RingBuffer.InRange.contents_advance h fun he => hne (hnil.mpr he)
  cases g with
  | test =>
    by_cases hc : k.contents = []
    · exact Or.inl ⟨rfl, hc, by simp [getScancodeStep, hnil.mp hc]⟩
    · refine Or.inr (Or.inl ⟨rfl, hc, ?_⟩)
      rw [getScancodeStep, if_pos fun he => hc (hnil.mpr he)]
  | readSlot =>
    refine Or.inr (Or.inr (Or.inl ⟨_, rfl, ?_, rfl⟩))
    rw [hfirst hg, List.head?_cons]
  | advanceTail c =>
    have hne : k.contents ≠ [] := by
      intro he
      have hg : k.contents.head? = some c := hg
      rw [he] at hg
      cases hg
    have hcons := hfirst hne
    have hc : k.keyBuffer k.keybufTail = c := by
      have hg : k.contents.head? = some c := hg
      rw [hcons, List.head?_cons] at hg
      exact Option.some.inj hg
    rw [hc] at hcons
    exact Or.inr (Or.inr (Or.inr ⟨c, rfl, hcons, RingBuffer.InRange.advance h, rfl⟩))

end Keyboard

end OpenKernel.Input
