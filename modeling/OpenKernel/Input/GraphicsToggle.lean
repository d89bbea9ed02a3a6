import OpenKernel.Input.Keyboard
import OpenKernel.Lib.Flags
import OpenKernel.Lib.History

/-!
# Ctrl+T

The handler raises `graphics_toggle_requested` for the first T with Ctrl since T
was released, and returns. A repeat of that T finds `t_key_pressed` set and goes
on like any other key: into the scancode buffer.
-/

namespace OpenKernel.Input

open Flags

def ctrlMask : UInt8 := keyboardLctrl ||| keyboardRctrl

/-- An interrupt, the next statement of `keyboard_get_scancode`, or the main loop taking the
request to toggle the graphics. -/
inductive ToggleEvent
  | irq (scancode : UInt8)
  | statement
  | takeRequest

/-- The keyboard and the main loop. -/
structure Toggling where
  keyboard : Keyboard
  call : GetScancode

namespace Toggling

def start : Toggling := ⟨keyboardInit bootKeyboard, .test⟩

def next (s : Toggling) : ToggleEvent → Toggling
  | .irq scancode => { s with keyboard := keyboardIrqHandler s.keyboard scancode }
  | .statement =>
    let result := getScancodeStep s.keyboard s.call
    ⟨result.1, result.2.1⟩
  | .takeRequest => { s with keyboard := { s.keyboard with graphicsToggleRequested := false } }

def after (events : List ToggleEvent) : Toggling := events.foldl next start

theorem after_append (events : List ToggleEvent) (e : ToggleEvent) :
    after (events ++ [e]) = (after events).next e := by
  simp [after, List.foldl_append]

end Toggling

/-- The codes received so far. -/
def codesOf (events : List ToggleEvent) : List UInt8 :=
  events.filterMap fun
    | .irq scancode => some scancode
    | _ => none

/-- The last code was the prefix `0xE0`. -/
def Prefixed (events : List ToggleEvent) : Prop := (codesOf events).getLast? = some 0xE0

/-- The make code of T arrives, without the prefix, while Ctrl is set. -/
def CtrlT (before : List ToggleEvent) (e : ToggleEvent) : Prop :=
  e = .irq 0x14 ∧ ¬ Prefixed before ∧ Has (Toggling.after before).keyboard.modifiers ctrlMask

/-- The break code of T arrives, without the prefix. -/
def TBreak (before : List ToggleEvent) (e : ToggleEvent) : Prop :=
  e = .irq 0x94 ∧ ¬ Prefixed before

namespace Keyboard

/-- The handler raises the request: it is up afterwards even if it was not before. -/
def Raises (k : Keyboard) (scancode : UInt8) : Prop :=
  (keyboardIrqHandler { k with graphicsToggleRequested := false } scancode).graphicsToggleRequested

/-- The part of the state that Ctrl+T is about. -/
def toggleState (k : Keyboard) : Bool × Bool × Bool :=
  (k.extendedMode, k.tKeyPressed, k.graphicsToggleRequested)

theorem toggleState_handleExtended (k : Keyboard) (sc : UInt8) :
    (handleExtended k sc).toggleState = (false, k.tKeyPressed, k.graphicsToggleRequested) := by
  unfold handleExtended
  dsimp only
  split_ifs <;> rfl

theorem toggleState_bufferPress (k : Keyboard) (sc : UInt8) :
    (bufferPress k sc).toggleState = k.toggleState := by
  unfold bufferPress
  dsimp only
  split_ifs <;> rfl

def TogglesAt (k : Keyboard) (sc : UInt8) : Prop :=
  sc = 0x14 ∧ ¬ k.tKeyPressed ∧ Has k.modifiers ctrlMask

instance (k : Keyboard) (sc : UInt8) : Decidable (k.TogglesAt sc) :=
  inferInstanceAs (Decidable (_ ∧ _))

theorem togglesAt_iff (k : Keyboard) (sc : UInt8) : k.TogglesAt sc ↔
    sc = 0x14 ∧ ¬ k.tKeyPressed ∧
      trackModifiers k.modifiers sc &&& (keyboardLctrl ||| keyboardRctrl) ≠ 0 := by
  unfold TogglesAt
  by_cases hT : sc = 0x14
  · subst hT
    rfl
  · simp [hT]

theorem toggleState_irq (k : Keyboard) (sc : UInt8) :
    (keyboardIrqHandler k sc).toggleState =
      if sc = 0xE0 then (true, k.tKeyPressed, k.graphicsToggleRequested)
      else if k.extendedMode then (false, k.tKeyPressed, k.graphicsToggleRequested)
      else if k.TogglesAt sc then (false, true, true)
      else if sc = 0x94 then (false, false, k.graphicsToggleRequested)
      else (false, k.tKeyPressed, k.graphicsToggleRequested) := by
  by_cases hE : sc = 0xE0
  · rw [keyboardIrqHandler, if_pos hE, if_pos hE]
    rfl
  rw [keyboardIrqHandler, if_neg hE, if_neg hE]
  dsimp only
  cases hx : k.extendedMode with
  | true => rw [if_pos rfl, if_pos rfl, toggleState_handleExtended]
  | false =>
    rw [if_neg Bool.false_ne_true, if_neg Bool.false_ne_true]
    by_cases hT : k.TogglesAt sc
    · rw [if_pos hT, if_pos ((k.togglesAt_iff sc).mp hT)]
      simp [toggleState]
    rw [if_neg hT, if_neg ((k.togglesAt_iff sc).not.mp hT)]
    by_cases h94 : sc = 0x94
    · rw [if_pos h94, if_pos h94]
      simp [toggleState]
    rw [if_neg h94, if_neg h94]
    split_ifs
    · rw [toggleState_bufferPress]
      simp [toggleState]
    · simp [toggleState]

theorem tKeyPressed_irq (k : Keyboard) (sc : UInt8) :
    (keyboardIrqHandler k sc).tKeyPressed = true ↔
      (sc = 0x14 ∧ k.extendedMode = false ∧ Has k.modifiers ctrlMask) ∨
        k.tKeyPressed = true ∧ ¬ (sc = 0x94 ∧ k.extendedMode = false) := by
  have h := congrArg (fun s => s.2.1) (k.toggleState_irq sc)
  rw [show (keyboardIrqHandler k sc).tKeyPressed = _ from h]
  split_ifs with hE hx hT h94
  · simp [hE]
  · simp [hx]
  · simp [hT.1, hT.2.2, hx]
  · simp [h94, hx]
  · constructor
    · exact fun ht => Or.inr ⟨ht, fun h => h94 h.1⟩
    · rintro (⟨hsc, -, hctrl⟩ | ⟨ht, -⟩)
      · by_contra ht
        exact hT ⟨hsc, ht, hctrl⟩
      · exact ht

theorem raises_iff (k : Keyboard) (sc : UInt8) :
    k.Raises sc ↔ sc = 0x14 ∧ k.extendedMode = false ∧ Has k.modifiers ctrlMask ∧
      k.tKeyPressed = false := by
  have h := congrArg (fun s => s.2.2)
    (toggleState_irq { k with graphicsToggleRequested := false } sc)
  unfold Raises
  rw [show (keyboardIrqHandler { k with graphicsToggleRequested := false }
    sc).graphicsToggleRequested = _ from h]
  split_ifs with hE hx hT h94
  · simp [hE]
  · simp [show k.extendedMode = true from hx]
  · obtain ⟨hsc, ht, hctrl⟩ : k.TogglesAt sc := hT
    exact iff_of_true rfl
      ⟨hsc, Bool.eq_false_iff.mpr hx, hctrl, Bool.eq_false_iff.mpr ht⟩
  · simp [h94]
  · simp only [false_iff]
    rintro ⟨hsc, -, hctrl, ht⟩
    exact hT ⟨hsc, by simp [ht], hctrl⟩

theorem buffers_ctrlT {k : Keyboard} (hx : k.extendedMode = false)
    (hctrl : Has k.modifiers ctrlMask) : k.Buffers 0x14 ↔ k.tKeyPressed = true := by
  have htoggle := k.togglesAt_iff 0x14
  have hpress : (0x14 : UInt8) &&& 0x80 = 0 := by decide
  unfold Buffers
  rw [← htoggle]
  unfold TogglesAt
  simp [hx, hctrl, hpress]

theorem InRange.stored_ctrlT {k : Keyboard} (h : k.InRange) (hx : k.extendedMode = false)
    (hctrl : Has k.modifiers ctrlMask) :
    k.stored 0x14 = [] ↔ k.tKeyPressed = false ∨ k.Full := by
  simp only [h.stored_eq, pressed, buffers_ctrlT hx hctrl]
  by_cases ht : k.tKeyPressed = true <;> by_cases hf : k.Full <;> simp [ht, hf]

end Keyboard

/-! ### Runs -/

/-- What the state knows about the history. -/
structure ToggleInv (events : List ToggleEvent) : Prop where
  range : (Toggling.after events).keyboard.InRange
  mode : (Toggling.after events).keyboard.extendedMode = true ↔ Prefixed events
  pressed : (Toggling.after events).keyboard.tKeyPressed = true ↔ Since CtrlT TBreak events

theorem prefixed_irq (events : List ToggleEvent) (sc : UInt8) :
    Prefixed (events ++ [.irq sc]) ↔ sc = 0xE0 := by
  simp [Prefixed, codesOf, List.filterMap_append]

theorem toggleInv_nil : ToggleInv [] := by
  refine ⟨Keyboard.inRange_keyboardInit _, ?_, ?_⟩
  · simp [Toggling.after, Toggling.start, keyboardInit, bootKeyboard, Prefixed, codesOf]
  · have hfalse : (Toggling.after []).keyboard.tKeyPressed = false := rfl
    simp [hfalse, not_since_nil]

theorem ToggleInv.plain {events : List ToggleEvent} (h : ToggleInv events) :
    (Toggling.after events).keyboard.extendedMode = false ↔ ¬ Prefixed events := by
  rw [← h.mode, Bool.not_eq_true]

theorem ToggleInv.quiet {events : List ToggleEvent} {e : ToggleEvent} (h : ToggleInv events)
    (he : ∀ sc, e ≠ .irq sc) (hrange : ((Toggling.after events).next e).keyboard.InRange)
    (hmode : ((Toggling.after events).next e).keyboard.extendedMode =
      (Toggling.after events).keyboard.extendedMode)
    (hpressed : ((Toggling.after events).next e).keyboard.tKeyPressed =
      (Toggling.after events).keyboard.tKeyPressed) : ToggleInv (events ++ [e]) := by
  have hprefixed : Prefixed (events ++ [e]) ↔ Prefixed events := by
    cases e with
    | irq sc => exact absurd rfl (he sc)
    | _ => simp [Prefixed, codesOf, List.filterMap_append]
  refine ⟨?_, ?_, ?_⟩
  · rw [Toggling.after_append]
    exact hrange
  · rw [Toggling.after_append, hprefixed, hmode]
    exact h.mode
  · rw [Toggling.after_append, hpressed, h.pressed, since_append]
    simp [CtrlT, TBreak, he]

theorem ToggleInv.next {events : List ToggleEvent} (h : ToggleInv events) (e : ToggleEvent) :
    ToggleInv (events ++ [e]) := by
  cases e with
  | irq sc =>
    refine ⟨?_, ?_, ?_⟩
    · rw [Toggling.after_append]
      exact h.range.irq
    · rw [Toggling.after_append, prefixed_irq]
      exact Keyboard.extendedMode_irq _ sc
    · rw [Toggling.after_append, since_append]
      refine (Keyboard.tKeyPressed_irq _ sc).trans ?_
      rw [h.pressed, h.plain]
      simp [CtrlT, TBreak]
  | statement =>
    refine h.quiet (by simp) (h.range.getStep _) ?_ ?_
    · exact congrArg (fun d => d.2.1) (Keyboard.driver_getScancodeStep _ _)
    · exact congrArg (fun d => d.2.2) (Keyboard.driver_getScancodeStep _ _)
  | takeRequest => exact h.quiet (by simp) h.range rfl rfl

/-- Ctrl+T is consumed, and raises the request the first time. -/
def ToggleConsumed (before : List ToggleEvent) (e : ToggleEvent) : Prop :=
  ∀ sc, e = .irq sc →
    (CtrlT before e → (Toggling.after before).keyboard.stored sc = []) ∧
      ((Toggling.after before).keyboard.Raises sc ↔
        CtrlT before e ∧ ¬ Since CtrlT TBreak before)

/-- A T with Ctrl is the first one since T was released, or the buffer is full. -/
def FirstOrFull (before : List ToggleEvent) (e : ToggleEvent) : Prop :=
  CtrlT before e → ¬ Since CtrlT TBreak before ∨ (Toggling.after before).keyboard.Full

theorem ToggleInv.consumed_iff {before : List ToggleEvent} (h : ToggleInv before)
    (e : ToggleEvent) : ToggleConsumed before e ↔ FirstOrFull before e := by
  have hraises : ∀ sc, e = .irq sc → ((Toggling.after before).keyboard.Raises sc ↔
      CtrlT before e ∧ ¬ Since CtrlT TBreak before) := by
    rintro sc rfl
    rw [Keyboard.raises_iff, h.plain, ← Bool.not_eq_true, h.pressed]
    simp [CtrlT, and_assoc]
  have hstored : CtrlT before e → ((Toggling.after before).keyboard.stored 0x14 = [] ↔
      ¬ Since CtrlT TBreak before ∨ (Toggling.after before).keyboard.Full) := by
    rintro ⟨-, hplain, hctrl⟩
    rw [h.range.stored_ctrlT (h.plain.mpr hplain) hctrl, ← Bool.not_eq_true, h.pressed]
  constructor
  · intro hconsumed hT
    exact (hstored hT).mp ((hconsumed 0x14 hT.1).1 hT)
  · intro hfirst sc hsc
    refine ⟨fun hT => ?_, hraises sc hsc⟩
    obtain rfl : sc = 0x14 := by simpa using hsc.symm.trans hT.1
    exact (hstored hT).mpr (hfirst hT)

/-- In every interleaving of interrupts with the main loop: Ctrl+T is consumed throughout, and
raises the request at the first T with Ctrl since T was released and only then, exactly if no T
with Ctrl arrives that is a repeat and finds room in the buffer. -/
theorem ctrlT_consumed_iff (events : List ToggleEvent) :
    Throughout ToggleConsumed events ↔ Throughout FirstOrFull events :=
  throughout_iff ToggleInv toggleInv_nil (fun _ e h _ => h.next e) fun _ e h => h.consumed_iff e

/-- Ctrl and T are held until T repeats: the repeat is put into the buffer. -/
theorem ctrlT_repeat_buffered :
    CtrlT [.irq 0x1D, .irq 0x14] (.irq 0x14) ∧
      (Toggling.after [.irq 0x1D, .irq 0x14]).keyboard.stored 0x14 = [0x14] ∧
      ¬ Throughout ToggleConsumed [.irq 0x1D, .irq 0x14, .irq 0x14] := by
  have hT : CtrlT [.irq 0x1D, .irq 0x14] (.irq 0x14) := by
    refine ⟨rfl, ?_, ?_⟩
    · simp [Prefixed, codesOf]
    · decide
  have hstored : (Toggling.after [.irq 0x1D, .irq 0x14]).keyboard.stored 0x14 = [0x14] := by
    decide
  refine ⟨hT, hstored, fun hall => ?_⟩
  have hnone := (hall [.irq 0x1D, .irq 0x14] (.irq 0x14) (List.prefix_refl _) 0x14 rfl).1 hT
  rw [hstored] at hnone
  cases hnone

end OpenKernel.Input
