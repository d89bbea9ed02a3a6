import OpenKernel.Input.Keyboard

/-!
# The scancode buffer as a queue

`keyboard_irq_handler` interrupts `keyboard_get_scancode` between any two of its
statements. In every interleaving the codes taken out of the buffer are those
accepted into it, in the same order, and a press is turned away only when one
slot is left.
-/

namespace OpenKernel.Input

/-- The keyboard and a caller of `keyboard_get_scancode`, with a record of the codes that were
stored in `key_buffer` and of those that were taken out of it. -/
structure Reader where
  keyboard : Keyboard
  call : GetScancode
  accepted : List UInt8
  taken : List UInt8

/-- An interrupt, or the next statement of `keyboard_get_scancode`. -/
inductive ReaderEvent
  | irq (scancode : UInt8)
  | statement
  deriving DecidableEq

namespace Reader

def start (k : Keyboard) : Reader := ⟨keyboardInit k, .test, [], []⟩

/-- A code is accepted when `keybuf_head` moves on, and taken when `keybuf_tail` does. -/
def step (s : Reader) : ReaderEvent → Option Reader
  | .irq scancode =>
    let k := keyboardIrqHandler s.keyboard scancode
    some { s with
      keyboard := k
      accepted := s.accepted ++ s.keyboard.stored scancode }
  | .statement =>
    let result := getScancodeStep s.keyboard s.call
    some { s with
      keyboard := result.1
      call := result.2.1
      taken := match s.call with
        | .advanceTail sc => s.taken ++ [sc]
        | _ => s.taken }

/-- What was accepted has been taken or is in the buffer. -/
structure Inv (s : Reader) : Prop where
  range : s.keyboard.InRange
  reads : s.keyboard.Reads s.call
  queue : s.accepted = s.taken ++ s.keyboard.contents

theorem inv_start (k : Keyboard) : Inv (start k) := by
  refine ⟨k.inRange_keyboardInit, trivial, ?_⟩
  rw [start, k.contents_keyboardInit]
  rfl

variable {s t : Reader}

theorem Inv.irq (h : Inv s) {sc : UInt8} (he : step s (.irq sc) = some t) : Inv t := by
  obtain rfl := Option.some.inj he
  refine ⟨h.range.irq, h.range.reads_irq h.reads, ?_⟩
  dsimp only
  rw [h.range.stored_eq, h.range.contents_irq, h.queue, List.append_assoc]

theorem Inv.statement (h : Inv s) (he : step s .statement = some t) : Inv t := by
  rcases h.range.getScancodeStep_cases h.reads with ⟨hc, -, hs⟩ | ⟨hc, hne, hs⟩ | ⟨c, hc, hhead, hs⟩ |
    ⟨c, hc, hcons, hrange, hs⟩
  · obtain rfl : { s with call := .test } = t := by simpa [step, hs, hc] using he
    exact ⟨h.range, trivial, h.queue⟩
  · obtain rfl : { s with call := .readSlot } = t := by simpa [step, hs, hc] using he
    exact ⟨h.range, hne, h.queue⟩
  · obtain rfl : { s with call := .advanceTail c } = t := by simpa [step, hs, hc] using he
    exact ⟨h.range, hhead, h.queue⟩
  · obtain rfl : { s with keyboard := advanceTail s.keyboard, call := .test,
                          taken := s.taken ++ [c] } = t := by
      simpa [step, hs, hc] using he
    refine ⟨hrange, trivial, ?_⟩
    dsimp only
    rw [h.queue, hcons, List.append_assoc, List.singleton_append]

/-- In every interleaving of interrupts with the statements of `keyboard_get_scancode` the codes
taken are the first of those accepted, the indices stay inside the buffer, and a press is turned
away only when `KEYBUF_SIZE - 1` codes are waiting. -/
theorem scancode_ring_fifo {k : Keyboard} {events : List ReaderEvent}
    (hrun : Run step anyCall (start k) events t) :
    t.taken <+: t.accepted ∧ t.keyboard.keybufHead < keybufSize ∧
      t.keyboard.keybufTail < keybufSize ∧
      ∀ sc, t.keyboard.Buffers sc →
        (keyboardIrqHandler t.keyboard sc).keybufHead = t.keyboard.keybufHead →
        t.accepted.length = t.taken.length + (keybufSize - 1) := by
  have h : Inv t := by
    refine hrun.invariant Inv ?_ (inv_start k)
    intro s event t h _ he
    cases event with
    | irq sc => exact h.irq he
    | statement => exact h.statement he
  refine ⟨⟨_, h.queue.symm⟩, h.range.head_lt, h.range.tail_lt, ?_⟩
  intro sc hb hsame
  have hstored := h.range.stored_eq sc
  rw [Keyboard.stored, if_pos hsame, Keyboard.pressed] at hstored
  have hfull : t.keyboard.Full := by
    by_contra hf
    rw [if_pos ⟨hb, hf⟩] at hstored
    cases hstored
  rw [h.queue, List.length_append, h.range.full_iff.mp hfull]

/-- The second press arrives when the first has been read and not yet taken. -/
theorem scancode_ring_fifo_two :
    ∃ t, Run step anyCall (start bootKeyboard)
        [.irq 0x1E, .statement, .statement, .irq 0x30, .statement] t ∧
      t.accepted = [0x1E, 0x30] ∧ t.taken = [0x1E] ∧ t.taken <+: t.accepted := by
  obtain ⟨t, ht, haccepted, htaken⟩ : ∃ t, [.irq 0x1E, .statement, .statement, .irq 0x30,
      .statement].foldlM step (start bootKeyboard) = some t ∧ t.accepted = [0x1E, 0x30] ∧
      t.taken = [0x1E] :=
    ⟨_, rfl, by decide, by decide⟩
  have hrun : Run step anyCall (start bootKeyboard)
      [.irq 0x1E, .statement, .statement, .irq 0x30, .statement] t := Run.of_foldlM ht
  exact ⟨t, hrun, haccepted, htaken, (scancode_ring_fifo hrun).1⟩

end Reader

end OpenKernel.Input
