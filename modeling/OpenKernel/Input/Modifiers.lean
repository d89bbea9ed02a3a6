import OpenKernel.Input.Keyboard
import OpenKernel.Lib.Flags
import OpenKernel.Lib.History

/-!
# Modifier keys

The keys that a user holds down against the bits of `modifiers`. Left and right
Shift have codes and bits of their own. The right Ctrl and Alt keys send the codes
of the left ones behind a prefix that the tracking does not look at, so that they
share a bit: releasing one of two held keys clears it.
-/

namespace OpenKernel.Input

open Flags

/-- The flags of `modifiers` that stand for keys held down. -/
inductive HeldFlag
  | lshift
  | rshift
  | lalt
  | lctrl
  deriving DecidableEq

namespace HeldFlag

def mask : HeldFlag → UInt8
  | lshift => keyboardLshift
  | rshift => keyboardRshift
  | lalt => keyboardLalt
  | lctrl => keyboardLctrl

/-- The code that sets the flag. -/
def make : HeldFlag → UInt8
  | lshift => 0x2A
  | rshift => 0x36
  | lalt => 0x38
  | lctrl => 0x1D

def clear : HeldFlag → UInt8
  | lshift => 0xAA
  | rshift => 0xB6
  | lalt => 0xB8
  | lctrl => 0x9D

variable (f g : HeldFlag)

theorem has_mask : Has g.mask f.mask ↔ g = f := by
  cases f <;> cases g <;> decide

theorem clear_mask : ~~~g.mask &&& f.mask = if g = f then 0 else f.mask := by
  cases f <;> cases g <;> decide

theorem make_inj : g.make = f.make ↔ g = f := by
  cases f <;> cases g <;> decide

theorem clear_inj : g.clear = f.clear ↔ g = f := by
  cases f <;> cases g <;> decide

theorem make_ne_clear : g.make ≠ f.clear := by
  cases f <;> cases g <;> decide

theorem make_or : f.make ||| 0x80 = f.clear := by
  cases f <;> decide

theorem make_lt : f.make < 0x80 := by
  cases f <;> decide

theorem caps_lock : 0x3A ≠ f.make ∧ 0x3A ≠ f.clear ∧ keyboardCapsLock &&& f.mask = 0 := by
  cases f <;> decide

end HeldFlag

/-- Everything the first `switch` of the handler can do. -/
theorem trackModifiers_cases (m sc : UInt8) :
    (∃ g : HeldFlag, sc = g.make ∧ trackModifiers m sc = m ||| g.mask) ∨
      (∃ g : HeldFlag, sc = g.clear ∧ trackModifiers m sc = m &&& ~~~g.mask) ∨
      (sc = 0x3A ∧ trackModifiers m sc = m ^^^ keyboardCapsLock) ∨
      (∀ g : HeldFlag, sc ≠ g.make ∧ sc ≠ g.clear) ∧ trackModifiers m sc = m := by
  unfold trackModifiers
  by_cases h₁ : sc = 0x2A
  · rw [if_pos h₁]
    exact Or.inl ⟨.lshift, h₁, rfl⟩
  rw [if_neg h₁]
  by_cases h₂ : sc = 0xAA
  · rw [if_pos h₂]
    exact Or.inr (Or.inl ⟨.lshift, h₂, rfl⟩)
  rw [if_neg h₂]
  by_cases h₃ : sc = 0x36
  · rw [if_pos h₃]
    exact Or.inl ⟨.rshift, h₃, rfl⟩
  rw [if_neg h₃]
  by_cases h₄ : sc = 0xB6
  · rw [if_pos h₄]
    exact Or.inr (Or.inl ⟨.rshift, h₄, rfl⟩)
  rw [if_neg h₄]
  by_cases h₅ : sc = 0x38
  · rw [if_pos h₅]
    exact Or.inl ⟨.lalt, h₅, rfl⟩
  rw [if_neg h₅]
  by_cases h₆ : sc = 0xB8
  · rw [if_pos h₆]
    exact Or.inr (Or.inl ⟨.lalt, h₆, rfl⟩)
  rw [if_neg h₆]
  by_cases h₇ : sc = 0x1D
  · rw [if_pos h₇]
    exact Or.inl ⟨.lctrl, h₇, rfl⟩
  rw [if_neg h₇]
  by_cases h₈ : sc = 0x9D
  · rw [if_pos h₈]
    exact Or.inr (Or.inl ⟨.lctrl, h₈, rfl⟩)
  rw [if_neg h₈]
  by_cases h₉ : sc = 0x3A
  · rw [if_pos h₉]
    exact Or.inr (Or.inr (Or.inl ⟨h₉, rfl⟩))
  rw [if_neg h₉]
  refine Or.inr (Or.inr (Or.inr ⟨fun g => ?_, rfl⟩))
  cases g with
  | lshift => exact ⟨h₁, h₂⟩
  | rshift => exact ⟨h₃, h₄⟩
  | lalt => exact ⟨h₅, h₆⟩
  | lctrl => exact ⟨h₇, h₈⟩

theorem has_trackModifiers (f : HeldFlag) (m sc : UInt8) :
    Has (trackModifiers m sc) f.mask ↔ sc = f.make ∨ sc ≠ f.clear ∧ Has m f.mask := by
  rcases trackModifiers_cases m sc with ⟨g, rfl, ht⟩ | ⟨g, rfl, ht⟩ | ⟨rfl, ht⟩ | ⟨hne, ht⟩
  · rw [ht, has_set, f.has_mask, f.make_inj]
    have := f.make_ne_clear g
    tauto
  · rw [ht, has_clear, f.clear_mask, Ne, f.clear_inj]
    split_ifs with hgf
    · subst hgf
      simp [not_has_empty, (g.make_ne_clear g).symm]
    · simp [hgf, (g.make_ne_clear f).symm]
  · obtain ⟨hmake, hclear, hcaps⟩ := f.caps_lock
    rw [ht, has_toggle hcaps]
    simp [hmake, hclear]
  · obtain ⟨hmake, hclear⟩ := hne f
    rw [ht]
    simp [hmake, hclear]

theorem has_trackModifiers_rctrl (m sc : UInt8) :
    Has (trackModifiers m sc) keyboardRctrl ↔ Has m keyboardRctrl := by
  rcases trackModifiers_cases m sc with ⟨g, -, ht⟩ | ⟨g, -, ht⟩ | ⟨-, ht⟩ | ⟨-, ht⟩
  · have hnot : ¬ Has g.mask keyboardRctrl := by cases g <;> decide
    rw [ht, has_set, or_iff_left hnot]
  · have hmask : ~~~g.mask &&& keyboardRctrl = keyboardRctrl := by cases g <;> decide
    rw [ht, has_clear, hmask]
  · rw [ht, has_toggle (by decide)]
  · rw [ht]

/-! ### Keys held down -/

/-- A make code other than those of Ctrl, Shift and Alt, and whose break code is not the
prefix. -/
structure OrdinaryCode where
  code : UInt8
  low : code < 0x80
  plain : ∀ f : HeldFlag, code ≠ f.make
  noPrefix : code ≠ 0x60
  deriving DecidableEq

/-- The keys; an ordinary one may send the prefix. -/
inductive Key
  | lctrl
  | rctrl
  | lshift
  | rshift
  | lalt
  | ralt
  | ordinary (code : OrdinaryCode) (extended : Bool)
  deriving DecidableEq

namespace Key

/-- The make code, without the prefix. -/
def code : Key → UInt8
  | lctrl | rctrl => 0x1D
  | lshift => 0x2A
  | rshift => 0x36
  | lalt | ralt => 0x38
  | ordinary c _ => c.code

/-- The key sends the prefix `0xE0` before its codes. -/
def extended : Key → Bool
  | rctrl | ralt => true
  | ordinary _ x => x
  | _ => false

end Key

inductive KeyMotion
  | press (key : Key)
  | release (key : Key)

def HeldFlag.keys : HeldFlag → List Key
  | lshift => [.lshift]
  | rshift => [.rshift]
  | lalt => [.lalt, .ralt]
  | lctrl => [.lctrl, .rctrl]

/-- The codes that the keyboard sends for an event. -/
def KeyMotion.codes : KeyMotion → List UInt8
  | .press key => (if key.extended then [0xE0] else []) ++ [key.code]
  | .release key => (if key.extended then [0xE0] else []) ++ [key.code ||| 0x80]

/-- The keyboard driver and the keys that are down. -/
structure Typist where
  keyboard : Keyboard
  down : Key → Bool

namespace Typist

/-- After `keyboard_init`, with no key down. -/
def start (k : Keyboard) : Typist := ⟨keyboardInit k, fun _ => false⟩

/-- A complete event. -/
def next (s : Typist) (e : KeyMotion) : Typist where
  keyboard := e.codes.foldl keyboardIrqHandler s.keyboard
  down := match e with
    | .press key => Function.update s.down key true
    | .release key => Function.update s.down key false

def after (k : Keyboard) (events : List KeyMotion) : Typist := events.foldl next (start k)

/-- The Ctrl bits, the Shift bits and the Alt bit of `modifiers` tell which keys are down. -/
def Tracked (s : Typist) : Prop :=
  (s.keyboard.modifiers &&& (keyboardLctrl ||| keyboardRctrl) ≠ 0 ↔
    s.down .lctrl = true ∨ s.down .rctrl = true) ∧
  (s.keyboard.modifiers &&& (keyboardLshift ||| keyboardRshift) ≠ 0 ↔
    s.down .lshift = true ∨ s.down .rshift = true) ∧
  (s.keyboard.modifiers &&& keyboardLalt ≠ 0 ↔ s.down .lalt = true ∨ s.down .ralt = true)

/-- A Ctrl or Alt key is released only when the other one is up. -/
def ReleasedAlone (s : Typist) : KeyMotion → Prop
  | .release .lctrl => s.down .rctrl = false
  | .release .rctrl => s.down .lctrl = false
  | .release .lalt => s.down .ralt = false
  | .release .ralt => s.down .lalt = false
  | _ => True

/-- Each flag is set while one of its keys is down. -/
structure Held (s : Typist) : Prop where
  flag : ∀ f : HeldFlag, Has s.keyboard.modifiers f.mask ↔ ∃ key ∈ f.keys, s.down key = true
  rctrl : ¬ Has s.keyboard.modifiers keyboardRctrl

end Typist

namespace Key

theorem code_lt (key : Key) : key.code < 0x80 := by
  cases key with
  | ordinary c x => exact c.low
  | _ => decide

theorem code_ne (key : Key) : key.code ≠ 0xE0 := by
  intro h
  have := key.code_lt
  rw [h] at this
  exact absurd this (by decide)

theorem code_or_ne (key : Key) : key.code ||| 0x80 ≠ 0xE0 := by
  have hE : (0xE0 : UInt8) = 0x60 ||| 0x80 := by decide
  rw [hE, Ne, or_top_inj key.code_lt (by decide)]
  cases key with
  | ordinary c x => exact c.noPrefix
  | _ => decide

theorem code_eq_make (key : Key) (f : HeldFlag) : key.code = f.make ↔ key ∈ f.keys := by
  cases key with
  | ordinary c x =>
    have hne := c.plain f
    cases f <;> simpa [HeldFlag.keys, code] using hne
  | _ => cases f <;> simp [HeldFlag.keys, code, HeldFlag.make]

end Key

namespace Typist

variable {s : Typist}

theorem modifiers_next_press (s : Typist) (key : Key) :
    (s.next (.press key)).keyboard.modifiers = trackModifiers s.keyboard.modifiers key.code := by
  simp only [next, KeyMotion.codes]
  split_ifs
  · simp [Keyboard.modifiers_keyboardIrqHandler, Keyboard.modifiersAfter, key.code_ne]
  · simp [Keyboard.modifiers_keyboardIrqHandler, Keyboard.modifiersAfter, key.code_ne]

theorem modifiers_next_release (s : Typist) (key : Key) :
    (s.next (.release key)).keyboard.modifiers =
      trackModifiers s.keyboard.modifiers (key.code ||| 0x80) := by
  simp only [next, KeyMotion.codes]
  split_ifs
  · simp [Keyboard.modifiers_keyboardIrqHandler, Keyboard.modifiersAfter, key.code_or_ne]
  · simp [Keyboard.modifiers_keyboardIrqHandler, Keyboard.modifiersAfter, key.code_or_ne]

theorem has_press (s : Typist) (key : Key) (f : HeldFlag) :
    Has (s.next (.press key)).keyboard.modifiers f.mask ↔
      key ∈ f.keys ∨ Has s.keyboard.modifiers f.mask := by
  have hne : key.code ≠ f.clear := by
    rw [← f.make_or]
    exact (or_top_ne f.make_lt key.code_lt).symm
  rw [modifiers_next_press, has_trackModifiers, key.code_eq_make]
  simp [hne]

theorem has_release (s : Typist) (key : Key) (f : HeldFlag) :
    Has (s.next (.release key)).keyboard.modifiers f.mask ↔
      key ∉ f.keys ∧ Has s.keyboard.modifiers f.mask := by
  have hne : key.code ||| 0x80 ≠ f.make := or_top_ne key.code_lt f.make_lt
  have hclear : key.code ||| 0x80 = f.clear ↔ key ∈ f.keys := by
    rw [← f.make_or, or_top_inj key.code_lt f.make_lt, key.code_eq_make]
  rw [modifiers_next_release, has_trackModifiers, Ne, hclear]
  simp [hne]

theorem has_next_rctrl (s : Typist) (e : KeyMotion) :
    Has (s.next e).keyboard.modifiers keyboardRctrl ↔ Has s.keyboard.modifiers keyboardRctrl := by
  cases e with
  | press key => rw [modifiers_next_press, has_trackModifiers_rctrl]
  | release key => rw [modifiers_next_release, has_trackModifiers_rctrl]

theorem ReleasedAlone.up {key key' : Key} (h : s.ReleasedAlone (.release key)) {f : HeldFlag}
    (hkey : key ∈ f.keys) (hkey' : key' ∈ f.keys) (hne : key' ≠ key) : s.down key' = false := by
  cases f <;> simp only [HeldFlag.keys, List.mem_cons, List.not_mem_nil, or_false] at hkey hkey'
  case lshift | rshift => exact absurd (hkey'.trans hkey.symm) hne
  case lalt | lctrl =>
    rcases hkey with rfl | rfl <;> rcases hkey' with rfl | rfl
    · exact absurd rfl hne
    · exact h
    · exact h
    · exact absurd rfl hne

theorem held_start (k : Keyboard) : (start k).Held :=
  ⟨fun f => by simp [start, keyboardInit, not_has_zero], not_has_zero _⟩

theorem Held.next (h : s.Held) {e : KeyMotion} (he : s.ReleasedAlone e) : (s.next e).Held := by
  refine ⟨fun f => ?_, by rw [has_next_rctrl]; exact h.rctrl⟩
  cases e with
  | press key =>
    rw [has_press, h.flag f]
    constructor
    · rintro (hkey | ⟨key', hkey', hdown⟩)
      · exact ⟨key, hkey, by simp [Typist.next]⟩
      · refine ⟨key', hkey', ?_⟩
        by_cases heq : key' = key
        · simp [Typist.next, heq]
        · simpa [Typist.next, heq] using hdown
    · rintro ⟨key', hkey', hdown⟩
      by_cases heq : key' = key
      · exact Or.inl (heq ▸ hkey')
      · exact Or.inr ⟨key', hkey', by simpa [Typist.next, heq] using hdown⟩
  | release key =>
    rw [has_release, h.flag f]
    constructor
    · rintro ⟨hkey, key', hkey', hdown⟩
      have heq : key' ≠ key := by
        rintro rfl
        exact hkey hkey'
      exact ⟨key', hkey', by simpa [Typist.next, heq] using hdown⟩
    · rintro ⟨key', hkey', hdown⟩
      have heq : key' ≠ key := by
        rintro rfl
        simp [Typist.next] at hdown
      have hdown : s.down key' = true := by simpa [Typist.next, heq] using hdown
      refine ⟨fun hkey => ?_, key', hkey', hdown⟩
      rw [he.up hkey hkey' heq] at hdown
      cases hdown

theorem Held.tracked (h : s.Held) : s.Tracked := by
  refine ⟨?_, ?_, ?_⟩
  · rw [← Has, has_union, or_iff_left h.rctrl]
    simpa [HeldFlag.keys, HeldFlag.mask] using h.flag .lctrl
  · rw [← Has, has_union]
    have hl := h.flag .lshift
    have hr := h.flag .rshift
    simp only [HeldFlag.keys, HeldFlag.mask, List.mem_singleton, exists_eq_left] at hl hr
    rw [hl, hr]
  · rw [← Has]
    simpa [HeldFlag.keys, HeldFlag.mask] using h.flag .lalt

theorem Held.ctrl_up (h : s.Held) {key : Key} (hkey : key ∈ HeldFlag.lctrl.keys)
    (ht : (s.next (.release key)).Tracked) : ∀ key' ∈ HeldFlag.lctrl.keys,
      (s.next (.release key)).down key' = false := by
  have hl : ¬ Has (s.next (.release key)).keyboard.modifiers keyboardLctrl :=
    fun hl => ((has_release s key .lctrl).mp hl).1 hkey
  have hr := (has_next_rctrl s (.release key)).not.mpr h.rctrl
  have hnone := ht.1.not.mp (by rw [← Has, has_union]; exact not_or.mpr ⟨hl, hr⟩)
  simpa [HeldFlag.keys] using hnone

theorem alt_up {key : Key} (hkey : key ∈ HeldFlag.lalt.keys)
    (ht : (s.next (.release key)).Tracked) : ∀ key' ∈ HeldFlag.lalt.keys,
      (s.next (.release key)).down key' = false := by
  have hl : ¬ Has (s.next (.release key)).keyboard.modifiers keyboardLalt :=
    fun hl => ((has_release s key .lalt).mp hl).1 hkey
  have hnone := ht.2.2.not.mp hl
  simpa [HeldFlag.keys] using hnone

theorem Held.releasedAlone (h : s.Held) {e : KeyMotion} (ht : (s.next e).Tracked) :
    s.ReleasedAlone e := by
  cases e with
  | press key => trivial
  | release key =>
    cases key with
    | lctrl => simpa [Typist.next, ReleasedAlone] using h.ctrl_up (by decide) ht .rctrl (by decide)
    | rctrl => simpa [Typist.next, ReleasedAlone] using h.ctrl_up (by decide) ht .lctrl (by decide)
    | lalt => simpa [Typist.next, ReleasedAlone] using alt_up (by decide) ht .ralt (by decide)
    | ralt => simpa [Typist.next, ReleasedAlone] using alt_up (by decide) ht .lalt (by decide)
    | _ => trivial

theorem after_append (k : Keyboard) (events : List KeyMotion) (e : KeyMotion) :
    after k (events ++ [e]) = (after k events).next e := by
  simp [after, List.foldl_append]

theorem Held.tracked_next_iff (h : s.Held) (e : KeyMotion) :
    (s.next e).Tracked ↔ s.ReleasedAlone e :=
  ⟨h.releasedAlone, fun he => (h.next he).tracked⟩

/-- The bits are right after every event exactly if no Ctrl or Alt key is released while the
other one is down. -/
theorem modifiers_tracked_iff (k : Keyboard) (events : List KeyMotion) :
    Throughout (fun before e => (after k (before ++ [e])).Tracked) events ↔
      Throughout (fun before e => (after k before).ReleasedAlone e) events := by
  refine throughout_iff (fun before => (after k before).Held) (held_start k) ?_ ?_
  · intro before e h he
    rw [after_append]
    exact h.next he
  · intro before e h
    rw [after_append]
    exact h.tracked_next_iff e

/-- Both Ctrl keys are pressed and the right one is released: the left one is still down. -/
theorem not_tracked_ctrl :
    (after bootKeyboard [.press .lctrl, .press .rctrl, .release .rctrl]).keyboard.modifiers = 0 ∧
      (after bootKeyboard [.press .lctrl, .press .rctrl, .release .rctrl]).down .lctrl = true ∧
      ¬ (after bootKeyboard [.press .lctrl, .press .rctrl, .release .rctrl]).Tracked := by
  refine ⟨by decide, by decide, fun ht => ?_⟩
  exact absurd (ht.1.mpr (Or.inl (by decide))) (by decide)

end Typist

end OpenKernel.Input
