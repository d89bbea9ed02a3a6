import OpenKernel.Input.Keyboard
import OpenKernel.Lib.Flags
import OpenKernel.Lib.History

/-!
# Accesses of the keyboard driver

The selection of a layout, and every index that the driver uses on `key_buffer`
and on the tables of the current layout. The tables have 60 entries, and
`keyboard_scancode_to_ascii` looks up codes below 0x59. The keys with codes from
0x3C to 0x58, F2 and the keypad among them, are therefore looked up behind the end.
-/

namespace OpenKernel.Input

open Flags

/-! ### Selecting a layout -/

/-- The enumerators of `layout_t`, in order. -/
def layouts : List Layout :=
  [.us, .uk, .it, .fr, .de, .es, .pt, .no, .dk, .se, .fi, .nl, .be, .pl, .cz, .sk, .hu, .ro, .tr]

def keyboardSetLayout (current : Layout) (layout : ℤ) : Layout :=
  if 0 ≤ layout ∧ layout ≤ 18 then layouts.getD layout.toNat current else current

/-- The characters of a string in the source. -/
def literal (s : String) : List UInt8 := s.toList.map Char.toUInt8

/-- `kstrcmp_prefix` on strings without their terminators. -/
def kstrcmpPrefix : List UInt8 → List UInt8 → Bool
  | _, [] => true
  | [], _ :: _ => false
  | c :: str, d :: start => if c ≠ d then false else kstrcmpPrefix str start

/-- The names in the order in which they are tried, which is that of the enumerators. -/
def layoutNames : List String :=
  ["us", "uk", "it", "fr", "de", "es", "pt", "no", "dk", "se", "fi", "nl", "be", "pl", "cz", "sk",
    "hu", "ro", "tr"]

def detectLoop (current : Layout) : List UInt8 → Layout
  | [] => current
  | c :: rest =>
    if kstrcmpPrefix (c :: rest) (literal "layout=") then
      match layoutNames.findIdx? fun name => kstrcmpPrefix ((c :: rest).drop 7) (literal name) with
      | some layout => keyboardSetLayout current layout
      | none => current
    else detectLoop current rest

/-- `keyboard_detect_layout`; there may be no command line. -/
def keyboardDetectLayout (current : Layout) : Option (List UInt8) → Layout
  | none => current
  | some cmdline => detectLoop current cmdline

example : keyboardDetectLayout .it (some (literal "quiet layout=de")) = .de := by decide

/-! ### Accesses -/

/-- An element of an array is used. -/
inductive Access
  | keyBuffer (index : ℕ)
  | table (entries : List UInt8) (index : ℕ)

def Access.InBounds : Access → Prop
  | .keyBuffer index => index < keybufSize
  | .table entries index => index < entries.length

/-- The handler writes the slot at `keybuf_head`, if it has a press to store and room for it. -/
def irqAccesses (k : Keyboard) (scancode : UInt8) : List Access :=
  if k.Buffers scancode ∧ ¬ k.Full then [.keyBuffer k.keybufHead] else []

def getScancodeAccesses (k : Keyboard) : GetScancode → List Access
  | .readSlot => [.keyBuffer k.keybufTail]
  | _ => []

/-- The accesses of `keyboard_scancode_to_ascii`. What stands behind the end of a table is not
known, and neither is what is looked up after it. -/
def toAsciiAccesses (layout : Layout) (scancode : UInt8) (shifted caps : Bool) : List Access :=
  if scancode &&& 0x80 ≠ 0 then []
  else if scancode < 0x59 then
    .table layout.lower scancode.toNat ::
      match layout.lower[scancode.toNat]? with
      | none => []
      | some c => if c ≠ 0 ∧ (shifted || caps) then [.table layout.upper scancode.toNat] else []
  else []

theorem Layout.length_lower (layout : Layout) : layout.lower.length = 60 := by
  cases layout <;> rfl

theorem Layout.length_upper (layout : Layout) : layout.upper.length = 60 := by
  cases layout <;> rfl

/-- A code that is looked up behind the end of the tables. -/
def BehindTables (scancode : UInt8) : Prop := 0x3C ≤ scancode ∧ scancode ≤ 0x58

theorem behindTables_iff (sc : UInt8) : BehindTables sc ↔ 60 ≤ sc.toNat ∧ sc.toNat ≤ 88 := by
  unfold BehindTables
  rw [UInt8.le_iff_toNat_le, UInt8.le_iff_toNat_le]
  rfl

theorem toAsciiAccesses_inBounds_iff (layout : Layout) (sc : UInt8) (shifted caps : Bool) :
    (∀ a ∈ toAsciiAccesses layout sc shifted caps, a.InBounds) ↔ ¬ BehindTables sc := by
  have hlower := layout.length_lower
  have hupper := layout.length_upper
  have hlt : sc < 0x59 ↔ sc.toNat < 89 := UInt8.lt_iff_toNat_lt
  rw [behindTables_iff]
  unfold toAsciiAccesses
  split_ifs with hbreak hlow
  · -- a release is not looked up
    have hge : 128 ≤ sc.toNat := by
      have := and_top_eq_zero.not.mp hbreak
      rw [UInt8.lt_iff_toNat_lt] at this
      simpa using this
    simp only [List.not_mem_nil, false_implies, implies_true, true_iff]
    omega
  · have h89 := hlt.mp hlow
    constructor
    · intro hall hbehind
      have hin : sc.toNat < layout.lower.length := hall _ (List.mem_cons_self)
      omega
    · intro hbehind a ha
      have hin : sc.toNat < 60 := by omega
      rcases List.mem_cons.mp ha with rfl | ha
      · exact show sc.toNat < layout.lower.length by omega
      · rw [List.getElem?_eq_getElem (by omega)] at ha
        dsimp only at ha
        split_ifs at ha
        · obtain rfl := List.mem_singleton.mp ha
          exact show sc.toNat < layout.upper.length by omega
        · cases ha
  · have h89 := hlt.not.mp hlow
    simp only [List.not_mem_nil, false_implies, implies_true, true_iff]
    omega

/-- The conversion fails where it uses an index outside a table. -/
theorem asciiOf_eq_none_iff (layout : Layout) (sc : UInt8) (shifted caps : Bool) :
    asciiOf layout sc shifted caps = none ↔
      ¬ ∀ a ∈ toAsciiAccesses layout sc shifted caps, a.InBounds := by
  rw [toAsciiAccesses_inBounds_iff, not_not, behindTables_iff]
  have hlower := layout.length_lower
  have hupper := layout.length_upper
  have hlt : sc < 0x59 ↔ sc.toNat < 89 := UInt8.lt_iff_toNat_lt
  constructor
  · intro hnone
    by_contra hbehind
    have hcases : sc.toNat < 60 ∨ ¬ sc < 0x59 := by
      rw [hlt]
      omega
    unfold asciiOf at hnone
    rcases hcases with hin | hhigh
    · rw [List.getElem?_eq_getElem (by omega), List.getElem?_eq_getElem (by omega)] at hnone
      dsimp only at hnone
      split_ifs at hnone
    · rw [if_neg hhigh] at hnone
      split_ifs at hnone
  · rintro ⟨hge, hle⟩
    have hbreak : sc &&& 0x80 = 0 := by
      rw [and_top_eq_zero, UInt8.lt_iff_toNat_lt]
      exact show sc.toNat < 128 by omega
    have hout : layout.lower[sc.toNat]? = none := List.getElem?_eq_none (by omega)
    rw [asciiOf, if_neg (fun h => h hbreak), if_pos (hlt.mpr (by omega)), hout]

/-! ### The driver -/

/-- The keyboard, the current layout, where `keyboard_get_scancode` stands and what it returned
last. -/
structure Driver where
  keyboard : Keyboard
  layout : Layout
  call : GetScancode
  returned : UInt8

/-- An interrupt, the next statement of `keyboard_get_scancode`, `keyboard_scancode_to_ascii` of
what that returned, and the selection of a layout. Interrupts may come between the reads of
`modifiers` in the conversion, so that any values can be seen there. -/
inductive DriverEvent
  | irq (scancode : UInt8)
  | statement
  | toAscii (shifted caps : Bool)
  | setLayout (layout : ℤ)
  | detectLayout (cmdline : Option (List UInt8))

namespace Driver

def start : Driver := ⟨keyboardInit bootKeyboard, .it, .test, 0⟩

def next (s : Driver) : DriverEvent → Driver
  | .irq scancode => { s with keyboard := keyboardIrqHandler s.keyboard scancode }
  | .statement =>
    let result := getScancodeStep s.keyboard s.call
    { s with
      keyboard := result.1
      call := result.2.1
      returned := result.2.2.getD s.returned }
  | .toAscii _ _ => s
  | .setLayout layout => { s with layout := keyboardSetLayout s.layout layout }
  | .detectLayout cmdline => { s with layout := keyboardDetectLayout s.layout cmdline }

def accesses (s : Driver) : DriverEvent → List Access
  | .irq scancode => irqAccesses s.keyboard scancode
  | .statement => getScancodeAccesses s.keyboard s.call
  | .toAscii shifted caps => toAsciiAccesses s.layout s.returned shifted caps
  | _ => []

def after (events : List DriverEvent) : Driver := events.foldl next start

theorem after_append (events : List DriverEvent) (e : DriverEvent) :
    after (events ++ [e]) = (after events).next e := by
  simp [after, List.foldl_append]

/-- The bytes read from the data port. -/
def received (events : List DriverEvent) : List UInt8 :=
  events.filterMap fun
    | .irq scancode => some scancode
    | _ => none

/-- Every index used is inside its array. -/
def SafeAccesses (before : List DriverEvent) (e : DriverEvent) : Prop :=
  ∀ a ∈ (after before).accesses e, a.InBounds

/-- A code behind the tables comes after the prefix only. -/
def PrefixedBehind (before : List UInt8) (scancode : UInt8) : Prop :=
  BehindTables scancode → before.getLast? = some 0xE0

/-- No code that is looked up behind the tables is waiting. -/
structure Inv (codes : List UInt8) (s : Driver) : Prop where
  range : s.keyboard.InRange
  reads : s.keyboard.Reads s.call
  mode : s.keyboard.extendedMode = true ↔ codes.getLast? = some 0xE0
  waiting : ∀ c ∈ s.keyboard.contents, ¬ BehindTables c
  returned : ¬ BehindTables s.returned

theorem not_behindTables_zero : ¬ BehindTables 0 := fun h => absurd h.1 (by decide)

theorem inv_start : Inv [] start := by
  refine ⟨Keyboard.inRange_keyboardInit _, trivial, by simp [start, keyboardInit, bootKeyboard], ?_,
    not_behindTables_zero⟩
  intro c hc
  rw [show start.keyboard.contents = [] from Keyboard.contents_keyboardInit _] at hc
  cases hc

variable {codes : List UInt8} {s : Driver}

theorem Inv.irq (h : Inv codes s) {sc : UInt8} (hsc : PrefixedBehind codes sc) :
    Inv (codes ++ [sc]) (s.next (.irq sc)) := by
  refine ⟨h.range.irq, h.range.reads_irq h.reads, ?_, ?_, h.returned⟩
  · rw [List.getLast?_concat, Option.some.injEq]
    exact Keyboard.extendedMode_irq _ sc
  · intro c hc
    have hcontents : (s.next (.irq sc)).keyboard.contents =
        s.keyboard.contents ++ s.keyboard.pressed sc := h.range.contents_irq
    rw [hcontents] at hc
    rcases List.mem_append.mp hc with hc | hc
    · exact h.waiting c hc
    · -- a press goes into the buffer outside the extended mode only
      unfold Keyboard.pressed at hc
      split_ifs at hc with hb
      · obtain rfl := List.mem_singleton.mp hc
        intro hbehind
        have hmode := h.mode.mpr (hsc hbehind)
        rw [hb.1.2.1] at hmode
        cases hmode
      · cases hc

theorem Inv.statement (h : Inv codes s) : Inv codes (s.next .statement) := by
  rcases h.range.getScancodeStep_cases h.reads with ⟨hc, -, hs⟩ | ⟨hc, hne, hs⟩ |
    ⟨c, hc, hhead, hs⟩ | ⟨c, hc, hcons, hrange, hs⟩
  · have hnext : s.next .statement = { s with call := .test, returned := 0 } := by
      simp [next, hc, hs]
    rw [hnext]
    exact ⟨h.range, trivial, h.mode, h.waiting, not_behindTables_zero⟩
  · have hnext : s.next .statement = { s with call := .readSlot } := by
      simp [next, hc, hs]
    rw [hnext]
    exact ⟨h.range, hne, h.mode, h.waiting, h.returned⟩
  · have hnext : s.next .statement = { s with call := .advanceTail c } := by
      simp [next, hc, hs]
    rw [hnext]
    exact ⟨h.range, hhead, h.mode, h.waiting, h.returned⟩
  · have hnext : s.next .statement =
        { s with keyboard := advanceTail s.keyboard, call := .test, returned := c } := by
      simp [next, hc, hs]
    rw [hnext]
    have hold : ∀ d ∈ c :: (advanceTail s.keyboard).contents, ¬ BehindTables d := by
      rw [← hcons]
      exact h.waiting
    exact ⟨hrange, trivial, h.mode, fun d hd => hold d (List.mem_cons_of_mem _ hd),
      hold c List.mem_cons_self⟩

theorem received_append (events events' : List DriverEvent) :
    received (events ++ events') = received events ++ received events' :=
  List.filterMap_append

theorem received_quiet (events : List DriverEvent) {e : DriverEvent} (he : ∀ sc, e ≠ .irq sc) :
    received (events ++ [e]) = received events := by
  rw [received_append]
  cases e with
  | irq sc => exact absurd rfl (he sc)
  | _ => exact List.append_nil _

theorem Inv.quiet (h : Inv codes s) {e : DriverEvent} (he : ∀ sc, e ≠ .irq sc) :
    Inv codes (s.next e) := by
  cases e with
  | irq sc => exact absurd rfl (he sc)
  | statement => exact h.statement
  | toAscii shifted caps => exact h
  | _ => exact ⟨h.range, h.reads, h.mode, h.waiting, h.returned⟩

theorem inv_after {events : List DriverEvent} (h : Throughout PrefixedBehind (received events)) :
    Inv (received events) (after events) := by
  induction events using List.reverseRecOn with
  | nil => exact inv_start
  | append_singleton events e ih =>
    rw [after_append]
    by_cases hirq : ∃ sc, e = .irq sc
    · obtain ⟨sc, rfl⟩ := hirq
      rw [received_append] at h ⊢
      obtain ⟨hold, hsc⟩ := throughout_append.mp h
      exact (ih hold).irq hsc
    · push Not at hirq
      rw [received_quiet events hirq] at h ⊢
      exact (ih h).quiet hirq

theorem Inv.safe (h : Inv codes s) (e : DriverEvent) : ∀ a ∈ s.accesses e, a.InBounds := by
  cases e with
  | irq sc =>
    intro a ha
    simp only [accesses, irqAccesses] at ha
    split_ifs at ha
    · obtain rfl := List.mem_singleton.mp ha
      exact h.range.head_lt
    · cases ha
  | statement =>
    intro a ha
    simp only [accesses] at ha
    cases hcall : s.call with
    | readSlot =>
      rw [hcall] at ha
      obtain rfl := List.mem_singleton.mp ha
      exact h.range.tail_lt
    | _ =>
      rw [hcall] at ha
      cases ha
  | toAscii shifted caps => exact (toAsciiAccesses_inBounds_iff _ _ _ _).mpr h.returned
  | _ =>
    intro a ha
    cases ha

/-! ### Taking every code at once -/

/-- Each code is taken out of the buffer before the next one arrives. -/
def drain (codes : List UInt8) : List DriverEvent :=
  codes.flatMap fun sc => [.irq sc, .statement, .statement, .statement]

theorem received_drain (codes : List UInt8) : received (drain codes) = codes := by
  induction codes with
  | nil => rfl
  | cons sc codes ih =>
    change sc :: received (drain codes) = sc :: codes
    rw [ih]

theorem drain_append (codes : List UInt8) (sc : UInt8) :
    drain (codes ++ [sc]) = drain codes ++ [.irq sc, .statement, .statement, .statement] := by
  simp [drain]

/-- The buffer is empty between two codes. -/
structure Drained (codes : List UInt8) (s : Driver) : Prop where
  range : s.keyboard.InRange
  mode : s.keyboard.extendedMode = true ↔ codes.getLast? = some 0xE0
  empty : s.keyboard.contents = []
  call : s.call = .test

theorem drained_start : Drained [] start :=
  ⟨Keyboard.inRange_keyboardInit _, by simp [start, keyboardInit, bootKeyboard],
    Keyboard.contents_keyboardInit _, rfl⟩

theorem next_of_empty (hrange : s.keyboard.InRange) (hcall : s.call = .test)
    (hc : s.keyboard.contents = []) :
    s.next .statement = { s with call := .test, returned := 0 } := by
  have hnil : s.keyboard.keybufTail = s.keyboard.keybufHead :=
    (RingBuffer.InRange.contents_eq_nil_iff hrange).mp hc
  simp [next, getScancodeStep, hcall, hnil]

theorem next_of_one {c : UInt8} (hrange : s.keyboard.InRange) (hcall : s.call = .test)
    (hc : s.keyboard.contents = [c]) :
    ((s.next .statement).next .statement).next .statement =
        { s with keyboard := advanceTail s.keyboard, call := .test, returned := c } ∧
      (advanceTail s.keyboard).contents = [] ∧ (advanceTail s.keyboard).InRange := by
  have hnil : s.keyboard.keybufTail ≠ s.keyboard.keybufHead := by
    intro heq
    have := (RingBuffer.InRange.contents_eq_nil_iff hrange).mpr heq
    rw [show s.keyboard.ring.contents keybufSize = _ from hc] at this
    cases this
  have hcons : s.keyboard.contents = s.keyboard.keyBuffer s.keyboard.keybufTail ::
      (advanceTail s.keyboard).contents := RingBuffer.InRange.contents_advance hrange hnil
  rw [hc] at hcons
  obtain ⟨hslot, hrest⟩ := List.cons.inj hcons
  refine ⟨?_, hrest.symm, RingBuffer.InRange.advance hrange⟩
  simp [next, getScancodeStep, hcall, hnil, ← hslot]

theorem Drained.next (h : Drained codes s) (sc : UInt8) :
    Drained (codes ++ [sc])
      ((((s.next (.irq sc)).next .statement).next .statement).next .statement) ∧
      (s.keyboard.Buffers sc →
        ((((s.next (.irq sc)).next .statement).next .statement).next .statement).returned = sc) := by
  have hroom : ¬ s.keyboard.Full := by
    rw [h.range.full_iff, h.empty]
    decide
  have hmode : (s.next (.irq sc)).keyboard.extendedMode = true ↔
      (codes ++ [sc]).getLast? = some 0xE0 := by
    rw [List.getLast?_concat, Option.some.injEq]
    exact Keyboard.extendedMode_irq _ sc
  have hrange : (s.next (.irq sc)).keyboard.InRange := h.range.irq
  have hcontents : (s.next (.irq sc)).keyboard.contents =
      s.keyboard.contents ++ s.keyboard.pressed sc := h.range.contents_irq
  rw [h.empty, List.nil_append] at hcontents
  by_cases hb : s.keyboard.Buffers sc
  · rw [Keyboard.pressed, if_pos ⟨hb, hroom⟩] at hcontents
    obtain ⟨hnext, hempty, hrange'⟩ := next_of_one hrange h.call hcontents
    rw [hnext]
    exact ⟨⟨hrange', hmode, hempty, rfl⟩, fun _ => rfl⟩
  · rw [Keyboard.pressed, if_neg fun hn => hb hn.1] at hcontents
    have hnext := next_of_empty hrange h.call hcontents
    set t : Driver := { s.next (.irq sc) with call := .test, returned := 0 } with ht
    have hagain : t.next .statement = t := next_of_empty (s := t) hrange rfl hcontents
    rw [hnext, hagain, hagain]
    exact ⟨⟨hrange, hmode, hcontents, rfl⟩, fun hb' => absurd hb' hb⟩

theorem after_drain_append (codes : List UInt8) (sc : UInt8) : after (drain (codes ++ [sc])) =
    ((((after (drain codes)).next (.irq sc)).next .statement).next .statement).next .statement := by
  simp [after, drain_append, List.foldl_append]

theorem drained (codes : List UInt8) : Drained codes (after (drain codes)) := by
  induction codes using List.reverseRecOn with
  | nil => exact drained_start
  | append_singleton codes sc ih =>
    rw [after_drain_append]
    exact (ih.next sc).1

theorem buffers_of_behindTables {k : Keyboard} {sc : UInt8} (hx : k.extendedMode = false)
    (h : BehindTables sc) : k.Buffers sc := by
  rw [behindTables_iff] at h
  refine ⟨?_, hx, ?_, ?_⟩
  · rintro rfl
    exact absurd h.2 (by decide)
  · rintro ⟨rfl, -⟩
    exact absurd h.1 (by decide)
  · rw [and_top_eq_zero, UInt8.lt_iff_toNat_lt]
    exact show sc.toNat < 128 by omega

/-- In whatever order the driver runs, all its accesses are inside their arrays exactly if no
code from 0x3C to 0x58 is received without the prefix before it. -/
theorem accesses_inBounds_iff (codes : List UInt8) :
    (∀ events, received events = codes → Throughout SafeAccesses events) ↔
      Throughout (fun before sc => 0x3C ≤ sc ∧ sc ≤ 0x58 → before.getLast? = some 0xE0) codes := by
  constructor
  · intro hsafe before sc hpre hbehind
    obtain ⟨rest, rfl⟩ := hpre
    by_contra hplain
    -- the code is converted as soon as it has arrived
    have hreceived : received (drain (before ++ [sc]) ++ [.toAscii false false] ++ drain rest) =
        before ++ [sc] ++ rest := by
      rw [received_append, received_append, received_drain, received_drain]
      simp [received]
    have hall := hsafe _ hreceived (drain (before ++ [sc])) (.toAscii false false)
      (List.prefix_append _ _)
    have hd := drained before
    have hx : (after (drain before)).keyboard.extendedMode = false := by
      rw [← Bool.not_eq_true, hd.mode]
      exact hplain
    have hreturned := (hd.next sc).2 (buffers_of_behindTables hx hbehind)
    rw [← after_drain_append] at hreturned
    have hin := (toAsciiAccesses_inBounds_iff _ _ _ _).mp hall
    rw [hreturned] at hin
    exact hin hbehind
  · rintro hplain events rfl before e hpre
    have hreceived : received before <+: received events :=
      ((List.prefix_append before [e]).trans hpre).filterMap _
    exact (inv_after fun p sc hp => hplain p sc (hp.trans hreceived)).safe e

/-- F2 is pressed, taken out of the buffer and converted. -/
theorem f2_behind_tables :
    received [.irq 0x3C, .statement, .statement, .statement, .toAscii false false] = [0x3C] ∧
      (after [.irq 0x3C, .statement, .statement, .statement]).accesses (.toAscii false false) =
        [.table scancodeAsciiLowerIt 60] ∧
      scancodeAsciiLowerIt.length = 60 ∧
      ¬ Throughout SafeAccesses
        [.irq 0x3C, .statement, .statement, .statement, .toAscii false false] := by
  have haccess : (after [.irq 0x3C, .statement, .statement, .statement]).accesses
      (.toAscii false false) = [.table scancodeAsciiLowerIt 60] := rfl
  refine ⟨rfl, haccess, rfl, fun hall => ?_⟩
  have hin := hall [.irq 0x3C, .statement, .statement, .statement] (.toAscii false false)
    (List.prefix_refl _)
  unfold SafeAccesses at hin
  rw [haccess] at hin
  have hlt : 60 < scancodeAsciiLowerIt.length := hin _ (List.mem_singleton.mpr rfl)
  exact absurd hlt (by decide)

end Driver

end OpenKernel.Input
