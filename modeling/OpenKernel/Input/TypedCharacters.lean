import OpenKernel.Input.ScancodeRing

/-!
# From key presses to characters

The main loop takes a code out of the buffer and converts it with the modifiers
of that moment, not with those of the moment of the press. A run types the
characters that were meant as long as no interrupt changes the modifiers in a
way that changes the character of a press still waiting; the characters are
then a function of the codes received alone.
-/

namespace OpenKernel.Input

/-- Where the main loop stands: in `keyboard_get_scancode`, or in `keyboard_scancode_to_ascii`
before the statement that looks at Shift and before the one that looks at Caps Lock. `calls` counts
the conversions of the same code that follow. -/
inductive Stage
  | polling (call : GetScancode)
  | checkShift (sc : UInt8) (calls : ℕ)
  | checkCaps (sc : UInt8) (calls : ℕ) (shifted : Bool)
  deriving DecidableEq

/-- The main loop converts each code once, and every code but Enter and Backspace a second time
when it is used. -/
def furtherCalls (sc : UInt8) : ℕ := if sc = 0x1C ∨ sc = 0x0E then 0 else 1

/-- The character the main loop will use for the code it holds, if the modifiers stay. -/
def Stage.pending (layout : Layout) (modifiers : UInt8) : Stage → List (Option UInt8)
  | .polling _ => []
  | .checkShift sc _ => [keyboardScancodeToAscii layout modifiers sc]
  | .checkCaps sc 0 shifted => [asciiOf layout sc shifted (capsOn modifiers)]
  | .checkCaps sc (_ + 1) _ => [keyboardScancodeToAscii layout modifiers sc]

/-- The keyboard and the main loop. `received` records each press stored in the buffer with the
modifiers it left behind, `typed` the character the main loop uses for each press it took. -/
structure Typing where
  keyboard : Keyboard
  stage : Stage
  received : List (UInt8 × UInt8)
  typed : List (Option UInt8)

namespace Typing

def start (k : Keyboard) : Typing := ⟨keyboardInit k, .polling .test, [], []⟩

def statement (layout : Layout) (s : Typing) : Typing :=
  match s.stage with
  | .polling call =>
    match getScancodeStep s.keyboard call with
    | (k, call, none) => { s with keyboard := k, stage := .polling call }
    | (k, _, some sc) =>
      -- the loop over the buffer ends at 0, and is entered again later
      if sc = 0 then { s with keyboard := k, stage := .polling .test }
      else { s with keyboard := k, stage := .checkShift sc (furtherCalls sc) }
  | .checkShift sc calls =>
    { s with stage := .checkCaps sc calls (shiftHeld s.keyboard.modifiers) }
  | .checkCaps sc calls shifted =>
    match calls with
    | 0 =>
      { s with
        stage := .polling .test
        typed := s.typed ++ [asciiOf layout sc shifted (capsOn s.keyboard.modifiers)] }
    | calls + 1 => { s with stage := .checkShift sc calls }

def step (layout : Layout) (s : Typing) : ReaderEvent → Option Typing
  | .irq scancode =>
    let k := keyboardIrqHandler s.keyboard scancode
    some { s with
      keyboard := k
      received := s.received ++ (s.keyboard.stored scancode).map fun c => (c, k.modifiers) }
  | .statement => some (statement layout s)

/-- The character of each press by the modifiers it was received with. A code 0 is no press. -/
def meant (layout : Layout) (received : List (UInt8 × UInt8)) : List (Option UInt8) :=
  (received.filter fun p => p.1 ≠ 0).map fun p => keyboardScancodeToAscii layout p.2 p.1

/-- The characters of the presses in the buffer, if the modifiers stay. -/
def buffered (layout : Layout) (modifiers : UInt8) (codes : List UInt8) : List (Option UInt8) :=
  (codes.filter (· ≠ 0)).map (keyboardScancodeToAscii layout modifiers)

/-- The buffer has room for every press. -/
def Roomy (s : Typing) : ReaderEvent → Prop
  | .statement => True
  | .irq sc => s.keyboard.Buffers sc → ¬ s.keyboard.Full

/-- The buffer has room, and no interrupt changes the character of a press that is waiting in the
buffer or being converted. -/
def Undisturbed (layout : Layout) (s : Typing) (event : ReaderEvent) : Prop :=
  Roomy s event ∧ ∀ sc, event = .irq sc →
    let modifiers := s.keyboard.modifiers
    let after := Keyboard.modifiersAfter modifiers sc
    s.stage.pending layout after = s.stage.pending layout modifiers ∧
      ∀ c ∈ s.keyboard.contents,
        keyboardScancodeToAscii layout after c = keyboardScancodeToAscii layout modifiers c

instance (s : Typing) (event : ReaderEvent) : Decidable (Roomy s event) :=
  match event with
  | .statement => inferInstanceAs (Decidable True)
  | .irq sc => inferInstanceAs (Decidable (s.keyboard.Buffers sc → ¬ s.keyboard.Full))

instance (layout : Layout) (s : Typing) (event : ReaderEvent) :
    Decidable (Undisturbed layout s event) :=
  match event with
  | .statement => decidable_of_iff (Roomy s .statement) (by simp [Undisturbed])
  | .irq sc =>
    letI : Decidable (∀ c ∈ s.keyboard.contents,
      keyboardScancodeToAscii layout (Keyboard.modifiersAfter s.keyboard.modifiers sc) c =
        keyboardScancodeToAscii layout s.keyboard.modifiers c) := List.decidableBAll _ _
    decidable_of_iff (Roomy s (.irq sc) ∧
      s.stage.pending layout (Keyboard.modifiersAfter s.keyboard.modifiers sc) =
        s.stage.pending layout s.keyboard.modifiers ∧
      ∀ c ∈ s.keyboard.contents,
        keyboardScancodeToAscii layout (Keyboard.modifiersAfter s.keyboard.modifiers sc) c =
          keyboardScancodeToAscii layout s.keyboard.modifiers c) (by simp [Undisturbed])

/-- What has been typed, is being converted and is waiting is what was meant. -/
structure Inv (layout : Layout) (s : Typing) : Prop where
  range : s.keyboard.InRange
  reads : ∀ call, s.stage = .polling call → s.keyboard.Reads call
  chars : s.typed ++ (s.stage.pending layout s.keyboard.modifiers ++
    buffered layout s.keyboard.modifiers s.keyboard.contents) = meant layout s.received

theorem inv_start (layout : Layout) (k : Keyboard) : Inv layout (start k) := by
  refine ⟨k.inRange_keyboardInit, ?_, ?_⟩
  · rintro call ⟨⟩
    trivial
  · simp [start, k.contents_keyboardInit, Stage.pending, buffered, meant]

variable {layout : Layout} {s t : Typing}

theorem Inv.irq (h : Inv layout s) {sc : UInt8} (hok : Undisturbed layout s (.irq sc))
    (he : step layout s (.irq sc) = some t) : Inv layout t := by
  obtain ⟨hpending, hwaiting⟩ := hok.2 sc rfl
  obtain rfl := Option.some.inj he
  refine ⟨h.range.irq, fun call hc => h.range.reads_irq (h.reads call hc), ?_⟩
  dsimp only
  rw [s.keyboard.modifiers_keyboardIrqHandler, h.range.contents_irq, h.range.stored_eq, hpending]
  have hold : buffered layout (Keyboard.modifiersAfter s.keyboard.modifiers sc)
      s.keyboard.contents = buffered layout s.keyboard.modifiers s.keyboard.contents :=
    List.map_congr_left fun c hc => hwaiting c (List.mem_of_mem_filter hc)
  have hsplit : ∀ m l l', buffered layout m (l ++ l') = buffered layout m l ++ buffered layout m l' := by
    intro m l l'
    simp [buffered]
  have hnew : meant layout ((s.keyboard.pressed sc).map fun c =>
      (c, Keyboard.modifiersAfter s.keyboard.modifiers sc)) =
        buffered layout (Keyboard.modifiersAfter s.keyboard.modifiers sc) (s.keyboard.pressed sc) := by
    simp [meant, buffered, List.filter_map, Function.comp_def]
  have hmeant : ∀ l l', meant layout (l ++ l') = meant layout l ++ meant layout l' := by
    intro l l'
    simp [meant]
  rw [hsplit, hold, hmeant, hnew, ← h.chars]
  simp only [List.append_assoc]

theorem Inv.statement (h : Inv layout s) (he : step layout s .statement = some t) :
    Inv layout t := by
  obtain rfl := Option.some.inj he
  have hchars := h.chars
  cases hstage : s.stage with
  | polling call =>
    rw [hstage] at hchars
    rcases h.range.getScancodeStep_cases (h.reads call hstage) with ⟨rfl, -, hs⟩ | ⟨rfl, hne, hs⟩ |
      ⟨c, rfl, hhead, hs⟩ | ⟨c, rfl, hcons, hrange, hs⟩
    · simp only [Typing.statement, hstage, hs, if_true]
      refine ⟨h.range, ?_, hchars⟩
      rintro call ⟨⟩
      trivial
    · simp only [Typing.statement, hstage, hs]
      refine ⟨h.range, ?_, hchars⟩
      rintro call ⟨⟩
      exact hne
    · simp only [Typing.statement, hstage, hs]
      refine ⟨h.range, ?_, hchars⟩
      rintro call ⟨⟩
      exact hhead
    · simp only [Typing.statement, hstage, hs]
      have hmod : (advanceTail s.keyboard).modifiers = s.keyboard.modifiers := rfl
      rw [hcons] at hchars
      split_ifs with hzero
      · refine ⟨hrange, ?_, ?_⟩
        · rintro call ⟨⟩
          trivial
        · simpa [Stage.pending, buffered, hzero, hmod] using hchars
      · refine ⟨hrange, ?_, ?_⟩
        · rintro call ⟨⟩
        · simpa [Stage.pending, buffered, hzero, hmod] using hchars
  | checkShift sc calls =>
    rw [hstage] at hchars
    simp only [Typing.statement, hstage]
    refine ⟨h.range, ?_, ?_⟩
    · rintro call ⟨⟩
    · -- both readings use the same modifiers
      cases calls with
      | zero => exact hchars
      | succ calls => exact hchars
  | checkCaps sc calls shifted =>
    rw [hstage] at hchars
    cases calls with
    | zero =>
      simp only [Typing.statement, hstage]
      refine ⟨h.range, ?_, ?_⟩
      · rintro call ⟨⟩
        trivial
      · simpa [Stage.pending] using hchars
    | succ calls =>
      simp only [Typing.statement, hstage]
      refine ⟨h.range, ?_, hchars⟩
      rintro call ⟨⟩

/-! ### The codes received -/

/-- The codes delivered in a run. -/
def scancodes (events : List ReaderEvent) : List UInt8 :=
  events.filterMap fun
    | .irq sc => some sc
    | .statement => none

def emptied (k : Keyboard) : Keyboard := { k with keybufTail := k.keybufHead }

/-- The presses in a stream of codes, each with the modifiers it leaves behind, when the buffer
is emptied before each code. -/
def presses (k : Keyboard) : List UInt8 → List (UInt8 × UInt8)
  | [] => []
  | sc :: rest =>
    let k' := keyboardIrqHandler (emptied k) sc
    (((emptied k).stored sc).map fun c => (c, k'.modifiers)) ++ presses k' rest

theorem inRange_emptied {k : Keyboard} (h : k.InRange) : (emptied k).InRange :=
  ⟨h.head_lt, h.head_lt⟩

theorem stored_of_room {k : Keyboard} {sc : UInt8} (h : k.InRange)
    (hroom : k.Buffers sc → ¬ k.Full) : k.stored sc = if k.Buffers sc then [sc] else [] := by
  rw [h.stored_eq, Keyboard.pressed]
  by_cases hb : k.Buffers sc
  · rw [if_pos ⟨hb, hroom hb⟩, if_pos hb]
  · rw [if_neg fun hn => hb hn.1, if_neg hb]

theorem stored_emptied {k : Keyboard} (h : k.InRange) (sc : UInt8) :
    (emptied k).stored sc = if k.Buffers sc then [sc] else [] := by
  rw [stored_of_room (inRange_emptied h)]
  · rfl
  · intro _ hfull
    have hlt : k.keybufHead < keybufSize := h.head_lt
    have hself : RingBuffer.next keybufSize k.keybufHead = k.keybufHead := hfull
    rw [RingBuffer.next_eq hlt] at hself
    unfold keybufSize at hself hlt
    split_ifs at hself <;> omega

theorem presses_congr {k k' : Keyboard} (h : k.InRange) (h' : k'.InRange)
    (hd : k.driver = k'.driver) (codes : List UInt8) : presses k codes = presses k' codes := by
  induction codes generalizing k k' with
  | nil => rfl
  | cons sc rest ih =>
    have hde : (emptied k).driver = (emptied k').driver := hd
    have hirq := Keyboard.driver_keyboardIrqHandler hde sc
    have hmod : (keyboardIrqHandler (emptied k) sc).modifiers =
        (keyboardIrqHandler (emptied k') sc).modifiers := congrArg Prod.fst hirq
    have hrest := ih (inRange_emptied h).irq (inRange_emptied h').irq hirq
    rw [presses, presses, hrest, hmod, stored_emptied h, stored_emptied h']
    simp only [Keyboard.buffers_congr hd sc]

/-- The presses recorded in a run are those of its codes. -/
theorem received_eq {events : List ReaderEvent}
    (hrun : Run (step layout) (Undisturbed layout) s events t) (h : Inv layout s) :
    t.received = s.received ++ presses s.keyboard (scancodes events) := by
  induction hrun with
  | nil s => simp [scancodes, presses]
  | @cons s u t event events hok hstep hrest ih =>
    cases event with
    | irq sc =>
      have hu := h.irq hok hstep
      rw [ih hu]
      obtain rfl := Option.some.inj hstep
      have hd : s.keyboard.driver = (emptied s.keyboard).driver := rfl
      have hirq := Keyboard.driver_keyboardIrqHandler hd sc
      have hmod : (keyboardIrqHandler s.keyboard sc).modifiers =
          (keyboardIrqHandler (emptied s.keyboard) sc).modifiers := congrArg Prod.fst hirq
      have hcodes : scancodes (.irq sc :: events) = sc :: scancodes events := rfl
      dsimp only
      rw [hcodes, presses, presses_congr hu.range (inRange_emptied h.range).irq hirq, hmod,
        stored_of_room h.range hok.1, stored_emptied h.range, List.append_assoc]
    | statement =>
      have hu := h.statement hstep
      have hsame : u.received = s.received ∧ u.keyboard.driver = s.keyboard.driver := by
        obtain rfl := Option.some.inj hstep
        unfold statement
        split
        · rename_i call hstage
          rcases h.range.getScancodeStep_cases (h.reads call hstage) with ⟨rfl, -, hs⟩ |
            ⟨rfl, -, hs⟩ | ⟨c, rfl, -, hs⟩ | ⟨c, rfl, -, -, hs⟩
          · simp [hs]
          · simp [hs]
          · simp [hs]
          · simp only [hs]
            split_ifs <;> exact ⟨rfl, rfl⟩
        · exact ⟨rfl, rfl⟩
        · split <;> exact ⟨rfl, rfl⟩
      rw [ih hu, hsame.1, presses_congr hu.range h.range hsame.2]
      rfl

/-- The main loop has taken and used every press. -/
def Drained (s : Typing) : Prop := s.stage = .polling .test ∧ s.keyboard.contents = []

/-- In every run in which no interrupt changes the character of a waiting press, the characters
typed are those of the modifiers at the moment of each press, and two runs with the same codes
type the same. -/
theorem typed_as_received {k : Keyboard} {events₁ events₂ : List ReaderEvent} {t₁ t₂ : Typing}
    (h₁ : Run (step layout) (Undisturbed layout) (start k) events₁ t₁)
    (h₂ : Run (step layout) (Undisturbed layout) (start k) events₂ t₂)
    (hsame : scancodes events₁ = scancodes events₂) :
    t₁.typed <+: meant layout t₁.received ∧ t₂.typed <+: meant layout t₁.received ∧
      (Drained t₁ → t₁.typed = meant layout t₁.received) ∧
      (Drained t₁ → Drained t₂ → t₁.typed = t₂.typed) := by
  have hinv : ∀ {events t}, Run (step layout) (Undisturbed layout) (start k) events t →
      Inv layout t := by
    intro events t hrun
    refine hrun.invariant (Inv layout) ?_ (inv_start layout k)
    intro s event t h hok he
    cases event with
    | irq sc => exact h.irq hok he
    | statement => exact h.statement he
  have hreceived : t₂.received = t₁.received := by
    rw [received_eq h₁ (inv_start layout k), received_eq h₂ (inv_start layout k), hsame]
  have hdrained : ∀ {t}, Inv layout t → Drained t → t.typed = meant layout t.received := by
    rintro t h ⟨hstage, hcontents⟩
    have := h.chars
    rw [hstage, hcontents] at this
    simpa [Stage.pending, buffered] using this
  have hi₁ := hinv h₁
  have hi₂ := hinv h₂
  refine ⟨⟨_, hi₁.chars⟩, ⟨_, hreceived ▸ hi₂.chars⟩, hdrained hi₁, fun hd₁ hd₂ => ?_⟩
  rw [hdrained hi₁ hd₁, hdrained hi₂ hd₂, hreceived]

/-- Shift and `a`, polled after each press and only at the end. -/
theorem typed_as_received_shift :
    ∃ t₁ t₂, Run (step .it) (Undisturbed .it) (start bootKeyboard)
        ([.irq 0x2A, .irq 0x1E] ++ List.replicate 14 .statement) t₁ ∧
      Run (step .it) (Undisturbed .it) (start bootKeyboard)
        (.irq 0x2A :: List.replicate 7 .statement ++ .irq 0x1E :: List.replicate 7 .statement) t₂ ∧
      t₁.typed = [some 0, some 65] ∧ t₁.typed = t₂.typed := by
  obtain ⟨t₁, h₁, htyped, hd₁⟩ : ∃ t₁, runChecked (step .it) (Undisturbed .it) (start bootKeyboard)
      ([ReaderEvent.irq 0x2A, .irq 0x1E] ++ List.replicate 14 ReaderEvent.statement) = some t₁ ∧
      t₁.typed = [some 0, some 65] ∧ Drained t₁ :=
    ⟨_, rfl, by decide, rfl, rfl⟩
  obtain ⟨t₂, h₂, hd₂⟩ : ∃ t₂, runChecked (step .it) (Undisturbed .it) (start bootKeyboard)
      (ReaderEvent.irq 0x2A :: List.replicate 7 .statement ++
        ReaderEvent.irq 0x1E :: List.replicate 7 .statement) = some t₂ ∧ Drained t₂ :=
    ⟨_, rfl, rfl, rfl⟩
  have hrun₁ := Run.of_checked h₁
  have hrun₂ := Run.of_checked h₂
  exact ⟨t₁, t₂, hrun₁, hrun₂, htyped, (typed_as_received hrun₁ hrun₂ rfl).2.2.2 hd₁ hd₂⟩

/-- Shift is released before the main loop looks at the `a` typed with it. -/
theorem released_shift_is_lost :
    ∃ t₁ t₂, Run (step .it) Roomy (start bootKeyboard)
        ([.irq 0x2A, .irq 0x1E, .irq 0xAA] ++ List.replicate 14 .statement) t₁ ∧
      Run (step .it) Roomy (start bootKeyboard)
        ([.irq 0x2A, .irq 0x1E] ++ List.replicate 14 .statement ++ [.irq 0xAA]) t₂ ∧
      Drained t₁ ∧ Drained t₂ ∧ t₁.received = t₂.received ∧
      meant .it t₁.received = [some 0, some 65] ∧
      t₁.typed = [some 0, some 97] ∧ t₂.typed = [some 0, some 65] := by
  obtain ⟨t₁, h₁, hd₁, hr₁, hm₁, ht₁⟩ : ∃ t₁, runChecked (step .it) Roomy (start bootKeyboard)
      ([ReaderEvent.irq 0x2A, .irq 0x1E, .irq 0xAA] ++ List.replicate 14 ReaderEvent.statement) =
        some t₁ ∧ Drained t₁ ∧
      t₁.received = [(0x2A, 0x08), (0x1E, 0x08)] ∧
      meant .it t₁.received = [some 0, some 65] ∧ t₁.typed = [some 0, some 97] :=
    ⟨_, rfl, ⟨rfl, rfl⟩, by decide, by decide, by decide⟩
  obtain ⟨t₂, h₂, hd₂, hr₂, ht₂⟩ : ∃ t₂, runChecked (step .it) Roomy (start bootKeyboard)
      ([ReaderEvent.irq 0x2A, .irq 0x1E] ++ List.replicate 14 ReaderEvent.statement ++
        [ReaderEvent.irq 0xAA]) = some t₂ ∧ Drained t₂ ∧
      t₂.received = [(0x2A, 0x08), (0x1E, 0x08)] ∧ t₂.typed = [some 0, some 65] :=
    ⟨_, rfl, ⟨rfl, rfl⟩, by decide, by decide⟩
  exact ⟨t₁, t₂, Run.of_checked h₁, Run.of_checked h₂, hd₁, hd₂, hr₁.trans hr₂.symm, hm₁, ht₁, ht₂⟩

end Typing

end OpenKernel.Input
