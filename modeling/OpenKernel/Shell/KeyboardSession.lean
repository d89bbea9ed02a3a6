import OpenKernel.Shell.MainLoop

/-!
# From scancodes to files

The runs of the main loop under keyboard interrupts. Whatever the order of the interrupts and the
statements, the shell has had a prefix of the keys that the codes mean, and all of them once
nothing waits. The files are then those of the map from paths to files that the typed lines
lead to: they depend on the codes alone.
-/

namespace OpenKernel.Shell

open FileSystem PathMap
open Input (Layout ReaderEvent bootKeyboard keyboardInit)
open Input.Typing (scancodes)

section Runs

variable {alloc : Allocator} {display : ℕ → Bool} {s t : Machine} {layout : Layout}
variable {inputs : List ReaderEvent}

/-- The desk once the codes have been dealt with one after the other. -/
def meant (alloc : Allocator) (display : ℕ → Bool) (layout : Layout) (codes : List UInt8) : Desk :=
  ((decode (keyboardInit bootKeyboard) codes).map Event.meaning).foldl (Desk.handle alloc display)
    ⟨start alloc, layout, []⟩

/-- The shell is what its keys have made of it. -/
def Desk.Traced (alloc : Allocator) (d : Desk) : Prop :=
  d.shell = d.keys.foldl (step alloc) (start alloc)

theorem Desk.Traced.handle {d : Desk} (h : d.Traced alloc) (m : Meaning) :
    (d.handle alloc display m).Traced alloc := by
  unfold Desk.Traced at *
  unfold Desk.handle Desk.perform
  rw [List.foldl_append, ← h]
  rfl

theorem Desk.Traced.foldl {d : Desk} (h : d.Traced alloc) (l : List Meaning) :
    (l.foldl (Desk.handle alloc display) d).Traced alloc := by
  induction l generalizing d with
  | nil => exact h
  | cons m l ih => exact ih (h.handle m)

theorem Desk.keys_foldl (d : Desk) (l : List Meaning) :
    d.keys <+: (l.foldl (Desk.handle alloc display) d).keys := by
  induction l generalizing d with
  | nil => exact List.prefix_refl _
  | cons m l ih =>
    rw [List.foldl_cons]
    exact (List.prefix_append d.keys _).trans (ih (d.handle alloc display m))

theorem sound_start : (Machine.start alloc layout).Sound := by
  refine ⟨bootKeyboard.inRange_keyboardInit, nofun, ?_, nofun⟩
  intro c hc
  rw [Machine.start, bootKeyboard.contents_keyboardInit] at hc
  cases hc

theorem pending_start : (Machine.start alloc layout).pending alloc display =
    ⟨start alloc, layout, []⟩ := by
  have hnil : ∀ i, queue (keyboardInit bootKeyboard) i = [] := by
    intro i
    rcases index_cases i with rfl | ⟨r, rfl⟩
    · rw [queue, bootKeyboard.contents_keyboardInit]
      rfl
    · rw [queue_index]
      cases r with
      | toggle => rfl
      | navigate n => cases n <;> rfl
  rw [Machine.pending, upcoming, Machine.start, serviceRound_eq_nil hnil]
  rfl

/-- In a run, what waits and what has been done are together what the codes mean. -/
theorem Machine.Sound.run (h : s.Sound)
    (hrun : Run (Machine.step alloc display) Orderly s inputs t) :
    t.Sound ∧ t.pending alloc display =
      ((decode s.keyboard (scancodes inputs)).map Event.meaning).foldl
        (Desk.handle alloc display) (s.pending alloc display) := by
  induction hrun with
  | nil s => exact ⟨h, rfl⟩
  | @cons s u t event events hok hstep _ ih =>
    cases event with
    | irq sc =>
      obtain ⟨hu, hpending⟩ := h.irq hok hstep
      obtain ⟨ht, hrest⟩ := ih hu
      obtain rfl := Option.some.inj hstep
      refine ⟨ht, ?_⟩
      have hcodes : scancodes (.irq sc :: events) = sc :: scancodes events := rfl
      rw [hrest, hpending, hcodes, decode, List.map_append, List.foldl_append]
    | statement =>
      have hu := h.statement hstep
      obtain ⟨ht, hrest⟩ := ih hu.sound
      refine ⟨ht, ?_⟩
      have hcodes : scancodes (.statement :: events) = scancodes events := rfl
      rw [hrest, hu.pending, hcodes, decode_congr hu.driver]

theorem pending_of_run (h : Run (Machine.step alloc display) Orderly (Machine.start alloc layout)
    inputs t) : t.pending alloc display = meant alloc display layout (scancodes inputs) := by
  rw [(sound_start.run h).2, pending_start]
  rfl

/-- From boot on, and in every order of interrupts and statements in which the codes come in turn:
the keys that the shell has had are the first of those that the codes mean; what waits will make
them up; and once nothing waits, the shell and the layout are what the codes make of them. -/
theorem codes_reach_shell (h : Run (Machine.step alloc display) Orderly
    (Machine.start alloc layout) inputs t) :
    t.desk.keys <+: (meant alloc display layout (scancodes inputs)).keys ∧
      t.pending alloc display = meant alloc display layout (scancodes inputs) ∧
      (upcoming t.keyboard t.place = [] →
        t.desk = meant alloc display layout (scancodes inputs)) := by
  have hpending := pending_of_run h
  refine ⟨?_, hpending, fun hrest => ?_⟩
  · rw [← hpending]
    exact Desk.keys_foldl _ _
  · rw [← hpending, Machine.pending, hrest]
    rfl

theorem meant_shell (codes : List UInt8) : (meant alloc display layout codes).shell =
    (meant alloc display layout codes).keys.foldl (step alloc) (start alloc) :=
  Desk.Traced.foldl (d := ⟨start alloc, layout, []⟩) rfl _

/-- From scancodes to files, in text mode: however the interrupts come between the statements of
the main loop, as long as every code comes in turn, and once nothing waits, the commands that have
been run are the lines that the codes type, each request's message says truly whether it was
allowed, and the files are those of the map that the requests lead to. -/
theorem codes_refine_pathMap (halloc : ∀ k size, alloc k size ≠ none)
    (h : Run (Machine.step alloc display) Orderly (Machine.start alloc layout) inputs t)
    (hrest : upcoming t.keyboard t.place = []) {keys : List Key}
    (hkeys : (meant alloc display layout (scancodes inputs)).keys = keys)
    (htoggle : Key.toggle true ∉ keys)
    (hlines : ∀ line ∈ submitted (TextCursor.atEnd []) keys,
      line ≠ ascii "gfx" ∧ (Looks line ∨ ∃ req, Requests line req))
    (hroom : ∀ e ∈ transcript alloc (start alloc) keys, e.2 ≠ [emitErr .noSpace]) :
    (transcript alloc (start alloc) keys).map Prod.fst = submitted (TextCursor.atEnd []) keys ∧
      Session initialMap (transcript alloc (start alloc) keys) (view t.desk.shell.fs) := by
  have hdesk : t.desk = meant alloc display layout (scancodes inputs) := by
    rw [← pending_of_run h, Machine.pending, hrest]
    rfl
  have hshell : t.desk.shell = keys.foldl (step alloc) (start alloc) := by
    rw [hdesk, meant_shell, hkeys]
  rw [hshell, ← (fsInv_fsInit halloc boot).2]
  exact (quiet_start alloc).session halloc keys htoggle hlines hroom

/-! ### Runs without a change of the modifiers -/

theorem inTurn_press_iff {k : Input.Keyboard} {place : Place} {sc modifiers : UInt8} :
    LastInRound (queue k) place.serving (Event.press sc modifiers).index ↔
      InTurn k place (.press sc modifiers) := by
  constructor
  · exact fun hlast => ⟨hlast, nofun⟩
  · exact fun h => h.1

theorem inTurn_request_iff {k : Input.Keyboard} {place : Place} {r : KeyRequest} :
    LastInRound (queue k) place.serving r.index ∧ r.raised k = false ↔
      InTurn k place (.request r) := by
  constructor
  · rintro ⟨hlast, hclear⟩
    refine ⟨hlast, ?_⟩
    rintro _ ⟨⟩
    exact hclear
  · exact fun h => ⟨h.1, h.2 r rfl⟩

instance (k : Input.Keyboard) (place : Place) (e : Event) : Decidable (InTurn k place e) :=
  match e with
  | .press sc modifiers =>
    decidable_of_iff (LastInRound (queue k) place.serving (Event.press sc modifiers).index)
      inTurn_press_iff
  | .request r =>
    decidable_of_iff (LastInRound (queue k) place.serving r.index ∧ r.raised k = false)
      inTurn_request_iff

/-- The code is none of a modifier, and comes in turn. -/
def Unmodified (s : Machine) (event : ReaderEvent) : Prop :=
  ∀ sc, event = .irq sc → Accepted s.keyboard sc ∧
    Input.Keyboard.modifiersAfter s.keyboard.modifiers sc = s.keyboard.modifiers ∧
    ∀ e ∈ received s.keyboard sc, InTurn s.keyboard s.place e

instance (sc : UInt8) : Decidable (Input.BehindTables sc) := inferInstanceAs (Decidable (_ ∧ _))

instance (k : Input.Keyboard) (sc : UInt8) : Decidable (Accepted k sc) :=
  inferInstanceAs (Decidable (_ → _))

instance (s : Machine) (event : ReaderEvent) : Decidable (Unmodified s event) :=
  match event with
  | .statement => .isTrue nofun
  | .irq sc => decidable_of_iff (Accepted s.keyboard sc ∧
      Input.Keyboard.modifiersAfter s.keyboard.modifiers sc = s.keyboard.modifiers ∧
      ∀ e ∈ received s.keyboard sc, InTurn s.keyboard s.place e)
    ⟨fun h _ he => ReaderEvent.irq.inj he ▸ h, fun h => h sc rfl⟩

theorem Unmodified.orderly {event : ReaderEvent} (h : Unmodified s event) : Orderly s event := by
  intro sc hsc
  obtain ⟨haccepted, hmod, hturn⟩ := h sc hsc
  refine ⟨haccepted, ?_, hturn⟩
  unfold KeepsMeaning
  rw [hmod]
  exact ⟨rfl, fun _ _ => rfl⟩

theorem run_of_unmodified (h : runChecked (Machine.step alloc display) Unmodified s inputs =
    some t) : Run (Machine.step alloc display) Orderly s inputs t :=
  (Run.of_checked h).restrict (fun _ => True) (fun _ _ _ _ hok _ => ⟨hok.orderly, trivial⟩) trivial

/-- `a` and Left arrive together. -/
theorem codes_reach_shell_left :
    ∃ t, Run (Machine.step clearedAlloc fun _ => false) Orderly (Machine.start clearedAlloc .us)
        ([.irq 0x1E, .irq 0xE0, .irq 0x4B] ++ List.replicate 14 .statement) t ∧
      t.desk.keys = [.edit (.character (some 97)), .edit (.navigate .left)] ∧
      t.desk = meant clearedAlloc (fun _ => false) .us [0x1E, 0xE0, 0x4B] := by
  obtain ⟨t, ht, hkeys, hrest⟩ : ∃ t, runChecked (Machine.step clearedAlloc fun _ => false)
      Unmodified (Machine.start clearedAlloc .us)
        ([ReaderEvent.irq 0x1E, .irq 0xE0, .irq 0x4B] ++ List.replicate 14 ReaderEvent.statement) =
          some t ∧
      t.desk.keys = [.edit (.character (some 97)), .edit (.navigate .left)] ∧
      upcoming t.keyboard t.place = [] :=
    ⟨_, rfl, rfl, rfl⟩
  have hrun := run_of_unmodified ht
  exact ⟨t, hrun, hkeys, (codes_reach_shell hrun).2.2 hrest⟩

set_option maxRecDepth 8000 in
/-- `mkdir /x` and Enter, typed faster than the loop looks. -/
theorem codes_refine_pathMap_mkdir :
    let codes : List UInt8 := [0x32, 0x25, 0x20, 0x17, 0x13, 0x39, 0x35, 0x2D, 0x1C]
    ∃ t, Run (Machine.step clearedAlloc fun _ => false) Orderly (Machine.start clearedAlloc .us)
        (codes.map .irq ++ List.replicate 62 .statement) t ∧
      Session initialMap [(ascii "mkdir /x", [ascii "Directory created."])]
        (view t.desk.shell.fs) := by
  intro codes
  obtain ⟨t, ht, hrest⟩ : ∃ t, runChecked (Machine.step clearedAlloc fun _ => false)
      Unmodified (Machine.start clearedAlloc .us)
        (codes.map ReaderEvent.irq ++ List.replicate 62 ReaderEvent.statement) = some t ∧
      upcoming t.keyboard t.place = [] := by
    unfold Machine.start start
    rw [fsInit_cleared]
    exact ⟨_, rfl, rfl⟩
  have hrun := run_of_unmodified ht
  let keys : List Key := (ascii "mkdir /x").map (fun c => .edit (.character (some c))) ++
    [.enter false]
  have hsubmitted : submitted (TextCursor.atEnd []) keys = [ascii "mkdir /x"] := by decide
  have htranscript : transcript clearedAlloc (start clearedAlloc) keys =
      [(ascii "mkdir /x", [ascii "Directory created."])] := by
    unfold start
    rw [fsInit_cleared]
    rfl
  have hmkdir : Requests (ascii "mkdir /x") (.mkdir (components (ascii "/x"))) :=
    ⟨.mkdir (ascii "/x"), _, by decide, rfl, .mkdir (by decide)⟩
  have halloc : ∀ k size, clearedAlloc k size ≠ none := fun _ _ => Option.some_ne_none _
  have hkeys : (meant clearedAlloc (fun _ => false) .us
      (scancodes (codes.map .irq ++ List.replicate 62 .statement))).keys = keys := rfl
  refine ⟨t, hrun, ?_⟩
  rw [← htranscript]
  refine (codes_refine_pathMap halloc hrun hrest hkeys (by decide) ?_ ?_).2
  · rw [hsubmitted]
    simp only [List.mem_singleton, forall_eq]
    exact ⟨by decide, .inr ⟨_, hmkdir⟩⟩
  · rw [htranscript]
    decide

end Runs

end OpenKernel.Shell
