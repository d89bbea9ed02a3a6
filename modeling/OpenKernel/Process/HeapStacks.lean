import OpenKernel.Memory.HeapStore
import OpenKernel.Process.Outcomes

/-!
# Kernel stacks in the heap

`process.c` with the kernel stacks that `kmalloc` hands out. `pcb_init` writes the first frame of
a process there, `process_terminate` frees the stack, and `context_switch` pushes the registers
of one process and pops those of another. However the table of processes is used, no stack is
freed twice or held by two processes, and what is popped is what was pushed, with
the rest of the kernel using its own allocations in between.
-/

namespace OpenKernel.Process

open Function BufferMap
open Memory (stored contents pointer)

/-! ### The functions over the heap -/

def wordBytes (v : ℕ) : List UInt8 :=
  [UInt8.ofNat v, UInt8.ofNat (v / 2 ^ 8), UInt8.ofNat (v / 2 ^ 16), UInt8.ofNat (v / 2 ^ 24)]

def kernelStack (s : State) (i : Slot) : Option ℕ := pointer (s.pcbs.stackOf i)

/-- `process.c` over the heap: the field `kernel_stack` of a PCB is an address, and the words in
`statics` play no part. `regs` is what `context_switch` popped last, from EDI up to the return
address, and `frames` records what each process that is not running has to get back. -/
structure Kernel where
  statics : State
  heap : Memory.Heap
  regs : List UInt8
  frames : Slot → Option (List UInt8)

/-- The writes of `pcb_init` to a new stack. -/
def pushFrame (h : Memory.Heap) (stack entry : ℕ) : Memory.Heap :=
  let top := stack + processStackSize
  let h := h.copyIn (top - 4) (wordBytes entry)
  let h := h.copyIn (top - 8) (wordBytes 0)
  let h := h.copyIn (top - 12) (wordBytes 0)
  let h := h.copyIn (top - 16) (wordBytes 0)
  h.copyIn (top - 20) (wordBytes 0)

/-- What a new process pops: cleared registers and its entry. -/
def newFrame (entry : ℕ) : List UInt8 :=
  wordBytes 0 ++ wordBytes 0 ++ wordBytes 0 ++ wordBytes 0 ++ wordBytes entry

namespace Kernel

variable (s : Kernel)

/-- `process_init`, with its attempts to get a stack for the idle process. -/
def init (heap : Memory.Heap) : Option Kernel := do
  let (stack, heap) ← heap.kmalloc processStackSize
  match stack with
  | some stack => some ⟨processInit boot stack 0 0, heap, [], fun _ => none⟩
  | none =>
    let (stack, heap) ← heap.kmalloc 1024
    match stack with
    | some stack => some ⟨processInit boot 0 stack 0, heap, [], fun _ => none⟩
    | none =>
      let (stack, heap) ← heap.kmalloc 256
      some ⟨processInit boot 0 0 (stack.getD 0), heap, [], fun _ => none⟩

def create (entry priority : ℕ) : Option Kernel :=
  match createdSlot s.statics with
  | none => some { s with statics := (processCreate s.statics entry priority 0).1 }
  | some i =>
    (s.heap.kmalloc processStackSize).map fun (stack, heap) =>
      { s with
        statics := (processCreate s.statics entry priority (stack.getD 0)).1
        heap :=
          match stack with
          | none => heap
          | some stack => pushFrame heap stack entry
        frames := update s.frames i (stack.map fun _ => newFrame entry) }

def terminate (pid : ℕ) : Option Kernel :=
  (processTerminate s.statics pid).map fun statics =>
    match doomed s.statics pid with
    | none => { s with statics := statics }
    | some i =>
      { s with
        statics := statics
        heap :=
          match kernelStack s.statics i with
          | none => s.heap
          | some stack => s.heap.kfree stack
        frames := update s.frames i none }

/-- The stack pointer is in the stack of the process, with room for the four registers above its
start and the return address below its end. -/
def onStack (i : Slot) : Bool :=
  match (kernelStack s.statics i).bind fun p => (s.heap.live.lookup p).map fun n => (p, n) with
  | none => false
  | some (p, n) => p + 16 ≤ s.statics.esp && s.statics.esp + 4 ≤ p + n

/-- The pushes and the pops of `context_switch`; `pushed` are the bytes of the four registers of
`prev`. -/
def switch (statics : State) (prev current : Slot) (pushed : List UInt8) : Kernel :=
  let heap := s.heap.copyIn (savedEsp s.statics) pushed
  let frame := pushed ++ contents s.heap.mem s.statics.esp 4
  { statics := statics
    heap := heap
    regs := contents heap.mem (s.statics.pcbs.espOf current) 20
    frames := update (update s.frames prev (if s.onStack prev then some frame else none))
      current none }

def call (c : Call) (pushed : List UInt8) : Option Kernel :=
  (Process.step s.statics c).map fun statics =>
    match s.statics.currentProcess, statics.currentProcess with
    | some prev, some current =>
      if prev = current then { s with statics := statics }
      else s.switch statics prev current pushed
    | _, _ => { s with statics := statics }

end Kernel

/-- The calls, and the uses of the heap by the running process and other code. -/
inductive Action
  | create (entry priority : ℕ)
  | terminate (pid : ℕ)
  | call (c : Call) (pushed : List UInt8)
  | heap (c : Memory.Call)

namespace Kernel

def step (s : Kernel) : Action → Option Kernel
  | .create entry priority => s.create entry priority
  | .terminate pid => s.terminate pid
  | .call c pushed => s.call c pushed
  | .heap c => (Memory.step s.heap c).map fun heap => { s with heap := heap }

/-- The running process is on its kernel stack, or on a stack outside the heap. -/
def Placed (s : Kernel) : Prop :=
  (∃ i, s.statics.currentProcess = some i ∧ s.onStack i = true) ∨
    (16 ≤ s.statics.esp ∧ s.statics.esp < 2 ^ 32 ∧
      (s.statics.esp ≤ Memory.heapStart ∨ Memory.heapLimit + 16 ≤ s.statics.esp))

/-- Nobody else frees the stack of a process or writes to that of a process that is not running,
and a process is on a stack of its own when it calls; `run` only moves its stack pointer. -/
def Allowed (s : Kernel) : Action → Prop
  | .create _ _ => True
  | .terminate _ => True
  | .call c pushed => c.Switching ∧ pushed.length = 16 ∧ ((∀ esp, c ≠ .run esp) → s.Placed)
  | .heap c =>
    Memory.HeapOk s.heap c ∧ (∀ p, c = .kfree p → ∀ i, kernelStack s.statics i ≠ some p) ∧
      ∀ a v, c = .poke a v → ∀ i p buf, s.statics.currentProcess ≠ some i →
        kernelStack s.statics i = some p → stored s.heap p = some buf → a < p ∨ p + buf.length ≤ a

end Kernel

/-! ### Frames in buffers -/

/-- At `esp`, inside the buffer `b` at `o`, lie the 20 bytes of `f`. -/
def Kept (o : Option ℕ) (b : Option (List UInt8)) (esp : ℕ) (f : List UInt8) : Prop :=
  ∃ p buf, o = some p ∧ b = some buf ∧ p ≤ esp ∧ f.length = 20 ∧ (buf.drop (esp - p)).take 20 = f

section Buffers

variable {h : Memory.Heap} {p esp n off : ℕ} {buf f : List UInt8}

theorem drop_take_contents (m : ByteMemory) {size : ℕ} (hn : off + n ≤ size) :
    ((contents m p size).drop off).take n = contents m (p + off) n := by
  apply List.ext_getElem
  · simp only [List.length_take, List.length_drop, Memory.length_contents]
    omega
  · intro i _ _
    simp [contents, Nat.add_assoc]

theorem contents_of_stored (hs : h.Sound) (hp : stored h p = some buf) :
    contents h.mem p buf.length = buf := by
  obtain ⟨l, hi⟩ := hs
  obtain ⟨n, -, rfl⟩ := (Memory.stored_eq_some_iff hi).mp hp
  rw [Memory.length_contents]

theorem Kept.contents (hs : h.Sound) {o : Option ℕ} (hkept : Kept o (o.bind (stored h)) esp f) :
    contents h.mem esp 20 = f := by
  obtain ⟨p, buf, rfl, hbuf, hle, hlen, hslice⟩ := hkept
  rw [Option.bind_some] at hbuf
  have hfit : esp - p + 20 ≤ buf.length := by
    have htake := congrArg List.length hslice
    rw [List.length_take, List.length_drop, hlen] at htake
    omega
  rw [← contents_of_stored hs hbuf, drop_take_contents _ hfit] at hslice
  rwa [Nat.add_sub_cancel' hle] at hslice

theorem length_wordBytes (v : ℕ) : (wordBytes v).length = 4 := rfl

theorem length_newFrame (entry : ℕ) : (newFrame entry).length = 20 := rfl

/-- The five writes of `pcb_init` are one. -/
theorem pushFrame_spec (hs : h.Sound) (hp : stored h p = some buf)
    (hlen : buf.length = processStackSize) (entry : ℕ) :
    (pushFrame h p entry).Sound ∧
      stored (pushFrame h p entry) = (stored h).write p 4076 (newFrame entry) := by
  unfold processStackSize at hlen
  -- one more word below those that are there
  have hpush : ∀ {h' : Memory.Heap} {src : List UInt8} (off v : ℕ), h'.Sound →
      stored h' = (stored h).write p (off + 4) src → off + 4 + src.length = 4096 →
      (h'.copyIn (p + off) (wordBytes v)).Sound ∧ stored (h'.copyIn (p + off) (wordBytes v)) =
        (stored h).write p off (wordBytes v ++ src) := by
    intro h' src off v hs' hst hsum
    have hbuf : stored h' p = some (overwrite (off + 4) src buf) := by
      rw [hst, BufferMap.write, update_self, hp, Option.map_some]
    have hover : (overwrite (off + 4) src buf).length = 4096 := by
      rw [length_overwrite (by omega), hlen]
    obtain ⟨hsound, hstored⟩ := hs'.copyIn hbuf off (wordBytes v)
      (by rw [length_wordBytes]; omega)
    refine ⟨hsound, ?_⟩
    rw [hstored, hst]
    exact write_write hp (by rw [length_wordBytes, hlen]; omega)
  have haddr : ∀ k, k ≤ 4096 → p + processStackSize - k = p + (4096 - k) := by
    intro k hk
    unfold processStackSize
    omega
  unfold pushFrame
  dsimp only
  rw [haddr 4 (by decide), haddr 8 (by decide), haddr 12 (by decide), haddr 16 (by decide),
    haddr 20 (by decide)]
  obtain ⟨hs₁, hst₁⟩ := hs.copyIn hp 4092 (wordBytes entry) (by rw [length_wordBytes]; omega)
  obtain ⟨hs₂, hst₂⟩ := hpush 4088 0 hs₁ hst₁ rfl
  obtain ⟨hs₃, hst₃⟩ := hpush 4084 0 hs₂ hst₂ rfl
  obtain ⟨hs₄, hst₄⟩ := hpush 4080 0 hs₃ hst₃ rfl
  exact hpush 4076 0 hs₄ hst₄ rfl

end Buffers

/-! ### The invariant -/

namespace Kernel

/-- Stacks are live and belong to one process each, and what a process has to get back is where
its saved stack pointer says. -/
structure StackInv (s : Kernel) : Prop where
  sound : s.heap.Sound
  holders : Holders (stored s.heap) (kernelStack s.statics)
  frames : ∀ i f, s.frames i = some f → s.statics.currentProcess ≠ some i →
    Kept (kernelStack s.statics i) (held (stored s.heap) (kernelStack s.statics) i)
      (s.statics.pcbs.espOf i) f

section Invariant

variable {s t : Kernel} {u : State} {p i : ℕ}

theorem kernelStack_congr {s t : State} (h : t.pcbs.stackOf = s.pcbs.stackOf) :
    kernelStack t = kernelStack s := by
  funext i
  rw [kernelStack, kernelStack, h]

theorem kernelStack_update {s t : State} {i : Slot} {stack : ℕ}
    (h : t.pcbs.stackOf = update s.pcbs.stackOf i stack) :
    kernelStack t = update (kernelStack s) i (pointer stack) := by
  funext j
  by_cases hj : j = i
  · subst hj
    rw [kernelStack, h, update_self, update_self]
  · rw [kernelStack, h, update_of_ne hj, update_of_ne hj, kernelStack]

theorem StackInv.statics (h : StackInv s) (hstack : u.pcbs.stackOf = s.statics.pcbs.stackOf)
    (hesp : u.pcbs.espOf = s.statics.pcbs.espOf)
    (hcur : u.currentProcess = s.statics.currentProcess) : StackInv { s with statics := u } := by
  refine ⟨h.sound, ?_, ?_⟩
  · dsimp only
    rw [kernelStack_congr hstack]
    exact h.holders
  · intro i f hf hi
    dsimp only at hf hi ⊢
    rw [hcur] at hi
    rw [kernelStack_congr hstack, hesp]
    exact h.frames i f hf hi

theorem pointer_of_ne_zero (hp : p ≠ 0) : pointer p = some p := if_neg hp

/-- One slot gets another stack, or none, and another frame. -/
theorem StackInv.slot (h : StackInv s) {i : Slot} {heap : Memory.Heap} {o : Option ℕ}
    {frame : Option (List UInt8)} (hsound : heap.Sound)
    (hks : kernelStack u = update (kernelStack s.statics) i o)
    (hcur : u.currentProcess = s.statics.currentProcess)
    (hesp : ∀ j, j ≠ i → u.pcbs.espOf j = s.statics.pcbs.espOf j)
    (hholders : Holders (stored heap) (kernelStack u))
    (hheld : ∀ j, j ≠ i → held (stored heap) (kernelStack u) j =
      held (stored s.heap) (kernelStack s.statics) j)
    (hkept : ∀ f, frame = some f →
      Kept o (held (stored heap) (kernelStack u) i) (u.pcbs.espOf i) f) :
    StackInv ⟨u, heap, s.regs, update s.frames i frame⟩ := by
  refine ⟨hsound, hholders, fun j f hf hj => ?_⟩
  dsimp only at hf hj ⊢
  by_cases hji : j = i
  · subst hji
    rw [update_self] at hf
    rw [congrFun hks j, update_self]
    exact hkept f hf
  · rw [update_of_ne hji] at hf
    rw [hcur] at hj
    rw [congrFun hks j, update_of_ne hji, hheld j hji, hesp j hji]
    exact h.frames j f hf hj

theorem StackInv.withoutStack (h : StackInv s) {i : Slot} (hi : createdSlot s.statics = some i)
    (entry priority : ℕ) {heap : Memory.Heap} (hsound : heap.Sound)
    (hst : stored heap = stored s.heap) :
    StackInv ⟨(processCreate s.statics entry priority 0).1, heap, s.regs,
      update s.frames i none⟩ := by
  obtain ⟨hcur, hstack, hesp⟩ := processCreate_stack hi entry priority 0
  have hks := kernelStack_update hstack
  refine h.slot hsound hks hcur hesp ?_ (fun j hji => ?_) nofun
  · rw [hks, hst]
    refine h.holders.forget fun j q hj => ?_
    by_cases hji : j = i
    · rw [hji, update_self] at hj
      cases hj
    · rwa [update_of_ne hji] at hj
  · rw [hks, hst, held, update_of_ne hji]
    rfl

theorem StackInv.withStack (h : StackInv s) {i : Slot} (hi : createdSlot s.statics = some i)
    (entry priority : ℕ) {heap : Memory.Heap} {buf : List UInt8} (hsound : heap.Sound)
    (hnone : stored s.heap p = none) (hlen : buf.length = processStackSize)
    (hst : stored heap = update (stored s.heap) p (some buf)) :
    StackInv ⟨(processCreate s.statics entry priority p).1, pushFrame heap p entry, s.regs,
      update s.frames i (some (newFrame entry))⟩ := by
  obtain ⟨hcur, hstack, hesp⟩ := processCreate_stack hi entry priority p
  have hbuf : stored heap p = some buf := by rw [hst, update_self]
  obtain ⟨hlo, hhi⟩ := hsound.bounds hbuf
  have hp : p ≠ 0 := by
    unfold Memory.heapStart at hlo
    omega
  have hks : kernelStack (processCreate s.statics entry priority p).1 =
      update (kernelStack s.statics) i (some p) :=
    (kernelStack_update hstack).trans (congrArg _ (pointer_of_ne_zero hp))
  obtain ⟨hsound', hst'⟩ := pushFrame_spec hsound hbuf hlen entry
  -- the new stack is nobody else's
  have hfree : ∀ j, kernelStack s.statics j ≠ some p := fun j hj => h.holders.live j p hj hnone
  have hnew : (stored heap).write p 4076 (newFrame entry) p =
      some (overwrite 4076 (newFrame entry) buf) := by
    rw [BufferMap.write, update_self, hbuf, Option.map_some]
  have hother : ∀ q, q ≠ p → kernelStack s.statics i ≠ some q →
      (stored heap).write p 4076 (newFrame entry) q = stored s.heap q := by
    intro q hq _
    rw [BufferMap.write, update_of_ne hq, hst, update_of_ne hq]
  obtain ⟨hholders, hheld⟩ := h.holders.exchange i hfree hnew hother
  refine h.slot hsound' hks hcur hesp ?_ (fun j hji => ?_) ?_
  · rwa [hks, hst']
  · rw [hks, hst', hheld, update_of_ne hji]
  · rintro f ⟨⟩
    have hesp' : word (p + processStackSize - 20) = p + 4076 := by
      unfold word processStackSize
      unfold Memory.heapLimit Memory.heapStart Memory.heapSize at hhi
      omega
    rw [hks, hst', hheld, update_self, processCreate_esp hi entry priority hp, hesp']
    refine ⟨p, _, rfl, rfl, Nat.le_add_right _ _, length_newFrame entry, ?_⟩
    have hfit : 4076 + (newFrame entry).length ≤ buf.length := by
      rw [length_newFrame, hlen]
      decide
    have hslice := slice_overwrite hfit
    rwa [Nat.add_sub_cancel_left]

theorem StackInv.create (h : StackInv s) {entry priority : ℕ}
    (ht : s.create entry priority = some t) : StackInv t := by
  unfold Kernel.create at ht
  cases hi : createdSlot s.statics with
  | none =>
    rw [hi] at ht
    obtain rfl := Option.some.inj ht
    rw [processCreate_of_none hi]
    exact h
  | some i =>
    rw [hi] at ht
    obtain ⟨⟨r, heap⟩, hcall, rfl⟩ := Option.map_eq_some_iff.mp ht
    obtain ⟨r', heap', hcall', hsound, hstep⟩ :=
      h.sound.kmalloc (n := processStackSize) (by decide) (by decide)
    obtain ⟨rfl, rfl⟩ := Prod.mk.inj (Option.some.inj (hcall'.symm.trans hcall))
    rcases hstep.alloc_cases with ⟨rfl, hst⟩ | ⟨p, buf, rfl, hnone, hlen, hst⟩
    · exact h.withoutStack hi entry priority hsound hst
    · exact h.withStack hi entry priority hsound hnone hlen hst

theorem StackInv.terminate (h : StackInv s) {pid : ℕ} (ht : s.terminate pid = some t) :
    StackInv t := by
  obtain ⟨u, hu, rfl⟩ := Option.map_eq_some_iff.mp ht
  obtain ⟨hesp, hcur, hstack⟩ := processTerminate_doomed hu
  cases hd : doomed s.statics pid with
  | none =>
    rw [hd] at hstack
    exact h.statics hstack hesp hcur
  | some i =>
    rw [hd] at hstack
    have hks : kernelStack u = update (kernelStack s.statics) i none := kernelStack_update hstack
    have hslot : ∀ heap : Memory.Heap, heap.Sound →
        Holders (stored heap) (update (kernelStack s.statics) i none) ∧
          held (stored heap) (update (kernelStack s.statics) i none) =
            update (held (stored s.heap) (kernelStack s.statics)) i none →
        StackInv ⟨u, heap, s.regs, update s.frames i none⟩ := by
      rintro heap hsound ⟨hholders, hheld⟩
      refine h.slot hsound hks hcur (fun j _ => congrFun hesp j) ?_ (fun j hji => ?_) nofun
      · rwa [hks]
      · rw [hks, hheld, update_of_ne hji]
    dsimp only
    cases hk : kernelStack s.statics i with
    | none =>
      have hsame : update (kernelStack s.statics) i none = kernelStack s.statics := by
        rw [← hk, update_eq_self]
      have hheld : held (stored s.heap) (kernelStack s.statics) i = none := by
        rw [held, hk, Option.bind_none]
      refine hslot s.heap h.sound ?_
      rw [hsame, ← hheld, update_eq_self]
      exact ⟨h.holders, rfl⟩
    | some p =>
      obtain ⟨hsound, hst⟩ := h.sound.kfree (h.holders.live i p hk)
      refine hslot (s.heap.kfree p) hsound ?_
      rw [hst]
      exact h.holders.release hk

theorem onStack_spec {i : Slot} (h : s.onStack i = true) :
    ∃ p buf, kernelStack s.statics i = some p ∧ stored s.heap p = some buf ∧
      p + 16 ≤ s.statics.esp ∧ s.statics.esp + 4 ≤ p + buf.length := by
  unfold onStack at h
  cases hk : kernelStack s.statics i with
  | none =>
    rw [hk, Option.bind_none] at h
    cases h
  | some p =>
    cases hl : s.heap.live.lookup p with
    | none =>
      rw [hk, Option.bind_some, hl, Option.map_none] at h
      cases h
    | some n =>
      rw [hk, Option.bind_some, hl, Option.map_some] at h
      simp only [Bool.and_eq_true, decide_eq_true_eq] at h
      refine ⟨p, contents s.heap.mem p n, rfl, by rw [stored, hl, Option.map_some], h.1, ?_⟩
      rw [Memory.length_contents]
      exact h.2

/-- The pushes of a switch are on the stack of the process that makes it, or outside the heap. -/
theorem StackInv.pushes (h : StackInv s) {prev : Slot} {pushed : List UInt8}
    (hprev : s.statics.currentProcess = some prev) (hlen : pushed.length = 16)
    (hplaced : s.Placed) :
    let heap := s.heap.copyIn (savedEsp s.statics) pushed
    heap.Sound ∧ Holders (stored heap) (kernelStack s.statics) ∧
      (∀ j, j ≠ prev → held (stored heap) (kernelStack s.statics) j =
        held (stored s.heap) (kernelStack s.statics) j) ∧
      (s.onStack prev = true → Kept (kernelStack s.statics prev)
        (held (stored heap) (kernelStack s.statics) prev) (savedEsp s.statics)
        (pushed ++ contents s.heap.mem s.statics.esp 4)) := by
  intro heap
  by_cases hon : s.onStack prev = true
  · obtain ⟨p, buf, hk, hbuf, hlow, hhigh⟩ := onStack_spec hon
    obtain ⟨off, hoff⟩ : ∃ off, s.statics.esp = p + off + 16 := ⟨s.statics.esp - p - 16, by omega⟩
    have hfit : off + pushed.length ≤ buf.length := by omega
    have hsaved : savedEsp s.statics = p + off := by
      obtain ⟨-, hlimit⟩ := h.sound.bounds hbuf
      unfold savedEsp word
      unfold Memory.heapLimit Memory.heapStart Memory.heapSize at hlimit
      omega
    have hheap : heap = s.heap.copyIn (p + off) pushed := by rw [← hsaved]
    obtain ⟨hsound, hst⟩ := h.sound.copyIn hbuf off pushed hfit
    obtain ⟨hholders, hheld⟩ := h.holders.write hk off pushed
    rw [hheap, hst, hheld]
    refine ⟨hsound, hholders, fun j hj => update_of_ne hj _ _, fun _ => ?_⟩
    have hret : (buf.drop (off + 16)).take 4 = contents s.heap.mem s.statics.esp 4 := by
      rw [← contents_of_stored h.sound hbuf, drop_take_contents _ (by omega), hoff, Nat.add_assoc]
    have hslice := slice_overwrite hfit
    have hdrop := drop_overwrite hfit
    rw [update_self, hsaved]
    refine ⟨p, _, hk, by rw [hbuf, Option.map_some], Nat.le_add_right _ _, ?_, ?_⟩
    · rw [List.length_append, hlen, Memory.length_contents]
    · rw [hlen] at hslice hdrop
      rw [Nat.add_sub_cancel_left, show 20 = 16 + 4 from rfl, List.take_add, hslice,
        List.drop_drop, hdrop, hret]
  · obtain ⟨h16, hlt, hout⟩ := hplaced.resolve_left (by
      rintro ⟨i, hi, hon'⟩
      obtain rfl := Option.some.inj (hprev.symm.trans hi)
      exact hon hon')
    have hsaved : savedEsp s.statics = s.statics.esp - 16 := by
      unfold savedEsp word
      omega
    obtain ⟨hsound, hst⟩ := h.sound.copyIn_outside (a := savedEsp s.statics) pushed (by
      rw [hsaved, hlen]
      omega)
    rw [hst]
    exact ⟨hsound, h.holders, fun _ _ => rfl, fun he => absurd he hon⟩

theorem StackInv.switch (h : StackInv s) {prev current : Slot} {pushed : List UInt8}
    (hprev : s.statics.currentProcess = some prev) (hcur : u.currentProcess = some current)
    (hesp : u.pcbs.espOf = update s.statics.pcbs.espOf prev (savedEsp s.statics))
    (hstack : u.pcbs.stackOf = s.statics.pcbs.stackOf) (hlen : pushed.length = 16)
    (hplaced : s.Placed) : StackInv (s.switch u prev current pushed) := by
  obtain ⟨hsound, hholders, hheld, hframe⟩ := h.pushes hprev hlen hplaced
  have hks := kernelStack_congr hstack
  refine ⟨hsound, ?_, ?_⟩
  · unfold Kernel.switch
    dsimp only
    rw [hks]
    exact hholders
  · intro j f hf hj
    unfold Kernel.switch at hf hj ⊢
    dsimp only at hf hj ⊢
    rw [hcur] at hj
    have hjc : j ≠ current := fun he => hj (congrArg some he.symm)
    rw [update_of_ne hjc] at hf
    rw [hks, hesp]
    by_cases hji : j = prev
    · subst hji
      rw [update_self] at hf ⊢
      split_ifs at hf with hon
      obtain rfl := Option.some.inj hf
      exact hframe hon
    · rw [update_of_ne hji] at hf ⊢
      rw [hheld j hji]
      exact h.frames j f hf fun he => hji (Option.some.inj (hprev.symm.trans he)).symm

/-- Everything that a call can do to the state. -/
theorem call_cases {c : Call} {pushed : List UInt8} (hc : c.Switching)
    (ht : s.call c pushed = some t) : ∃ u, Process.step s.statics c = some u ∧
      u.pcbs.stackOf = s.statics.pcbs.stackOf ∧
      ((u.currentProcess = s.statics.currentProcess ∧
          u.pcbs.espOf = s.statics.pcbs.espOf ∧ t = { s with statics := u }) ∨
        ∃ prev current, s.statics.currentProcess = some prev ∧ u.currentProcess = some current ∧
          prev ≠ current ∧ (∀ esp, c ≠ .run esp) ∧
          u.pcbs.espOf = update s.statics.pcbs.espOf prev (savedEsp s.statics) ∧
          t = s.switch u prev current pushed) := by
  obtain ⟨u, hu, rfl⟩ := Option.map_eq_some_iff.mp ht
  obtain ⟨hout, hstack⟩ := outcome_step hc hu
  refine ⟨u, hu, hstack, ?_⟩
  cases hout with
  | stays hcur hesp =>
    refine Or.inl ⟨hcur, hesp, ?_⟩
    rw [hcur]
    cases s.statics.currentProcess with
    | none => rfl
    | some prev => exact if_pos rfl
  | @switches prev current hprev hcur hne hesp =>
    have hrun : ∀ esp, c ≠ .run esp := by
      rintro esp rfl
      obtain rfl := Option.some.inj hu
      exact hne (Option.some.inj (hprev.symm.trans hcur))
    refine Or.inr ⟨prev, current, hprev, hcur, hne, hrun, hesp, ?_⟩
    rw [hprev, hcur]
    exact if_neg hne

theorem StackInv.call (h : StackInv s) {c : Call} {pushed : List UInt8}
    (hok : s.Allowed (.call c pushed)) (ht : s.call c pushed = some t) : StackInv t := by
  obtain ⟨hc, hlen, hplaced⟩ := hok
  obtain ⟨u, -, hstack, ⟨hcur, hesp, rfl⟩ | ⟨prev, current, hprev, hcur, -, hrun, hesp, rfl⟩⟩ :=
    call_cases hc ht
  · exact h.statics hstack hesp hcur
  · exact h.switch hprev hcur hesp hstack hlen (hplaced hrun)

theorem StackInv.heap (h : StackInv s) {c : Memory.Call} (hok : s.Allowed (.heap c))
    (ht : s.step (.heap c) = some t) : StackInv t := by
  obtain ⟨hheap, hfree, hpoke⟩ := hok
  obtain ⟨heap, hcall, hsound, hstep⟩ := h.sound.step hheap
  obtain ⟨heap', hcall', rfl⟩ := Option.map_eq_some_iff.mp ht
  obtain rfl := Option.some.inj (hcall.symm.trans hcall')
  have hforeign : Foreign (stored s.heap) (kernelStack s.statics) c.access →
      StackInv { s with heap := heap } := by
    intro hx
    obtain ⟨hholders, hheld⟩ := h.holders.foreign hstep hx
    refine ⟨hsound, hholders, fun i f hf hi => ?_⟩
    dsimp only
    rw [hheld]
    exact h.frames i f hf hi
  cases c with
  | kmalloc n => exact hforeign trivial
  | kfree p => exact hforeign (hfree p rfl)
  | poke a v =>
    -- the running process may write to its own stack
    have hst : stored heap = (stored s.heap).poke a v := by
      generalize hx : Memory.Call.access (.poke a v) = x at hstep
      generalize stored heap = m at hstep
      cases hstep with
      | poke =>
        cases hx
        rfl
      | _ => cases hx
    refine ⟨hsound, ?_, fun i f hf hi => ?_⟩
    · dsimp only
      rw [hst]
      exact h.holders.poke a v
    · have hsame : held (stored heap) (kernelStack s.statics) i =
          held (stored s.heap) (kernelStack s.statics) i := by
        cases hk : kernelStack s.statics i with
        | none => rw [held, held, hk, Option.bind_none, Option.bind_none]
        | some p =>
          obtain ⟨buf, hbuf⟩ := Option.ne_none_iff_exists'.mp (h.holders.live i p hk)
          rw [held, held, hk, Option.bind_some, Option.bind_some, hst, hbuf]
          exact Holders.poke_outside hbuf (hpoke a v rfl i p buf hi hk hbuf)
      dsimp only
      rw [hsame]
      exact h.frames i f hf hi

theorem StackInv.step (h : StackInv s) {a : Action} (hok : s.Allowed a) (ht : s.step a = some t) :
    StackInv t := by
  cases a with
  | create entry priority => exact h.create ht
  | terminate pid => exact h.terminate ht
  | call c pushed => exact h.call hok ht
  | heap c => exact h.heap hok ht

end Invariant

/-! ### Runs -/

section Runs

variable {s t : Kernel} {heap : Memory.Heap}

theorem stackOf_processInit (stack stack1024 stack256 : ℕ) :
    (processInit boot stack stack1024 stack256).pcbs.stackOf = update (fun _ => 0) 0
      (if stack ≠ 0 then stack else if stack1024 ≠ 0 then stack1024 else stack256) := by
  have hboot : ∀ i, (boot.pcbs i).kernelStack = 0 := fun _ => rfl
  funext i
  unfold processInit
  dsimp only
  by_cases hi : i = 0
  · subst hi
    split_ifs <;> simp [Table.stackOf, Table.modify]
  · split_ifs <;> simp [Table.stackOf, Table.modify, hi, hboot]

/-- The idle process gets a stack, or there is no memory for one. -/
theorem exists_init (hs : heap.Sound) : ∃ s, init heap = some s ∧ StackInv s := by
  have hinv : ∀ (heap : Memory.Heap) (o : Option ℕ) (a b c : ℕ), heap.Sound →
      pointer (if a ≠ 0 then a else if b ≠ 0 then b else c) = o →
      (∀ p, o = some p → stored heap p ≠ none) →
      StackInv ⟨processInit boot a b c, heap, [], fun _ => none⟩ := by
    intro heap o a b c hs ho hlive
    have hks : ∀ i p, kernelStack (processInit boot a b c) i = some p → i = 0 ∧ o = some p := by
      intro i p hp
      rw [kernelStack, stackOf_processInit] at hp
      by_cases hi : i = 0
      · rw [hi, update_self, ho] at hp
        exact ⟨hi, hp⟩
      · rw [update_of_ne hi] at hp
        cases hp
    refine ⟨hs, ⟨fun i p hp => hlive p (hks i p hp).2, fun i j p hi hj => ?_⟩, nofun⟩
    rw [(hks i p hi).1, (hks j p hj).1]
  have hfresh : ∀ {h h' : Memory.Heap} {n p : ℕ}, h'.Sound →
      BufferMap.Step (stored h) (.alloc n) (some p) (stored h') →
      p ≠ 0 ∧ ∀ q, some p = some q → stored h' q ≠ none := by
    intro h h' n p hs' hstep
    rcases hstep.alloc_cases with ⟨hne, -⟩ | ⟨q, buf, hq, -, -, hst⟩
    · cases hne
    · obtain rfl := Option.some.inj hq
      have hbuf : stored h' p = some buf := by rw [hst, update_self]
      obtain ⟨hlo, -⟩ := hs'.bounds hbuf
      refine ⟨by unfold Memory.heapStart at hlo; omega, ?_⟩
      rintro q ⟨⟩
      rw [hbuf]
      exact Option.some_ne_none _
  obtain ⟨r, h₁, hcall₁, hs₁, hstep₁⟩ := hs.kmalloc (n := processStackSize) (by decide) (by decide)
  unfold init
  rw [hcall₁]
  cases r with
  | some p =>
    obtain ⟨hp, hlive⟩ := hfresh hs₁ hstep₁
    exact ⟨_, rfl, hinv h₁ (some p) p 0 0 hs₁
      (by rw [if_pos hp]; exact pointer_of_ne_zero hp) hlive⟩
  | none =>
    obtain ⟨r, h₂, hcall₂, hs₂, hstep₂⟩ := hs₁.kmalloc (n := 1024) (by decide) (by decide)
    simp only [Option.bind_eq_bind, Option.bind_some, hcall₂]
    cases r with
    | some p =>
      obtain ⟨hp, hlive⟩ := hfresh hs₂ hstep₂
      exact ⟨_, rfl, hinv h₂ (some p) 0 p 0 hs₂
        (by rw [if_neg (not_not.mpr rfl), if_pos hp]; exact pointer_of_ne_zero hp) hlive⟩
    | none =>
      obtain ⟨r, h₃, hcall₃, hs₃, hstep₃⟩ := hs₂.kmalloc (n := 256) (by decide) (by decide)
      simp only [Option.bind_some, hcall₃]
      cases r with
      | some p =>
        obtain ⟨hp, hlive⟩ := hfresh hs₃ hstep₃
        exact ⟨_, rfl, hinv h₃ (some p) 0 0 p hs₃ (pointer_of_ne_zero hp) hlive⟩
      | none => exact ⟨_, rfl, hinv h₃ none 0 0 0 hs₃ rfl nofun⟩

/-- From `process_init` on, whatever has been allocated before, and however processes are created,
ended, blocked and scheduled: creation and every allowed use of the heap return; every stack is a
live allocation of one process; what each process that is not running has to get back is at its
saved stack pointer, whatever else the kernel allocates, frees and writes; and a process that is
switched to gets it. -/
theorem stacks_survive (hheap : heap.Sound) : ∃ s, init heap = some s ∧
    ∀ as t, Run step Allowed s as t →
      (∀ entry priority, t.create entry priority ≠ none) ∧
      Holders (stored t.heap) (kernelStack t.statics) ∧
      (∀ i f, t.statics.currentProcess ≠ some i → t.frames i = some f →
        contents t.heap.mem (t.statics.pcbs.espOf i) 20 = f) ∧
      ∀ c pushed u, t.Allowed (.call c pushed) → t.call c pushed = some u →
        ∀ i f, t.statics.currentProcess ≠ some i → u.statics.currentProcess = some i →
          t.frames i = some f → u.regs = f := by
  obtain ⟨s, hinit, hs⟩ := exists_init hheap
  refine ⟨s, hinit, fun as t hrun => ?_⟩
  have ht : StackInv t := hrun.invariant StackInv (fun _ _ _ h hok hstep => h.step hok hstep) hs
  refine ⟨fun entry priority => ?_, ht.holders, fun i f hi hf => ?_, ?_⟩
  · unfold create
    cases createdSlot t.statics with
    | none => exact Option.some_ne_none _
    | some i =>
      obtain ⟨r, heap', hcall, -⟩ :=
        ht.sound.kmalloc (n := processStackSize) (by decide) (by decide)
      rw [hcall]
      exact Option.some_ne_none _
  · exact Kept.contents ht.sound (ht.frames i f hf hi)
  · intro c pushed u hok hcall i f hi hu hf
    obtain ⟨hc, hlen, hplaced⟩ := hok
    obtain ⟨v, -, -, ⟨hsame, -, rfl⟩ | ⟨prev, current, hprev, hcur, -, hrun, -, rfl⟩⟩ :=
      call_cases hc hcall
    · exact absurd (hsame.symm.trans hu) hi
    · obtain rfl := Option.some.inj (hcur.symm.trans hu)
      obtain ⟨hsound, -, hheld, -⟩ := ht.pushes hprev hlen (hplaced hrun)
      have hne : current ≠ prev := fun he => hi (hprev.trans (congrArg some he.symm))
      have hkept := ht.frames current f hf hi
      rw [← hheld current hne] at hkept
      exact Kept.contents hsound hkept

/-- The first switch to a new process, with an allocation of other code in between. -/
theorem stacks_survive_first : ∃ s t u, init (Memory.heapInit ⟨fun _ => 0, []⟩) = some s ∧
    Run step Allowed s [.create 0x101000 1, .heap (.kmalloc 100),
      .call (.run 0x90000) (List.replicate 16 7)] t ∧
    t.call .schedule (List.replicate 16 7) = some u ∧ u.statics.currentProcess = some 1 ∧
    u.regs = newFrame 0x101000 := by
  obtain ⟨s, hinit, hrun⟩ := stacks_survive (Memory.sound_heapInit ⟨fun _ => 0, []⟩)
  have hcalls : ((init (Memory.heapInit ⟨fun _ => 0, []⟩)).bind fun s =>
      (s.step (.create 0x101000 1)).bind fun s => (s.step (.heap (.kmalloc 100))).bind fun s =>
      (s.step (.call (.run 0x90000) (List.replicate 16 7))).bind fun t =>
      (t.call .schedule (List.replicate 16 7)).map fun u =>
        (t.statics.currentProcess, t.statics.esp, t.frames 1, u.statics.currentProcess)) =
      some (some 0, 0x90000, some (newFrame 0x101000), some 1) := by decide +kernel
  rw [hinit, Option.bind_some] at hcalls
  obtain ⟨s₁, h₁, hcalls⟩ := Option.bind_eq_some_iff.mp hcalls
  obtain ⟨s₂, h₂, hcalls⟩ := Option.bind_eq_some_iff.mp hcalls
  obtain ⟨t, ht, hcalls⟩ := Option.bind_eq_some_iff.mp hcalls
  obtain ⟨u, hu, hvals⟩ := Option.map_eq_some_iff.mp hcalls
  obtain ⟨hcur, hesp, hframe, hnext⟩ :
      t.statics.currentProcess = some 0 ∧ t.statics.esp = 0x90000 ∧
        t.frames 1 = some (newFrame 0x101000) ∧ u.statics.currentProcess = some 1 := by
    simpa only [Prod.mk.injEq] using hvals
  have hall : Run step Allowed s [.create 0x101000 1, .heap (.kmalloc 100),
      .call (.run 0x90000) (List.replicate 16 7)] t := by
    apply Run.cons trivial h₁
    apply Run.cons ⟨⟨by decide, by decide⟩, nofun, nofun⟩ h₂
    apply Run.cons ⟨trivial, rfl, fun h => absurd rfl (h _)⟩ ht
    exact Run.nil t
  have hok : t.Allowed (.call .schedule (List.replicate 16 7)) := by
    refine ⟨trivial, rfl, fun _ => Or.inr ?_⟩
    rw [hesp]
    decide
  obtain ⟨-, -, -, hpops⟩ := hrun _ t hall
  refine ⟨s, t, u, hinit, hall, hu, hnext, hpops _ _ u hok hu 1 _ ?_ hnext hframe⟩
  rw [hcur]
  decide

end Runs

end Kernel

end OpenKernel.Process
