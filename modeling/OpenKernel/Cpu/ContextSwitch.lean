import OpenKernel.Memory.Heap
import OpenKernel.Lib.Transition

/-!
# The context switch, instruction by instruction

`context_switch` of `context_switch.asm` and the frame that `pcb_init` builds for
it, on byte memory and the registers that a C function must preserve. Any number
of processes share the processor. Each has a stack of its own and a word in
memory, the `esp` of its PCB, where its stack pointer is kept.
-/

namespace OpenKernel.Cpu

open Memory (word)

structure Regs where
  esp : ℕ
  ebp : ℕ
  ebx : ℕ
  esi : ℕ
  edi : ℕ
  eip : ℕ
  deriving DecidableEq

structure Machine where
  mem : ByteMemory
  regs : Regs

def push (c : Machine) (v : ℕ) : Machine :=
  let esp := word (c.regs.esp + 2 ^ 32 - 4)
  { mem := c.mem.store esp v, regs := { c.regs with esp := esp } }

/-- The word that `pop` and `ret` take off the stack. -/
def top (c : Machine) : ℕ := c.mem.load c.regs.esp

/-- The stack pointer after `pop` or `ret`. -/
def popped (c : Machine) : ℕ := word (c.regs.esp + 4)

def saveContext (c : Machine) : Machine :=
  let c := push c c.regs.ebp
  let c := push c c.regs.ebx
  let c := push c c.regs.esi
  push c c.regs.edi

/-- Keep the stack pointer at `prev_esp` and take up the stack `next_esp`. -/
def switchStacks (c : Machine) : Machine :=
  let eax := c.mem.load (word (c.regs.esp + 20))
  let ecx := c.mem.load (word (c.regs.esp + 24))
  { mem := c.mem.store eax c.regs.esp, regs := { c.regs with esp := ecx } }

/-- The four pops and the return. -/
def restoreContext (c : Machine) : Machine :=
  let c := { c with regs := { c.regs with edi := top c, esp := popped c } }
  let c := { c with regs := { c.regs with esi := top c, esp := popped c } }
  let c := { c with regs := { c.regs with ebx := top c, esp := popped c } }
  let c := { c with regs := { c.regs with ebp := top c, esp := popped c } }
  { c with regs := { c.regs with eip := top c, esp := popped c } }

/-- `context_switch`, entered with the return address on top of the stack and the arguments
`prev_esp` and `next_esp` above it. -/
def contextSwitch (c : Machine) : Machine := restoreContext (switchStacks (saveContext c))

/-- `call f`, where the next instruction is at `ret`. -/
def call (f : Machine → Machine) (ret : ℕ) (c : Machine) : Machine := f (push c ret)

def processStackSize : ℕ := 4096

/-- The end of `pcb_init`: the frame on the new stack, and the `esp` of the PCB at `slot`. -/
def pcbInitFrame (m : ByteMemory) (slot kernelStack entry : ℕ) : ByteMemory :=
  let stackTop := kernelStack + processStackSize
  let m := m.store (stackTop - 4) entry
  let m := m.store (stackTop - 8) 0
  let m := m.store (stackTop - 12) 0
  let m := m.store (stackTop - 16) 0
  let m := m.store (stackTop - 20) 0
  m.store slot (stackTop - 20)

/-- Where the processes have their stacks and the words for their stack pointers. -/
structure Stacks (P : Type*) where
  slot : P → ℕ
  low : P → ℕ
  high : P → ℕ
  high_lt : ∀ p, high p < 2 ^ 32
  slot_le : ∀ p, slot p + 4 ≤ 2 ^ 32
  disjoint : ∀ p q, p ≠ q → high p ≤ low q ∨ high q ≤ low p
  slot_apart : ∀ p q, p ≠ q → slot p + 4 ≤ slot q ∨ slot q + 4 ≤ slot p
  slot_outside : ∀ p q, slot p + 4 ≤ low q ∨ high q ≤ slot p

/-- What is known about a process that is not running: it has been prepared by `pcb_init` and
never ran, or it called `context_switch` with these registers and will return to `eip`. -/
inductive Saved
  | prepared (entry : ℕ)
  | suspended (regs : Regs)
  deriving DecidableEq

structure System (P : Type*) where
  cpu : Machine
  current : P
  saved : P → Option Saved

inductive Action (P : Type*)
  /-- The running process executes its own code. -/
  | run (cpu : Machine)
  /-- It creates process `q`. -/
  | prepare (q : P) (entry : ℕ)
  /-- It calls `context_switch(&current->esp, q->esp)`, to return to `ret`. -/
  | switch (q : P) (ret : ℕ)

section Step

variable {P : Type*} [DecidableEq P] (L : Stacks P)

/-- The two arguments on the stack, the last one first. -/
def pushArgs (s : System P) (q : P) : Machine :=
  push (push s.cpu (s.cpu.mem.load (L.slot q))) (L.slot s.current)

def step (s : System P) : Action P → System P
  | .run cpu => { s with cpu := cpu }
  | .prepare q entry =>
    { s with
      cpu := { s.cpu with mem := pcbInitFrame s.cpu.mem (L.slot q) (L.low q) entry }
      saved := Function.update s.saved q (some (.prepared entry)) }
  | .switch q ret =>
    let out := { (pushArgs L s q).regs with eip := ret }
    { cpu := call contextSwitch ret (pushArgs L s q)
      current := q
      saved := Function.update (Function.update s.saved s.current (some (.suspended out))) q none }

/-- All registers hold words. -/
structure Regs.Words (r : Regs) : Prop where
  esp : r.esp < 2 ^ 32
  ebp : r.ebp < 2 ^ 32
  ebx : r.ebx < 2 ^ 32
  esi : r.esi < 2 ^ 32
  edi : r.edi < 2 ^ 32

/-- A process writes neither to the stack nor to the saved stack pointer of another; a new
process gets 4096 bytes of stack; and a switch is to another process that can run, with room
for seven words on the stack of the caller. -/
def Allowed (s : System P) : Action P → Prop
  | .run cpu => cpu.regs.Words ∧ ∀ q, q ≠ s.current → ∀ x,
      (L.low q ≤ x ∧ x < L.high q) ∨ (L.slot q ≤ x ∧ x < L.slot q + 4) →
        cpu.mem.byte x = s.cpu.mem.byte x
  | .prepare q entry => q ≠ s.current ∧ L.high q = L.low q + processStackSize ∧ entry < 2 ^ 32
  | .switch q ret => q ≠ s.current ∧ s.saved q ≠ none ∧ ret < 2 ^ 32 ∧
      L.low s.current + 28 ≤ s.cpu.regs.esp ∧ s.cpu.regs.esp ≤ L.high s.current

end Step

/-! ### Frames -/

/-- At `base` lies what `context_switch` pops to continue with the registers `r`. -/
structure Frame (m : ByteMemory) (base : ℕ) (r : Regs) : Prop where
  edi : m.load base = r.edi
  esi : m.load (base + 4) = r.esi
  ebx : m.load (base + 8) = r.ebx
  ebp : m.load (base + 12) = r.ebp
  eip : m.load (base + 16) = r.eip
  esp : r.esp = base + 20

theorem Frame.congr {m m' : ByteMemory} {base : ℕ} {r : Regs} (h : Frame m base r)
    (hm : ∀ x, base ≤ x → x < base + 20 → m'.byte x = m.byte x) : Frame m' base r := by
  have hload : ∀ k, k + 4 ≤ 20 → m'.load (base + k) = m.load (base + k) := by
    intro k hk
    apply ByteMemory.load_congr
    intro x h₁ h₂
    exact hm x (by omega) (by omega)
  exact ⟨(hload 0 (by omega)).trans h.edi, (hload 4 (by omega)).trans h.esi,
    (hload 8 (by omega)).trans h.ebx, (hload 12 (by omega)).trans h.ebp,
    (hload 16 (by omega)).trans h.eip, h.esp⟩

theorem Frame.words {m : ByteMemory} {base : ℕ} {r : Regs} (h : Frame m base r)
    (hbase : base + 20 < 2 ^ 32) : r.Words := by
  obtain ⟨hedi, hesi, hebx, hebp, _, hesp⟩ := h
  refine ⟨by omega, ?_, ?_, ?_, ?_⟩
  · exact hebp ▸ m.load_lt
  · exact hebx ▸ m.load_lt
  · exact hesi ▸ m.load_lt
  · exact hedi ▸ m.load_lt

section Instructions

variable {c : Machine} {v : ℕ}

theorem push_eq (hlo : 4 ≤ c.regs.esp) (hhi : c.regs.esp < 2 ^ 32) :
    push c v = ⟨c.mem.store (c.regs.esp - 4) v, { c.regs with esp := c.regs.esp - 4 }⟩ := by
  have hword : word (c.regs.esp + 2 ^ 32 - 4) = c.regs.esp - 4 := by
    unfold word
    omega
  unfold push
  rw [hword]

/-- Four words pushed from `b + 16` down to `b`. -/
theorem saveContext_eq {b : ℕ} (hesp : c.regs.esp = b + 16) (hhi : b + 16 < 2 ^ 32) :
    saveContext c =
      ⟨(((c.mem.store (b + 12) c.regs.ebp).store (b + 8) c.regs.ebx).store (b + 4) c.regs.esi).store
        b c.regs.edi, { c.regs with esp := b }⟩ := by
  obtain ⟨m, esp, ebp, ebx, esi, edi, eip⟩ := c
  obtain rfl : esp = b + 16 := hesp
  have h₁ := push_eq (c := ⟨m, ⟨b + 16, ebp, ebx, esi, edi, eip⟩⟩) (v := ebp)
    (by dsimp only; omega) (by dsimp only; omega)
  have h₂ := push_eq (c := ⟨m.store (b + 12) ebp, ⟨b + 12, ebp, ebx, esi, edi, eip⟩⟩) (v := ebx)
    (by dsimp only; omega) (by dsimp only; omega)
  have h₃ := push_eq (c := ⟨(m.store (b + 12) ebp).store (b + 8) ebx,
    ⟨b + 8, ebp, ebx, esi, edi, eip⟩⟩) (v := esi) (by dsimp only; omega) (by dsimp only; omega)
  have h₄ := push_eq (c := ⟨((m.store (b + 12) ebp).store (b + 8) ebx).store (b + 4) esi,
    ⟨b + 4, ebp, ebx, esi, edi, eip⟩⟩) (v := edi) (by dsimp only; omega) (by dsimp only; omega)
  dsimp only at h₁ h₂ h₃ h₄
  have e₁ : b + 16 - 4 = b + 12 := by omega
  have e₂ : b + 12 - 4 = b + 8 := by omega
  have e₃ : b + 8 - 4 = b + 4 := by omega
  have e₄ : b + 4 - 4 = b := by omega
  rw [e₁] at h₁
  rw [e₂] at h₂
  rw [e₃] at h₃
  rw [e₄] at h₄
  unfold saveContext
  dsimp only
  rw [h₁]
  dsimp only
  rw [h₂]
  dsimp only
  rw [h₃]
  dsimp only
  rw [h₄]

theorem restoreContext_eq (hbase : c.regs.esp + 20 < 2 ^ 32) :
    restoreContext c =
      ⟨c.mem, ⟨c.regs.esp + 20, c.mem.load (c.regs.esp + 12), c.mem.load (c.regs.esp + 8),
        c.mem.load (c.regs.esp + 4), c.mem.load c.regs.esp, c.mem.load (c.regs.esp + 16)⟩⟩ := by
  have hword : ∀ n, n < 2 ^ 32 → word n = n := fun n hn => Nat.mod_eq_of_lt hn
  have h₁ : word (c.regs.esp + 4) = c.regs.esp + 4 := hword _ (by omega)
  have h₂ : word (c.regs.esp + 4 + 4) = c.regs.esp + 8 := hword _ (by omega)
  have h₃ : word (c.regs.esp + 8 + 4) = c.regs.esp + 12 := hword _ (by omega)
  have h₄ : word (c.regs.esp + 12 + 4) = c.regs.esp + 16 := hword _ (by omega)
  have h₅ : word (c.regs.esp + 16 + 4) = c.regs.esp + 20 := hword _ (by omega)
  unfold restoreContext top popped
  dsimp only
  rw [h₁, h₂, h₃, h₄, h₅]

end Instructions

section Switch

variable {P : Type*} {L : Stacks P} {s : System P} {q : P} {b ret : ℕ}

/-- The seven words that a switch leaves on the stack of the caller. -/
def outgoing (L : Stacks P) (s : System P) (q : P) (b ret : ℕ) : ByteMemory :=
  let r := s.cpu.regs
  let m := s.cpu.mem.store (b + 24) (s.cpu.mem.load (L.slot q))
  let m := m.store (b + 20) (L.slot s.current)
  let m := m.store (b + 16) ret
  (((m.store (b + 12) r.ebp).store (b + 8) r.ebx).store (b + 4) r.esi).store b r.edi

theorem pushArgs_eq (hesp : s.cpu.regs.esp = b + 28) (hlt : b + 28 < 2 ^ 32) :
    pushArgs L s q =
      ⟨(s.cpu.mem.store (b + 24) (s.cpu.mem.load (L.slot q))).store (b + 20) (L.slot s.current),
        { s.cpu.regs with esp := b + 20 }⟩ := by
  have e₁ : b + 28 - 4 = b + 24 := by omega
  have e₂ : b + 24 - 4 = b + 20 := by omega
  have h₁ := push_eq (c := s.cpu) (v := s.cpu.mem.load (L.slot q)) (by omega) (by omega)
  rw [hesp, e₁] at h₁
  unfold pushArgs
  rw [h₁, push_eq (by dsimp only; omega) (by dsimp only; omega)]
  dsimp only
  rw [e₂]

theorem saved_outgoing (hesp : s.cpu.regs.esp = b + 28) (hlt : b + 28 < 2 ^ 32) :
    saveContext (push (pushArgs L s q) ret) =
      ⟨outgoing L s q b ret, { s.cpu.regs with esp := b }⟩ := by
  have e₃ : b + 20 - 4 = b + 16 := by omega
  rw [pushArgs_eq hesp hlt, push_eq (by dsimp only; omega) (by dsimp only; omega)]
  dsimp only
  rw [e₃]
  exact saveContext_eq rfl (by omega)

theorem byte_outgoing {x v : ℕ} (hstack : x < b ∨ b + 28 ≤ x)
    (hslot : x < L.slot s.current ∨ L.slot s.current + 4 ≤ x) :
    ((outgoing L s q b ret).store (L.slot s.current) v).byte x = s.cpu.mem.byte x := by
  unfold outgoing ByteMemory.store
  dsimp only
  rw [if_neg (by omega), if_neg (by omega), if_neg (by omega), if_neg (by omega),
    if_neg (by omega), if_neg (by omega), if_neg (by omega), if_neg (by omega)]

theorem prevEsp_outgoing (hslot : L.slot s.current + 4 ≤ 2 ^ 32) :
    (outgoing L s q b ret).load (b + 20) = L.slot s.current := by
  unfold outgoing
  simp (disch := omega) only [ByteMemory.load_store_of_disjoint, ByteMemory.load_store_self]

theorem nextEsp_outgoing :
    (outgoing L s q b ret).load (b + 24) = s.cpu.mem.load (L.slot q) := by
  have hlt := ByteMemory.load_lt s.cpu.mem (a := L.slot q)
  unfold outgoing
  simp (disch := omega) only [ByteMemory.load_store_of_disjoint, ByteMemory.load_store_self]

theorem frame_outgoing {v : ℕ} (hregs : s.cpu.regs.Words) (hret : ret < 2 ^ 32)
    (hslot : L.slot s.current + 4 ≤ b ∨ b + 20 ≤ L.slot s.current) :
    Frame ((outgoing L s q b ret).store (L.slot s.current) v) b
      { s.cpu.regs with esp := b + 20, eip := ret } := by
  obtain ⟨_, hebp, hebx, hesi, hedi⟩ := hregs
  unfold outgoing
  refine ⟨?_, ?_, ?_, ?_, ?_, rfl⟩ <;>
    simp (disch := omega) only [ByteMemory.load_store_of_disjoint, ByteMemory.load_store_self]

theorem call_contextSwitch (hesp : s.cpu.regs.esp = b + 28) (hlt : b + 28 < 2 ^ 32)
    (hslot : L.slot s.current + 4 ≤ 2 ^ 32)
    {r : Regs} (hr : r.esp < 2 ^ 32)
    (hframe : Frame ((outgoing L s q b ret).store (L.slot s.current) b)
      (s.cpu.mem.load (L.slot q)) r) :
    call contextSwitch ret (pushArgs L s q) =
      ⟨(outgoing L s q b ret).store (L.slot s.current) b, r⟩ := by
  have h₁ : word (b + 20) = b + 20 := Nat.mod_eq_of_lt (by omega)
  have h₂ : word (b + 24) = b + 24 := Nat.mod_eq_of_lt (by omega)
  have hbase := hframe.esp
  unfold call contextSwitch
  rw [saved_outgoing hesp hlt]
  unfold switchStacks
  dsimp only
  rw [h₁, h₂, prevEsp_outgoing hslot, nextEsp_outgoing,
    restoreContext_eq (by dsimp only; omega)]
  dsimp only
  rw [hframe.edi, hframe.esi, hframe.ebx, hframe.ebp, hframe.eip, ← hbase]

end Switch

/-! ### Runs -/

section Waiting

variable {P : Type*} {L : Stacks P} {s : System P} {q r : P} {m m' : ByteMemory} {saved : Saved}

/-- The registers with which a process continues. -/
def Saved.resume (L : Stacks P) (q : P) : Saved → Regs
  | .prepared entry => ⟨L.high q, 0, 0, 0, 0, entry⟩
  | .suspended r => r

/-- Process `q` has a frame on its own stack, at its saved `esp`. -/
structure Waiting (L : Stacks P) (m : ByteMemory) (q : P) (saved : Saved) : Prop where
  low : L.low q ≤ m.load (L.slot q)
  high : m.load (L.slot q) + 20 ≤ L.high q
  frame : Frame m (m.load (L.slot q)) (saved.resume L q)

/-- The memory that belongs to process `q` is the same. -/
def SameProcess (L : Stacks P) (q : P) (m m' : ByteMemory) : Prop :=
  ∀ x, (L.low q ≤ x ∧ x < L.high q) ∨ (L.slot q ≤ x ∧ x < L.slot q + 4) → m'.byte x = m.byte x

theorem SameProcess.load_slot (h : SameProcess L q m m') :
    m'.load (L.slot q) = m.load (L.slot q) := by
  apply ByteMemory.load_congr
  intro x h₁ h₂
  exact h x (Or.inr ⟨h₁, h₂⟩)

theorem Waiting.congr (h : Waiting L m q saved) (hm : SameProcess L q m m') :
    Waiting L m' q saved := by
  obtain ⟨hlow, hhigh, hframe⟩ := h
  have hload := hm.load_slot
  rw [← hload] at hlow hhigh hframe
  refine ⟨hlow, hhigh, hframe.congr ?_⟩
  intro x h₁ h₂
  exact hm x (Or.inl ⟨by omega, by omega⟩)

theorem sameProcess_prepare {q r : P} {m : ByteMemory} {entry : ℕ} (hne : r ≠ q)
    (hsize : L.high q = L.low q + processStackSize) :
    SameProcess L r m (pcbInitFrame m (L.slot q) (L.low q) entry) := by
  intro x hx
  have hstack := L.disjoint r q hne
  have hslot := L.slot_apart r q hne
  have hout := L.slot_outside q r
  have hout' := L.slot_outside r q
  unfold processStackSize at hsize
  unfold pcbInitFrame ByteMemory.store processStackSize
  dsimp only
  rw [if_neg (by omega), if_neg (by omega), if_neg (by omega), if_neg (by omega),
    if_neg (by omega), if_neg (by omega)]

/-- The frame that `pcb_init` builds is one that `context_switch` can pop. -/
theorem frame_prepare {q : P} {m : ByteMemory} {entry : ℕ}
    (hsize : L.high q = L.low q + processStackSize) (hentry : entry < 2 ^ 32) :
    (pcbInitFrame m (L.slot q) (L.low q) entry).load (L.slot q) = L.high q - 20 ∧
      Frame (pcbInitFrame m (L.slot q) (L.low q) entry) (L.high q - 20)
        ⟨L.high q, 0, 0, 0, 0, entry⟩ := by
  have hlt := L.high_lt q
  have hout := L.slot_outside q q
  rw [hsize] at hlt hout ⊢
  unfold processStackSize at *
  have e₁ : L.low q + 4096 - 20 + 4 = L.low q + 4096 - 16 := by omega
  have e₂ : L.low q + 4096 - 20 + 8 = L.low q + 4096 - 12 := by omega
  have e₃ : L.low q + 4096 - 20 + 12 = L.low q + 4096 - 8 := by omega
  have e₄ : L.low q + 4096 - 20 + 16 = L.low q + 4096 - 4 := by omega
  unfold pcbInitFrame processStackSize
  dsimp only
  refine ⟨?_, ?_, ?_, ?_, ?_, ?_, ?_⟩
  · simp (disch := omega) only [ByteMemory.load_store_self]
  · simp (disch := omega) only [ByteMemory.load_store_of_disjoint, ByteMemory.load_store_self]
  · rw [e₁]
    simp (disch := omega) only [ByteMemory.load_store_of_disjoint, ByteMemory.load_store_self]
  · rw [e₂]
    simp (disch := omega) only [ByteMemory.load_store_of_disjoint, ByteMemory.load_store_self]
  · rw [e₃]
    simp (disch := omega) only [ByteMemory.load_store_of_disjoint, ByteMemory.load_store_self]
  · rw [e₄]
    simp (disch := omega) only [ByteMemory.load_store_of_disjoint, ByteMemory.load_store_self]
  · dsimp only
    omega

theorem waiting_prepare {entry : ℕ} (hsize : L.high q = L.low q + processStackSize)
    (hentry : entry < 2 ^ 32) :
    Waiting L (pcbInitFrame m (L.slot q) (L.low q) entry) q (.prepared entry) := by
  obtain ⟨hload, hframe⟩ := frame_prepare (m := m) hsize hentry
  rw [← hload] at hframe
  unfold processStackSize at hsize
  exact ⟨by omega, by omega, hframe⟩

theorem sameProcess_switch {b v ret : ℕ} (hne : r ≠ s.current) (hlow : L.low s.current ≤ b)
    (hhigh : b + 28 ≤ L.high s.current) :
    SameProcess L r s.cpu.mem ((outgoing L s q b ret).store (L.slot s.current) v) := by
  intro x hx
  have hstack := L.disjoint r s.current hne
  have hslot := L.slot_apart r s.current hne
  have hout := L.slot_outside s.current r
  have hout' := L.slot_outside r s.current
  exact byte_outgoing (by omega) (by omega)

theorem waiting_switch {b ret : ℕ} (hregs : s.cpu.regs.Words) (hret : ret < 2 ^ 32)
    (hlow : L.low s.current ≤ b) (hhigh : b + 28 ≤ L.high s.current) :
    Waiting L ((outgoing L s q b ret).store (L.slot s.current) b) s.current
      (.suspended { s.cpu.regs with esp := b + 20, eip := ret }) := by
  have hlt := L.high_lt s.current
  have hslot := L.slot_outside s.current s.current
  have hload : ((outgoing L s q b ret).store (L.slot s.current) b).load (L.slot s.current) = b := by
    apply ByteMemory.load_store_self
    omega
  have hframe := frame_outgoing (L := L) (q := q) (b := b) (v := b) hregs hret (by omega)
  refine ⟨?_, ?_, ?_⟩
  · rw [hload]
    exact hlow
  · rw [hload]
    omega
  · rw [hload]
    exact hframe

end Waiting

section Runs

variable {P : Type*} {L : Stacks P} {s : System P}

/-- Every process that can be switched to waits for it. -/
structure SwitchInv (L : Stacks P) (s : System P) : Prop where
  words : s.cpu.regs.Words
  notCurrent : s.saved s.current = none
  waiting : ∀ q saved, s.saved q = some saved → Waiting L s.cpu.mem q saved

namespace SwitchInv

theorem ne_current (h : SwitchInv L s) {q : P} {saved : Saved} (hsaved : s.saved q = some saved) :
    q ≠ s.current := by
  rintro rfl
  rw [h.notCurrent] at hsaved
  cases hsaved

variable [DecidableEq P]

theorem run (h : SwitchInv L s) {cpu : Machine} (hok : Allowed L s (.run cpu)) :
    SwitchInv L (step L s (.run cpu)) := by
  obtain ⟨hwords, hsame⟩ := hok
  refine ⟨hwords, h.notCurrent, ?_⟩
  intro q saved hsaved
  exact (h.waiting q saved hsaved).congr (hsame q (h.ne_current hsaved))

theorem prepare (h : SwitchInv L s) {q : P} {entry : ℕ} (hok : Allowed L s (.prepare q entry)) :
    SwitchInv L (step L s (.prepare q entry)) := by
  obtain ⟨hne, hsize, hentry⟩ := hok
  refine ⟨h.words, (Function.update_of_ne hne.symm ..).trans h.notCurrent, ?_⟩
  intro r saved hsaved
  unfold step at hsaved ⊢
  dsimp only at hsaved ⊢
  by_cases hr : r = q
  · subst hr
    rw [Function.update_self] at hsaved
    obtain rfl := Option.some.inj hsaved
    exact waiting_prepare hsize hentry
  · rw [Function.update_of_ne hr] at hsaved
    exact (h.waiting r saved hsaved).congr (sameProcess_prepare hr hsize)

theorem cpu_switch (h : SwitchInv L s) {q : P} {ret : ℕ} (hok : Allowed L s (.switch q ret))
    {saved : Saved} (hsaved : s.saved q = some saved) {b : ℕ} (hesp : s.cpu.regs.esp = b + 28) :
    (step L s (.switch q ret)).cpu =
      ⟨(outgoing L s q b ret).store (L.slot s.current) b, saved.resume L q⟩ := by
  obtain ⟨hne, _, hret, hlow, hhigh⟩ := hok
  have hlt := L.high_lt s.current
  have hltq := L.high_lt q
  have hsame : SameProcess L q s.cpu.mem ((outgoing L s q b ret).store (L.slot s.current) b) :=
    sameProcess_switch hne (by omega) (by omega)
  have hwait := (h.waiting q saved hsaved).congr hsame
  have hhighq := hwait.high
  have hframe := hwait.frame
  have hbase := hframe.esp
  rw [hsame.load_slot] at hframe
  exact call_contextSwitch hesp (by omega) (L.slot_le s.current) (by omega) hframe

theorem switch (h : SwitchInv L s) {q : P} {ret : ℕ} (hok : Allowed L s (.switch q ret)) :
    SwitchInv L (step L s (.switch q ret)) := by
  obtain ⟨hne, hready, hret, hlow, hhigh⟩ := id hok
  obtain ⟨saved, hsaved⟩ := Option.ne_none_iff_exists'.mp hready
  obtain ⟨b, hesp⟩ : ∃ b, s.cpu.regs.esp = b + 28 := ⟨s.cpu.regs.esp - 28, by omega⟩
  have hcpu := h.cpu_switch hok hsaved hesp
  have hlt := L.high_lt s.current
  have hltq := L.high_lt q
  have hsame : ∀ r, r ≠ s.current →
      SameProcess L r s.cpu.mem ((outgoing L s q b ret).store (L.slot s.current) b) := by
    intro r hr
    exact sameProcess_switch hr (by omega) (by omega)
  refine ⟨?_, ?_, ?_⟩
  · rw [hcpu]
    have hwait := h.waiting q saved hsaved
    have hhighq := hwait.high
    exact hwait.frame.words (by omega)
  · exact Function.update_self ..
  · intro r saved' hsaved'
    rw [hcpu]
    unfold step at hsaved'
    dsimp only at hsaved' ⊢
    by_cases hq : r = q
    · subst hq
      rw [Function.update_self] at hsaved'
      cases hsaved'
    · rw [Function.update_of_ne hq] at hsaved'
      by_cases hr : r = s.current
      · subst hr
        rw [Function.update_self, pushArgs_eq hesp (by omega)] at hsaved'
        obtain rfl := Option.some.inj hsaved'
        exact waiting_switch h.words hret (by omega) (by omega)
      · rw [Function.update_of_ne hr] at hsaved'
        exact (h.waiting r saved' hsaved').congr (hsame r hr)

theorem step (h : SwitchInv L s) {a : Action P} (hok : Allowed L s a) :
    SwitchInv L (step L s a) := by
  cases a with
  | run cpu => exact h.run hok
  | prepare q entry => exact h.prepare hok
  | switch q ret => exact h.switch hok

end SwitchInv

variable [DecidableEq P]

/-- In every run, a process that is switched back in has the registers, the stack pointer and
the return address of its last switch-out, and a new process starts at its entry with cleared
registers and the whole of its stack below its stack pointer. -/
theorem switch_round_trip (L : Stacks P) (s₀ s : System P) (as : List (Action P))
    (hregs : s₀.cpu.regs.Words) (hstart : ∀ q, s₀.saved q = none)
    (hrun : Run (fun s a => some (step L s a)) (Allowed L) s₀ as s)
    (q : P) (ret : ℕ) (hok : Allowed L s (.switch q ret)) :
    (step L s (.switch q ret)).current = q ∧
      (∀ r, s.saved q = some (.suspended r) → (step L s (.switch q ret)).cpu.regs = r) ∧
      (∀ entry, s.saved q = some (.prepared entry) →
        (step L s (.switch q ret)).cpu.regs = ⟨L.high q, 0, 0, 0, 0, entry⟩ ∧
          L.low q < L.high q) := by
  have h₀ : SwitchInv L s₀ := by
    refine ⟨hregs, hstart _, ?_⟩
    intro q saved hsaved
    rw [hstart q] at hsaved
    cases hsaved
  have h : SwitchInv L s := by
    refine hrun.invariant (SwitchInv L) ?_ h₀
    intro s a t h hok hst
    exact Option.some.inj hst ▸ h.step hok
  obtain ⟨b, hesp⟩ : ∃ b, s.cpu.regs.esp = b + 28 := by
    obtain ⟨_, _, _, hlow, _⟩ := hok
    exact ⟨s.cpu.regs.esp - 28, by omega⟩
  refine ⟨rfl, ?_, ?_⟩
  · intro r hsaved
    rw [h.cpu_switch hok hsaved hesp]
    rfl
  · intro entry hsaved
    have hwait := h.waiting q _ hsaved
    have hlow := hwait.low
    have hhigh := hwait.high
    rw [h.cpu_switch hok hsaved hesp]
    exact ⟨rfl, by omega⟩

/-- The boot stack and the stack of one new process. -/
def twoStacks : Stacks Bool where
  slot b := if b then 0x4040 else 0x4000
  low b := if b then 0x20000 else 0x10000
  high b := if b then 0x21000 else 0x12000
  high_lt := by decide
  slot_le := by decide
  disjoint := by decide
  slot_apart := by decide
  slot_outside := by decide

/-- The boot code is running. -/
def bootSystem : System Bool where
  cpu := ⟨⟨fun _ => 0, []⟩, ⟨0x11F00, 1, 2, 3, 4, 0x100000⟩⟩
  current := false
  saved _ := none

/-- A new process is created and runs, and the boot code is switched back in. -/
theorem switch_round_trip_boot :
    (step twoStacks (step twoStacks (step twoStacks bootSystem (.prepare true 0x101000))
      (.switch true 0x100020)) (.switch false 0x101010)).cpu.regs =
        ⟨0x11EF8, 1, 2, 3, 4, 0x100020⟩ := by
  refine (switch_round_trip twoStacks bootSystem _ _ ⟨by decide, by decide, by decide, by decide,
    by decide⟩ (fun _ => rfl) (.cons ?_ rfl (.cons ?_ rfl (.nil _))) false 0x101010 ?_).2.1 _ ?_
  · exact ⟨by decide, by decide, by decide⟩
  · exact ⟨by decide, by decide, by decide, by decide, by decide⟩
  · exact ⟨by decide, by decide, by decide, by decide, by decide⟩
  · decide

end Runs

end OpenKernel.Cpu
