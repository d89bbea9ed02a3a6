import OpenKernel.Lib.WordStack
import Mathlib.Data.Fin.Basic

/-!
# The interrupt stubs, instruction by instruction

The stubs of `isr.asm` with the macros of `isr_common.asm`, as programs of a small machine
with byte memory. The processor pushes EFLAGS, CS, EIP and, for some vectors, an error code
before it enters a stub; the stub completes the frame `regs_t`, calls a C function with a
pointer to it, and undoes all of it.
-/

namespace OpenKernel.Cpu.Stubs

open ByteMemory

/-- The registers; the segment registers hold selectors. -/
structure Registers where
  eax : Word
  ecx : Word
  edx : Word
  ebx : Word
  esp : Word
  ebp : Word
  esi : Word
  edi : Word
  eip : Word
  eflags : Word
  cs : BitVec 16
  ds : BitVec 16
  es : BitVec 16
  fs : BitVec 16
  gs : BitVec 16
  ss : BitVec 16
  deriving DecidableEq

structure Machine where
  mem : ByteMemory
  regs : Registers

/-- The C functions that the stubs call. -/
inductive Handler
  | isrHandler
  | irqHandler
  deriving DecidableEq

inductive Segment
  | ds
  | es
  | fs
  | gs
  deriving DecidableEq

inductive Instr
  | cli
  | push (v : Word)
  | pusha
  | pushSegment (s : Segment)
  /-- `mov ax, v`. -/
  | movAx (v : BitVec 16)
  /-- `mov s, ax`. -/
  | movSegment (s : Segment)
  | pushEsp
  | call (f : Handler)
  | addEsp (n : Word)
  | popSegment (s : Segment)
  | popa
  | iret
  deriving DecidableEq

def interruptFlag : Word := 0x200

/-- What an interrupt gate clears in EFLAGS: VM, RF, NT, IF and TF. -/
def gateFlags : Word := 0x34300

section Instructions

def Registers.segment (r : Registers) : Segment → BitVec 16
  | .ds => r.ds
  | .es => r.es
  | .fs => r.fs
  | .gs => r.gs

def Registers.setSegment (r : Registers) (v : BitVec 16) : Segment → Registers
  | .ds => { r with ds := v }
  | .es => { r with es := v }
  | .fs => { r with fs := v }
  | .gs => { r with gs := v }

def push (c : Machine) (v : Word) : Machine where
  mem := c.mem.store (c.regs.esp - 4).toNat v.toNat
  regs := { c.regs with esp := c.regs.esp - 4 }

/-- The word that a pop takes off the stack. -/
def top (c : Machine) : Word := BitVec.ofNat 32 (c.mem.load c.regs.esp.toNat)

/-- The stack pointer moves up by `n`. -/
def raise (c : Machine) (n : Word) : Machine :=
  { c with regs := { c.regs with esp := c.regs.esp + n } }

def pusha (c : Machine) : Machine :=
  let r := c.regs
  push (push (push (push (push (push (push (push c r.eax) r.ecx) r.edx) r.ebx) r.esp) r.ebp)
    r.esi) r.edi

/-- `popa` reads eight words and leaves out that of ESP. -/
def popa (c : Machine) : Machine :=
  let word (k : Word) := BitVec.ofNat 32 (c.mem.load (c.regs.esp + k).toNat)
  { c with regs := { c.regs with
      edi := word 0, esi := word 4, ebp := word 8, ebx := word 16, edx := word 20, ecx := word 24
      eax := word 28, esp := c.regs.esp + 32 } }

/-- `iret` to the same privilege level. -/
def iret (c : Machine) : Machine :=
  let word (k : Word) := BitVec.ofNat 32 (c.mem.load (c.regs.esp + k).toNat)
  { c with regs := { c.regs with
      eip := word 0, cs := (word 4).setWidth 16, eflags := word 8, esp := c.regs.esp + 12 } }

end Instructions

/-- What the code relies on from outside: the compiled C functions, the address that `call`
leaves on the stack, and the upper half of the word that the push of a selector writes. -/
structure Environment where
  run : Handler → Machine → Machine
  ret : Word
  upper : Segment → BitVec 16

section Programs

variable (env : Environment)

def exec (c : Machine) : Instr → Machine
  | .cli => { c with regs := { c.regs with eflags := c.regs.eflags &&& ~~~interruptFlag } }
  | .push v => push c v
  | .pusha => pusha c
  | .pushSegment s => push c (env.upper s ++ c.regs.segment s)
  | .movAx v => { c with regs := { c.regs with eax := c.regs.eax.extractLsb' 16 16 ++ v } }
  | .movSegment s => { c with regs := c.regs.setSegment (c.regs.eax.setWidth 16) s }
  | .pushEsp => push c c.regs.esp
  | .call f => env.run f (push c env.ret)
  | .addEsp n => raise c n
  | .popSegment s =>
    raise { c with regs := c.regs.setSegment ((top c).setWidth 16) s } 4
  | .popa => popa c
  | .iret => iret c

def execAll (c : Machine) (program : List Instr) : Machine := program.foldl (exec env) c

end Programs

/-- The interrupt vectors that have a stub. -/
inductive Vector
  | isr (n : Fin 32)
  | irq (n : Fin 16)
  | isr128
  deriving DecidableEq

/-- The interrupt number that the stub pushes. -/
def Vector.number : Vector → ℕ
  | .isr n => n
  | .irq n => 0x20 + n
  | .isr128 => 128

/-- The vectors of the macro `ISR_ERRCODE`. -/
def errCodeVectors : List (Fin 32) := [8, 10, 11, 12, 13, 14, 17, 30]

/-- The part of `isr_common_stub` and `irq_common_stub` before the call of `f`. -/
def commonEntry : List Instr :=
  [.pusha, .pushSegment .ds, .pushSegment .es, .pushSegment .fs, .pushSegment .gs,
    .movAx 0x10, .movSegment .ds, .movSegment .es, .movSegment .fs, .movSegment .gs, .pushEsp]

def commonExit : List Instr :=
  [.addEsp 4, .popSegment .gs, .popSegment .fs, .popSegment .es, .popSegment .ds, .popa,
    .addEsp 8, .iret]

def isrCommonStub : List Instr := commonEntry ++ [.call .isrHandler] ++ commonExit

def irqCommonStub : List Instr := commonEntry ++ [.call .irqHandler] ++ commonExit

/-- The macros `ISR_NOERRCODE`, `ISR_ERRCODE` and `IRQ`, and `isr128`. -/
def Vector.stub : Vector → List Instr
  | .isr n =>
    if n ∈ errCodeVectors then .cli :: .push (BitVec.ofNat 32 n) :: isrCommonStub
    else .cli :: .push 0 :: .push (BitVec.ofNat 32 n) :: isrCommonStub
  | .irq n => .cli :: .push 0 :: .push (BitVec.ofNat 32 (0x20 + n)) :: irqCommonStub
  | .isr128 => .cli :: .push 0 :: .push 128 :: isrCommonStub

/-- The processor takes an interrupt: an interrupt gate to `entry` in the segment `selector`. -/
def deliver (c : Machine) (entry : Word) (selector : BitVec 16) (error : Option Word) : Machine :=
  let pushed := push (push (push c c.regs.eflags) (c.regs.cs.setWidth 32)) c.regs.eip
  let pushed := match error with
    | none => pushed
    | some code => push pushed code
  { pushed with regs := { pushed.regs with
      eip := entry, cs := selector, eflags := c.regs.eflags &&& ~~~gateFlags } }

/-- The C function that the stub calls. -/
def Vector.handler : Vector → Handler
  | .isr _ => .isrHandler
  | .irq _ => .irqHandler
  | .isr128 => .isrHandler

/-- The processor pushes an error code for the vectors whose stubs expect one. -/
def Vector.Expects : Vector → Option Word → Prop
  | .isr n, error => error.isSome = true ↔ n ∈ errCodeVectors
  | .irq _, error => error = none
  | .isr128, error => error = none

/-- The frame `regs_t` with the fields in the order of the structure; `user_esp` and `ss` are
not pushed at the same privilege level. -/
def frame (env : Environment) (r : Registers) (v : Vector) (code : Word) : List Word :=
  [env.upper .gs ++ r.gs, env.upper .fs ++ r.fs, env.upper .es ++ r.es, env.upper .ds ++ r.ds,
    r.edi, r.esi, r.ebp, r.esp - 20, r.ebx, r.edx, r.ecx, r.eax,
    BitVec.ofNat 32 v.number, code, r.eip, r.cs.setWidth 32, r.eflags]

section Stack

variable {env : Environment} {c : Machine} {v : Word} {vs ws : List Word} {s : Segment}

structure Stacked (c : Machine) (vs : List Word) : Prop where
  words : WordsAt c.mem c.regs.esp.toNat vs
  room : c.regs.esp.toNat + 4 * vs.length < 2 ^ 32

namespace Stacked

theorem top_eq (h : Stacked c (v :: vs)) : top c = v := h.words.ofNat_load

theorem toNat_add (h : Stacked c (ws ++ vs)) {k : Word} (hk : k.toNat = 4 * ws.length) :
    (c.regs.esp + k).toNat = c.regs.esp.toNat + 4 * ws.length := by
  have hroom := h.room
  rw [List.length_append] at hroom
  rw [BitVec.toNat_add, hk, Nat.mod_eq_of_lt (by omega)]

theorem load_eq (ws : List Word) (h : Stacked c (ws ++ v :: vs)) {k : Word}
    (hk : k.toNat = 4 * ws.length) :
    BitVec.ofNat 32 (c.mem.load (c.regs.esp + k).toNat) = v := by
  rw [h.toNat_add hk]
  exact h.words.drop.ofNat_load

theorem raise (ws : List Word) (h : Stacked c (ws ++ vs)) {k : Word} (hk : k.toNat = 4 * ws.length)
    (regs : Registers) (hesp : regs.esp = c.regs.esp + k) : Stacked ⟨c.mem, regs⟩ vs := by
  have hroom := h.room
  rw [List.length_append] at hroom
  refine ⟨?_, ?_⟩
  · dsimp only
    rw [hesp, h.toNat_add hk]
    exact h.words.drop
  · dsimp only
    rw [hesp, h.toNat_add hk]
    omega

theorem popSegment (env : Environment) (h : Stacked c (v :: vs)) (s : Segment) :
    exec env c (.popSegment s) =
      ⟨c.mem, { c.regs.setSegment (v.setWidth 16) s with esp := c.regs.esp + 4 }⟩ ∧
      Stacked (exec env c (.popSegment s)) vs := by
  have he : exec env c (.popSegment s) =
      ⟨c.mem, { c.regs.setSegment (v.setWidth 16) s with esp := c.regs.esp + 4 }⟩ := by
    rw [exec, h.top_eq]
    cases s <;> rfl
  exact ⟨he, he ▸ Stacked.raise [v] h rfl _ rfl⟩

theorem popa {edi esi ebp esp ebx edx ecx eax : Word}
    (h : Stacked c (edi :: esi :: ebp :: esp :: ebx :: edx :: ecx :: eax :: vs)) :
    Stubs.popa c = { c with regs := { c.regs with
      edi := edi, esi := esi, ebp := ebp, ebx := ebx, edx := edx, ecx := ecx, eax := eax
      esp := c.regs.esp + 32 } } ∧ Stacked (Stubs.popa c) vs := by
  refine ⟨?_, Stacked.raise [edi, esi, ebp, esp, ebx, edx, ecx, eax] h rfl _ rfl⟩
  unfold Stubs.popa
  simp only
  rw [load_eq [] (k := 0) h rfl, load_eq [edi] (k := 4) h rfl,
    load_eq [edi, esi] (k := 8) h rfl,
    load_eq [edi, esi, ebp, esp] (k := 16) h rfl,
    load_eq [edi, esi, ebp, esp, ebx] (k := 20) h rfl,
    load_eq [edi, esi, ebp, esp, ebx, edx] (k := 24) h rfl,
    load_eq [edi, esi, ebp, esp, ebx, edx, ecx] (k := 28) h rfl]

theorem iret {eip cs eflags : Word} (h : Stacked c (eip :: cs :: eflags :: vs)) :
    Stubs.iret c = { c with regs := { c.regs with
      eip := eip, cs := cs.setWidth 16, eflags := eflags, esp := c.regs.esp + 12 } } := by
  unfold Stubs.iret
  simp only
  rw [load_eq [] (k := 0) h rfl, load_eq [eip] (k := 4) h rfl,
    load_eq [eip, cs] (k := 8) h rfl]

theorem push (h : WordsAt c.mem c.regs.esp.toNat vs) (hroom : 4 ≤ c.regs.esp.toNat) (v : Word) :
    WordsAt (Stubs.push c v).mem (Stubs.push c v).regs.esp.toNat (v :: vs) := by
  have hesp : (c.regs.esp - 4).toNat + 4 = c.regs.esp.toNat := by bv_omega
  unfold Stubs.push
  dsimp only
  rw [← hesp] at h
  exact h.push v

end Stacked

end Stack

section Interrupts

variable {env : Environment} {c : Machine} {vs ws : List Word}

/-- The memory after pushes from the stack pointer `esp` on. -/
def storeAll (m : ByteMemory) (esp : Word) : List Word → ByteMemory
  | [] => m
  | v :: vs => storeAll (m.store (esp - 4).toNat v.toNat) (esp - 4) vs

theorem storeAll_words {m : ByteMemory} {esp : Word} (h : WordsAt m esp.toNat ws)
    (hroom : 4 * vs.length ≤ esp.toNat) :
    WordsAt (storeAll m esp vs) (esp.toNat - 4 * vs.length) (vs.reverse ++ ws) ∧
      ∀ x, esp.toNat ≤ x → (storeAll m esp vs).byte x = m.byte x := by
  induction vs generalizing m esp ws with
  | nil => exact ⟨h, fun _ _ => rfl⟩
  | cons v vs ih =>
    rw [List.length_cons] at hroom
    have hesp : (esp - 4).toNat + 4 = esp.toNat := by bv_omega
    rw [← hesp] at h
    obtain ⟨hwords, hbytes⟩ := ih (h.push v) (by omega)
    rw [List.reverse_cons, List.append_assoc, List.singleton_append, List.length_cons]
    have haddr : esp.toNat - 4 * (vs.length + 1) = (esp - 4).toNat - 4 * vs.length := by omega
    rw [haddr]
    refine ⟨hwords, fun x hx => (hbytes x (by omega)).trans ?_⟩
    exact if_neg (by omega)

/-- The stub up to the call. -/
def Vector.prologue : Vector → List Instr
  | .isr n =>
    if n ∈ errCodeVectors then .cli :: .push (BitVec.ofNat 32 n) :: commonEntry
    else .cli :: .push 0 :: .push (BitVec.ofNat 32 n) :: commonEntry
  | .irq n => .cli :: .push 0 :: .push (BitVec.ofNat 32 (0x20 + n)) :: commonEntry
  | .isr128 => .cli :: .push 0 :: .push 128 :: commonEntry

theorem stub_eq (v : Vector) : v.stub = v.prologue ++ .call v.handler :: commonExit := by
  cases v with
  | isr n =>
    simp only [Vector.stub, Vector.prologue]
    split_ifs <;> rfl
  | irq n => rfl
  | isr128 => rfl

/-- The state in which the C function is entered. -/
def entered (env : Environment) (c : Machine) (v : Vector) (entry : Word) (selector : BitVec 16)
    (error : Option Word) : Machine :=
  push (execAll env (deliver c entry selector error) v.prologue) env.ret

/-- All that is pushed, in order. -/
def pushed (env : Environment) (r : Registers) (v : Vector) (code : Word) : List Word :=
  [r.eflags, r.cs.setWidth 32, r.eip, code, BitVec.ofNat 32 v.number, r.eax, r.ecx, r.edx, r.ebx,
    r.esp - 20, r.ebp, r.esi, r.edi, env.upper .ds ++ r.ds, env.upper .es ++ r.es,
    env.upper .fs ++ r.fs, env.upper .gs ++ r.gs, r.esp - 68, env.ret]

/-- The registers when the C function is entered. -/
def enteredRegisters (r : Registers) (entry : Word) (selector : BitVec 16) : Registers :=
  { r with
    eax := r.eax.extractLsb' 16 16 ++ (0x10 : BitVec 16)
    esp := r.esp - 76
    eip := entry
    eflags := r.eflags &&& ~~~gateFlags &&& ~~~interruptFlag
    cs := selector
    ds := 0x10
    es := 0x10
    fs := 0x10
    gs := 0x10 }

theorem pushed_reverse (r : Registers) (v : Vector) (code : Word) :
    (pushed env r v code).reverse = env.ret :: (r.esp - 68) :: frame env r v code := rfl

theorem sub_sub_word (e a b : Word) : e - a - b = e - (a + b) := by bv_omega

theorem push_mk (m : ByteMemory) (r : Registers) (v : Word) :
    push ⟨m, r⟩ v = ⟨m.store (r.esp - 4).toNat v.toNat, { r with esp := r.esp - 4 }⟩ := rfl

theorem execAll_cons (c : Machine) (i : Instr) (program : List Instr) :
    execAll env c (i :: program) = execAll env (exec env c i) program := rfl

theorem commonEntry_eq (m : ByteMemory) (r : Registers) :
    push (execAll env ⟨m, r⟩ commonEntry) env.ret =
      ⟨storeAll m r.esp [r.eax, r.ecx, r.edx, r.ebx, r.esp, r.ebp, r.esi, r.edi,
        env.upper .ds ++ r.ds, env.upper .es ++ r.es, env.upper .fs ++ r.fs,
        env.upper .gs ++ r.gs, r.esp - 48, env.ret],
        { r with
          eax := r.eax.extractLsb' 16 16 ++ (0x10 : BitVec 16)
          esp := r.esp - 56
          ds := 0x10, es := 0x10, fs := 0x10, gs := 0x10 }⟩ := by
  simp only [execAll, commonEntry, List.foldl_cons, List.foldl_nil, exec, push_mk, pusha, storeAll,
    Registers.setSegment, Registers.segment, BitVec.setWidth_append_eq_right, sub_sub_word,
    BitVec.ofNat_eq_ofNat, BitVec.reduceAdd]

theorem plain_eq (m : ByteMemory) (r : Registers) (entry : Word) (selector : BitVec 16)
    (number : Word) :
    push (execAll env (deliver ⟨m, r⟩ entry selector none)
      (.cli :: .push 0 :: .push number :: commonEntry)) env.ret =
      ⟨storeAll m r.esp [r.eflags, r.cs.setWidth 32, r.eip, 0, number, r.eax, r.ecx, r.edx,
        r.ebx, r.esp - 20, r.ebp, r.esi, r.edi, env.upper .ds ++ r.ds,
        env.upper .es ++ r.es, env.upper .fs ++ r.fs, env.upper .gs ++ r.gs, r.esp - 68, env.ret],
        enteredRegisters r entry selector⟩ := by
  simp only [execAll_cons, exec, deliver, push_mk, commonEntry_eq, storeAll, enteredRegisters,
    sub_sub_word, BitVec.ofNat_eq_ofNat, BitVec.reduceAdd]

theorem coded_eq (m : ByteMemory) (r : Registers) (entry : Word) (selector : BitVec 16)
    (code number : Word) :
    push (execAll env (deliver ⟨m, r⟩ entry selector (some code))
      (.cli :: .push number :: commonEntry)) env.ret =
      ⟨storeAll m r.esp [r.eflags, r.cs.setWidth 32, r.eip, code, number, r.eax, r.ecx, r.edx,
        r.ebx, r.esp - 20, r.ebp, r.esi, r.edi, env.upper .ds ++ r.ds,
        env.upper .es ++ r.es, env.upper .fs ++ r.fs, env.upper .gs ++ r.gs, r.esp - 68, env.ret],
        enteredRegisters r entry selector⟩ := by
  simp only [execAll_cons, exec, deliver, push_mk, commonEntry_eq, storeAll, enteredRegisters,
    sub_sub_word, BitVec.ofNat_eq_ofNat, BitVec.reduceAdd]

theorem entered_eq (v : Vector) (entry : Word) (selector : BitVec 16) {error : Option Word}
    (herror : v.Expects error) :
    entered env c v entry selector error =
      ⟨storeAll c.mem c.regs.esp (pushed env c.regs v (error.getD 0)),
        enteredRegisters c.regs entry selector⟩ := by
  cases v with
  | isr n =>
    unfold entered Vector.prologue
    dsimp only
    cases error with
    | none =>
      have hn : n ∉ errCodeVectors := fun hn => by simpa using herror.mpr hn
      rw [if_neg hn]
      exact plain_eq ..
    | some code =>
      rw [if_pos (herror.mp rfl)]
      exact coded_eq ..
  | irq n =>
    obtain rfl : error = none := herror
    exact plain_eq ..
  | isr128 =>
    obtain rfl : error = none := herror
    exact plain_eq ..

/-- What a stub needs of the call of its C function, entered in `c`: it comes back, in `d`, with
the stack and the frame of the stub as they were. All other registers and memory may differ. -/
structure Returns (c d : Machine) : Prop where
  esp : d.regs.esp = c.regs.esp + 4
  ss : d.regs.ss = c.regs.ss
  frame : ∀ x, c.regs.esp.toNat + 8 ≤ x → x < c.regs.esp.toNat + 76 → d.mem.byte x = c.mem.byte x

/-- Undoing the frame. -/
theorem commonExit_eq {h : Machine} {r : Registers} (v : Vector) (code : Word)
    (hesp : h.regs.esp = r.esp - 72) (hss : h.regs.ss = r.ss) (hroom : 76 ≤ r.esp.toNat)
    (hframe : WordsAt h.mem (r.esp.toNat - 68) (frame env r v code)) :
    execAll env h commonExit = ⟨h.mem, r⟩ := by
  have hlow : (h.regs.esp + 4).toNat = r.esp.toNat - 68 := by
    rw [hesp]
    bv_omega
  have h₀ : Stacked (raise h 4) (frame env r v code) := by
    refine ⟨?_, ?_⟩
    · unfold raise
      dsimp only
      rw [hlow]
      exact hframe
    · have hlt := r.esp.isLt
      have hlen : (frame env r v code).length = 17 := rfl
      unfold raise
      dsimp only
      rw [hlow, hlen]
      omega
  unfold frame at h₀
  have hadd : exec env h (.addEsp 4) = raise h 4 := rfl
  rw [commonExit, execAll_cons, hadd]
  have hregs : (raise h 4).regs.esp = r.esp - 68 := by
    unfold raise
    dsimp only
    rw [hesp]
    bv_omega
  have hmem : (raise h 4).mem = h.mem := rfl
  have hss' : (raise h 4).regs.ss = r.ss := hss
  generalize raise h 4 = c₀ at h₀ hregs hmem hss' ⊢
  obtain ⟨e₁, h₁⟩ := h₀.popSegment env .gs
  rw [execAll_cons]
  generalize exec env c₀ (.popSegment .gs) = c₁ at e₁ h₁ ⊢
  obtain ⟨e₂, h₂⟩ := h₁.popSegment env .fs
  rw [execAll_cons]
  generalize exec env c₁ (.popSegment .fs) = c₂ at e₂ h₂ ⊢
  obtain ⟨e₃, h₃⟩ := h₂.popSegment env .es
  rw [execAll_cons]
  generalize exec env c₂ (.popSegment .es) = c₃ at e₃ h₃ ⊢
  obtain ⟨e₄, h₄⟩ := h₃.popSegment env .ds
  rw [execAll_cons]
  generalize exec env c₃ (.popSegment .ds) = c₄ at e₄ h₄ ⊢
  obtain ⟨e₅, h₅⟩ := h₄.popa
  have hpopa : exec env c₄ .popa = popa c₄ := rfl
  rw [execAll_cons, hpopa]
  generalize popa c₄ = c₅ at e₅ h₅ ⊢
  have h₆ : Stacked (raise c₅ 8) _ :=
    Stacked.raise [BitVec.ofNat 32 v.number, code] (k := 8) h₅ rfl _ rfl
  have e₇ := h₆.iret
  have hlast : execAll env c₅ [.addEsp 8, .iret] = iret (raise c₅ 8) := rfl
  rw [hlast, e₇]
  subst e₁ e₂ e₃ e₄ e₅
  have hcs : (r.cs.setWidth 32).setWidth 16 = r.cs := by bv_omega
  simp only [raise, Registers.setSegment, hmem, hregs, hss', hcs, BitVec.setWidth_append_eq_right,
    BitVec.add_assoc, BitVec.reduceAdd, BitVec.ofNat_eq_ofNat, BitVec.sub_add_cancel]

/-- Every interrupt for which there is a stub: the C function is entered with a pointer to a
frame that holds the registers of the interrupted code, the number of the vector and the error
code, in the kernel's segments and with interrupts disabled. -/
theorem entered_handler (env : Environment) {v : Vector} (entry : Word) (selector : BitVec 16)
    {error : Option Word} (herror : v.Expects error) (hroom : 76 ≤ c.regs.esp.toNat) :
    WordsAt (entered env c v entry selector error).mem
        (entered env c v entry selector error).regs.esp.toNat
        (env.ret :: (c.regs.esp - 68) :: frame env c.regs v (error.getD 0)) ∧
      (entered env c v entry selector error).regs = enteredRegisters c.regs entry selector ∧
      ∀ x, c.regs.esp.toNat ≤ x →
        (entered env c v entry selector error).mem.byte x = c.mem.byte x := by
  have heq : entered env c v entry selector error = _ := entered_eq v entry selector herror
  have hlen : 4 * (pushed env c.regs v (error.getD 0)).length = 76 := rfl
  have hnil : WordsAt c.mem c.regs.esp.toNat [] := trivial
  obtain ⟨hwords, hbytes⟩ := storeAll_words hnil (hlen.trans_le hroom)
  rw [List.append_nil, pushed_reverse, hlen] at hwords
  have hesp : (enteredRegisters c.regs entry selector).esp.toNat = c.regs.esp.toNat - 76 := by
    unfold enteredRegisters
    bv_omega
  rw [heq]
  refine ⟨?_, rfl, hbytes⟩
  dsimp only
  rwa [hesp]

/-- When the C function has returned, the interrupted code goes on with all its registers, its
flags and its stack. -/
theorem interrupt_transparent {v : Vector} (entry : Word) (selector : BitVec 16)
    {error : Option Word} (herror : v.Expects error) (hroom : 76 ≤ c.regs.esp.toNat)
    (hret : Returns (entered env c v entry selector error)
      (env.run v.handler (entered env c v entry selector error))) :
    execAll env (deliver c entry selector error) v.stub =
      ⟨(env.run v.handler (entered env c v entry selector error)).mem, c.regs⟩ := by
  obtain ⟨hwords, hregs, -⟩ := entered_handler env entry selector herror hroom
  generalize hentered : entered env c v entry selector error = e at hwords hregs hret ⊢
  have hsp : e.regs.esp = c.regs.esp - 76 := by rw [hregs]; rfl
  have hesp : e.regs.esp.toNat = c.regs.esp.toNat - 76 := by
    rw [hsp]
    bv_omega
  have hstub : execAll env (deliver c entry selector error) v.stub =
      execAll env (env.run v.handler e) commonExit := by
    rw [stub_eq, execAll, List.foldl_append, List.foldl_cons, ← hentered]
    rfl
  rw [hstub]
  apply commonExit_eq v (error.getD 0)
  · rw [hret.esp, hsp]
    bv_omega
  · rw [hret.ss, hregs]
    rfl
  · exact hroom
  · have hsplit : WordsAt e.mem e.regs.esp.toNat
        ([env.ret, c.regs.esp - 68] ++ frame env c.regs v (error.getD 0)) := hwords
    have hframe := hsplit.drop
    rw [hesp] at hframe
    have haddr : c.regs.esp.toNat - 76 + 4 * [env.ret, c.regs.esp - 68].length =
        c.regs.esp.toNat - 68 := by
      rw [List.length_cons, List.length_singleton]
      omega
    rw [haddr] at hframe
    apply hframe.congr
    intro x hlo hhi
    have hlen : (frame env c.regs v (error.getD 0)).length = 17 := rfl
    rw [hlen] at hhi
    apply hret.frame
    · rw [hesp]
      omega
    · rw [hesp]
      omega

end Interrupts

end OpenKernel.Cpu.Stubs
