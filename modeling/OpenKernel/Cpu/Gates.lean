import OpenKernel.Cpu.Stubs
import Mathlib.Logic.Function.Basic
import Mathlib.Tactic.IntervalCases

/-!
# The descriptor tables

`gdt.c`, the table of `idt.c` and `isr_install_all`, with the processor's reading of the
descriptors they build. After `isr_install_all` exactly the vectors with a stub have a gate,
and an interrupt goes through it to the stub and back.
-/

namespace OpenKernel.Cpu.Stubs

open ByteMemory

structure IdtEntry where
  baseLow : BitVec 16
  selector : BitVec 16
  always0 : BitVec 8
  flags : BitVec 8
  baseHigh : BitVec 16
  deriving DecidableEq

abbrev Idt := ℕ → IdtEntry

def idtSetEntryRaw (idt : Idt) (num : ℕ) (base : Word) (selector : BitVec 16) (flags : BitVec 8) :
    Idt :=
  Function.update idt num {
    baseLow := (base &&& 0xFFFF).setWidth 16
    baseHigh := ((base >>> 16) &&& 0xFFFF).setWidth 16
    selector := selector
    always0 := 0
    flags := flags }

def idtInit (idt : Idt) : Idt :=
  (List.range 256).foldl (fun idt i => idtSetEntryRaw idt i 0 0 0) idt

/-- The stubs in the order of `isr_install_all`. -/
def allVectors : List Vector :=
  (List.finRange 32).map .isr ++ (List.finRange 16).map .irq ++ [.isr128]

/-- The last argument of `idt_set_entry_raw`. -/
def Vector.flags : Vector → BitVec 8
  | .isr128 => 0xEE
  | _ => 0x8E

/-- `isr_install_all`, where `addr` are the addresses of the stubs. -/
def isrInstallAll (addr : Vector → Word) (idt : Idt) : Idt :=
  allVectors.foldl (fun idt v => idtSetEntryRaw idt v.number (addr v) 0x08 v.flags) idt

/-- An interrupt gate as the processor reads it. -/
structure Gate where
  offset : Word
  selector : BitVec 16
  type : BitVec 4
  dpl : BitVec 2
  present : Bool
  deriving DecidableEq

def IdtEntry.gate (e : IdtEntry) : Gate where
  offset := e.baseHigh ++ e.baseLow
  selector := e.selector
  type := e.flags.extractLsb' 0 4
  dpl := e.flags.extractLsb' 5 2
  present := e.flags.getLsbD 7

structure GdtEntry where
  limitLow : BitVec 16
  baseLow : BitVec 16
  baseMiddle : BitVec 8
  access : BitVec 8
  granularity : BitVec 8
  baseHigh : BitVec 8
  deriving DecidableEq

def gdtSetEntry (base limit : Word) (access gran : BitVec 8) : GdtEntry where
  baseLow := (base &&& 0xFFFF).setWidth 16
  baseMiddle := ((base >>> 16) &&& 0xFF).setWidth 8
  baseHigh := ((base >>> 24) &&& 0xFF).setWidth 8
  limitLow := (limit &&& 0xFFFF).setWidth 16
  granularity := (((limit >>> 16) &&& 0x0F).setWidth 8) ||| (gran &&& 0xF0)
  access := access

def gdtInit : List GdtEntry :=
  [gdtSetEntry 0 0 0 0, gdtSetEntry 0 0xFFFFFFFF 0x9A 0xCF, gdtSetEntry 0 0xFFFFFFFF 0x92 0xCF]

/-- A segment as the processor reads it. -/
structure SegmentDescriptor where
  base : Word
  limit : BitVec 20
  access : BitVec 8
  flags : BitVec 4
  deriving DecidableEq

def GdtEntry.segment (e : GdtEntry) : SegmentDescriptor where
  base := e.baseHigh ++ e.baseMiddle ++ e.baseLow
  limit := e.granularity.extractLsb' 0 4 ++ e.limitLow
  access := e.access
  flags := e.granularity.extractLsb' 4 4

/-- The descriptor that a selector names; the lowest three bits are no part of the index. -/
def descriptorOf (gdt : List GdtEntry) (selector : BitVec 16) : Option SegmentDescriptor :=
  (gdt[selector.toNat / 8]?).map GdtEntry.segment

section Fields

theorem append_eq_toNat {m n : ℕ} (x : BitVec m) (y : BitVec n) :
    (x ++ y).toNat = x.toNat * 2 ^ n + y.toNat := by
  rw [BitVec.toNat_append, ← Nat.shiftLeft_add_eq_or_of_lt y.isLt, Nat.shiftLeft_eq]

theorem slice_toNat (v : Word) (s : ℕ) {k : ℕ} (hk : k ≤ 32) :
    (((v >>> s) &&& BitVec.ofNat 32 (2 ^ k - 1)).setWidth k).toNat = v.toNat / 2 ^ s % 2 ^ k := by
  have hmask : 2 ^ k - 1 < 2 ^ 32 := by
    have hle := Nat.pow_le_pow_right (by decide : 0 < 2) hk
    have hpos := Nat.two_pow_pos k
    omega
  rw [BitVec.toNat_setWidth, BitVec.toNat_and, BitVec.toNat_ushiftRight, BitVec.toNat_ofNat,
    Nat.mod_eq_of_lt hmask, Nat.and_two_pow_sub_one_eq_mod, Nat.shiftRight_eq_div_pow, Nat.mod_mod]

theorem gate_idtSetEntryRaw (idt : Idt) (num : ℕ) (base : Word) (selector : BitVec 16)
    (flags : BitVec 8) : (idtSetEntryRaw idt num base selector flags num).gate =
      ⟨base, selector, flags.extractLsb' 0 4, flags.extractLsb' 5 2, flags.getLsbD 7⟩ := by
  have hbase : ((base >>> 16) &&& 0xFFFF).setWidth 16 ++ (base &&& 0xFFFF).setWidth 16 = base := by
    apply BitVec.eq_of_toNat_eq
    have hhigh := slice_toNat base 16 (k := 16) (by decide)
    have hlow := slice_toNat base 0 (k := 16) (by decide)
    rw [BitVec.ushiftRight_zero] at hlow
    rw [append_eq_toNat]
    refine (congrArg₂ (fun a b => a * 2 ^ 16 + b) hhigh hlow).trans ?_
    have hlt := base.isLt
    omega
  unfold IdtEntry.gate idtSetEntryRaw
  rw [Function.update_self]
  dsimp only
  rw [hbase]

/-- What `gdt_set_entry` takes apart, the processor puts together: the base, the lowest 20 bits
of the limit, and the upper half of `gran`. -/
theorem segment_gdtSetEntry (base limit : Word) (access gran : BitVec 8) :
    (gdtSetEntry base limit access gran).segment =
      ⟨base, limit.setWidth 20, access, gran.extractLsb' 4 4⟩ := by
  have hbase : ((base >>> 24) &&& 0xFF).setWidth 8 ++ ((base >>> 16) &&& 0xFF).setWidth 8 ++
      (base &&& 0xFFFF).setWidth 16 = base := by
    apply BitVec.eq_of_toNat_eq
    have hhigh := slice_toNat base 24 (k := 8) (by decide)
    have hmiddle := slice_toNat base 16 (k := 8) (by decide)
    have hlow := slice_toNat base 0 (k := 16) (by decide)
    rw [BitVec.ushiftRight_zero] at hlow
    rw [append_eq_toNat, append_eq_toNat]
    refine (congrArg₂ (fun a b => a * 2 ^ 16 + b) (congrArg₂ (fun a b => a * 2 ^ 8 + b)
      hhigh hmiddle) hlow).trans ?_
    have hlt := base.isLt
    omega
  have hgran : ((((limit >>> 16) &&& 0x0F).setWidth 8) ||| (gran &&& 0xF0)).extractLsb' 4 4 =
      gran.extractLsb' 4 4 := by
    apply BitVec.eq_of_getLsbD_eq
    intro i hi
    interval_cases i <;> simp
  have hnibble : ((((limit >>> 16) &&& 0x0F).setWidth 8) ||| (gran &&& 0xF0)).extractLsb' 0 4 =
      limit.extractLsb' 16 4 := by
    apply BitVec.eq_of_getLsbD_eq
    intro i hi
    interval_cases i <;> simp
  have hlimit : limit.extractLsb' 16 4 ++ (limit &&& 0xFFFF).setWidth 16 = limit.setWidth 20 := by
    apply BitVec.eq_of_toNat_eq
    have hlow := slice_toNat limit 0 (k := 16) (by decide)
    rw [BitVec.ushiftRight_zero] at hlow
    have hright : (limit.setWidth 20).toNat = limit.toNat % 2 ^ 20 := BitVec.toNat_setWidth ..
    rw [append_eq_toNat, BitVec.extractLsb'_toNat, hright, Nat.shiftRight_eq_div_pow]
    refine (congrArg (fun b => _ + b) hlow).trans ?_
    have hlt := limit.isLt
    omega
  unfold GdtEntry.segment gdtSetEntry
  dsimp only
  rw [hbase, hgran, hnibble, hlimit]

end Fields

section Tables

variable {ι α β : Type*} [DecidableEq ι] {key : α → ι} {l : List α}

theorem foldl_update_of_notMem (val : α → β) (t : ι → β) {i : ι} (hi : i ∉ l.map key) :
    l.foldl (fun t a => Function.update t (key a) (val a)) t i = t i := by
  induction l generalizing t with
  | nil => rfl
  | cons b l ih =>
    rw [List.map_cons, List.mem_cons, not_or] at hi
    rw [List.foldl_cons, ih _ hi.2, Function.update_of_ne hi.1]

theorem foldl_update_of_mem (hkeys : (l.map key).Nodup) (val : α → β) (t : ι → β) {a : α}
    (ha : a ∈ l) : l.foldl (fun t a => Function.update t (key a) (val a)) t (key a) = val a := by
  induction l generalizing t with
  | nil => cases ha
  | cons b l ih =>
    obtain ⟨hb, hl⟩ := List.nodup_cons.mp hkeys
    rw [List.foldl_cons]
    rcases List.mem_cons.mp ha with rfl | ha
    · rw [foldl_update_of_notMem val _ hb, Function.update_self]
    · exact ih hl _ ha

end Tables

section Dispatch

variable {env : Environment} {addr : Vector → Word} {code : Word → Option (List Instr)}

/-- An interrupt with the number `n`, where `code` is the program at an address. -/
def interrupt (env : Environment) (code : Word → Option (List Instr)) (idt : Idt) (c : Machine)
    (n : ℕ) (error : Option Word) : Option Machine :=
  let g := (idt n).gate
  if g.present then
    (code g.offset).map (execAll env (deliver c g.offset g.selector error))
  else none

theorem mem_allVectors (v : Vector) : v ∈ allVectors := by
  cases v with
  | isr n =>
    have hmem := List.mem_map_of_mem (f := Vector.isr) (List.mem_finRange n)
    exact List.mem_append_left _ (List.mem_append_left _ hmem)
  | irq n =>
    have hmem := List.mem_map_of_mem (f := Vector.irq) (List.mem_finRange n)
    exact List.mem_append_left _ (List.mem_append_right _ hmem)
  | isr128 => exact List.mem_append_right _ (List.mem_singleton_self _)

theorem nodup_numbers : (allVectors.map Vector.number).Nodup := by
  decide

theorem idtInit_apply (idt : Idt) {n : ℕ} (hn : n < 256) : idtInit idt n = ⟨0, 0, 0, 0, 0⟩ := by
  have hkeys : ((List.range 256).map id).Nodup := List.map_id _ ▸ List.nodup_range
  exact foldl_update_of_mem hkeys _ idt (List.mem_range.mpr hn)

theorem gate_isrInstallAll (addr : Vector → Word) (idt : Idt) (v : Vector) :
    (isrInstallAll addr idt v.number).gate =
      ⟨addr v, 8, 0xE, if v = .isr128 then 3 else 0, true⟩ := by
  have hentry : isrInstallAll addr idt v.number =
      idtSetEntryRaw idt v.number (addr v) 0x08 v.flags v.number :=
    (foldl_update_of_mem nodup_numbers _ idt (mem_allVectors v)).trans
      (Function.update_self v.number _ idt).symm
  rw [hentry, gate_idtSetEntryRaw]
  cases v with
  | isr n =>
    have hflags : (Vector.isr n).flags = 0x8E := rfl
    rw [if_neg nofun, hflags]
    rfl
  | irq n =>
    have hflags : (Vector.irq n).flags = 0x8E := rfl
    rw [if_neg nofun, hflags]
    rfl
  | isr128 => rfl

theorem gate_absent (addr : Vector → Word) (idt : Idt) {n : ℕ} (hn : n < 256)
    (hv : ∀ v : Vector, v.number ≠ n) :
    (isrInstallAll addr (idtInit idt) n).gate.present = false := by
  have hmem : n ∉ allVectors.map Vector.number := by
    rw [List.mem_map]
    rintro ⟨v, -, h⟩
    exact hv v h
  have hentry : isrInstallAll addr (idtInit idt) n = idtInit idt n :=
    foldl_update_of_notMem _ _ hmem
  rw [hentry, idtInit_apply idt hn]
  rfl

/-- The kernel's code segment: 4 GiB from 0 on, ring 0, executable. -/
def kernelCode : SegmentDescriptor := ⟨0, 0xFFFFF, 0x9A, 0xC⟩

/-- The kernel's data segment: 4 GiB from 0 on, ring 0, writable. -/
def kernelData : SegmentDescriptor := ⟨0, 0xFFFFF, 0x92, 0xC⟩

theorem descriptorOf_code : descriptorOf gdtInit 0x08 = some kernelCode :=
  congrArg some (segment_gdtSetEntry 0 0xFFFFFFFF 0x9A 0xCF)

theorem descriptorOf_data : descriptorOf gdtInit 0x10 = some kernelData :=
  congrArg some (segment_gdtSetEntry 0 0xFFFFFFFF 0x92 0xCF)

/-- The C function of the vector `v` finds the frame of the interrupted registers `r` under its
argument, and runs in the kernel's segments with interrupts disabled. -/
structure EntersHandler (env : Environment) (c e : Machine) (v : Vector) (error : Option Word) :
    Prop where
  stack : WordsAt e.mem e.regs.esp.toNat
    (env.ret :: (c.regs.esp - 68) :: frame env c.regs v (error.getD 0))
  argument : (e.regs.esp + 8).toNat = (c.regs.esp - 68).toNat
  masked : e.regs.eflags &&& interruptFlag = 0
  code : descriptorOf gdtInit e.regs.cs = some kernelCode
  data : ∀ s, descriptorOf gdtInit (e.regs.segment s) = some kernelData
  above : ∀ x, c.regs.esp.toNat ≤ x → e.mem.byte x = c.mem.byte x

/-- After `gdt_init`, `idt_init` and `isr_install_all`: an interrupt with a number for which
there is a stub enters its C function on the frame, and if that call returns, goes on with the
registers, flags and stack of the interrupted code, whatever the table held before; there is no
gate for any other number. -/
theorem interrupt_dispatch (hcode : ∀ v, code (addr v) = some v.stub) (idt : Idt) {c : Machine}
    (hroom : 76 ≤ c.regs.esp.toNat) {n : ℕ} (hn : n < 256) :
    (∀ v : Vector, v.number = n → ∀ error, v.Expects error → ∃ e, EntersHandler env c e v error ∧
      (Returns e (env.run v.handler e) →
        interrupt env code (isrInstallAll addr (idtInit idt)) c n error =
          some ⟨(env.run v.handler e).mem, c.regs⟩)) ∧
    ((∀ v : Vector, v.number ≠ n) → ∀ error,
      interrupt env code (isrInstallAll addr (idtInit idt)) c n error = none) := by
  refine ⟨?_, ?_⟩
  · rintro v rfl error herror
    obtain ⟨hstack, hregs, habove⟩ :=
      entered_handler env (addr v) 8 herror hroom
    refine ⟨entered env c v (addr v) 8 error, ⟨hstack, ?_, ?_, ?_, ?_, habove⟩, fun hret => ?_⟩
    · rw [hregs, enteredRegisters]
      bv_omega
    · have hmask : ~~~interruptFlag &&& interruptFlag = 0 := by decide
      rw [hregs, enteredRegisters, BitVec.and_assoc, hmask]
      exact BitVec.and_zero
    · rw [hregs]
      exact descriptorOf_code
    · intro s
      rw [hregs]
      cases s <;> exact descriptorOf_data
    · have hgate := gate_isrInstallAll addr (idtInit idt) v
      unfold interrupt
      rw [hgate]
      dsimp only
      rw [if_pos rfl, hcode, Option.map_some, interrupt_transparent _ _ herror hroom hret]
  · intro hv error
    unfold interrupt
    dsimp only
    rw [gate_absent addr idt hn hv]
    rfl

/-- The timer interrupts with handlers that return at once, where the stub of `v` lies at the
address `v.number`. -/
theorem interrupt_dispatch_timer :
    let env : Environment := ⟨fun _ c => raise c 4, 0, fun _ => 0⟩
    let addr : Vector → Word := fun v => BitVec.ofNat 32 v.number
    let code : Word → Option (List Instr) := fun a =>
      (allVectors.find? fun v => v.number == a.toNat).map Vector.stub
    let c : Machine :=
      ⟨⟨fun _ => 0, []⟩, ⟨1, 2, 3, 4, 0x9000, 6, 7, 8, 0x1234, 0x202, 8, 16, 16, 16, 16, 16⟩⟩
    let idt := isrInstallAll addr (idtInit fun _ => ⟨0, 0, 0, 0, 0⟩)
    (∀ v : Vector, v.number = 0x20 → ∀ error, v.Expects error → ∃ e,
      EntersHandler env c e v error ∧
        interrupt env code idt c 0x20 error = some ⟨(env.run v.handler e).mem, c.regs⟩) ∧
    ((∀ v : Vector, v.number ≠ 0x20) → ∀ error, interrupt env code idt c 0x20 error = none) := by
  intro env addr code c idt
  have hcode : ∀ v, code (addr v) = some v.stub := by
    intro v
    cases v with
    | isr n => revert n; decide
    | irq n => revert n; decide
    | isr128 => decide
  obtain ⟨hgates, habsent⟩ := @interrupt_dispatch env addr code hcode (fun _ => ⟨0, 0, 0, 0, 0⟩) c
    (by decide) 0x20 (by decide)
  refine ⟨fun v hv error herror => ?_, habsent⟩
  obtain ⟨e, henters, hreturn⟩ := hgates v hv error herror
  exact ⟨e, henters, hreturn ⟨rfl, rfl, fun _ _ _ => rfl⟩⟩

end Dispatch

end OpenKernel.Cpu.Stubs
