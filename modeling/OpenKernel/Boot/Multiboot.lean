import OpenKernel.Lib.ByteMemory
import Mathlib.Data.List.Basic

/-!
# Reading the Multiboot information block

`multiboot_info_t` of `kernel.h`, laid out as a C struct, and what `kernel_main`
and `probe_multiboot_vbe` take from it. The boot loader's block has its fields
at the offsets of the Multiboot specification; the struct starts with a `magic`
that the block does not have.
-/

namespace OpenKernel.Boot

/-- The types of the members of `multiboot_info_t`. -/
inductive CType
  | uint8
  | uint32
  | uint32Array (count : ℕ)

def CType.size : CType → ℕ
  | .uint8 => 1
  | .uint32 => 4
  | .uint32Array count => 4 * count

def CType.align : CType → ℕ
  | .uint8 => 1
  | .uint32 => 4
  | .uint32Array _ => 4

inductive Field
  | magic | flags | memLower | memUpper | bootDevice | cmdline | modsCount | modsAddr | syms
  | mmapLength | mmapAddr | drivesLength | drivesAddr | configTable | bootLoaderName | apmTable
  | vbeControlInfo | vbeModeInfo | vbeMode | vbeInterfaceSeg | vbeInterfaceOff | vbeInterfaceLen
  | framebufferAddrLow | framebufferAddrHigh | framebufferPitch | framebufferWidth
  | framebufferHeight | framebufferBpp | framebufferType | framebufferRedFieldPosition
  | framebufferRedMaskSize | framebufferGreenFieldPosition | framebufferGreenMaskSize
  | framebufferBlueFieldPosition | framebufferBlueMaskSize | framebufferReservedFieldPosition
  | framebufferReservedMaskSize
  deriving DecidableEq

/-- The members of `multiboot_info_t` in their order. -/
def multibootInfo : List (Field × CType) :=
  [(.magic, .uint32), (.flags, .uint32), (.memLower, .uint32), (.memUpper, .uint32),
   (.bootDevice, .uint32), (.cmdline, .uint32), (.modsCount, .uint32), (.modsAddr, .uint32),
   (.syms, .uint32Array 4), (.mmapLength, .uint32), (.mmapAddr, .uint32),
   (.drivesLength, .uint32), (.drivesAddr, .uint32), (.configTable, .uint32),
   (.bootLoaderName, .uint32), (.apmTable, .uint32), (.vbeControlInfo, .uint32),
   (.vbeModeInfo, .uint32), (.vbeMode, .uint32), (.vbeInterfaceSeg, .uint32),
   (.vbeInterfaceOff, .uint32), (.vbeInterfaceLen, .uint32), (.framebufferAddrLow, .uint32),
   (.framebufferAddrHigh, .uint32), (.framebufferPitch, .uint32), (.framebufferWidth, .uint32),
   (.framebufferHeight, .uint32), (.framebufferBpp, .uint8), (.framebufferType, .uint8),
   (.framebufferRedFieldPosition, .uint8), (.framebufferRedMaskSize, .uint8),
   (.framebufferGreenFieldPosition, .uint8), (.framebufferGreenMaskSize, .uint8),
   (.framebufferBlueFieldPosition, .uint8), (.framebufferBlueMaskSize, .uint8),
   (.framebufferReservedFieldPosition, .uint8), (.framebufferReservedMaskSize, .uint8)]

/-- The layout of a C struct: each member at the next multiple of its alignment. -/
def memberOffsets : ℕ → List (Field × CType) → List (Field × ℕ)
  | _, [] => []
  | n, (field, type) :: members =>
    let offset := (n + type.align - 1) / type.align * type.align
    (field, offset) :: memberOffsets (offset + type.size) members

def offsetOf (field : Field) : Option ℕ := (memberOffsets 0 multibootInfo).lookup field

/-- Where the Multiboot specification puts the fields that the kernel uses. -/
def specOffset : Field → Option ℕ
  | .flags => some 0
  | .memLower => some 4
  | .memUpper => some 8
  | .cmdline => some 16
  | .bootLoaderName => some 64
  | .framebufferAddrLow => some 88
  | .framebufferAddrHigh => some 92
  | .framebufferPitch => some 96
  | .framebufferWidth => some 100
  | .framebufferHeight => some 104
  | .framebufferBpp => some 108
  | .framebufferType => some 109
  | _ => none

/-- The fields that the kernel uses. -/
structure Info where
  flags : ℕ
  memLower : ℕ
  memUpper : ℕ
  cmdline : ℕ
  bootLoaderName : ℕ
  framebufferAddrLow : ℕ
  framebufferAddrHigh : ℕ
  framebufferPitch : ℕ
  framebufferWidth : ℕ
  framebufferHeight : ℕ
  framebufferBpp : UInt8
  framebufferType : UInt8

/-- The fields of the block at `mbd`, for a choice of offsets. -/
def infoAt (offset : Field → Option ℕ) (m : ByteMemory) (mbd : ℕ) : Info :=
  let word (field : Field) := m.load (mbd + (offset field).getD 0)
  let byte (field : Field) := m.byte (mbd + (offset field).getD 0)
  { flags := word .flags
    memLower := word .memLower
    memUpper := word .memUpper
    cmdline := word .cmdline
    bootLoaderName := word .bootLoaderName
    framebufferAddrLow := word .framebufferAddrLow
    framebufferAddrHigh := word .framebufferAddrHigh
    framebufferPitch := word .framebufferPitch
    framebufferWidth := word .framebufferWidth
    framebufferHeight := word .framebufferHeight
    framebufferBpp := byte .framebufferBpp
    framebufferType := byte .framebufferType }

/-- The block read through `multiboot_info_t`. -/
def decoded (m : ByteMemory) (mbd : ℕ) : Info := infoAt offsetOf m mbd

/-- The block as the boot loader means it. -/
def described (m : ByteMemory) (mbd : ℕ) : Info := infoAt specOffset m mbd

/-- The bytes before the terminator, `limit` at most. -/
def cString (m : ByteMemory) (addr : ℕ) : ℕ → List UInt8
  | 0 => []
  | limit + 1 => if m.byte addr = 0 then [] else m.byte addr :: cString m (addr + 1) limit

/-- What `kernel_main` takes from the block: the argument of `keyboard_detect_layout` if it is
called, those of `memory_init`, and what it saves for `os.bootinfo`. -/
structure BootInfo where
  layoutCmdline : Option ℕ
  memory : ℕ × ℕ
  savedMagic : ℕ
  savedFlags : ℕ
  savedMemLower : ℕ
  savedMemUpper : ℕ
  savedBootLoader : Option (List UInt8)

/-- `kernel_main` up to its command loop; with a wrong magic it halts. -/
def kernelMain (m : ByteMemory) (magic : ℕ) (mbd : Info) : Option BootInfo :=
  if magic ≠ 0x2BADB002 then none
  else some
    { layoutCmdline := if mbd.flags &&& 2 ^ 2 ≠ 0 then some mbd.cmdline else none
      memory := (mbd.memLower, mbd.memUpper)
      savedMagic := magic
      savedFlags := mbd.flags
      savedMemLower := mbd.memLower
      savedMemUpper := mbd.memUpper
      savedBootLoader :=
        if mbd.bootLoaderName ≠ 0 then some (cString m mbd.bootLoaderName 63) else none }

/-- The mode that `probe_multiboot_vbe` installs. -/
structure DisplayMode where
  width : ℕ
  height : ℕ
  bpp : UInt8
  pitch : ℕ
  addr : ℕ

def probeMultibootVbe (mbd : Info) : Option DisplayMode :=
  if mbd.flags &&& 2 ^ 12 = 0 then none
  else if mbd.framebufferType ≠ 1 then none
  else if mbd.framebufferBpp ≠ 32 ∧ mbd.framebufferBpp ≠ 24 ∧ mbd.framebufferBpp ≠ 16 then none
  else some ⟨mbd.framebufferWidth, mbd.framebufferHeight, mbd.framebufferBpp,
    mbd.framebufferPitch, mbd.framebufferAddrLow⟩

/-- Reading through the struct gives the block's own values, to the kernel and to the display. -/
def DecodesBlock (m : ByteMemory) (mbd : ℕ) : Prop :=
  decoded m mbd = described m mbd ∧
    (∀ magic, kernelMain m magic (decoded m mbd) = kernelMain m magic (described m mbd)) ∧
    probeMultibootVbe (decoded m mbd) = probeMultibootVbe (described m mbd)

/-- The words that the struct reads happen to equal the words it should read: up to the loader's
name each field is taken from one word later, and the frame buffer from three words later. -/
structure Coincides (m : ByteMemory) (mbd : ℕ) : Prop where
  flags : m.load mbd = m.load (mbd + 4)
  memLower : m.load (mbd + 4) = m.load (mbd + 8)
  memUpper : m.load (mbd + 8) = m.load (mbd + 12)
  cmdline : m.load (mbd + 16) = m.load (mbd + 20)
  bootLoaderName : m.load (mbd + 64) = m.load (mbd + 68)
  framebufferAddrLow : m.load (mbd + 88) = m.load (mbd + 100)
  framebufferAddrHigh : m.load (mbd + 92) = m.load (mbd + 104)
  framebufferPitch : m.load (mbd + 96) = m.load (mbd + 108)
  framebufferWidth : m.load (mbd + 100) = m.load (mbd + 112)
  framebufferHeight : m.load (mbd + 104) = m.load (mbd + 116)
  framebufferBpp : m.byte (mbd + 108) = m.byte (mbd + 120)
  framebufferType : m.byte (mbd + 109) = m.byte (mbd + 121)

theorem decoded_eq (m : ByteMemory) (mbd : ℕ) :
    decoded m mbd =
      ⟨m.load (mbd + 4), m.load (mbd + 8), m.load (mbd + 12), m.load (mbd + 20),
        m.load (mbd + 68), m.load (mbd + 100), m.load (mbd + 104), m.load (mbd + 108),
        m.load (mbd + 112), m.load (mbd + 116), m.byte (mbd + 120), m.byte (mbd + 121)⟩ := by
  have h : ∀ field offset, offsetOf field = some offset → (offsetOf field).getD 0 = offset := by
    intro field offset hfield
    rw [hfield]
    rfl
  simp only [decoded, infoAt]
  rw [h .flags 4 (by decide), h .memLower 8 (by decide), h .memUpper 12 (by decide),
    h .cmdline 20 (by decide), h .bootLoaderName 68 (by decide),
    h .framebufferAddrLow 100 (by decide), h .framebufferAddrHigh 104 (by decide),
    h .framebufferPitch 108 (by decide), h .framebufferWidth 112 (by decide),
    h .framebufferHeight 116 (by decide), h .framebufferBpp 120 (by decide),
    h .framebufferType 121 (by decide)]

theorem described_eq (m : ByteMemory) (mbd : ℕ) :
    described m mbd =
      ⟨m.load mbd, m.load (mbd + 4), m.load (mbd + 8), m.load (mbd + 16),
        m.load (mbd + 64), m.load (mbd + 88), m.load (mbd + 92), m.load (mbd + 96),
        m.load (mbd + 100), m.load (mbd + 104), m.byte (mbd + 108), m.byte (mbd + 109)⟩ := rfl

theorem decoded_eq_described_iff (m : ByteMemory) (mbd : ℕ) :
    decoded m mbd = described m mbd ↔ Coincides m mbd := by
  rw [decoded_eq, described_eq, Info.mk.injEq]
  constructor
  · rintro ⟨h₁, h₂, h₃, h₄, h₅, h₆, h₇, h₈, h₉, h₁₀, h₁₁, h₁₂⟩
    exact ⟨h₁.symm, h₂.symm, h₃.symm, h₄.symm, h₅.symm, h₆.symm, h₇.symm, h₈.symm, h₉.symm,
      h₁₀.symm, h₁₁.symm, h₁₂.symm⟩
  · intro h
    exact ⟨h.flags.symm, h.memLower.symm, h.memUpper.symm, h.cmdline.symm,
      h.bootLoaderName.symm, h.framebufferAddrLow.symm, h.framebufferAddrHigh.symm,
      h.framebufferPitch.symm, h.framebufferWidth.symm, h.framebufferHeight.symm,
      h.framebufferBpp.symm, h.framebufferType.symm⟩

/-- The struct decodes a block exactly when the words it reads coincide with those it should
read. -/
theorem decodesBlock_iff (m : ByteMemory) (mbd : ℕ) : DecodesBlock m mbd ↔ Coincides m mbd := by
  rw [← decoded_eq_described_iff]
  constructor
  · intro h
    exact h.1
  · intro h
    refine ⟨h, ?_, ?_⟩
    · intro magic
      rw [h]
    · rw [h]

/-- A block at `0x9500` with memory sizes, boot device and command line: flags `0x47`, 639 KB and
130048 KB, device `0x8000FFFF`, command line at `0x9600`. -/
def smallBlock : ByteMemory :=
  ((((⟨fun _ => 0, []⟩ : ByteMemory).store 0x9500 0x47).store 0x9504 639).store 0x9508 130048).store
    0x950C 0x8000FFFF |>.store 0x9510 0x9600

/-- The kernel takes the upper memory for the lower, and the boot device for the upper. -/
theorem smallBlock_misread :
    ¬DecodesBlock smallBlock 0x9500 ∧
      (kernelMain smallBlock 0x2BADB002 (decoded smallBlock 0x9500)).map BootInfo.memory =
        some (130048, 0x8000FFFF) ∧
      (kernelMain smallBlock 0x2BADB002 (described smallBlock 0x9500)).map BootInfo.memory =
        some (639, 130048) := by
  refine ⟨?_, by decide, by decide⟩
  intro h
  have hflags := (decoded_eq_described_iff _ _).mp h.1 |>.flags
  exact absurd hflags (by decide)

end OpenKernel.Boot
