import OpenKernel.Boot.Multiboot
import OpenKernel.Lib.Raster

/-!
# Graphics modes and drawing

`display.c`: the modes that the probes install, and the functions that draw pixels
and rectangles. What a function draws is the list of its stores, in order, at
offsets from `addr`. The registers of the graphics card are left out, but for the
ones that `bochs_set_mode` reads back.
-/

namespace OpenKernel.Display

/-- The identifiers `DISP_*`. -/
inductive Backend
  | vgaText
  | vgaGraph
  | vesaVbe
  | bochsVbe
  deriving DecidableEq

/-- `display_mode_t`. -/
structure Mode where
  width : UInt16
  height : UInt16
  bpp : UInt8
  pitch : UInt16
  addr : UInt32
  type : Backend
  available : Bool
  deriving DecidableEq

/-! ### The probes -/

/-- The fields of the struct are narrower than those of the information block. -/
def probeMultibootVbe (mbd : Boot.Info) : Option Mode :=
  (Boot.probeMultibootVbe mbd).map fun mode =>
    { width := mode.width.toUInt16
      height := mode.height.toUInt16
      bpp := mode.bpp
      pitch := mode.pitch.toUInt16
      addr := mode.addr.toUInt32
      type := .vesaVbe
      available := true }

/-- What `vbe_read` answers for `XRES`, `YRES` and `BPP` after they have been written. -/
structure VbeRegisters where
  xres : UInt16
  yres : UInt16
  bpp : UInt16

def bochsSetMode (vbe : VbeRegisters) (w h bpp : UInt16) : Option Mode :=
  if vbe.xres ≠ w ∨ vbe.yres ≠ h ∨ vbe.bpp ≠ bpp then none
  else some
    { width := w
      height := h
      bpp := bpp.toUInt8
      pitch := w * (bpp / 8)
      addr := 0xFD000000
      type := .bochsVbe
      available := true }

/-- `probe_vga_mode13`, by whether the test byte could be written. -/
def probeVgaMode13 (writable : Bool) : Option Mode :=
  if !writable then none
  else some
    { width := 320
      height := 200
      bpp := 8
      pitch := 320
      addr := 0xA0000
      type := .vgaGraph
      available := true }

def probeVgaText : Mode where
  width := 80
  height := 25
  bpp := 0
  pitch := 160
  addr := 0xB8000
  type := .vgaText
  available := true

/-- The modes that the probes install. -/
inductive Installed : Mode → Prop
  | multiboot {mbd : Boot.Info} {m : Mode} (h : probeMultibootVbe mbd = some m) : Installed m
  | bochs {vbe : VbeRegisters} {m : Mode} (h : bochsSetMode vbe 800 600 32 = some m) : Installed m
  | mode13 {m : Mode} (h : probeVgaMode13 true = some m) : Installed m
  | text : Installed probeVgaText

/-! ### Colours -/

def rgbToVga8 (color : UInt32) : UInt8 :=
  let r := ((color >>> 16) &&& 0xFF).toUInt8
  let g := ((color >>> 8) &&& 0xFF).toUInt8
  let b := (color &&& 0xFF).toUInt8
  if r > 200 ∧ g > 200 ∧ b > 200 then 15
  else if r < 50 ∧ g < 50 ∧ b < 50 then 0
  else if r > 200 ∧ g < 100 ∧ b < 100 then 4
  else if g > 200 ∧ r < 100 ∧ b < 100 then 2
  else if b > 200 ∧ r < 100 ∧ g < 100 then 1
  else ((r >>> 6) <<< 5) ||| ((g >>> 6) <<< 2) ||| (b >>> 7)

/-- `color16` of `display_putpixel`. -/
def rgbTo565 (color : UInt32) : UInt16 :=
  let r := ((color >>> 16) &&& 0xFF).toUInt16
  let g := ((color >>> 8) &&& 0xFF).toUInt16
  let b := (color &&& 0xFF).toUInt16
  ((r >>> 3) <<< 11) ||| ((g >>> 2) <<< 5) ||| (b >>> 3)

def bytes16 (v : UInt16) : List UInt8 := [v.toUInt8, (v >>> 8).toUInt8]

def bytes32 (v : UInt32) : List UInt8 :=
  [v.toUInt8, (v >>> 8).toUInt8, (v >>> 16).toUInt8, (v >>> 24).toUInt8]

/-! ### Drawing -/

/-- The body of the two loops of `display_clear`. -/
def clearPixel (m : Mode) (color : UInt32) (x y : ℕ) : List (Store UInt8) :=
  if m.bpp = 32 then
    [⟨4 * (y.toUInt32 * (m.pitch.toUInt32 / 4) + x.toUInt32).toNat, bytes32 color⟩]
  else if m.bpp = 16 then
    [⟨2 * (y.toUInt32 * (m.pitch.toUInt32 / 2) + x.toUInt32).toNat, bytes16 color.toUInt16⟩]
  else []

def displayClear (m : Mode) (color : UInt32) : List (Store UInt8) :=
  if !m.available then []
  else if m.type = .vgaText then
    (List.range (m.width.toUInt32 * m.height.toUInt32).toNat).map fun i => ⟨2 * i, bytes16 0x0720⟩
  else if m.bpp = 8 then
    (List.range (m.width.toUInt32 * m.height.toUInt32).toNat).map fun off =>
      ⟨off, [color.toUInt8]⟩
  else
    (List.range m.height.toNat).flatMap fun y => (List.range m.width.toNat).flatMap fun x =>
      clearPixel m color x y

def displayPutpixel (m : Mode) (x y color : UInt32) : List (Store UInt8) :=
  if !m.available then []
  else if x ≥ m.width.toUInt32 ∨ y ≥ m.height.toUInt32 then []
  else if m.bpp = 8 then [⟨(y * m.pitch.toUInt32 + x).toNat, [rgbToVga8 color]⟩]
  else if m.bpp = 32 then [⟨(y * m.pitch.toUInt32).toNat + (x * 4).toNat, bytes32 color⟩]
  else if m.bpp = 16 then
    [⟨(y * m.pitch.toUInt32).toNat + (x * 2).toNat, bytes16 (rgbTo565 color)⟩]
  else []

def putpixels (m : Mode) (calls : List (UInt32 × UInt32)) (color : UInt32) : List (Store UInt8) :=
  calls.flatMap fun (x, y) => displayPutpixel m x y color

/-- The calls that the two loops of `display_fill_rect` make. -/
def fillRectCalls (x y w h : UInt32) : List (UInt32 × UInt32) :=
  (List.range h.toNat).flatMap fun row => (List.range w.toNat).map fun col =>
    (x + col.toUInt32, y + row.toUInt32)

theorem exists_add_eq_iff {start len p : UInt32} :
    (∃ i < len.toNat, start + i.toUInt32 = p) ↔ p - start < len := by
  rw [UInt32.lt_iff_toNat_lt]
  constructor
  · rintro ⟨i, hi, rfl⟩
    have hlen := len.toNat_lt
    have hi' : i.toUInt32.toNat = i := UInt32.toNat_ofNat_of_lt' (Nat.lt_trans hi hlen)
    have hsub : start + i.toUInt32 - start = i.toUInt32 := by
      rw [UInt32.add_comm, UInt32.add_sub_cancel]
    rw [hsub, hi']
    exact hi
  · intro h
    refine ⟨(p - start).toNat, h, ?_⟩
    have hback : (p - start).toNat.toUInt32 = p - start := UInt32.ofNat_toNat
    rw [hback, UInt32.add_comm, UInt32.sub_add_cancel]

theorem mem_fillRectCalls {x y w h px py : UInt32} :
    (px, py) ∈ fillRectCalls x y w h ↔ px - x < w ∧ py - y < h := by
  rw [← exists_add_eq_iff, ← exists_add_eq_iff, fillRectCalls, List.mem_flatMap]
  constructor
  · rintro ⟨row, hrow, hcall⟩
    obtain ⟨col, hcol, heq⟩ := List.mem_map.mp hcall
    obtain ⟨hx, hy⟩ := Prod.mk.inj heq
    exact ⟨⟨col, List.mem_range.mp hcol, hx⟩, ⟨row, List.mem_range.mp hrow, hy⟩⟩
  · rintro ⟨⟨col, hcol, rfl⟩, ⟨row, hrow, rfl⟩⟩
    exact ⟨row, List.mem_range.mpr hrow, List.mem_map.mpr ⟨col, List.mem_range.mpr hcol, rfl⟩⟩

def displayFillRect (m : Mode) (x y w h color : UInt32) : List (Store UInt8) :=
  putpixels m (fillRectCalls x y w h) color

/-- The calls that the loops of `display_draw_rect` make, the horizontal sides first. -/
def drawRectCalls (x y w h : UInt32) : List (UInt32 × UInt32) :=
  ((List.range w.toNat).flatMap fun col =>
    [(x + col.toUInt32, y), (x + col.toUInt32, y + h - 1)]) ++
  (List.range h.toNat).flatMap fun row =>
    [(x, y + row.toUInt32), (x + w - 1, y + row.toUInt32)]

def displayDrawRect (m : Mode) (x y w h color : UInt32) : List (Store UInt8) :=
  putpixels m (drawRectCalls x y w h) color

/-! ### Pixels -/

theorem toNat_toUInt32 {n : ℕ} (h : n < 2 ^ 32) : n.toUInt32.toNat = n :=
  UInt32.toNat_ofNat_of_lt' h

namespace Mode

/-- The mode is of the kind that `display_putpixel` draws in. -/
structure Drawable (m : Mode) : Prop where
  available : m.available = true
  depth : m.bpp = 8 ∨ m.bpp = 16 ∨ m.bpp = 32

variable (m : Mode)

def bytesPerPixel : ℕ := m.bpp.toNat / 8

/-- The rows of pixels do not overlap. -/
def Apart : Prop := m.width.toNat * m.bytesPerPixel ≤ m.pitch.toNat

def OnScreen (x y : UInt32) : Prop := x.toNat < m.width.toNat ∧ y.toNat < m.height.toNat

/-- The bytes that `display_putpixel` puts for a colour. -/
def pixelBytes (color : UInt32) : List UInt8 :=
  if m.bpp = 8 then [rgbToVga8 color]
  else if m.bpp = 32 then bytes32 color
  else bytes16 (rgbTo565 color)

/-- The pixels of a mode whose rows do not overlap. -/
def pixels (h : m.Apart) : Grid where
  width := m.width.toNat
  height := m.height.toNat
  cell := m.bytesPerPixel
  stride := m.pitch.toNat
  apart := h

variable {m : Mode} {x y color : UInt32} {s : Store UInt8} {calls : List (UInt32 × UInt32)}

theorem bytesPerPixel_eight (h : m.bpp = 8) : m.bytesPerPixel = 1 := by rw [bytesPerPixel, h]; rfl

theorem bytesPerPixel_sixteen (h : m.bpp = 16) : m.bytesPerPixel = 2 := by
  rw [bytesPerPixel, h]
  rfl

theorem bytesPerPixel_thirtyTwo (h : m.bpp = 32) : m.bytesPerPixel = 4 := by
  rw [bytesPerPixel, h]
  rfl

theorem pixelBytes_eight (h : m.bpp = 8) (color : UInt32) :
    m.pixelBytes color = [rgbToVga8 color] :=
  if_pos h

theorem pixelBytes_sixteen (h : m.bpp = 16) (color : UInt32) :
    m.pixelBytes color = bytes16 (rgbTo565 color) := by
  rw [pixelBytes, h]
  rfl

theorem pixelBytes_thirtyTwo (h : m.bpp = 32) (color : UInt32) :
    m.pixelBytes color = bytes32 color := by
  rw [pixelBytes, h]
  rfl

theorem Drawable.bytesPerPixel_pos (hm : m.Drawable) : 0 < m.bytesPerPixel := by
  rcases hm.depth with h | h | h
  · rw [bytesPerPixel_eight h]
    decide
  · rw [bytesPerPixel_sixteen h]
    decide
  · rw [bytesPerPixel_thirtyTwo h]
    decide

theorem Drawable.length_pixelBytes (hm : m.Drawable) (color : UInt32) :
    (m.pixelBytes color).length = m.bytesPerPixel := by
  rcases hm.depth with h | h | h
  · rw [pixelBytes_eight h, bytesPerPixel_eight h]
    rfl
  · rw [pixelBytes_sixteen h, bytesPerPixel_sixteen h]
    rfl
  · rw [pixelBytes_thirtyTwo h, bytesPerPixel_thirtyTwo h]
    rfl

theorem toNat_mul_pitch (hy : y.toNat < m.height.toNat) :
    (y * m.pitch.toUInt32).toNat = y.toNat * m.pitch.toNat := by
  have hheight := m.height.toNat_lt
  have hpitch := m.pitch.toNat_lt
  have hle : y.toNat * m.pitch.toNat ≤ 65535 * 65535 :=
    Nat.mul_le_mul (by omega) (by omega)
  rw [UInt32.toNat_mul, UInt16.toNat_toUInt32, Nat.mod_eq_of_lt (by omega)]

theorem onScreen_iff : ¬(x ≥ m.width.toUInt32 ∨ y ≥ m.height.toUInt32) ↔ m.OnScreen x y := by
  rw [not_or, ge_iff_le, ge_iff_le, UInt32.not_le, UInt32.not_le, UInt32.lt_iff_toNat_lt,
    UInt32.lt_iff_toNat_lt, UInt16.toNat_toUInt32, UInt16.toNat_toUInt32]
  rfl

/-- Where a pixel starts, with the arithmetic of each depth. -/
theorem displayPutpixel_eq (hm : m.Drawable) (hon : m.OnScreen x y) :
    displayPutpixel m x y color =
      [⟨y.toNat * m.pitch.toNat + x.toNat * m.bytesPerPixel, m.pixelBytes color⟩] := by
  obtain ⟨hx, hy⟩ := hon
  have hrow := toNat_mul_pitch hy
  have hwidth := m.width.toNat_lt
  have hheight := m.height.toNat_lt
  have hpitch := m.pitch.toNat_lt
  have hle : y.toNat * m.pitch.toNat ≤ 65534 * 65535 := Nat.mul_le_mul (by omega) (by omega)
  unfold displayPutpixel
  rw [hm.available, if_neg (by decide), if_neg (onScreen_iff.mpr ⟨hx, hy⟩)]
  rcases hm.depth with h | h | h
  · rw [if_pos h, bytesPerPixel_eight h, pixelBytes_eight h, UInt32.toNat_add, hrow,
      Nat.mod_eq_of_lt (by omega), Nat.mul_one]
  · have hcol : (x * 2).toNat = x.toNat * 2 := by
      rw [UInt32.toNat_mul]
      exact Nat.mod_eq_of_lt (by change x.toNat * 2 < _; omega)
    rw [if_neg (by rw [h]; decide), if_neg (by rw [h]; decide), if_pos h,
      bytesPerPixel_sixteen h, pixelBytes_sixteen h, hrow, hcol]
  · have hcol : (x * 4).toNat = x.toNat * 4 := by
      rw [UInt32.toNat_mul]
      exact Nat.mod_eq_of_lt (by change x.toNat * 4 < _; omega)
    rw [if_neg (by rw [h]; decide), if_pos h, bytesPerPixel_thirtyTwo h,
      pixelBytes_thirtyTwo h, hrow, hcol]

theorem not_drawable_iff : ¬m.Drawable ↔
    m.available = false ∨ m.bpp ≠ 8 ∧ m.bpp ≠ 16 ∧ m.bpp ≠ 32 := by
  rw [← Bool.not_eq_true, ← not_or, ← not_or, ← not_and_or]
  exact not_congr ⟨fun hm => ⟨hm.available, hm.depth⟩, fun h => ⟨h.1, h.2⟩⟩

theorem displayPutpixel_of_not (h : ¬(m.Drawable ∧ m.OnScreen x y)) :
    displayPutpixel m x y color = [] := by
  unfold displayPutpixel
  rcases not_and_or.mp h with hm | hon
  · rcases not_drawable_iff.mp hm with ha | ⟨h8, h16, h32⟩
    · rw [ha]
      exact if_pos rfl
    · rw [if_neg h8, if_neg h32, if_neg h16, ite_self, ite_self]
  · rw [if_pos (not_not.mp (mt onScreen_iff.mp hon)), ite_self]

theorem mem_displayPutpixel : s ∈ displayPutpixel m x y color ↔
    m.Drawable ∧ m.OnScreen x y ∧
      s = ⟨y.toNat * m.pitch.toNat + x.toNat * m.bytesPerPixel, m.pixelBytes color⟩ := by
  by_cases h : m.Drawable ∧ m.OnScreen x y
  · rw [displayPutpixel_eq h.1 h.2, List.mem_singleton, ← and_assoc]
    exact (and_iff_right h).symm
  · rw [displayPutpixel_of_not h]
    constructor
    · intro hs
      cases hs
    · rintro ⟨hm, hon, -⟩
      exact absurd ⟨hm, hon⟩ h

theorem mem_putpixels : s ∈ putpixels m calls color ↔
    m.Drawable ∧ ∃ x y, (x, y) ∈ calls ∧ m.OnScreen x y ∧
      s = ⟨y.toNat * m.pitch.toNat + x.toNat * m.bytesPerPixel, m.pixelBytes color⟩ := by
  rw [putpixels, List.mem_flatMap]
  constructor
  · rintro ⟨⟨x, y⟩, hcall, hs⟩
    obtain ⟨hm, hon, rfl⟩ := mem_displayPutpixel.mp hs
    exact ⟨hm, x, y, hcall, hon, rfl⟩
  · rintro ⟨hm, x, y, hcall, hon, rfl⟩
    exact ⟨(x, y), hcall, mem_displayPutpixel.mpr ⟨hm, hon, rfl⟩⟩

/-- Calls that cover a region of the screen draw it. -/
theorem Drawable.draws (hm : m.Drawable) (hapart : m.Apart) (color : UInt32)
    {region : ℕ → ℕ → Prop}
    (hcalls : ∀ x y, m.OnScreen x y → ((x, y) ∈ calls ↔ region x.toNat y.toNat)) :
    (m.pixels hapart).Draws region (m.pixelBytes color) (putpixels m calls color) := by
  intro s
  rw [mem_putpixels]
  constructor
  · rintro ⟨-, x, y, hcall, hon, rfl⟩
    exact ⟨x.toNat, y.toNat, hon.1, hon.2, (hcalls x y hon).mp hcall, rfl⟩
  · rintro ⟨x, y, hx, hy, hin, rfl⟩
    change x < m.width.toNat at hx
    change y < m.height.toNat at hy
    have hwidth := m.width.toNat_lt
    have hheight := m.height.toNat_lt
    have hx' : x.toUInt32.toNat = x := toNat_toUInt32 (by omega)
    have hy' : y.toUInt32.toNat = y := toNat_toUInt32 (by omega)
    have hon : m.OnScreen x.toUInt32 y.toUInt32 := by rw [OnScreen, hx', hy']; exact ⟨hx, hy⟩
    refine ⟨hm, x.toUInt32, y.toUInt32, (hcalls _ _ hon).mpr ?_, hon, ?_⟩
    · rwa [hx', hy']
    · rw [hx', hy']
      rfl

end Mode

end OpenKernel.Display
