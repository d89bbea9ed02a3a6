import OpenKernel.Display.Model
import Mathlib.Tactic.Ring

/-!
# Clearing the screen and filling it

`display_clear` stores the colour as it is and `display_putpixel` converts it; with
8 bits per pixel `display_clear` also takes all rows to follow each other, and with
16 or 32 bits to start at a multiple of the size of a pixel. The result is that of
filling the whole screen where neither makes a difference.
-/

namespace OpenKernel.Display

namespace Mode

variable (m : Mode)

/-- The bytes of the pixel in column `x` of row `y`. -/
def pixel (f : ℕ → UInt8) (x y : ℕ) : List UInt8 :=
  (List.range m.bytesPerPixel).map fun i => f (y * m.pitch.toNat + x * m.bytesPerPixel + i)

/-- Whatever was there before, `display_clear` and filling the screen leave the same pixels. -/
def ClearsLikeFill (color : UInt32) : Prop :=
  ∀ f x y, x < m.width.toNat → y < m.height.toNat →
    m.pixel (paint (displayClear m color) f) x y =
      m.pixel (paint (displayFillRect m 0 0 m.width.toUInt32 m.height.toUInt32 color) f) x y

/-- The colour is its own conversion. -/
def ColourKept (color : UInt32) : Prop :=
  (m.bpp = 8 → color.toUInt8 = rgbToVga8 color) ∧ (m.bpp = 16 → color.toUInt16 = rgbTo565 color)

/-- The rows of pixels are where `display_clear` takes them to be. -/
def RowsKept : Prop :=
  m.height = 1 ∨ if m.bpp = 8 then m.pitch = m.width else m.pitch.toNat % m.bytesPerPixel = 0

/-- The bytes that `display_clear` puts for a colour. -/
def clearBytes (color : UInt32) : List UInt8 :=
  if m.bpp = 8 then [color.toUInt8]
  else if m.bpp = 32 then bytes32 color
  else bytes16 color.toUInt16

/-- The distance of the rows in `display_clear`. -/
def clearStride : ℕ :=
  if m.bpp = 8 then m.width.toNat else m.pitch.toNat / m.bytesPerPixel * m.bytesPerPixel

variable {m : Mode} {color : UInt32}

theorem clearStride_le (hapart : m.Apart) : m.clearStride ≤ m.pitch.toNat := by
  unfold clearStride
  split_ifs with h
  · have hwidth := hapart
    rwa [Apart, bytesPerPixel_eight h, Nat.mul_one] at hwidth
  · exact Nat.div_mul_le_self _ _

theorem Drawable.clear_apart (hm : m.Drawable) (hapart : m.Apart) :
    m.width.toNat * m.bytesPerPixel ≤ m.clearStride := by
  unfold clearStride
  split_ifs with h
  · rw [bytesPerPixel_eight h, Nat.mul_one]
  · exact Nat.mul_le_mul_right _ ((Nat.le_div_iff_mul_le hm.bytesPerPixel_pos).mpr hapart)

/-- The pixels as `display_clear` takes them to be. -/
def clearPixels (hm : m.Drawable) (hapart : m.Apart) : Grid where
  width := m.width.toNat
  height := m.height.toNat
  cell := m.bytesPerPixel
  stride := m.clearStride
  apart := hm.clear_apart hapart

theorem toNat_area : (m.width.toUInt32 * m.height.toUInt32).toNat =
    m.width.toNat * m.height.toNat := by
  have hwidth := m.width.toNat_lt
  have hheight := m.height.toNat_lt
  have hle : m.width.toNat * m.height.toNat ≤ 65535 * 65535 :=
    Nat.mul_le_mul (by omega) (by omega)
  rw [UInt32.toNat_mul, UInt16.toNat_toUInt32, UInt16.toNat_toUInt32, Nat.mod_eq_of_lt (by omega)]

theorem toNat_index {x y : ℕ} {k : UInt32} (hx : x < m.width.toNat) (hy : y < m.height.toNat) :
    (y.toUInt32 * (m.pitch.toUInt32 / k) + x.toUInt32).toNat =
      y * (m.pitch.toNat / k.toNat) + x := by
  have hwidth := m.width.toNat_lt
  have hheight := m.height.toNat_lt
  have hpitch := m.pitch.toNat_lt
  have hdiv := Nat.div_le_self m.pitch.toNat k.toNat
  have hle : y * (m.pitch.toNat / k.toNat) ≤ 65534 * 65535 :=
    Nat.mul_le_mul (by omega) (by omega)
  rw [UInt32.toNat_add, UInt32.toNat_mul, UInt32.toNat_div, UInt16.toNat_toUInt32,
    toNat_toUInt32 (by omega), toNat_toUInt32 (by omega), Nat.mod_eq_of_lt (by omega),
    Nat.mod_eq_of_lt (by omega)]

theorem mem_range_mul {w h off : ℕ} : off < w * h ↔ ∃ x y, x < w ∧ y < h ∧ off = y * w + x := by
  constructor
  · intro hoff
    have hw : 0 < w := Nat.pos_of_ne_zero fun hw => by rw [hw, Nat.zero_mul] at hoff; omega
    exact ⟨off % w, off / w, Nat.mod_lt _ hw, Nat.div_lt_of_lt_mul hoff,
      (Nat.div_add_mod' off w).symm⟩
  · rintro ⟨x, y, hx, hy, rfl⟩
    have hle := Nat.mul_le_mul_right w (Nat.succ_le_of_lt hy)
    rw [Nat.succ_mul, Nat.mul_comm h] at hle
    omega

theorem Drawable.clearPixel_eq (hm : m.Drawable) (h8 : m.bpp ≠ 8) {x y : ℕ}
    (hx : x < m.width.toNat) (hy : y < m.height.toNat) :
    clearPixel m color x y = [⟨y * m.clearStride + x * m.bytesPerPixel, m.clearBytes color⟩] := by
  unfold clearPixel clearStride clearBytes
  rw [if_neg h8, if_neg h8]
  rcases hm.depth with h | h | h
  · exact absurd h h8
  · have h32 : m.bpp ≠ 32 := by rw [h]; decide
    have hplace : 2 * (y * (m.pitch.toNat / 2) + x) = y * (m.pitch.toNat / 2 * 2) + x * 2 := by
      ring
    rw [if_neg h32, if_neg h32, if_pos h, bytesPerPixel_sixteen h, toNat_index hx hy]
    exact congrArg (fun start => [(⟨start, _⟩ : Store UInt8)]) hplace
  · have hplace : 4 * (y * (m.pitch.toNat / 4) + x) = y * (m.pitch.toNat / 4 * 4) + x * 4 := by
      ring
    rw [if_pos h, if_pos h, bytesPerPixel_thirtyTwo h, toNat_index hx hy]
    exact congrArg (fun start => [(⟨start, _⟩ : Store UInt8)]) hplace

/-- What `display_clear` stores in a graphics mode. -/
theorem Drawable.draws_clear (hm : m.Drawable) (hapart : m.Apart) (htype : m.type ≠ .vgaText)
    (color : UInt32) :
    (clearPixels hm hapart).Draws (fun _ _ => True) (m.clearBytes color)
      (displayClear m color) := by
  intro s
  unfold displayClear
  rw [hm.available, if_neg (by decide), if_neg htype]
  by_cases h8 : m.bpp = 8
  · have hbytes : m.clearBytes color = [color.toUInt8] := if_pos h8
    have hplace : ∀ x y, (clearPixels hm hapart).place x y = y * m.width.toNat + x := by
      intro x y
      have hstride : m.clearStride = m.width.toNat := if_pos h8
      change y * m.clearStride + x * m.bytesPerPixel = _
      rw [hstride, bytesPerPixel_eight h8, Nat.mul_one]
    rw [if_pos h8, hbytes, List.mem_map]
    constructor
    · rintro ⟨off, hoff, rfl⟩
      rw [List.mem_range, toNat_area] at hoff
      obtain ⟨x, y, hx, hy, rfl⟩ := mem_range_mul.mp hoff
      exact ⟨x, y, hx, hy, trivial, by rw [hplace]⟩
    · rintro ⟨x, y, hx, hy, -, rfl⟩
      refine ⟨y * m.width.toNat + x, ?_, by rw [hplace]⟩
      rw [List.mem_range, toNat_area]
      exact mem_range_mul.mpr ⟨x, y, hx, hy, rfl⟩
  · rw [if_neg h8, List.mem_flatMap]
    constructor
    · rintro ⟨y, hy, hs⟩
      obtain ⟨x, hx, hs⟩ := List.mem_flatMap.mp hs
      rw [List.mem_range] at hx hy
      rw [hm.clearPixel_eq h8 hx hy, List.mem_singleton] at hs
      exact ⟨x, y, hx, hy, trivial, hs⟩
    · rintro ⟨x, y, hx, hy, -, rfl⟩
      refine ⟨y, List.mem_range.mpr hy, List.mem_flatMap.mpr ⟨x, List.mem_range.mpr hx, ?_⟩⟩
      rw [hm.clearPixel_eq h8 hx hy]
      exact List.mem_singleton.mpr rfl

theorem Drawable.draws_fill (hm : m.Drawable) (hapart : m.Apart) (color : UInt32) :
    (m.pixels hapart).Draws (fun _ _ => True) (m.pixelBytes color)
      (displayFillRect m 0 0 m.width.toUInt32 m.height.toUInt32 color) := by
  refine hm.draws hapart color fun x y hon => iff_of_true (mem_fillRectCalls.mpr ?_) trivial
  rw [UInt32.sub_zero, UInt32.sub_zero, UInt32.lt_iff_toNat_lt, UInt32.lt_iff_toNat_lt,
    UInt16.toNat_toUInt32, UInt16.toNat_toUInt32]
  exact hon

theorem pixel_eq_iff {f f' : ℕ → UInt8} {x y : ℕ} : m.pixel f x y = m.pixel f' x y ↔
    ∀ i < m.bytesPerPixel, f (y * m.pitch.toNat + x * m.bytesPerPixel + i) =
      f' (y * m.pitch.toNat + x * m.bytesPerPixel + i) := by
  simp only [pixel, List.map_inj_left, List.mem_range]

theorem Drawable.length_clearBytes (hm : m.Drawable) (color : UInt32) :
    (m.clearBytes color).length = m.bytesPerPixel := by
  unfold clearBytes
  rcases hm.depth with h | h | h
  · rw [if_pos h, bytesPerPixel_eight h]
    rfl
  · rw [h, bytesPerPixel_sixteen h]
    rfl
  · rw [h, bytesPerPixel_thirtyTwo h]
    rfl

theorem bytes16_inj {v w : UInt16} (h : bytes16 v = bytes16 w) : v = w := by
  obtain ⟨hlow, hrest⟩ := List.cons.inj h
  obtain ⟨hhigh, -⟩ := List.cons.inj hrest
  have hv := v.toNat_lt
  have hw := w.toNat_lt
  have hlow := congrArg UInt8.toNat hlow
  have hhigh := congrArg UInt8.toNat hhigh
  rw [UInt16.toNat_toUInt8, UInt16.toNat_toUInt8] at hlow hhigh
  rw [UInt16.toNat_shiftRight, UInt16.toNat_shiftRight, Nat.shiftRight_eq_div_pow,
    Nat.shiftRight_eq_div_pow] at hhigh
  change v.toNat / 2 ^ 8 % 2 ^ 8 = w.toNat / 2 ^ 8 % 2 ^ 8 at hhigh
  apply UInt16.toNat.inj
  omega

/-- The two functions put the same bytes exactly for the colours that are kept. -/
theorem Drawable.clearBytes_eq_iff (hm : m.Drawable) :
    m.clearBytes color = m.pixelBytes color ↔ m.ColourKept color := by
  unfold clearBytes ColourKept
  rcases hm.depth with h | h | h
  · have h16 : m.bpp ≠ 16 := by rw [h]; decide
    rw [if_pos h, pixelBytes_eight h]
    constructor
    · intro heq
      exact ⟨fun _ => (List.cons.inj heq).1, fun h' => absurd h' h16⟩
    · rintro ⟨heq, -⟩
      rw [heq h]
  · have h8 : m.bpp ≠ 8 := by rw [h]; decide
    have h32 : m.bpp ≠ 32 := by rw [h]; decide
    rw [if_neg h8, if_neg h32, pixelBytes_sixteen h]
    constructor
    · intro heq
      exact ⟨fun h' => absurd h' h8, fun _ => bytes16_inj heq⟩
    · rintro ⟨-, heq⟩
      rw [heq h]
  · have h8 : m.bpp ≠ 8 := by rw [h]; decide
    have h16 : m.bpp ≠ 16 := by rw [h]; decide
    rw [if_neg h8, if_pos h, pixelBytes_thirtyTwo h]
    exact iff_of_true rfl ⟨fun h' => absurd h' h8, fun h' => absurd h' h16⟩

theorem rowsKept_iff : m.RowsKept ↔ m.height.toNat = 1 ∨ m.clearStride = m.pitch.toNat := by
  have hone : m.height = 1 ↔ m.height.toNat = 1 := UInt16.toNat_inj.symm
  unfold RowsKept clearStride
  rw [hone]
  refine or_congr_right ?_
  split_ifs with h
  · rw [← UInt16.toNat_inj]
    exact eq_comm
  · have hdiv := Nat.div_add_mod' m.pitch.toNat m.bytesPerPixel
    omega

theorem Drawable.clearsLikeFill_of_pos (hm : m.Drawable) (htype : m.type ≠ .vgaText)
    (hapart : m.Apart) (hwidth : 0 < m.width.toNat) (hheight : 0 < m.height.toNat) :
    m.ClearsLikeFill color ↔ m.ColourKept color ∧ m.RowsKept := by
  have hbytes : Nontrivial UInt8 := ⟨0, 1, by decide⟩
  have hsame : Grid.SameCells (m.pixels hapart) (clearPixels hm hapart) := ⟨rfl, rfl, rfl⟩
  have hagree := Grid.fills_agree_iff hsame (clearStride_le hapart) hwidth hheight
    hm.bytesPerPixel_pos (hm.length_pixelBytes color) (hm.length_clearBytes color)
    (hm.draws_fill hapart color) (hm.draws_clear hapart htype color)
  rw [← hm.clearBytes_eq_iff, rowsKept_iff]
  refine Iff.trans ?_ hagree
  constructor
  · intro h f x y i hx hy hi
    exact pixel_eq_iff.mp (h f x y hx hy) i hi
  · intro h f x y hx hy
    exact pixel_eq_iff.mpr fun i hi => h f x y i hx hy hi

end Mode

/-- In every graphics mode, clearing the screen leaves the pixels that filling it leaves exactly
if there are no pixels, or the colour is its own conversion and the rows are where
`display_clear` takes them to be. -/
theorem clearsLikeFill_iff {m : Mode} (hm : m.Drawable) (htype : m.type ≠ .vgaText)
    (hapart : m.Apart) (color : UInt32) :
    m.ClearsLikeFill color ↔
      m.width = 0 ∨ m.height = 0 ∨ (m.ColourKept color ∧ m.RowsKept) := by
  by_cases hwidth : m.width = 0
  · refine iff_of_true (fun f x y hx => ?_) (Or.inl hwidth)
    rw [hwidth] at hx
    exact absurd hx (Nat.not_lt_zero x)
  by_cases hheight : m.height = 0
  · refine iff_of_true (fun f x y _ hy => ?_) (Or.inr (Or.inl hheight))
    rw [hheight] at hy
    exact absurd hy (Nat.not_lt_zero y)
  have hpos : ∀ n : UInt16, n ≠ 0 → 0 < n.toNat :=
    fun n hn => Nat.pos_of_ne_zero fun h => hn (UInt16.toNat.inj h)
  rw [hm.clearsLikeFill_of_pos htype hapart (hpos _ hwidth) (hpos _ hheight),
    or_iff_right hwidth, or_iff_right hheight]

/-- The mode of `bochs_set_mode(800, 600, 32)`. -/
def bochsMode : Mode := ⟨800, 600, 32, 3200, 0xFD000000, .bochsVbe, true⟩

theorem clearsLikeFill_iff_bochs :
    bochsSetMode ⟨800, 600, 32⟩ 800 600 32 = some bochsMode ∧
      bochsMode.ClearsLikeFill 0xFF0000 :=
  ⟨by decide, (clearsLikeFill_iff (m := bochsMode) ⟨rfl, Or.inr (Or.inr rfl)⟩ (by decide)
    (by unfold Mode.Apart; decide) 0xFF0000).mpr
      (Or.inr (Or.inr ⟨⟨by decide, by decide⟩, Or.inr (by decide)⟩))⟩

def vgaMode13 : Mode := ⟨320, 200, 8, 320, 0xA0000, .vgaGraph, true⟩

/-- In mode 0x13 clearing with red puts black, and filling with red puts red. -/
theorem not_clearsLikeFill_red :
    probeVgaMode13 true = some vgaMode13 ∧ ¬vgaMode13.ClearsLikeFill 0xFF0000 := by
  have hm : vgaMode13.Drawable := ⟨rfl, Or.inl rfl⟩
  refine ⟨by decide, fun h => ?_⟩
  rw [hm.clearsLikeFill_of_pos (by decide) (by unfold Mode.Apart; decide) (by decide)
    (by decide)] at h
  exact absurd (h.1.1 rfl) (by decide)

end OpenKernel.Display
