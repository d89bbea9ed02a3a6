import OpenKernel.Display.Clearing

/-!
# Text in graphics modes

The font of `font.h`, and the functions of `display.c` that draw characters, each
pixel of a glyph as a square of four. A look behind the end of the font makes them
fail. Everything that is drawn, text or not, lies in the framebuffer.
-/

namespace OpenKernel.Display

/-- The table of `font.h`. -/
def font8x8 : List (List UInt8) :=
  List.replicate 32 [0, 0, 0, 0, 0, 0, 0, 0] ++ [
    [0x00, 0x00, 0x00, 0x00, 0x00, 0x00, 0x00, 0x00],
    [0x18, 0x3C, 0x3C, 0x18, 0x18, 0x00, 0x18, 0x00],
    [0x36, 0x36, 0x00, 0x00, 0x00, 0x00, 0x00, 0x00],
    [0x36, 0x36, 0x7F, 0x36, 0x7F, 0x36, 0x36, 0x00],
    [0x0C, 0x3E, 0x03, 0x1E, 0x30, 0x1F, 0x0C, 0x00],
    [0x00, 0x63, 0x33, 0x18, 0x0C, 0x66, 0x63, 0x00],
    [0x1C, 0x36, 0x1C, 0x6E, 0x3B, 0x33, 0x6E, 0x00],
    [0x06, 0x06, 0x03, 0x00, 0x00, 0x00, 0x00, 0x00],
    [0x18, 0x0C, 0x06, 0x06, 0x06, 0x0C, 0x18, 0x00],
    [0x06, 0x0C, 0x18, 0x18, 0x18, 0x0C, 0x06, 0x00],
    [0x00, 0x66, 0x3C, 0xFF, 0x3C, 0x66, 0x00, 0x00],
    [0x00, 0x0C, 0x0C, 0x3F, 0x0C, 0x0C, 0x00, 0x00],
    [0x00, 0x00, 0x00, 0x00, 0x00, 0x0C, 0x0C, 0x06],
    [0x00, 0x00, 0x00, 0x3F, 0x00, 0x00, 0x00, 0x00],
    [0x00, 0x00, 0x00, 0x00, 0x00, 0x0C, 0x0C, 0x00],
    [0x60, 0x30, 0x18, 0x0C, 0x06, 0x03, 0x01, 0x00],
    [0x3E, 0x63, 0x73, 0x7B, 0x6F, 0x67, 0x3E, 0x00],
    [0x0C, 0x0E, 0x0C, 0x0C, 0x0C, 0x0C, 0x3F, 0x00],
    [0x1E, 0x33, 0x30, 0x1C, 0x06, 0x33, 0x3F, 0x00],
    [0x1E, 0x33, 0x30, 0x1C, 0x30, 0x33, 0x1E, 0x00],
    [0x38, 0x3C, 0x36, 0x33, 0x7F, 0x30, 0x78, 0x00],
    [0x3F, 0x03, 0x1F, 0x30, 0x30, 0x33, 0x1E, 0x00],
    [0x1C, 0x06, 0x03, 0x1F, 0x33, 0x33, 0x1E, 0x00],
    [0x3F, 0x33, 0x30, 0x18, 0x0C, 0x0C, 0x0C, 0x00],
    [0x1E, 0x33, 0x33, 0x1E, 0x33, 0x33, 0x1E, 0x00],
    [0x1E, 0x33, 0x33, 0x3E, 0x30, 0x18, 0x0E, 0x00],
    [0x00, 0x0C, 0x0C, 0x00, 0x00, 0x0C, 0x0C, 0x00],
    [0x00, 0x0C, 0x0C, 0x00, 0x00, 0x0C, 0x0C, 0x06],
    [0x18, 0x0C, 0x06, 0x03, 0x06, 0x0C, 0x18, 0x00],
    [0x00, 0x00, 0x3F, 0x00, 0x00, 0x3F, 0x00, 0x00],
    [0x06, 0x0C, 0x18, 0x30, 0x18, 0x0C, 0x06, 0x00],
    [0x1E, 0x33, 0x30, 0x18, 0x0C, 0x00, 0x0C, 0x00],
    [0x3E, 0x63, 0x7B, 0x7B, 0x7B, 0x03, 0x1E, 0x00],
    [0x0C, 0x1E, 0x33, 0x33, 0x3F, 0x33, 0x33, 0x00],
    [0x3F, 0x66, 0x66, 0x3E, 0x66, 0x66, 0x3F, 0x00],
    [0x3C, 0x66, 0x03, 0x03, 0x03, 0x66, 0x3C, 0x00],
    [0x1F, 0x36, 0x66, 0x66, 0x66, 0x36, 0x1F, 0x00],
    [0x7F, 0x46, 0x16, 0x1E, 0x16, 0x46, 0x7F, 0x00],
    [0x7F, 0x46, 0x16, 0x1E, 0x16, 0x06, 0x0F, 0x00],
    [0x3C, 0x66, 0x03, 0x03, 0x73, 0x66, 0x7C, 0x00],
    [0x33, 0x33, 0x33, 0x3F, 0x33, 0x33, 0x33, 0x00],
    [0x1E, 0x0C, 0x0C, 0x0C, 0x0C, 0x0C, 0x1E, 0x00],
    [0x78, 0x30, 0x30, 0x30, 0x33, 0x33, 0x1E, 0x00],
    [0x67, 0x66, 0x36, 0x1E, 0x36, 0x66, 0x67, 0x00],
    [0x0F, 0x06, 0x06, 0x06, 0x46, 0x66, 0x7F, 0x00],
    [0x63, 0x77, 0x7F, 0x7F, 0x6B, 0x63, 0x63, 0x00],
    [0x63, 0x67, 0x6F, 0x7B, 0x73, 0x63, 0x63, 0x00],
    [0x1C, 0x36, 0x63, 0x63, 0x63, 0x36, 0x1C, 0x00],
    [0x3F, 0x66, 0x66, 0x3E, 0x06, 0x06, 0x0F, 0x00],
    [0x1E, 0x33, 0x33, 0x33, 0x3B, 0x1E, 0x38, 0x00],
    [0x3F, 0x66, 0x66, 0x3E, 0x36, 0x66, 0x67, 0x00],
    [0x1E, 0x33, 0x07, 0x0E, 0x38, 0x33, 0x1E, 0x00],
    [0x3F, 0x2D, 0x0C, 0x0C, 0x0C, 0x0C, 0x1E, 0x00],
    [0x33, 0x33, 0x33, 0x33, 0x33, 0x33, 0x3F, 0x00],
    [0x33, 0x33, 0x33, 0x33, 0x33, 0x1E, 0x0C, 0x00],
    [0x63, 0x63, 0x63, 0x6B, 0x7F, 0x77, 0x63, 0x00],
    [0x63, 0x63, 0x36, 0x1C, 0x1C, 0x36, 0x63, 0x00],
    [0x33, 0x33, 0x33, 0x1E, 0x0C, 0x0C, 0x1E, 0x00],
    [0x7F, 0x63, 0x31, 0x18, 0x4C, 0x66, 0x7F, 0x00],
    [0x1E, 0x06, 0x06, 0x06, 0x06, 0x06, 0x1E, 0x00],
    [0x03, 0x06, 0x0C, 0x18, 0x30, 0x60, 0x40, 0x00],
    [0x1E, 0x18, 0x18, 0x18, 0x18, 0x18, 0x1E, 0x00],
    [0x08, 0x1C, 0x36, 0x63, 0x00, 0x00, 0x00, 0x00],
    [0x00, 0x00, 0x00, 0x00, 0x00, 0x00, 0x00, 0xFF],
    [0x0C, 0x0C, 0x18, 0x00, 0x00, 0x00, 0x00, 0x00],
    [0x00, 0x00, 0x1E, 0x30, 0x3E, 0x33, 0x6E, 0x00],
    [0x07, 0x06, 0x06, 0x3E, 0x66, 0x66, 0x3B, 0x00],
    [0x00, 0x00, 0x1E, 0x33, 0x03, 0x33, 0x1E, 0x00],
    [0x38, 0x30, 0x30, 0x3E, 0x33, 0x33, 0x6E, 0x00],
    [0x00, 0x00, 0x1E, 0x33, 0x3F, 0x03, 0x1E, 0x00],
    [0x1C, 0x36, 0x06, 0x0F, 0x06, 0x06, 0x0F, 0x00],
    [0x00, 0x00, 0x6E, 0x33, 0x33, 0x3E, 0x30, 0x1F],
    [0x07, 0x06, 0x36, 0x6E, 0x66, 0x66, 0x67, 0x00],
    [0x0C, 0x00, 0x0E, 0x0C, 0x0C, 0x0C, 0x1E, 0x00],
    [0x30, 0x00, 0x30, 0x30, 0x30, 0x33, 0x33, 0x1E],
    [0x07, 0x06, 0x66, 0x36, 0x1E, 0x36, 0x67, 0x00],
    [0x0E, 0x0C, 0x0C, 0x0C, 0x0C, 0x0C, 0x1E, 0x00],
    [0x00, 0x00, 0x33, 0x7F, 0x7F, 0x6B, 0x63, 0x00],
    [0x00, 0x00, 0x1F, 0x33, 0x33, 0x33, 0x33, 0x00],
    [0x00, 0x00, 0x1E, 0x33, 0x33, 0x33, 0x1E, 0x00],
    [0x00, 0x00, 0x3B, 0x66, 0x66, 0x3E, 0x06, 0x0F],
    [0x00, 0x00, 0x6E, 0x33, 0x33, 0x3E, 0x30, 0x78],
    [0x00, 0x00, 0x3B, 0x6E, 0x66, 0x06, 0x0F, 0x00],
    [0x00, 0x00, 0x3E, 0x03, 0x1E, 0x30, 0x1F, 0x00],
    [0x08, 0x0C, 0x3E, 0x0C, 0x0C, 0x2C, 0x18, 0x00],
    [0x00, 0x00, 0x33, 0x33, 0x33, 0x33, 0x6E, 0x00],
    [0x00, 0x00, 0x33, 0x33, 0x33, 0x1E, 0x0C, 0x00],
    [0x00, 0x00, 0x63, 0x6B, 0x7F, 0x7F, 0x36, 0x00],
    [0x00, 0x00, 0x63, 0x36, 0x1C, 0x36, 0x63, 0x00],
    [0x00, 0x00, 0x33, 0x33, 0x33, 0x3E, 0x30, 0x1F],
    [0x00, 0x00, 0x3F, 0x19, 0x0C, 0x26, 0x3F, 0x00],
    [0x38, 0x0C, 0x0C, 0x07, 0x0C, 0x0C, 0x38, 0x00],
    [0x18, 0x18, 0x18, 0x00, 0x18, 0x18, 0x18, 0x00],
    [0x07, 0x0C, 0x0C, 0x38, 0x0C, 0x0C, 0x07, 0x00],
    [0x6E, 0x3B, 0x00, 0x00, 0x00, 0x00, 0x00, 0x00],
    [0xFF, 0xFF, 0xFF, 0xFF, 0xFF, 0xFF, 0xFF, 0xFF]]

/-- `font8x8[c]`, with capitals for lower case. -/
def selectGlyph (c : UInt8) : Option (List UInt8) :=
  let c := if c ≥ 97 ∧ c ≤ 122 then c - 97 + 65 else c
  font8x8[c.toNat]?

/-- One row of a glyph: each lit pixel is drawn twice as wide and as high. -/
def drawGlyphRow (m : Mode) (x y color : UInt32) (row : ℕ) (bitmap : UInt8) : List (Store UInt8) :=
  (List.range 8).flatMap fun col =>
    if bitmap &&& ((0x80 : UInt8) >>> col.toUInt8) ≠ 0 then
      (List.range 2).flatMap fun sy => (List.range 2).flatMap fun sx =>
        displayPutpixel m (x + (col * 2).toUInt32 + sx.toUInt32)
          (y + (row * 2).toUInt32 + sy.toUInt32) color
    else []

def drawEach {ι : Type*} (draw : ι → Option (List (Store UInt8))) :
    List ι → Option (List (Store UInt8))
  | [] => some []
  | i :: is => do
    let stores ← draw i
    let rest ← drawEach draw is
    some (stores ++ rest)

def displayPutchar (m : Mode) (c : UInt8) (x y color : UInt32) : Option (List (Store UInt8)) :=
  if !m.available then some []
  else do
    let c := if c < 32 ∨ c > 126 then 32 else c
    let glyph ← selectGlyph c
    drawEach (fun row => do
      let bitmap ← glyph[row]?
      some (drawGlyphRow m x y color row bitmap)) (List.range 8)

def displayCharW : UInt32 := 16

def displayCharH : UInt32 := 16

/-- The loop of `display_puts_line`, with the number of characters that are left. -/
def putsLineLoop (m : Mode) (y color : UInt32) :
    ℕ → UInt32 → List UInt8 → Option (List (Store UInt8))
  | 0, _, _ => some []
  | _ + 1, _, [] => some []
  | maxChars + 1, cx, c :: str =>
    if c = 10 then some []
    else do
      let stores ← displayPutchar m c cx y color
      let rest ← putsLineLoop m y color maxChars (cx + displayCharW) str
      some (stores ++ rest)

def displayPutsLine (m : Mode) (str : List UInt8) (x y color : UInt32) :
    Option (List (Store UInt8)) :=
  if !m.available ∨ x ≥ m.width.toUInt32 then some []
  else
    let maxChars := (m.width.toUInt32 - x) / displayCharW
    if maxChars = 0 then some [] else putsLineLoop m y color maxChars.toNat x str

def putsLoop (m : Mode) (x color : UInt32) :
    UInt32 → UInt32 → List UInt8 → Option (List (Store UInt8))
  | _, _, [] => some []
  | cx, cy, c :: str =>
    if c = 10 then
      let cy := cy + displayCharH
      if cy + displayCharH > m.height.toUInt32 then some [] else putsLoop m x color x cy str
    else do
      let stores ← displayPutchar m c cx cy color
      let cx := cx + displayCharW
      if cx + displayCharW > m.width.toUInt32 then
        let cy := cy + displayCharH
        if cy + displayCharH > m.height.toUInt32 then some stores
        else do
          let rest ← putsLoop m x color x cy str
          some (stores ++ rest)
      else do
        let rest ← putsLoop m x color cx cy str
        some (stores ++ rest)

def displayPuts (m : Mode) (str : List UInt8) (x y color : UInt32) : Option (List (Store UInt8)) :=
  putsLoop m x color x y str

/-! ### The framebuffer -/

namespace Mode

/-- The stores lie between `addr` and `addr + pitch * height`. -/
def Inside (m : Mode) (stores : List (Store UInt8)) : Prop :=
  ∀ s ∈ stores, s.Below (m.pitch.toNat * m.height.toNat)

/-- The drawing reads the font within its bounds, and stores inside the framebuffer. -/
def DrawsInside (m : Mode) (drawing : Option (List (Store UInt8))) : Prop :=
  ∃ stores, drawing = some stores ∧ m.Inside stores

variable {m : Mode} {stores rest : List (Store UInt8)} {color : UInt32}

theorem inside_nil : m.Inside [] := fun _ hs => absurd hs List.not_mem_nil

theorem Inside.append (h : m.Inside stores) (hrest : m.Inside rest) : m.Inside (stores ++ rest) :=
  fun s hs => (List.mem_append.mp hs).elim (h s) (hrest s)

theorem inside_flatMap {ι : Type*} {draw : ι → List (Store UInt8)} {is : List ι}
    (h : ∀ i ∈ is, m.Inside (draw i)) : m.Inside (is.flatMap draw) := by
  intro s hs
  obtain ⟨i, hi, hs⟩ := List.mem_flatMap.mp hs
  exact h i hi s hs

theorem drawsInside_nil : m.DrawsInside (some []) := ⟨[], rfl, inside_nil⟩

theorem DrawsInside.append {first second : Option (List (Store UInt8))}
    (h : m.DrawsInside first) (hsecond : m.DrawsInside second) :
    m.DrawsInside (do
      let stores ← first
      let rest ← second
      some (stores ++ rest)) := by
  obtain ⟨stores, rfl, hin⟩ := h
  obtain ⟨rest, rfl, hrest⟩ := hsecond
  exact ⟨stores ++ rest, rfl, hin.append hrest⟩

theorem drawsInside_drawEach {ι : Type*} {draw : ι → Option (List (Store UInt8))} {is : List ι}
    (h : ∀ i ∈ is, m.DrawsInside (draw i)) : m.DrawsInside (drawEach draw is) := by
  induction is with
  | nil => exact drawsInside_nil
  | cons i is ih =>
    exact (h i List.mem_cons_self).append (ih fun j hj => h j (List.mem_cons_of_mem i hj))

/-! ### Pixels and rectangles -/

theorem inside_displayPutpixel (hapart : m.Apart) (x y color : UInt32) :
    m.Inside (displayPutpixel m x y color) := by
  intro s hs
  obtain ⟨hm, hon, rfl⟩ := mem_displayPutpixel.mp hs
  rw [Store.Below, hm.length_pixelBytes]
  exact Grid.place_le (g := m.pixels hapart) hon.1 hon.2

theorem inside_putpixels (hapart : m.Apart) (calls : List (UInt32 × UInt32)) (color : UInt32) :
    m.Inside (putpixels m calls color) :=
  inside_flatMap fun call _ => inside_displayPutpixel hapart call.1 call.2 color

theorem displayClear_of_not (htype : m.type ≠ .vgaText) (h : ¬m.Drawable) :
    displayClear m color = [] := by
  unfold displayClear
  rcases not_drawable_iff.mp h with ha | ⟨h8, h16, h32⟩
  · rw [ha]
    exact if_pos rfl
  · have hpixel : ∀ x y, clearPixel m color x y = [] := by
      intro x y
      rw [clearPixel, if_neg h32, if_neg h16]
    have hrow : ∀ y, ((List.range m.width.toNat).flatMap fun x => clearPixel m color x y) = [] :=
      fun y => List.flatMap_eq_nil_iff.mpr fun x _ => hpixel x y
    rw [if_neg htype, if_neg h8, List.flatMap_eq_nil_iff.mpr fun y _ => hrow y, ite_self]

theorem inside_displayClear_graphics (htype : m.type ≠ .vgaText) (hapart : m.Apart)
    (color : UInt32) : m.Inside (displayClear m color) := by
  by_cases hm : m.Drawable
  · intro s hs
    have hbelow := (hm.draws_clear hapart htype color).below (hm.length_clearBytes color) s hs
    exact hbelow.trans (Nat.mul_le_mul_right _ (clearStride_le hapart))
  · rw [displayClear_of_not htype hm]
    exact inside_nil

theorem inside_displayClear_text (color : UInt32) :
    probeVgaText.Inside (displayClear probeVgaText color) := by
  intro s hs
  obtain ⟨i, hi, rfl⟩ := List.mem_map.mp hs
  have hi : i < 2000 := List.mem_range.mp hi
  have hend : 2 * i + 2 ≤ 160 * 25 := by omega
  exact hend

theorem inside_displayClear (h : Installed m) (hapart : m.Apart) (color : UInt32) :
    m.Inside (displayClear m color) := by
  cases h with
  | text => exact inside_displayClear_text color
  | multiboot h =>
    obtain ⟨mode, -, rfl⟩ := Option.map_eq_some_iff.mp h
    exact inside_displayClear_graphics Backend.noConfusion hapart color
  | bochs h =>
    unfold bochsSetMode at h
    split_ifs at h
    cases h
    exact inside_displayClear_graphics Backend.noConfusion hapart color
  | mode13 h =>
    cases h
    exact inside_displayClear_graphics Backend.noConfusion hapart color

/-! ### Characters -/

theorem length_font8x8 : font8x8.length = 128 := by decide +kernel

theorem length_of_mem_font8x8 : ∀ glyph ∈ font8x8, glyph.length = 8 := by decide +kernel

theorem exists_selectGlyph {c : UInt8} (h : c ≤ 126) :
    ∃ glyph, selectGlyph c = some glyph ∧ glyph.length = 8 := by
  have hc : (if c ≥ 97 ∧ c ≤ 122 then c - 97 + 65 else c).toNat < font8x8.length := by
    rw [length_font8x8]
    have hle := UInt8.le_iff_toNat_le.mp h
    change c.toNat ≤ 126 at hle
    split_ifs with hlower
    · have hsub : (c - 97).toNat = c.toNat - 97 := UInt8.toNat_sub_of_le c 97 hlower.1
      rw [UInt8.toNat_add, hsub]
      change (c.toNat - 97 + 65) % 256 < 128
      omega
    · omega
  exact ⟨_, List.getElem?_eq_getElem hc, length_of_mem_font8x8 _ (List.getElem_mem hc)⟩

theorem inside_drawGlyphRow (hapart : m.Apart) (x y color : UInt32) (row : ℕ) (bitmap : UInt8) :
    m.Inside (drawGlyphRow m x y color row bitmap) := by
  refine inside_flatMap fun col _ => ?_
  split_ifs
  · exact inside_flatMap fun sy _ => inside_flatMap fun sx _ =>
      inside_displayPutpixel hapart _ _ color
  · exact inside_nil

theorem drawsInside_displayPutchar (hapart : m.Apart) (c : UInt8) (x y color : UInt32) :
    m.DrawsInside (displayPutchar m c x y color) := by
  unfold displayPutchar
  by_cases ha : m.available = true
  · have hc : (if c < 32 ∨ c > 126 then 32 else c) ≤ 126 := by
      split_ifs with hc
      · decide
      · exact UInt8.not_lt.mp fun hlt => hc (Or.inr hlt)
    obtain ⟨glyph, hglyph, hlength⟩ := exists_selectGlyph hc
    rw [ha, if_neg (by decide)]
    change m.DrawsInside (selectGlyph _ >>= _)
    rw [hglyph]
    refine drawsInside_drawEach fun row hrow => ?_
    rw [List.mem_range, ← hlength] at hrow
    rw [List.getElem?_eq_getElem hrow]
    exact ⟨_, rfl, inside_drawGlyphRow hapart x y color row _⟩
  · rw [Bool.not_eq_true] at ha
    rw [ha]
    exact drawsInside_nil

/-! ### Strings -/

theorem drawsInside_putsLineLoop (hapart : m.Apart) (y color : UInt32) (str : List UInt8) :
    ∀ maxChars cx, m.DrawsInside (putsLineLoop m y color maxChars cx str) := by
  induction str with
  | nil =>
    rintro (_ | maxChars) cx
    · exact drawsInside_nil
    · exact drawsInside_nil
  | cons c str ih =>
    rintro (_ | maxChars) cx
    · exact drawsInside_nil
    · unfold putsLineLoop
      split_ifs with hc
      · exact drawsInside_nil
      · exact (drawsInside_displayPutchar hapart c cx y color).append (ih maxChars _)

theorem drawsInside_displayPutsLine (hapart : m.Apart) (str : List UInt8) (x y color : UInt32) :
    m.DrawsInside (displayPutsLine m str x y color) := by
  unfold displayPutsLine
  split_ifs
  · exact drawsInside_nil
  · dsimp only
    split_ifs
    · exact drawsInside_nil
    · exact drawsInside_putsLineLoop hapart y color str _ x

theorem drawsInside_putsLoop (hapart : m.Apart) (x color : UInt32) (str : List UInt8) :
    ∀ cx cy, m.DrawsInside (putsLoop m x color cx cy str) := by
  induction str with
  | nil => exact fun _ _ => drawsInside_nil
  | cons c str ih =>
    intro cx cy
    have hchar := drawsInside_displayPutchar hapart c cx cy color
    unfold putsLoop
    dsimp only
    split_ifs
    -- the newline, behind the last row or not, and then the character
    · exact drawsInside_nil
    · exact ih x _
    · obtain ⟨stores, hstores, hin⟩ := hchar
      rw [hstores]
      exact ⟨stores, rfl, hin⟩
    · exact hchar.append (ih x _)
    · exact hchar.append (ih _ cy)

end Mode

/-- In every mode that the probes install, nothing is drawn outside of the framebuffer, and no row
of a glyph is read outside of the font. -/
theorem drawing_inside {m : Mode} (h : Installed m) (hapart : m.Apart) (color : UInt32) :
    m.Inside (displayClear m color) ∧
      (∀ x y, m.Inside (displayPutpixel m x y color)) ∧
      (∀ x y w h, m.Inside (displayFillRect m x y w h color)) ∧
      (∀ x y w h, m.Inside (displayDrawRect m x y w h color)) ∧
      (∀ c x y, m.DrawsInside (displayPutchar m c x y color)) ∧
      (∀ str x y, m.DrawsInside (displayPuts m str x y color)) ∧
      ∀ str x y, m.DrawsInside (displayPutsLine m str x y color) :=
  ⟨Mode.inside_displayClear h hapart color,
    fun x y => Mode.inside_displayPutpixel hapart x y color,
    fun x y w h => Mode.inside_putpixels hapart (fillRectCalls x y w h) color,
    fun x y w h => Mode.inside_putpixels hapart (drawRectCalls x y w h) color,
    fun c x y => Mode.drawsInside_displayPutchar hapart c x y color,
    fun str x y => Mode.drawsInside_putsLoop hapart x color str x y,
    fun str x y => Mode.drawsInside_displayPutsLine hapart str x y color⟩

/-- Three characters that hang over the lower right corner. -/
theorem drawing_inside_bochs :
    bochsMode.DrawsInside (displayPutsLine bochsMode [72, 105, 33] 752 592 0xFFFFFF) :=
  (drawing_inside (Installed.bochs (show bochsSetMode ⟨800, 600, 32⟩ 800 600 32 = some bochsMode by
      decide))
    (by unfold Mode.Apart; decide) 0xFFFFFF).2.2.2.2.2.2 _ _ _

end OpenKernel.Display
