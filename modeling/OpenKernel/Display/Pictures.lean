import OpenKernel.Display.Glyphs
import OpenKernel.Lib.Layers

/-!
# Pictures on the screen

What the functions of `display.c` draw, as layers over what is on the screen. Clearing it paints a
layer that covers everything, so that a screen that starts with it shows the same picture
whatever was there before. The colour of that layer is not converted.
-/

namespace OpenKernel.Display

def displayRgb (r g b : UInt8) : UInt32 :=
  r.toUInt32 <<< 16 ||| g.toUInt32 <<< 8 ||| b.toUInt32

/-- The mode that `display_enter_gfx` installs, by the answers of the probes. -/
def displayEnterGfx (bochs : Bool) (vbe : VbeRegisters) (writable : Bool) : Option Mode :=
  if bochs then
    match bochsSetMode vbe 800 600 32 with
    | some m => some m
    | none => probeVgaMode13 writable
  else probeVgaMode13 writable

namespace Mode

def layer (m : Mode) (region : ℕ → ℕ → Prop) (color : UInt32) : Layer UInt8 :=
  ⟨region, m.pixelBytes color⟩

/-- The screen as `display_clear` leaves it. -/
def cleared (m : Mode) (color : UInt32) : Layer UInt8 := ⟨fun _ _ => True, m.clearBytes color⟩

/-- A graphics mode that `display_clear` clears pixel by pixel. -/
structure Regular (m : Mode) : Prop where
  drawable : m.Drawable
  apart : m.Apart
  graphics : m.type ≠ .vgaText
  stride : m.clearStride = m.pitch.toNat

/-- The drawing reads the font within its bounds and paints the layers. -/
def Paints (m : Mode) (layers : List (Layer UInt8)) (drawing : Option (List (Store UInt8))) :
    Prop :=
  ∃ stores, drawing = some stores ∧ ∀ hapart : m.Apart, (m.pixels hapart).Paints layers stores

/-- The pixels of the screen are those of the picture. -/
def Displays (m : Mode) (f : ℕ → UInt8) (layers : List (Layer UInt8)) : Prop :=
  ∀ px py, px < m.width.toNat → py < m.height.toNat →
    m.pixel f px py = overlay layers (fun _ _ => []) px py

section Paints

variable {m : Mode} {layers rest : List (Layer UInt8)} {layerss : List (List (Layer UInt8))}
  {drawings : List (Option (List (Store UInt8)))} {stores : List (Store UInt8)}
  {calls : List (UInt32 × UInt32)} {region : ℕ → ℕ → Prop} {x y w h color : UInt32}
  {f : ℕ → UInt8}

theorem paints_nil (m : Mode) : m.Paints [] (some []) := ⟨[], rfl, fun _ => Grid.paints_nil _⟩

theorem Paints.append {first second : Option (List (Store UInt8))} (hfirst : m.Paints layers first)
    (hsecond : m.Paints rest second) : m.Paints (layers ++ rest) (do
      let stores ← first
      let more ← second
      some (stores ++ more)) := by
  obtain ⟨stores, rfl, hstores⟩ := hfirst
  obtain ⟨more, rfl, hmore⟩ := hsecond
  exact ⟨stores ++ more, rfl, fun hapart => (hstores hapart).append (hmore hapart)⟩

theorem paints_drawEach (hall : List.Forall₂ m.Paints layerss drawings) :
    m.Paints layerss.flatten (drawEach id drawings) := by
  induction hall with
  | nil => exact m.paints_nil
  | cons hfirst _ ih => exact hfirst.append ih

theorem Regular.paints_clear (hm : m.Regular) (color : UInt32) :
    m.Paints [m.cleared color] (some (displayClear m color)) := by
  refine ⟨_, rfl, fun hapart => ?_⟩
  have hgrid : clearPixels hm.drawable hapart = m.pixels hapart := by
    unfold clearPixels pixels
    simp only [hm.stride]
  have hdraws := hm.drawable.draws_clear hapart hm.graphics color
  rw [hgrid] at hdraws
  exact Grid.Draws.paints (l := m.cleared color) hdraws (hm.drawable.length_clearBytes color)

theorem Drawable.paints_putpixels (hm : m.Drawable) (color : UInt32)
    (hcalls : ∀ px py, m.OnScreen px py → ((px, py) ∈ calls ↔ region px.toNat py.toNat)) :
    m.Paints [m.layer region color] (some (putpixels m calls color)) :=
  ⟨_, rfl, fun hapart => Grid.Draws.paints (l := m.layer region color)
    (hm.draws hapart color hcalls) (hm.length_pixelBytes color)⟩

theorem Drawable.paints_fillRect (hm : m.Drawable) (hwrap : NoWrap x y w h) (color : UInt32) :
    m.Paints [m.layer (InRect x y w h) color] (some (displayFillRect m x y w h color)) := by
  have hexact : m.DrawsExactly (fillRectCalls x y w h) (displayFillRect m x y w h color) color
      (InRect x y w h) := hm.fill_exact_iff.mpr (Or.inl hwrap)
  exact hm.paints_putpixels color hexact.plotted

theorem Drawable.paints_drawRect (hm : m.Drawable) (hw : w ≠ 0) (hh : h ≠ 0)
    (hwrap : NoWrap x y w h) (color : UInt32) :
    m.Paints [m.layer (OnBorder x y w h) color] (some (displayDrawRect m x y w h color)) := by
  have hexact : m.DrawsExactly (drawRectCalls x y w h) (displayDrawRect m x y w h color) color
      (OnBorder x y w h) := hm.border_exact_iff.mpr (Or.inl ⟨hw, hh, hwrap⟩)
  exact hm.paints_putpixels color hexact.plotted

theorem Drawable.paints_putsLine (hm : m.Drawable) (str : List UInt8) (x : UInt32)
    (hy : y.toNat + 16 ≤ 2 ^ 32) (color : UInt32) :
    m.Paints [m.layer (InLine (visible m x.toNat str) x.toNat y.toNat) color]
      (displayPutsLine m str x y color) := by
  rw [displayPutsLine_eq hm.available]
  exact hm.paints_putpixels color fun _ _ _ => mem_lineCalls_visible hy

theorem Drawable.paints_puts (hm : m.Drawable) (str : List UInt8) (hx : x.toNat + 32 < 2 ^ 32)
    (hy : y.toNat + 32 < 2 ^ 32) (color : UInt32) :
    m.Paints [m.layer (InText m str x.toNat y.toNat) color] (displayPuts m str x y color) := by
  rw [displayPuts_eq hm.available]
  exact hm.paints_putpixels color fun _ _ _ => mem_putsCalls hx hy

theorem Regular.displays (hm : m.Regular)
    (hpaints : m.Paints (m.cleared color :: layers) (some stores)) (f : ℕ → UInt8) :
    m.Displays (paint stores f) (m.cleared color :: layers) := by
  obtain ⟨stores', hsome, hlayers⟩ := hpaints
  obtain rfl := Option.some.inj hsome
  intro px py hx hy
  exact (hlayers hm.apart f px py hx hy).trans (overlay_of_region trivial)

theorem Displays.paint (hf : m.Displays f layers) (hm : m.Regular)
    (hpaints : m.Paints rest (some stores)) : m.Displays (paint stores f) (layers ++ rest) := by
  obtain ⟨stores', hsome, hlayers⟩ := hpaints
  obtain rfl := Option.some.inj hsome
  intro px py hx hy
  rw [overlay_append]
  exact (hlayers hm.apart f px py hx hy).trans (overlay_congr (hf px py hx hy))

end Paints

end Mode

theorem displayEnterGfx_eq {bochs writable : Bool} {vbe : VbeRegisters} {m : Mode}
    (h : displayEnterGfx bochs vbe writable = some m) : m = bochsMode ∨ m = vgaMode13 := by
  have hmode13 : probeVgaMode13 writable = some m → m = vgaMode13 := by
    intro h
    cases writable with
    | false => cases h
    | true => exact (Option.some.inj h).symm
  unfold displayEnterGfx at h
  split_ifs at h
  · cases hbochs : bochsSetMode vbe 800 600 32 with
    | none =>
      rw [hbochs] at h
      exact Or.inr (hmode13 h)
    | some m' =>
      rw [hbochs] at h
      obtain rfl := Option.some.inj h
      unfold bochsSetMode at hbochs
      split_ifs at hbochs
      exact Or.inl (Option.some.inj hbochs).symm
  · exact Or.inr (hmode13 h)

theorem regular_of_displayEnterGfx {bochs writable : Bool} {vbe : VbeRegisters} {m : Mode}
    (h : displayEnterGfx bochs vbe writable = some m) : m.Regular := by
  rcases displayEnterGfx_eq h with rfl | rfl
  · exact ⟨⟨rfl, Or.inr (Or.inr rfl)⟩, by unfold Mode.Apart; decide, by decide, by decide⟩
  · exact ⟨⟨rfl, Or.inl rfl⟩, by unfold Mode.Apart; decide, by decide, by decide⟩

end OpenKernel.Display
