import OpenKernel.Display.Clearing

/-!
# The pixels of a rectangle

Coordinates are added with a wrap and clipped pixel by pixel, so a rectangle that goes
past the largest coordinate comes back on the other side of the screen. The loops of
`display_draw_rect` draw two sides each, whether or not the rectangle has any width or
height. Both functions draw what they should exactly if that does not happen, or if
nothing of what they draw is on the screen.
-/

namespace OpenKernel.Display

/-- Column `px` and row `py` belong to the rectangle. -/
def InRect (x y w h : UInt32) (px py : ℕ) : Prop :=
  (x.toNat ≤ px ∧ px < x.toNat + w.toNat) ∧ y.toNat ≤ py ∧ py < y.toNat + h.toNat

/-- The border of the rectangle, one pixel wide. -/
def OnBorder (x y w h : UInt32) (px py : ℕ) : Prop :=
  InRect x y w h px py ∧
    (px = x.toNat ∨ px + 1 = x.toNat + w.toNat ∨ py = y.toNat ∨ py + 1 = y.toNat + h.toNat)

/-- The calls draw exactly the region: of the pixels on the screen they take those in it, and where
rows do not overlap these get the colour and no other byte changes. -/
structure Mode.DrawsExactly (m : Mode) (calls : List (UInt32 × UInt32))
    (stores : List (Store UInt8)) (color : UInt32) (region : ℕ → ℕ → Prop) : Prop where
  plotted : ∀ px py, m.OnScreen px py → ((px, py) ∈ calls ↔ region px.toNat py.toNat)
  painted : m.Apart → ∀ f px py, px < m.width.toNat → py < m.height.toNat → region px py →
    m.pixel (paint stores f) px py = m.pixelBytes color
  kept : ∀ hapart : m.Apart, ∀ f i, ¬(m.pixels hapart).Covers region i → paint stores f i = f i

/-- None of `len` pixels from `start` on is among the first `limit`. -/
def Misses (start len : UInt32) (limit : UInt16) : Prop :=
  limit = 0 ∨
    start.toNat + len.toNat ≤ 2 ^ 32 ∧ (len = 0 ∨ limit.toNat ≤ start.toNat)

/-- Neither end of the side is among the first `limit` pixels, also if it has no pixels. -/
def EndsOff (start len : UInt32) (limit : UInt16) : Prop :=
  limit.toNat ≤ start.toNat ∧ limit.toNat ≤ (start + len - 1).toNat

/-- No edge of the rectangle passes the largest coordinate. -/
def NoWrap (x y w h : UInt32) : Prop :=
  x.toNat + w.toNat ≤ 2 ^ 32 ∧ y.toNat + h.toNat ≤ 2 ^ 32

/-- The rectangle does not wrap, or lies beside the screen. -/
def Mode.FillFits (m : Mode) (x y w h : UInt32) : Prop :=
  NoWrap x y w h ∨ Misses x w m.width ∨ Misses y h m.height

/-- The rectangle has pixels and does not wrap, or its horizontal and its vertical sides lie beside
the screen. -/
def Mode.BorderFits (m : Mode) (x y w h : UInt32) : Prop :=
  (w ≠ 0 ∧ h ≠ 0 ∧ NoWrap x y w h) ∨
    (Misses x w m.width ∨ EndsOff y h m.height) ∧ (Misses y h m.height ∨ EndsOff x w m.width)

/-! ### One coordinate -/

section Coordinate

variable {start len p : UInt32} {limit : UInt16}

theorem sub_lt_iff : p - start < len ↔
    (start.toNat ≤ p.toNat ∧ p.toNat < start.toNat + len.toNat) ∨
      p.toNat + 2 ^ 32 < start.toNat + len.toNat := by
  have hp := p.toNat_lt
  have hstart := start.toNat_lt
  have hlen := len.toNat_lt
  rw [UInt32.lt_iff_toNat_lt, UInt32.toNat_sub]
  omega

theorem toNat_last : (start + len - 1).toNat =
    (start.toNat + len.toNat + (2 ^ 32 - 1)) % 2 ^ 32 := by
  rw [UInt32.toNat_sub, UInt32.toNat_add]
  change (2 ^ 32 - 1 + (start.toNat + len.toNat) % 2 ^ 32) % 2 ^ 32 = _
  omega

theorem eq_last_iff (hlen : len ≠ 0) : p = start + len - 1 ↔
    p.toNat + 1 = start.toNat + len.toNat ∨ p.toNat + 1 + 2 ^ 32 = start.toNat + len.toNat := by
  have hp := p.toNat_lt
  have hstart := start.toNat_lt
  have hlt := len.toNat_lt
  have hpos : len.toNat ≠ 0 := fun h => hlen (UInt32.toNat.inj h)
  rw [← UInt32.toNat_inj, toNat_last]
  omega

theorem zero_sub_lt (h : ¬start.toNat + len.toNat ≤ 2 ^ 32) : 0 - start < len := by
  refine sub_lt_iff.mpr (Or.inr ?_)
  change 0 + 2 ^ 32 < _
  omega

theorem not_le_zero (h : ¬start.toNat + len.toNat ≤ 2 ^ 32) :
    ¬start.toNat ≤ (0 : UInt32).toNat := by
  have hlen := len.toNat_lt
  change ¬start.toNat ≤ 0
  omega

theorem misses_iff : Misses start len limit ↔ ∀ p : UInt32, p.toNat < limit.toNat →
    ¬p - start < len := by
  have hzero : limit = 0 ↔ limit.toNat = 0 := UInt16.toNat_inj.symm
  have hlen : len = 0 ↔ len.toNat = 0 := UInt32.toNat_inj.symm
  have hstart := start.toNat_lt
  have hlimit := limit.toNat_lt
  rw [Misses, hzero, hlen]
  constructor
  · intro h p hp
    rw [sub_lt_iff]
    omega
  · intro h
    by_contra hnot
    -- the first pixel of the screen is reached after a wrap, and else the first one of the side
    by_cases hwrap : start.toNat + len.toNat ≤ 2 ^ 32
    · refine h start (by omega) (sub_lt_iff.mpr (Or.inl ?_))
      omega
    · refine h 0 ?_ (zero_sub_lt hwrap)
      change 0 < limit.toNat
      omega

theorem endsOff_iff : EndsOff start len limit ↔ ∀ p : UInt32, p.toNat < limit.toNat →
    ¬(p = start ∨ p = start + len - 1) := by
  constructor
  · rintro ⟨hfirst, hlast⟩ p hp (rfl | rfl)
    · omega
    · omega
  · intro h
    constructor
    · by_contra hlt
      exact h start (by omega) (Or.inl rfl)
    · by_contra hlt
      exact h _ (by omega) (Or.inr rfl)

end Coordinate

theorem InRect.ne_zero {x y w h : UInt32} {px py : ℕ} (hin : InRect x y w h px py) :
    w ≠ 0 ∧ h ≠ 0 := by
  constructor
  · rintro rfl
    exact absurd (Nat.lt_of_le_of_lt hin.1.1 hin.1.2) (lt_irrefl _)
  · rintro rfl
    exact absurd (Nat.lt_of_le_of_lt hin.2.1 hin.2.2) (lt_irrefl _)

/-! ### What is drawn -/

theorem mem_drawRectCalls {x y w h px py : UInt32} : (px, py) ∈ drawRectCalls x y w h ↔
    (px - x < w ∧ (py = y ∨ py = y + h - 1)) ∨ (py - y < h ∧ (px = x ∨ px = x + w - 1)) := by
  rw [← exists_add_eq_iff, ← exists_add_eq_iff, drawRectCalls, List.mem_append, List.mem_flatMap,
    List.mem_flatMap]
  simp only [List.mem_range, List.mem_cons, List.not_mem_nil, or_false, Prod.mk.injEq]
  constructor
  · rintro (⟨col, hcol, ⟨rfl, rfl⟩ | ⟨rfl, rfl⟩⟩ | ⟨row, hrow, ⟨rfl, rfl⟩ | ⟨rfl, rfl⟩⟩)
    · exact Or.inl ⟨⟨col, hcol, rfl⟩, Or.inl rfl⟩
    · exact Or.inl ⟨⟨col, hcol, rfl⟩, Or.inr rfl⟩
    · exact Or.inr ⟨⟨row, hrow, rfl⟩, Or.inl rfl⟩
    · exact Or.inr ⟨⟨row, hrow, rfl⟩, Or.inr rfl⟩
  · rintro (⟨⟨col, hcol, rfl⟩, rfl | rfl⟩ | ⟨⟨row, hrow, rfl⟩, rfl | rfl⟩)
    · exact Or.inl ⟨col, hcol, Or.inl ⟨rfl, rfl⟩⟩
    · exact Or.inl ⟨col, hcol, Or.inr ⟨rfl, rfl⟩⟩
    · exact Or.inr ⟨row, hrow, Or.inl ⟨rfl, rfl⟩⟩
    · exact Or.inr ⟨row, hrow, Or.inr ⟨rfl, rfl⟩⟩

namespace Mode

variable {m : Mode} {x y w h color : UInt32} {calls : List (UInt32 × UInt32)}
  {region : ℕ → ℕ → Prop}

theorem Drawable.drawsExactly_iff (hm : m.Drawable) :
    m.DrawsExactly calls (putpixels m calls color) color region ↔
      ∀ px py, m.OnScreen px py → ((px, py) ∈ calls ↔ region px.toNat py.toNat) := by
  constructor
  · exact DrawsExactly.plotted
  · intro hcalls
    refine ⟨hcalls, ?_, ?_⟩
    · intro hapart f px py hx hy hin
      have hlength := hm.length_pixelBytes color
      refine List.ext_getElem (by simp [pixel, hlength]) fun i hi hi' => ?_
      simp only [pixel, List.getElem_map, List.getElem_range]
      exact (hm.draws hapart color hcalls).paint_cell hlength hx hy hin
        (List.getElem?_eq_getElem hi')
    · intro hapart f i hout
      exact (hm.draws hapart color hcalls).paint_outside (hm.length_pixelBytes color) hout

theorem Drawable.drawsExactly_iff_of_subset (hm : m.Drawable) {good : Prop}
    (hsub : ∀ px py : UInt32, region px.toNat py.toNat → (px, py) ∈ calls)
    (hgood : good → ∀ px py, (px, py) ∈ calls → region px.toNat py.toNat)
    (hbad : ¬good → ∀ px py, m.OnScreen px py → (px, py) ∈ calls →
      ∃ px py, m.OnScreen px py ∧ (px, py) ∈ calls ∧ ¬region px.toNat py.toNat) :
    m.DrawsExactly calls (putpixels m calls color) color region ↔
      good ∨ ∀ px py, m.OnScreen px py → (px, py) ∉ calls := by
  rw [hm.drawsExactly_iff]
  constructor
  · intro hexact
    by_cases hg : good
    · exact Or.inl hg
    · refine Or.inr fun px py hon hcall => ?_
      obtain ⟨px', py', hon', hcall', hout⟩ := hbad hg px py hon hcall
      exact hout ((hexact px' py' hon').mp hcall')
  · rintro (hg | hnone) px py hon
    · exact ⟨hgood hg px py, hsub px py⟩
    · exact iff_of_false (hnone px py hon) fun hin => hnone px py hon (hsub px py hin)

/-! ### Filling -/

theorem mem_fillRectCalls_of_inRect {px py : UInt32} (h' : InRect x y w h px.toNat py.toNat) :
    (px, py) ∈ fillRectCalls x y w h :=
  mem_fillRectCalls.mpr ⟨sub_lt_iff.mpr (Or.inl h'.1), sub_lt_iff.mpr (Or.inl h'.2)⟩

theorem inRect_of_mem_fillRectCalls (hwrap : NoWrap x y w h) (px py : UInt32)
    (hcall : (px, py) ∈ fillRectCalls x y w h) : InRect x y w h px.toNat py.toNat := by
  obtain ⟨hx, hy⟩ := hwrap
  rw [mem_fillRectCalls, sub_lt_iff, sub_lt_iff] at hcall
  exact ⟨by omega, by omega⟩

theorem exists_fill_outside (hwrap : ¬NoWrap x y w h) (px py : UInt32) (hon : m.OnScreen px py)
    (hcall : (px, py) ∈ fillRectCalls x y w h) :
    ∃ px py, m.OnScreen px py ∧ (px, py) ∈ fillRectCalls x y w h ∧
      ¬InRect x y w h px.toNat py.toNat := by
  obtain ⟨hx, hy⟩ := mem_fillRectCalls.mp hcall
  rcases not_and_or.mp hwrap with hwx | hwy
  · exact ⟨0, py, ⟨Nat.zero_lt_of_lt hon.1, hon.2⟩, mem_fillRectCalls.mpr ⟨zero_sub_lt hwx, hy⟩,
      fun hin => not_le_zero hwx hin.1.1⟩
  · exact ⟨px, 0, ⟨hon.1, Nat.zero_lt_of_lt hon.2⟩, mem_fillRectCalls.mpr ⟨hx, zero_sub_lt hwy⟩,
      fun hin => not_le_zero hwy hin.2.1⟩

theorem fill_beside_iff : (∀ px py, m.OnScreen px py → (px, py) ∉ fillRectCalls x y w h) ↔
    Misses x w m.width ∨ Misses y h m.height := by
  rw [misses_iff, misses_iff]
  constructor
  · intro hnone
    by_contra hnot
    push Not at hnot
    obtain ⟨⟨px, hpx, hx⟩, py, hpy, hy⟩ := hnot
    exact hnone px py ⟨hpx, hpy⟩ (mem_fillRectCalls.mpr ⟨hx, hy⟩)
  · rintro hmiss px py ⟨hpx, hpy⟩ hcall
    obtain ⟨hx, hy⟩ := mem_fillRectCalls.mp hcall
    exact hmiss.elim (fun h => h px hpx hx) (fun h => h py hpy hy)

theorem Drawable.fill_exact_iff (hm : m.Drawable) :
    m.DrawsExactly (fillRectCalls x y w h) (displayFillRect m x y w h color) color
      (InRect x y w h) ↔ m.FillFits x y w h :=
  (hm.drawsExactly_iff_of_subset (fun _ _ => mem_fillRectCalls_of_inRect)
    inRect_of_mem_fillRectCalls exists_fill_outside).trans (or_congr_right fill_beside_iff)

/-! ### Borders -/

theorem mem_drawRectCalls_of_onBorder {px py : UInt32} (h' : OnBorder x y w h px.toNat py.toNat) :
    (px, py) ∈ drawRectCalls x y w h := by
  obtain ⟨hin, hside⟩ := h'
  obtain ⟨hw, hh⟩ := hin.ne_zero
  have hpx := sub_lt_iff.mpr (Or.inl hin.1)
  have hpy := sub_lt_iff.mpr (Or.inl hin.2)
  rw [mem_drawRectCalls]
  rcases hside with hfirst | hlast | hfirst | hlast
  · exact Or.inr ⟨hpy, Or.inl (UInt32.toNat.inj hfirst)⟩
  · exact Or.inr ⟨hpy, Or.inr ((eq_last_iff hw).mpr (Or.inl hlast))⟩
  · exact Or.inl ⟨hpx, Or.inl (UInt32.toNat.inj hfirst)⟩
  · exact Or.inl ⟨hpx, Or.inr ((eq_last_iff hh).mpr (Or.inl hlast))⟩

theorem onBorder_of_mem_drawRectCalls (hgood : w ≠ 0 ∧ h ≠ 0 ∧ NoWrap x y w h) (px py : UInt32)
    (hcall : (px, py) ∈ drawRectCalls x y w h) : OnBorder x y w h px.toNat py.toNat := by
  obtain ⟨hw, hh, hx, hy⟩ := hgood
  have hwpos : w.toNat ≠ 0 := fun h0 => hw (UInt32.toNat.inj h0)
  have hhpos : h.toNat ≠ 0 := fun h0 => hh (UInt32.toNat.inj h0)
  rw [mem_drawRectCalls, sub_lt_iff, sub_lt_iff, eq_last_iff hw, eq_last_iff hh,
    ← UInt32.toNat_inj, ← UInt32.toNat_inj] at hcall
  unfold OnBorder InRect
  omega

theorem exists_border_outside (hbad : ¬(w ≠ 0 ∧ h ≠ 0 ∧ NoWrap x y w h)) (px py : UInt32)
    (hon : m.OnScreen px py) (hcall : (px, py) ∈ drawRectCalls x y w h) :
    ∃ px py, m.OnScreen px py ∧ (px, py) ∈ drawRectCalls x y w h ∧
      ¬OnBorder x y w h px.toNat py.toNat := by
  by_cases hin : OnBorder x y w h px.toNat py.toNat
  · -- the corner is on the screen, and one of its sides wraps
    have hcorner : m.OnScreen x y :=
      ⟨hin.1.1.1.trans_lt hon.1, hin.1.2.1.trans_lt hon.2⟩
    have hwrap : ¬NoWrap x y w h :=
      fun hno => hbad ⟨hin.1.ne_zero.1, hin.1.ne_zero.2, hno⟩
    rcases not_and_or.mp hwrap with hwx | hwy
    · exact ⟨0, y, ⟨Nat.zero_lt_of_lt hcorner.1, hcorner.2⟩,
        mem_drawRectCalls.mpr (Or.inl ⟨zero_sub_lt hwx, Or.inl rfl⟩),
        fun hout => not_le_zero hwx hout.1.1.1⟩
    · exact ⟨x, 0, ⟨hcorner.1, Nat.zero_lt_of_lt hcorner.2⟩,
        mem_drawRectCalls.mpr (Or.inr ⟨zero_sub_lt hwy, Or.inl rfl⟩),
        fun hout => not_le_zero hwy hout.1.2.1⟩
  · exact ⟨px, py, hon, hcall, hin⟩

theorem border_beside_iff : (∀ px py, m.OnScreen px py → (px, py) ∉ drawRectCalls x y w h) ↔
    (Misses x w m.width ∨ EndsOff y h m.height) ∧ (Misses y h m.height ∨ EndsOff x w m.width) := by
  rw [misses_iff, misses_iff, endsOff_iff, endsOff_iff]
  constructor
  · intro hnone
    constructor
    · by_contra hnot
      push Not at hnot
      obtain ⟨⟨px, hpx, hx⟩, py, hpy, hy⟩ := hnot
      exact hnone px py ⟨hpx, hpy⟩ (mem_drawRectCalls.mpr (Or.inl ⟨hx, hy⟩))
    · by_contra hnot
      push Not at hnot
      obtain ⟨⟨py, hpy, hy⟩, px, hpx, hx⟩ := hnot
      exact hnone px py ⟨hpx, hpy⟩ (mem_drawRectCalls.mpr (Or.inr ⟨hy, hx⟩))
  · rintro ⟨hhor, hver⟩ px py ⟨hpx, hpy⟩ hcall
    rcases mem_drawRectCalls.mp hcall with ⟨hx, hy⟩ | ⟨hy, hx⟩
    · exact hhor.elim (fun h => h px hpx hx) (fun h => h py hpy hy)
    · exact hver.elim (fun h => h py hpy hy) (fun h => h px hpx hx)

theorem Drawable.border_exact_iff (hm : m.Drawable) :
    m.DrawsExactly (drawRectCalls x y w h) (displayDrawRect m x y w h color) color
      (OnBorder x y w h) ↔ m.BorderFits x y w h :=
  (hm.drawsExactly_iff_of_subset (fun _ _ => mem_drawRectCalls_of_onBorder)
    (fun hgood => onBorder_of_mem_drawRectCalls hgood) exists_border_outside).trans
    (or_congr_right border_beside_iff)

end Mode

/-- Filling a rectangle changes exactly its pixels on the screen if and only if it does not wrap or
lies beside the screen; drawing its border, if and only if moreover it has pixels, or its sides lie
beside the screen. -/
theorem rectangles_exact_iff {m : Mode} (hm : m.Drawable) (x y w h color : UInt32) :
    (m.DrawsExactly (fillRectCalls x y w h) (displayFillRect m x y w h color) color
      (InRect x y w h) ↔ m.FillFits x y w h) ∧
    (m.DrawsExactly (drawRectCalls x y w h) (displayDrawRect m x y w h color) color
      (OnBorder x y w h) ↔ m.BorderFits x y w h) :=
  ⟨hm.fill_exact_iff, hm.border_exact_iff⟩

/-- A rectangle over the lower right corner of the screen, and its border. -/
theorem rectangles_exact_bochs :
    bochsMode.FillFits 790 590 100 100 ∧
      bochsMode.DrawsExactly (drawRectCalls 790 590 100 100)
        (displayDrawRect bochsMode 790 590 100 100 0xFFFFFF) 0xFFFFFF
        (OnBorder 790 590 100 100) :=
  ⟨Or.inl (by unfold NoWrap; decide),
    (rectangles_exact_iff (m := bochsMode) ⟨rfl, Or.inr (Or.inr rfl)⟩ 790 590 100 100
      0xFFFFFF).2.mpr (Or.inl ⟨by decide, by decide, by unfold NoWrap; decide⟩)⟩

/-- The border of a rectangle without width has the columns 9 and 10, and a rectangle that goes
past the largest coordinate fills a pixel at the left. -/
theorem not_rectangles_exact_bochs :
    ¬bochsMode.DrawsExactly (drawRectCalls 10 10 0 5) (displayDrawRect bochsMode 10 10 0 5 0) 0
        (OnBorder 10 10 0 5) ∧
      ¬bochsMode.DrawsExactly (fillRectCalls 0xFFFFFFFF 0 2 1)
        (displayFillRect bochsMode 0xFFFFFFFF 0 2 1 0) 0 (InRect 0xFFFFFFFF 0 2 1) := by
  constructor
  · intro hexact
    have hcall : ((9, 10) : UInt32 × UInt32) ∈ drawRectCalls 10 10 0 5 := by decide
    have hin := (hexact.plotted 9 10 ⟨by decide, by decide⟩).mp hcall
    exact hin.1.ne_zero.1 rfl
  · intro hexact
    have hcall : ((0, 0) : UInt32 × UInt32) ∈ fillRectCalls 0xFFFFFFFF 0 2 1 := by decide
    have hin := (hexact.plotted 0 0 ⟨by decide, by decide⟩).mp hcall
    exact absurd hin.1.1 (by decide)

end OpenKernel.Display
