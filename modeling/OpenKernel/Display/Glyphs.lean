import OpenKernel.Display.Rectangles
import OpenKernel.Display.Text

/-!
# The pixels of a text

Where `display_puts_line` and `display_puts` put the characters of a string, and which pixels
these light. A line is cut at its first newline and at the right edge. `display_puts` goes on in
the next row at a newline and where the next character would not fit, until a row does not
fit either; it draws the first row wherever that is. Both draw exactly the lit pixels that are on
the screen, unless their coordinates come close to the largest one.
-/

namespace OpenKernel.Display

/-! ### Characters -/

/-- The character that `display_putchar` draws for `c`. -/
def shownChar (c : UInt8) : UInt8 := if c < 32 ∨ c > 126 then 32 else c

/-- The pixel of the font in column `col` of row `row`. -/
def lit (c : UInt8) (row col : ℕ) : Bool :=
  match selectGlyph (shownChar c) with
  | none => false
  | some glyph => glyph.getD row 0 &&& ((0x80 : UInt8) >>> col.toUInt8) ≠ 0

/-- The square of a pixel of the font. -/
def squareCalls (x y : UInt32) (row col : ℕ) : List (UInt32 × UInt32) :=
  (List.range 2).flatMap fun sy => (List.range 2).map fun sx =>
    (x + (col * 2).toUInt32 + sx.toUInt32, y + (row * 2).toUInt32 + sy.toUInt32)

/-- The calls that `display_putchar` makes. -/
def glyphCalls (c : UInt8) (x y : UInt32) : List (UInt32 × UInt32) :=
  (List.range 8).flatMap fun row => (List.range 8).flatMap fun col =>
    if lit c row col then squareCalls x y row col else []

/-- The pixel belongs to the character at `x`, `y`. -/
def InGlyph (c : UInt8) (x y px py : ℕ) : Prop :=
  (x ≤ px ∧ px < x + 16) ∧ (y ≤ py ∧ py < y + 16) ∧ lit c ((py - y) / 2) ((px - x) / 2)

section Characters

variable {m : Mode} {c : UInt8} {x y color px py : UInt32}

theorem putpixels_flatMap {ι : Type*} (m : Mode) (is : List ι)
    (calls : ι → List (UInt32 × UInt32)) (color : UInt32) :
    putpixels m (is.flatMap calls) color = is.flatMap fun i => putpixels m (calls i) color :=
  List.flatMap_assoc

theorem putpixels_append (m : Mode) (first second : List (UInt32 × UInt32)) (color : UInt32) :
    putpixels m (first ++ second) color = putpixels m first color ++ putpixels m second color :=
  List.flatMap_append

theorem drawEach_eq {ι : Type*} {draw : ι → Option (List (Store UInt8))} {is : List ι}
    (stores : ι → List (Store UInt8)) (h : ∀ i ∈ is, draw i = some (stores i)) :
    drawEach draw is = some (is.flatMap stores) := by
  induction is with
  | nil => rfl
  | cons i is ih =>
    rw [drawEach, h i List.mem_cons_self, ih fun j hj => h j (List.mem_cons_of_mem i hj)]
    rfl

theorem shownChar_le (c : UInt8) : shownChar c ≤ 126 := by
  unfold shownChar
  split_ifs with h
  · decide
  · exact UInt8.not_lt.mp fun hlt => h (Or.inr hlt)

theorem drawGlyphRow_eq (m : Mode) (x y color : UInt32) (row : ℕ) (bitmap : UInt8) :
    drawGlyphRow m x y color row bitmap = putpixels m ((List.range 8).flatMap fun col =>
      if bitmap &&& ((0x80 : UInt8) >>> col.toUInt8) ≠ 0 then squareCalls x y row col else [])
      color := by
  rw [putpixels_flatMap]
  unfold drawGlyphRow
  congr 1
  funext col
  split_ifs
  · rw [squareCalls, putpixels_flatMap]
    rfl
  · rfl

theorem displayPutchar_eq (ha : m.available = true) (c : UInt8) (x y color : UInt32) :
    displayPutchar m c x y color = some (putpixels m (glyphCalls c x y) color) := by
  obtain ⟨glyph, hglyph, hlength⟩ := Mode.exists_selectGlyph (shownChar_le c)
  unfold displayPutchar
  rw [ha, if_neg (by decide)]
  change (selectGlyph (shownChar c) >>= _) = _
  rw [hglyph]
  refine (drawEach_eq (fun row => drawGlyphRow m x y color row (glyph.getD row 0))
    fun row hrow => ?_).trans ?_
  · have hlt : row < glyph.length := by rw [hlength]; exact List.mem_range.mp hrow
    rw [List.getElem?_eq_getElem hlt, List.getD_eq_getElem?_getD, List.getElem?_eq_getElem hlt]
    rfl
  · congr 1
    rw [glyphCalls, putpixels_flatMap]
    congr 1
    funext row
    rw [drawGlyphRow_eq]
    unfold lit
    rw [hglyph]
    congr 2
    funext col
    simp only [decide_eq_true_eq]

theorem toNat_square {col s : ℕ} (hx : x.toNat + 16 ≤ 2 ^ 32) (hcol : col < 8) (hs : s < 2) :
    (x + (col * 2).toUInt32 + s.toUInt32).toNat = x.toNat + 2 * col + s := by
  have hcol' : (col * 2).toUInt32.toNat = col * 2 := toNat_toUInt32 (by omega)
  have hs' : s.toUInt32.toNat = s := toNat_toUInt32 (by omega)
  rw [UInt32.toNat_add, UInt32.toNat_add, hcol', hs']
  omega

/-- Without a wrap the calls take the lit squares. -/
theorem mem_glyphCalls (hx : x.toNat + 16 ≤ 2 ^ 32) (hy : y.toNat + 16 ≤ 2 ^ 32) :
    (px, py) ∈ glyphCalls c x y ↔ InGlyph c x.toNat y.toNat px.toNat py.toNat := by
  unfold glyphCalls InGlyph
  simp only [List.mem_flatMap, List.mem_range]
  constructor
  · rintro ⟨row, hrow, col, hcol, hmem⟩
    split_ifs at hmem with hlit
    · simp only [squareCalls, List.mem_flatMap, List.mem_map, List.mem_range] at hmem
      obtain ⟨sy, hsy, sx, hsx, heq⟩ := hmem
      obtain ⟨rfl, rfl⟩ := Prod.mk.inj heq
      rw [toNat_square hx hcol hsx, toNat_square hy hrow hsy]
      have hcol' : (x.toNat + 2 * col + sx - x.toNat) / 2 = col := by omega
      have hrow' : (y.toNat + 2 * row + sy - y.toNat) / 2 = row := by omega
      rw [hcol', hrow']
      exact ⟨by omega, by omega, hlit⟩
    · cases hmem
  · rintro ⟨hcol, hrow, hlit⟩
    refine ⟨(py.toNat - y.toNat) / 2, by omega, (px.toNat - x.toNat) / 2, by omega, ?_⟩
    rw [if_pos hlit]
    simp only [squareCalls, List.mem_flatMap, List.mem_map, List.mem_range]
    refine ⟨(py.toNat - y.toNat) % 2, by omega, (px.toNat - x.toNat) % 2, by omega, ?_⟩
    rw [Prod.mk.injEq, ← UInt32.toNat_inj, ← UInt32.toNat_inj,
      toNat_square hx (by omega) (by omega), toNat_square hy (by omega) (by omega)]
    omega

end Characters

/-! ### Lines -/

/-- The characters of the string that `display_puts_line` draws. -/
def visible (m : Mode) (x : ℕ) (str : List UInt8) : List UInt8 :=
  (str.takeWhile (· ≠ 10)).take ((m.width.toNat - x) / 16)

/-- The calls that draw characters next to each other. -/
def lineCalls (y : UInt32) : UInt32 → List UInt8 → List (UInt32 × UInt32)
  | _, [] => []
  | x, c :: chars => glyphCalls c x y ++ lineCalls y (x + displayCharW) chars

/-- The pixel belongs to one of the characters, the first of which is at `x`, `y`. -/
def InLine (chars : List UInt8) (x y px py : ℕ) : Prop :=
  ∃ i c, chars[i]? = some c ∧ InGlyph c (x + 16 * i) y px py

section Lines

variable {m : Mode} {chars str : List UInt8} {x y color px py : UInt32}

theorem not_inLine_nil {x y px py : ℕ} : ¬InLine [] x y px py := by
  rintro ⟨i, c, hi, -⟩
  cases hi

theorem inLine_cons {c : UInt8} {x y px py : ℕ} : InLine (c :: chars) x y px py ↔
    InGlyph c x y px py ∨ InLine chars (x + 16) y px py := by
  constructor
  · rintro ⟨i, d, hi, hin⟩
    cases i with
    | zero =>
      obtain rfl := Option.some.inj hi
      exact Or.inl hin
    | succ i =>
      rw [show x + 16 * (i + 1) = x + 16 + 16 * i by ring] at hin
      exact Or.inr ⟨i, d, hi, hin⟩
  · rintro (hin | ⟨i, d, hi, hin⟩)
    · exact ⟨0, c, rfl, hin⟩
    · rw [show x + 16 + 16 * i = x + 16 * (i + 1) by ring] at hin
      exact ⟨i + 1, d, hi, hin⟩

theorem mem_lineCalls (hx : x.toNat + 16 * chars.length < 2 ^ 32) (hy : y.toNat + 16 ≤ 2 ^ 32) :
    (px, py) ∈ lineCalls y x chars ↔ InLine chars x.toNat y.toNat px.toNat py.toNat := by
  induction chars generalizing x with
  | nil => exact iff_of_false List.not_mem_nil not_inLine_nil
  | cons c chars ih =>
    rw [List.length_cons] at hx
    have hnext : (x + displayCharW).toNat = x.toNat + 16 := by
      rw [UInt32.toNat_add]
      exact Nat.mod_eq_of_lt (by change x.toNat + 16 < 2 ^ 32; omega)
    rw [lineCalls, List.mem_append, mem_glyphCalls (by omega) hy, ih (by omega), hnext,
      inLine_cons]

theorem putsLineLoop_eq (ha : m.available = true) (maxChars : ℕ) :
    putsLineLoop m y color maxChars x str = some
      (putpixels m (lineCalls y x ((str.takeWhile (· ≠ 10)).take maxChars)) color) := by
  induction str generalizing maxChars x with
  | nil => cases maxChars <;> rfl
  | cons c str ih =>
    cases maxChars with
    | zero => rfl
    | succ maxChars =>
      unfold putsLineLoop
      by_cases hc : c = 10
      · rw [if_pos hc, List.takeWhile_cons_of_neg (by simpa using hc)]
        rfl
      · rw [if_neg hc, List.takeWhile_cons_of_pos (by simpa using hc), List.take_succ_cons,
          lineCalls, putpixels_append, displayPutchar_eq ha, ih]
        rfl

theorem displayPutsLine_eq (ha : m.available = true) (str : List UInt8) (x y color : UInt32) :
    displayPutsLine m str x y color =
      some (putpixels m (lineCalls y x (visible m x.toNat str)) color) := by
  unfold displayPutsLine
  rw [ha]
  by_cases hx : x ≥ m.width.toUInt32
  · have hnone : m.width.toNat - x.toNat = 0 := by
      have hle := UInt32.le_iff_toNat_le.mp hx
      rw [UInt16.toNat_toUInt32] at hle
      omega
    rw [if_pos (Or.inr hx), visible, hnone]
    rfl
  · have hmax : ((m.width.toUInt32 - x) / displayCharW).toNat =
        (m.width.toNat - x.toNat) / 16 := by
      have hlt := UInt32.lt_iff_toNat_lt.mp (UInt32.not_le.mp hx)
      rw [UInt32.toNat_div, UInt32.toNat_sub_of_le _ _ (UInt32.le_iff_toNat_le.mpr hlt.le),
        UInt16.toNat_toUInt32]
      rfl
    rw [if_neg (by simp [hx])]
    dsimp only
    split_ifs with hzero
    · rw [hzero] at hmax
      rw [visible, ← hmax]
      rfl
    · rw [putsLineLoop_eq ha, hmax]
      rfl

theorem length_visible_le (m : Mode) (x : ℕ) (str : List UInt8) :
    16 * (visible m x str).length ≤ m.width.toNat - x := by
  have hle := List.length_take_le ((m.width.toNat - x) / 16) (str.takeWhile (· ≠ 10))
  change (visible m x str).length ≤ _ at hle
  omega

theorem mem_lineCalls_visible (hy : y.toNat + 16 ≤ 2 ^ 32) :
    (px, py) ∈ lineCalls y x (visible m x.toNat str) ↔
      InLine (visible m x.toNat str) x.toNat y.toNat px.toNat py.toNat := by
  have hlen := length_visible_le m x.toNat str
  have hx := x.toNat_lt
  have hwidth := m.width.toNat_lt
  exact mem_lineCalls (by omega) hy

end Lines

/-! ### Rows -/

def putsCalls (m : Mode) (x : UInt32) : UInt32 → UInt32 → List UInt8 → List (UInt32 × UInt32)
  | _, _, [] => []
  | cx, cy, c :: str =>
    if c = 10 then
      if cy + displayCharH + displayCharH > m.height.toUInt32 then []
      else putsCalls m x x (cy + displayCharH) str
    else
      glyphCalls c cx cy ++
        if cx + displayCharW + displayCharW > m.width.toUInt32 then
          if cy + displayCharH + displayCharH > m.height.toUInt32 then []
          else putsCalls m x x (cy + displayCharH) str
        else putsCalls m x (cx + displayCharW) cy str

/-- The characters in a row, at least one. -/
def columns (m : Mode) (x : ℕ) : ℕ := max 1 ((m.width.toNat - x) / 16)

/-- Column and row behind a character. -/
def nextCell (columns : ℕ) (cell : ℕ × ℕ) (c : UInt8) : ℕ × ℕ :=
  if c = 10 ∨ cell.1 + 1 = columns then (0, cell.2 + 1) else (cell.1 + 1, cell.2)

/-- The row ends on the screen. -/
def RowFits (m : Mode) (y row : ℕ) : Prop := y + 16 * row + 16 ≤ m.height.toNat

/-- The pixel belongs to a character of the string, the first of which is in `cell`, in its row or
in one that fits. -/
def InTextFrom (m : Mode) (x y : ℕ) (cell : ℕ × ℕ) (str : List UInt8) (px py : ℕ) : Prop :=
  ∃ before c after, str = before ++ c :: after ∧ c ≠ 10 ∧
    let place := before.foldl (nextCell (columns m x)) cell
    (place.2 = cell.2 ∨ RowFits m y place.2) ∧
      InGlyph c (x + 16 * place.1) (y + 16 * place.2) px py

/-- The pixel belongs to a character that `display_puts` draws. -/
def InText (m : Mode) (str : List UInt8) (x y px py : ℕ) : Prop :=
  InTextFrom m x y (0, 0) str px py

section Rows

variable {m : Mode} {str : List UInt8} {c : UInt8} {x y color cx cy px py : UInt32}
  {cell : ℕ × ℕ} {k : ℕ}

theorem putsLoop_eq (ha : m.available = true) (cx cy : UInt32) :
    putsLoop m x color cx cy str = some (putpixels m (putsCalls m x cx cy str) color) := by
  induction str generalizing cx cy with
  | nil => rfl
  | cons c str ih =>
    unfold putsLoop putsCalls
    dsimp only
    by_cases hc : c = 10
    · rw [if_pos hc, if_pos hc]
      split_ifs
      · rfl
      · exact ih _ _
    · rw [if_neg hc, if_neg hc, putpixels_append, displayPutchar_eq ha]
      split_ifs
      · exact congrArg some (List.append_nil _).symm
      · rw [ih]
        rfl
      · rw [ih]
        rfl

theorem row_le_nextCell (cell : ℕ × ℕ) (c : UInt8) : cell.2 ≤ (nextCell k cell c).2 := by
  unfold nextCell
  split_ifs
  · exact Nat.le_succ _
  · exact Nat.le_refl _

theorem row_le_foldl_nextCell (cell : ℕ × ℕ) (before : List UInt8) :
    cell.2 ≤ (before.foldl (nextCell k) cell).2 := by
  induction before generalizing cell with
  | nil => exact Nat.le_refl _
  | cons c before ih => exact (row_le_nextCell cell c).trans (ih _)

theorem RowFits.mono {y row row' : ℕ} (h : RowFits m y row') (hle : row ≤ row') :
    RowFits m y row := by
  unfold RowFits at h ⊢
  omega

theorem not_inTextFrom_nil {x y px py : ℕ} : ¬InTextFrom m x y cell [] px py := by
  rintro ⟨before, c, after, hstr, -⟩
  exact absurd hstr.symm (by simp)

/-- The first character, or one of the others if the row that they start in fits. -/
theorem inTextFrom_cons {x y px py : ℕ} : InTextFrom m x y cell (c :: str) px py ↔
    (c ≠ 10 ∧ InGlyph c (x + 16 * cell.1) (y + 16 * cell.2) px py) ∨
      let next := nextCell (columns m x) cell c
      (next.2 = cell.2 ∨ RowFits m y next.2) ∧ InTextFrom m x y next str px py := by
  constructor
  · rintro ⟨before, d, after, hstr, hd, hrow, hin⟩
    cases before with
    | nil =>
      obtain ⟨rfl, rfl⟩ := List.cons.inj hstr
      exact Or.inl ⟨hd, hin⟩
    | cons b before =>
      obtain ⟨rfl, rfl⟩ := List.cons.inj hstr
      rw [List.foldl_cons] at hrow hin
      have hnext := row_le_nextCell (k := columns m x) cell c
      have hplace := row_le_foldl_nextCell (k := columns m x) (nextCell (columns m x) cell c) before
      refine Or.inr ⟨?_, before, d, after, rfl, hd, ?_, hin⟩
      · exact hrow.imp (fun h => by omega) fun h => h.mono hplace
      · exact hrow.imp_left fun h => by omega
  · rintro (⟨hc, hin⟩ | ⟨hnext, before, d, after, rfl, hd, hrow, hin⟩)
    · exact ⟨[], c, str, rfl, hc, Or.inl rfl, hin⟩
    · refine ⟨c :: before, d, after, rfl, hd, ?_, hin⟩
      rcases hrow with hrow | hrow
      · rw [List.foldl_cons, hrow]
        exact hnext
      · exact Or.inr hrow

theorem toNat_add_sixteen {n : UInt32} (h : n.toNat + 16 < 2 ^ 32) :
    (n + displayCharW).toNat = n.toNat + 16 := by
  rw [UInt32.toNat_add]
  exact Nat.mod_eq_of_lt h

/-- The place of the next character is `cx`, `cy`. -/
structure At (m : Mode) (x y cx cy : UInt32) (cell : ℕ × ℕ) : Prop where
  column : cx.toNat = x.toNat + 16 * cell.1
  row : cy.toNat = y.toNat + 16 * cell.2
  inRow : cell.1 < columns m x.toNat
  low : cy.toNat + 32 < 2 ^ 32

theorem At.rowFits_iff (h : At m x y cx cy cell) :
    ¬cy + displayCharH + displayCharH > m.height.toUInt32 ↔ RowFits m y.toNat (cell.2 + 1) := by
  have hlow := h.low
  have hnext : (cy + displayCharH).toNat = cy.toNat + 16 := toNat_add_sixteen (by omega)
  have hend : (cy + displayCharH + displayCharH).toNat = cy.toNat + 32 :=
    (toNat_add_sixteen (by omega)).trans (by omega)
  rw [gt_iff_lt, UInt32.not_lt, UInt32.le_iff_toNat_le, hend, UInt16.toNat_toUInt32, h.row,
    RowFits]
  omega

theorem At.newRow (h : At m x y cx cy cell) (hfits : RowFits m y.toNat (cell.2 + 1)) :
    At m x y x (cy + displayCharH) (0, cell.2 + 1) := by
  have hlow := h.low
  have hrow := h.row
  have hheight := m.height.toNat_lt
  have hnext : (cy + displayCharH).toNat = cy.toNat + 16 := toNat_add_sixteen (by omega)
  unfold RowFits at hfits
  refine ⟨rfl, ?_, ?_, ?_⟩
  · rw [hnext, hrow]
    ring
  · exact Nat.lt_of_lt_of_le Nat.one_pos (Nat.le_max_left _ _)
  · omega

theorem At.wraps_iff (h : At m x y cx cy cell) (hx : x.toNat + 32 < 2 ^ 32) :
    cx + displayCharW + displayCharW > m.width.toUInt32 ↔
      cell.1 + 1 = columns m x.toNat := by
  have hcolumn := h.column
  have hin := h.inRow
  have hwidth := m.width.toNat_lt
  unfold columns at hin ⊢
  have hroom : cx.toNat + 32 < 2 ^ 32 := by omega
  have hnext : (cx + displayCharW).toNat = cx.toNat + 16 := toNat_add_sixteen (by omega)
  have hend : (cx + displayCharW + displayCharW).toNat = cx.toNat + 32 :=
    (toNat_add_sixteen (by omega)).trans (by omega)
  rw [gt_iff_lt, UInt32.lt_iff_toNat_lt, hend, UInt16.toNat_toUInt32]
  omega

theorem At.nextColumn (h : At m x y cx cy cell) (hx : x.toNat + 32 < 2 ^ 32)
    (hne : cell.1 + 1 ≠ columns m x.toNat) :
    At m x y (cx + displayCharW) cy (cell.1 + 1, cell.2) := by
  have hcolumn := h.column
  have hin := h.inRow
  have hwidth := m.width.toNat_lt
  have hlt : cell.1 + 1 < columns m x.toNat := by omega
  have hnext : (cx + displayCharW).toNat = cx.toNat + 16 := by
    apply toNat_add_sixteen
    unfold columns at hlt
    omega
  refine ⟨?_, h.row, hlt, h.low⟩
  rw [hnext, hcolumn]
  ring

theorem At.mem_glyphCalls (h : At m x y cx cy cell) (hx : x.toNat + 32 < 2 ^ 32) :
    (px, py) ∈ glyphCalls c cx cy ↔
      InGlyph c (x.toNat + 16 * cell.1) (y.toNat + 16 * cell.2) px.toNat py.toNat := by
  have hcolumn := h.column
  have hin := h.inRow
  have hlow := h.low
  have hwidth := m.width.toNat_lt
  unfold columns at hin
  rw [Display.mem_glyphCalls (by omega) (by omega), hcolumn, h.row]

theorem At.mem_putsCalls (h : At m x y cx cy cell) (hx : x.toNat + 32 < 2 ^ 32) :
    (px, py) ∈ putsCalls m x cx cy str ↔
      InTextFrom m x.toNat y.toNat cell str px.toNat py.toNat := by
  induction str generalizing cx cy cell with
  | nil => exact iff_of_false List.not_mem_nil not_inTextFrom_nil
  | cons c str ih =>
    -- the rest goes on in the next row, if that fits
    have hrest : ∀ cell' : ℕ × ℕ, cell' = (0, cell.2 + 1) →
        ((px, py) ∈ (if cy + displayCharH + displayCharH > m.height.toUInt32 then []
          else putsCalls m x x (cy + displayCharH) str) ↔
        (cell'.2 = cell.2 ∨ RowFits m y.toNat cell'.2) ∧
          InTextFrom m x.toNat y.toNat cell' str px.toNat py.toNat) := by
      rintro _ rfl
      have hne : ¬cell.2 + 1 = cell.2 := Nat.succ_ne_self _
      by_cases hfits : RowFits m y.toNat (cell.2 + 1)
      · rw [if_neg (h.rowFits_iff.mpr hfits), ih (h.newRow hfits)]
        exact (and_iff_right (Or.inr hfits)).symm
      · rw [if_pos (not_not.mp fun hnot => hfits (h.rowFits_iff.mp hnot))]
        refine iff_of_false List.not_mem_nil ?_
        rintro ⟨hrow, -⟩
        exact hrow.elim hne hfits
    rw [inTextFrom_cons, putsCalls]
    by_cases hc : c = 10
    · rw [if_pos hc, hrest (nextCell (columns m x.toNat) cell c) (if_pos (Or.inl hc))]
      exact (or_iff_right fun hin => hin.1 hc).symm
    · rw [if_neg hc, List.mem_append, h.mem_glyphCalls hx]
      refine or_congr (and_iff_right hc).symm ?_
      by_cases hwrap : cell.1 + 1 = columns m x.toNat
      · rw [if_pos ((h.wraps_iff hx).mpr hwrap)]
        exact hrest _ (if_pos (Or.inr hwrap))
      · have hnext : nextCell (columns m x.toNat) cell c = (cell.1 + 1, cell.2) :=
          if_neg (not_or.mpr ⟨hc, hwrap⟩)
        rw [if_neg fun h' => hwrap ((h.wraps_iff hx).mp h'), ih (h.nextColumn hx hwrap), hnext]
        exact (and_iff_right (Or.inl rfl)).symm

theorem displayPuts_eq (ha : m.available = true) (str : List UInt8) (x y color : UInt32) :
    displayPuts m str x y color = some (putpixels m (putsCalls m x x y str) color) :=
  putsLoop_eq ha x y

theorem mem_putsCalls (hx : x.toNat + 32 < 2 ^ 32) (hy : y.toNat + 32 < 2 ^ 32) :
    (px, py) ∈ putsCalls m x x y str ↔ InText m str x.toNat y.toNat px.toNat py.toNat := by
  refine At.mem_putsCalls ⟨rfl, rfl, ?_, hy⟩ hx
  exact Nat.lt_of_lt_of_le Nat.one_pos (Nat.le_max_left _ _)

theorem foldl_nextCell {before : List UInt8} (cell : ℕ × ℕ) (hnewline : 10 ∉ before) :
    (before.foldl (nextCell k) cell).2 * k + (before.foldl (nextCell k) cell).1 =
      cell.2 * k + cell.1 + before.length := by
  induction before generalizing cell with
  | nil => rfl
  | cons c before ih =>
    rw [List.mem_cons, not_or] at hnewline
    rw [List.foldl_cons, ih _ hnewline.2, List.length_cons]
    unfold nextCell
    split_ifs with hnew
    · have hfull : cell.1 + 1 = k := hnew.resolve_left fun hc => hnewline.1 hc.symm
      have hrow : (cell.2 + 1) * k = cell.2 * k + k := Nat.succ_mul _ _
      dsimp only
      omega
    · dsimp only
      omega

theorem InText.row_le {x y px py : ℕ} (h : InText m str x y px py) : y ≤ py := by
  obtain ⟨before, c, after, -, -, -, -, hrow, -⟩ := h
  exact (Nat.le_add_right _ _).trans hrow.1

theorem InText.lt_row {x y px py : ℕ} (h : InText m str x y px py) (rows : ℕ)
    (hnewline : 10 ∉ str) (hroom : str.length ≤ rows * columns m x) : py < y + 16 * rows := by
  obtain ⟨before, c, after, rfl, -, -, -, hrow, -⟩ := h
  have hcells := foldl_nextCell (k := columns m x) (0, 0)
    fun hmem => hnewline (List.mem_append_left (c :: after) hmem)
  rw [List.length_append, List.length_cons] at hroom
  have hlt : (before.foldl (nextCell (columns m x)) (0, 0)).2 < rows := by
    apply Nat.lt_of_mul_lt_mul_right (a := columns m x)
    dsimp only at hcells
    omega
  have hbelow := hrow.2
  omega

end Rows

/-- Both functions draw the pixels of the characters that they show, and nothing else: one line up
to its newline and to the right edge, or rows that go on at a newline and where the row is full,
up to the first one that does not fit. -/
theorem text_exact {m : Mode} (hm : m.Drawable) (str : List UInt8) {x y : UInt32}
    (hx : x.toNat + 32 < 2 ^ 32) (hy : y.toNat + 32 < 2 ^ 32) (color : UInt32) :
    (∃ calls, displayPutsLine m str x y color = some (putpixels m calls color) ∧
      m.DrawsExactly calls (putpixels m calls color) color
        (InLine (visible m x.toNat str) x.toNat y.toNat)) ∧
    ∃ calls, displayPuts m str x y color = some (putpixels m calls color) ∧
      m.DrawsExactly calls (putpixels m calls color) color (InText m str x.toNat y.toNat) :=
  ⟨⟨_, displayPutsLine_eq hm.available str x y color,
      hm.drawsExactly_iff.mpr fun _ _ _ => mem_lineCalls_visible (by omega)⟩,
    ⟨_, displayPuts_eq hm.available str x y color,
      hm.drawsExactly_iff.mpr fun _ _ _ => mem_putsCalls hx hy⟩⟩

/-- The second character goes to the next row. -/
theorem text_exact_bochs : ∃ calls,
    displayPuts bochsMode [72, 105, 33] 770 300 0xFFFFFF =
        some (putpixels bochsMode calls 0xFFFFFF) ∧
      bochsMode.DrawsExactly calls (putpixels bochsMode calls 0xFFFFFF) 0xFFFFFF
        (InText bochsMode [72, 105, 33] 770 300) :=
  (text_exact (m := bochsMode) ⟨rfl, Or.inr (Or.inr rfl)⟩ [72, 105, 33] (x := 770) (y := 300)
    (by decide) (by decide) 0xFFFFFF).2

end OpenKernel.Display
