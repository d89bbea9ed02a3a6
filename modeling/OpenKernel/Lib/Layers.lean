import OpenKernel.Lib.Raster

/-!
# Pictures in layers

A layer puts the same values into every cell of its region, over what is there. A picture
shows in each cell the last of its layers that covers it, so a layer that a later one covers
altogether leaves no trace. On a grid, the drawings of the layers, one after the other, paint
the picture.
-/

namespace OpenKernel

variable {α : Type*}

structure Layer (α : Type*) where
  region : ℕ → ℕ → Prop
  values : List α

/-- What the cells hold, by column and row. -/
abbrev Picture (α : Type*) := ℕ → ℕ → List α

open Classical in
noncomputable def Layer.over (l : Layer α) (pic : Picture α) : Picture α := fun x y =>
  if l.region x y then l.values else pic x y

/-- The layers over a picture, the first one at the bottom. -/
noncomputable def overlay (layers : List (Layer α)) (pic : Picture α) : Picture α :=
  layers.foldl (fun pic l => l.over pic) pic

section Overlay

variable {l : Layer α} {hidden layers rest : List (Layer α)} {pic pic' : Picture α} {x y : ℕ}

theorem Layer.over_of_region (h : l.region x y) : l.over pic x y = l.values := if_pos h

theorem Layer.over_of_not_region (h : ¬l.region x y) : l.over pic x y = pic x y := if_neg h

theorem overlay_cons : overlay (l :: layers) pic = overlay layers (l.over pic) := rfl

theorem overlay_append : overlay (layers ++ rest) pic = overlay rest (overlay layers pic) :=
  List.foldl_append

theorem overlay_congr (h : pic x y = pic' x y) :
    overlay layers pic x y = overlay layers pic' x y := by
  induction layers generalizing pic pic' with
  | nil => exact h
  | cons l layers ih =>
    rw [overlay_cons, overlay_cons]
    apply ih
    by_cases hl : l.region x y
    · rw [Layer.over_of_region hl, Layer.over_of_region hl]
    · rw [Layer.over_of_not_region hl, Layer.over_of_not_region hl, h]

theorem overlay_of_region (h : l.region x y) :
    overlay (l :: layers) pic x y = overlay (l :: layers) pic' x y := by
  rw [overlay_cons, overlay_cons]
  apply overlay_congr
  rw [Layer.over_of_region h, Layer.over_of_region h]

theorem overlay_of_not_region (h : ∀ l ∈ layers, ¬l.region x y) :
    overlay layers pic x y = pic x y := by
  induction layers generalizing pic with
  | nil => rfl
  | cons l layers ih =>
    rw [overlay_cons, ih fun k hk => h k (List.mem_cons_of_mem l hk),
      Layer.over_of_not_region (h l List.mem_cons_self)]

theorem overlay_hidden (h : ∀ k ∈ hidden, ∀ x y, k.region x y → l.region x y) :
    overlay (hidden ++ l :: rest) pic = overlay (l :: rest) pic := by
  funext x y
  rw [overlay_append]
  by_cases hl : l.region x y
  · exact overlay_of_region hl
  · exact overlay_congr (overlay_of_not_region fun k hk hr => hl (h k hk x y hr))

end Overlay

theorem paint_append (first second : List (Store α)) (f : ℕ → α) :
    paint (first ++ second) f = paint second (paint first f) := List.foldl_append

namespace Grid

def cellAt (g : Grid) (f : ℕ → α) : Picture α := fun x y =>
  (List.range g.cell).map fun i => f (g.place x y + i)

/-- The stores paint the layers, whatever is there before. -/
def Paints (g : Grid) (layers : List (Layer α)) (stores : List (Store α)) : Prop :=
  ∀ f x y, x < g.width → y < g.height →
    g.cellAt (paint stores f) x y = overlay layers (g.cellAt f) x y

variable {g : Grid} {l : Layer α} {layers rest : List (Layer α)} {stores more : List (Store α)}

theorem paints_nil (g : Grid) : g.Paints ([] : List (Layer α)) [] := fun _ _ _ _ _ => rfl

theorem Draws.paints (h : g.Draws l.region l.values stores) (hlen : l.values.length = g.cell) :
    g.Paints [l] stores := by
  intro f x y hx hy
  rw [overlay_cons]
  by_cases hl : l.region x y
  · refine Eq.trans ?_ (Layer.over_of_region hl).symm
    apply List.ext_getElem (by simp [cellAt, hlen])
    intro i _ hi
    simp only [cellAt, List.getElem_map, List.getElem_range]
    exact h.paint_cell hlen hx hy hl (List.getElem?_eq_getElem hi)
  · refine Eq.trans ?_ (Layer.over_of_not_region hl).symm
    apply List.map_congr_left
    intro i hi
    apply h.paint_outside hlen
    rintro ⟨x', y', j, hx', -, hin, hj, heq⟩
    obtain ⟨rfl, rfl, -⟩ := place_inj hx hx' (List.mem_range.mp hi) hj heq
    exact hl hin

theorem Paints.append (h : g.Paints layers stores) (hmore : g.Paints rest more) :
    g.Paints (layers ++ rest) (stores ++ more) := by
  intro f x y hx hy
  rw [paint_append, hmore _ x y hx hy, overlay_append]
  exact overlay_congr (h f x y hx hy)

end Grid

end OpenKernel
