import Mathlib.Data.List.Induction
import Mathlib.Logic.Nontrivial.Basic
import Mathlib.Order.Nat
import Mathlib.Tactic.SplitIfs

/-!
# Painting cells of a grid

A drawing is a list of stores, each of which puts a few values from one place on;
painting makes them one after the other. A grid puts the cells of each row next to
each other, and the rows at a distance in which they do not overlap. A drawing that
stores the same values in every cell of a grid leaves them in every cell and changes
nothing behind the last one.
-/

namespace OpenKernel

variable {α : Type*}

/-- The values of consecutive places. -/
structure Store (α : Type*) where
  start : ℕ
  values : List α
  deriving DecidableEq

namespace Store

def valueAt (s : Store α) (i : ℕ) : Option α :=
  if s.start ≤ i then s.values[i - s.start]? else none

def apply (f : ℕ → α) (s : Store α) : ℕ → α := fun i => (s.valueAt i).getD (f i)

def Below (limit : ℕ) (s : Store α) : Prop := s.start + s.values.length ≤ limit

variable {s : Store α} {i : ℕ} {v : α}

theorem valueAt_eq_some : s.valueAt i = some v ↔ ∃ j, i = s.start + j ∧ s.values[j]? = some v := by
  unfold valueAt
  constructor
  · intro h
    split_ifs at h with hle
    exact ⟨i - s.start, by omega, h⟩
  · rintro ⟨j, rfl, hj⟩
    rw [if_pos (Nat.le_add_right _ _), Nat.add_sub_cancel_left, hj]

end Store

/-- Makes the stores in their order. -/
def paint (stores : List (Store α)) (f : ℕ → α) : ℕ → α := stores.foldl Store.apply f

section Paint

variable {stores : List (Store α)} {f : ℕ → α} {i : ℕ} {v : α}

theorem paint_concat (stores : List (Store α)) (s : Store α) (f : ℕ → α) (i : ℕ) :
    paint (stores ++ [s]) f i = (s.valueAt i).getD (paint stores f i) := by
  rw [paint, List.foldl_append]
  rfl

theorem paint_of_none (h : ∀ s ∈ stores, s.valueAt i = none) : paint stores f i = f i := by
  induction stores using List.reverseRecOn with
  | nil => rfl
  | append_singleton stores s ih =>
    rw [paint_concat, h s (by simp)]
    exact ih fun t ht => h t (List.mem_append_left _ ht)

theorem paint_of_agree (hex : ∃ s ∈ stores, s.valueAt i = some v)
    (hall : ∀ s ∈ stores, ∀ w, s.valueAt i = some w → w = v) : paint stores f i = v := by
  induction stores using List.reverseRecOn with
  | nil =>
    obtain ⟨s, hs, -⟩ := hex
    cases hs
  | append_singleton stores s ih =>
    rw [paint_concat]
    cases hs : s.valueAt i with
    | some w => exact hall s (by simp) w hs
    | none =>
      refine ih ?_ fun t ht => hall t (List.mem_append_left _ ht)
      obtain ⟨t, ht, hv⟩ := hex
      rcases List.mem_append.mp ht with ht | ht
      · exact ⟨t, ht, hv⟩
      · rw [List.mem_singleton.mp ht, hs] at hv
        cases hv

end Paint

/-- Rows of `width` cells of `cell` places each, `stride` places apart. -/
structure Grid where
  width : ℕ
  height : ℕ
  cell : ℕ
  stride : ℕ
  apart : width * cell ≤ stride

namespace Grid

variable (g : Grid) {x y x' y' i i' : ℕ}

/-- Where the cell in column `x` of row `y` starts. -/
def place (x y : ℕ) : ℕ := y * g.stride + x * g.cell

variable {g}

theorem cell_end (hx : x < g.width) : x * g.cell + g.cell ≤ g.stride := by
  have h := Nat.mul_le_mul_right g.cell (Nat.succ_le_of_lt hx)
  rw [Nat.succ_mul] at h
  exact h.trans g.apart

theorem place_le (hx : x < g.width) (hy : y < g.height) :
    g.place x y + g.cell ≤ g.stride * g.height := by
  have hrow := cell_end hx
  have hcol := Nat.mul_le_mul_right g.stride (Nat.succ_le_of_lt hy)
  rw [Nat.succ_mul] at hcol
  rw [place, Nat.mul_comm g.stride]
  omega

/-- Different cells have no place in common. -/
theorem place_inj (hx : x < g.width) (hx' : x' < g.width) (hi : i < g.cell) (hi' : i' < g.cell)
    (h : g.place x y + i = g.place x' y' + i') : x = x' ∧ y = y' ∧ i = i' := by
  have hend := cell_end hx
  have hend' := cell_end hx'
  have hrow : x * g.cell + i < g.stride := by omega
  have hrow' : x' * g.cell + i' < g.stride := by omega
  unfold place at h
  rw [Nat.add_assoc, Nat.add_assoc, Nat.add_comm, Nat.add_comm (y' * g.stride)] at h
  have hy : y = y' := by
    have hdiv := congrArg (· / g.stride) h
    rwa [Nat.add_mul_div_right _ _ (by omega), Nat.add_mul_div_right _ _ (by omega),
      Nat.div_eq_of_lt hrow, Nat.div_eq_of_lt hrow', Nat.zero_add, Nat.zero_add] at hdiv
  subst hy
  have hcol := Nat.add_right_cancel h
  rw [Nat.add_comm, Nat.add_comm (x' * g.cell)] at hcol
  have hxx : x = x' := by
    have hdiv := congrArg (· / g.cell) hcol
    rwa [Nat.add_mul_div_right _ _ (by omega), Nat.add_mul_div_right _ _ (by omega),
      Nat.div_eq_of_lt hi, Nat.div_eq_of_lt hi', Nat.zero_add, Nat.zero_add] at hdiv
  subst hxx
  exact ⟨rfl, rfl, Nat.add_right_cancel hcol⟩

/-- The stores put `values` into the cells of the region, and do nothing else. -/
def Draws (g : Grid) (region : ℕ → ℕ → Prop) (values : List α) (stores : List (Store α)) : Prop :=
  ∀ s, s ∈ stores ↔ ∃ x y, x < g.width ∧ y < g.height ∧ region x y ∧ s = ⟨g.place x y, values⟩

def Covers (g : Grid) (region : ℕ → ℕ → Prop) (i : ℕ) : Prop :=
  ∃ x y j, x < g.width ∧ y < g.height ∧ region x y ∧ j < g.cell ∧ i = g.place x y + j

section Draws

variable {region : ℕ → ℕ → Prop} {values : List α} {stores : List (Store α)} {f : ℕ → α} {v : α}

theorem Draws.paint_cell (h : g.Draws region values stores) (hlen : values.length = g.cell)
    (hx : x < g.width) (hy : y < g.height) (hin : region x y) (hv : values[i]? = some v) :
    paint stores f (g.place x y + i) = v := by
  obtain ⟨hi, -⟩ := List.getElem?_eq_some_iff.mp hv
  apply paint_of_agree
  · exact ⟨_, (h _).mpr ⟨x, y, hx, hy, hin, rfl⟩, Store.valueAt_eq_some.mpr ⟨i, rfl, hv⟩⟩
  · intro s hs w hw
    obtain ⟨x', y', hx', hy', -, rfl⟩ := (h s).mp hs
    obtain ⟨i', heq, hw⟩ := Store.valueAt_eq_some.mp hw
    obtain ⟨hi', -⟩ := List.getElem?_eq_some_iff.mp hw
    obtain ⟨-, -, rfl⟩ := place_inj hx hx' (hlen ▸ hi) (hlen ▸ hi') heq
    rw [hv] at hw
    exact (Option.some.inj hw).symm

theorem Draws.paint_outside (h : g.Draws region values stores) (hlen : values.length = g.cell)
    (hout : ¬g.Covers region i) : paint stores f i = f i := by
  apply paint_of_none
  intro s hs
  obtain ⟨x, y, hx, hy, hin, rfl⟩ := (h s).mp hs
  rw [Option.eq_none_iff_forall_ne_some]
  intro w hw
  obtain ⟨j, rfl, hj⟩ := Store.valueAt_eq_some.mp hw
  obtain ⟨hj, -⟩ := List.getElem?_eq_some_iff.mp hj
  exact hout ⟨x, y, j, hx, hy, hin, hlen ▸ hj, rfl⟩

theorem Draws.below (h : g.Draws region values stores) (hlen : values.length = g.cell) :
    ∀ s ∈ stores, s.Below (g.stride * g.height) := by
  intro s hs
  obtain ⟨x, y, hx, hy, -, rfl⟩ := (h s).mp hs
  rw [Store.Below, hlen]
  exact place_le hx hy

end Draws

/-- The grids differ at most in the distance of their rows. -/
structure SameCells (g g' : Grid) : Prop where
  width : g'.width = g.width
  height : g'.height = g.height
  cell : g'.cell = g.cell

section Strides

variable {g' : Grid} {values values' : List α} {stores stores' : List (Store α)}

theorem not_covers_last (hsame : SameCells g g') (hstride : g'.stride < g.stride)
    (hheight : 1 < g.height) (hwidth : 0 < g.width) (hcell : 0 < g.cell) :
    ¬g'.Covers (fun _ _ => True) (g.place (g.width - 1) (g.height - 1) + (g.cell - 1)) := by
  rintro ⟨x, y, j, hx, hy, -, hj, heq⟩
  have hend : x * g'.cell + g'.cell ≤ g.width * g.cell := by
    have h := Nat.mul_le_mul_right g'.cell (Nat.succ_le_of_lt hx)
    rw [Nat.succ_mul, hsame.width, hsame.cell] at h
    rw [hsame.cell]
    exact h
  have hlast : (g.width - 1) * g.cell + g.cell = g.width * g.cell := by
    rw [← Nat.succ_mul, Nat.succ_eq_add_one, Nat.sub_add_cancel hwidth]
  have hrow : y * g'.stride < (g.height - 1) * g.stride := by
    have hle : y ≤ g.height - 1 := by rw [hsame.height] at hy; omega
    exact Nat.mul_lt_mul_of_le_of_lt hle hstride (by omega)
  unfold place at heq
  omega

/-- Filling two grids that differ in the distance of their rows leaves the same in all cells of
the one with the larger distance, whatever was there before, exactly if the values are the same
and there is only one row or no difference. -/
theorem fills_agree_iff [Nontrivial α] (hsame : SameCells g g') (hstride : g'.stride ≤ g.stride)
    (hwidth : 0 < g.width) (hheight : 0 < g.height) (hcell : 0 < g.cell)
    (hlen : values.length = g.cell) (hlen' : values'.length = g.cell)
    (h : g.Draws (fun _ _ => True) values stores)
    (h' : g'.Draws (fun _ _ => True) values' stores') :
    (∀ f x y i, x < g.width → y < g.height → i < g.cell →
      paint stores' f (g.place x y + i) = paint stores f (g.place x y + i)) ↔
      values' = values ∧ (g.height = 1 ∨ g'.stride = g.stride) := by
  have hlen'' : values'.length = g'.cell := hlen'.trans hsame.cell.symm
  have hcells : ∀ {f : ℕ → α} {x y i : ℕ} (hi : i < values'.length), x < g.width → y < g.height →
      g.place x y = g'.place x y → paint stores' f (g.place x y + i) = values'[i] := by
    intro f x y i hi hx hy hplace
    rw [hplace]
    exact h'.paint_cell hlen'' (hsame.width ▸ hx) (hsame.height ▸ hy) trivial
      (List.getElem?_eq_getElem hi)
  have hdrawn : ∀ {f : ℕ → α} {x y i : ℕ} (hi : i < values.length), x < g.width → y < g.height →
      paint stores f (g.place x y + i) = values[i] := fun hi hx hy =>
    h.paint_cell hlen hx hy trivial (List.getElem?_eq_getElem hi)
  constructor
  · intro hagree
    have hvalues : values' = values := by
      refine List.ext_getElem (hlen'.trans hlen.symm) fun i hi' hi => ?_
      have hfirst : g.place 0 0 = g'.place 0 0 := by simp [place]
      obtain ⟨a, -⟩ := exists_pair_ne α
      rw [← hcells (f := fun _ => a) hi' hwidth hheight hfirst,
        ← hdrawn (f := fun _ => a) hi hwidth hheight]
      exact hagree _ 0 0 i hwidth hheight (hlen ▸ hi)
    refine ⟨hvalues, ?_⟩
    by_contra hnot
    push Not at hnot
    have hlt : g'.stride < g.stride := lt_of_le_of_ne hstride hnot.2
    have hone : 1 < g.height := by omega
    have hi : g.cell - 1 < values.length := by omega
    -- the last byte keeps its value, which need not be the one drawn
    obtain ⟨a, ha⟩ := exists_ne values[g.cell - 1]
    have hkept := h'.paint_outside (f := fun _ => a) hlen''
      (not_covers_last hsame hlt hone hwidth hcell)
    have hput := hdrawn (f := fun _ => a) hi (Nat.sub_lt hwidth Nat.one_pos)
      (Nat.sub_lt hheight Nat.one_pos)
    have := hagree (fun _ => a) _ _ _ (Nat.sub_lt hwidth Nat.one_pos)
      (Nat.sub_lt hheight Nat.one_pos) (Nat.sub_lt hcell Nat.one_pos)
    rw [hkept, hput] at this
    exact ha this
  · rintro ⟨rfl, hrows⟩ f x y i hx hy hi
    have hplace : g.place x y = g'.place x y := by
      unfold place
      rw [hsame.cell]
      rcases hrows with hone | heq
      · obtain rfl : y = 0 := by omega
        rw [Nat.zero_mul, Nat.zero_mul]
      · rw [heq]
    rw [hcells (hlen' ▸ hi) hx hy hplace, hdrawn (hlen ▸ hi) hx hy]

end Strides

end Grid

end OpenKernel
