import Mathlib.Data.List.Range
import Mathlib.Logic.Function.Basic
import Mathlib.Algebra.GroupWithZero.Nat

/-!
# Ring buffers

A queue in `n` slots with a write index `head` and a read index `tail`. The queue
is empty when the indices are equal, so that one slot always stays unused. The
contents are the slots from `tail` up to `head`, going round; pushing adds at
the end of this list unless `n - 1` elements are in it, and advancing `tail`
removes the first.
-/

namespace OpenKernel

structure RingBuffer (α : Type*) where
  slots : ℕ → α
  head : ℕ
  tail : ℕ

namespace RingBuffer

variable {α : Type*} {n : ℕ} {r : RingBuffer α}

/-- The index behind `i`. -/
def next (n i : ℕ) : ℕ := (i + 1) % n

/-- The number of elements in the buffer. -/
def count (n : ℕ) (r : RingBuffer α) : ℕ := (r.head + n - r.tail) % n

/-- The elements, from the oldest on. -/
def contents (n : ℕ) (r : RingBuffer α) : List α :=
  (List.range (r.count n)).map fun i => r.slots ((r.tail + i) % n)

/-- Writing at `head`, if that leaves a slot unused. -/
def push (n : ℕ) (r : RingBuffer α) (a : α) : RingBuffer α :=
  if next n r.head ≠ r.tail then
    { r with slots := Function.update r.slots r.head a, head := next n r.head }
  else r

/-- Giving up the slot at `tail`. -/
def advance (n : ℕ) (r : RingBuffer α) : RingBuffer α := { r with tail := next n r.tail }

structure InRange (n : ℕ) (r : RingBuffer α) : Prop where
  head_lt : r.head < n
  tail_lt : r.tail < n

@[simp] theorem length_contents : (r.contents n).length = r.count n := by simp [contents]

theorem next_lt (h : 0 < n) (i : ℕ) : next n i < n := Nat.mod_lt _ h

theorem next_eq {i : ℕ} (h : i < n) : next n i = if i + 1 = n then 0 else i + 1 := by
  unfold next
  split_ifs with hn
  · rw [hn, Nat.mod_self]
  · exact Nat.mod_eq_of_lt (by omega)

namespace InRange

theorem count_eq (h : InRange n r) :
    r.count n = if r.tail ≤ r.head then r.head - r.tail else r.head + n - r.tail := by
  obtain ⟨hh, ht⟩ := h
  unfold count
  split_ifs with hle
  · rw [show r.head + n - r.tail = r.head - r.tail + n by omega, Nat.add_mod_right,
      Nat.mod_eq_of_lt (by omega)]
  · exact Nat.mod_eq_of_lt (by omega)

theorem push (h : InRange n r) (a : α) : InRange n (r.push n a) := by
  unfold RingBuffer.push
  split_ifs
  · exact ⟨next_lt (by have := h.head_lt; omega) _, h.tail_lt⟩
  · exact h

theorem advance (h : InRange n r) : InRange n (r.advance n) :=
  ⟨h.head_lt, next_lt (by have := h.tail_lt; omega) _⟩

theorem contents_eq_nil_iff (h : InRange n r) : r.contents n = [] ↔ r.tail = r.head := by
  have hc := h.count_eq
  obtain ⟨hh, ht⟩ := h
  rw [← List.length_eq_zero_iff, length_contents, hc]
  split_ifs <;> omega

theorem full_iff (h : InRange n r) :
    next n r.head = r.tail ↔ (r.contents n).length = n - 1 := by
  have hc := h.count_eq
  rw [length_contents, hc, next_eq h.head_lt]
  obtain ⟨hh, ht⟩ := h
  split_ifs <;> omega

theorem count_push (h : InRange n r) (hroom : next n r.head ≠ r.tail) (a : α) :
    (r.push n a).count n = r.count n + 1 := by
  have hc := h.count_eq
  have hc' := (h.push a).count_eq
  rw [hc', hc]
  unfold RingBuffer.push
  rw [if_pos hroom]
  dsimp only
  rw [next_eq h.head_lt] at hroom ⊢
  obtain ⟨hh, ht⟩ := h
  split_ifs at * <;> omega

theorem count_advance (h : InRange n r) (hne : r.tail ≠ r.head) :
    r.count n = (r.advance n).count n + 1 := by
  have hc := h.count_eq
  have hc' := h.advance.count_eq
  rw [hc', hc]
  unfold RingBuffer.advance
  dsimp only
  rw [next_eq h.tail_lt]
  obtain ⟨hh, ht⟩ := h
  split_ifs at * <;> omega

theorem index_eq (h : InRange n r) {i : ℕ} (hi : i < n) :
    (r.tail + i) % n = if r.tail + i < n then r.tail + i else r.tail + i - n := by
  have ht := h.tail_lt
  split_ifs with hlt
  · exact Nat.mod_eq_of_lt hlt
  · rw [Nat.mod_eq_sub_mod (by omega), Nat.mod_eq_of_lt (by omega)]

/-- Pushing writes behind the last element. -/
theorem contents_push (h : InRange n r) (hroom : next n r.head ≠ r.tail) (a : α) :
    (r.push n a).contents n = r.contents n ++ [a] := by
  have hpush : r.push n a =
      { r with slots := Function.update r.slots r.head a, head := next n r.head } := if_pos hroom
  have hlast : (r.tail + r.count n) % n = r.head := by
    have hc := h.count_eq
    obtain ⟨hh, ht⟩ := h
    split_ifs at hc with hle
    · rw [hc, Nat.mod_eq_of_lt (by omega)]
      omega
    · rw [hc, show r.tail + (r.head + n - r.tail) = r.head + n by omega, Nat.add_mod_right,
        Nat.mod_eq_of_lt hh]
  have hcount := h.count_push hroom a
  unfold contents
  rw [hcount, List.range_succ, List.map_append, List.map_singleton, hpush]
  congr 1
  · apply List.map_congr_left
    intro i hi
    have hlt : i < r.count n := List.mem_range.mp hi
    apply Function.update_of_ne
    have hc := h.count_eq
    have hcn : r.count n < n := Nat.mod_lt _ (by have := h.head_lt; omega)
    rw [h.index_eq (by omega)]
    obtain ⟨hh, ht⟩ := h
    split_ifs at * <;> omega
  · rw [hlast]
    simp

theorem contents_advance (h : InRange n r) (hne : r.tail ≠ r.head) :
    r.contents n = r.slots r.tail :: (r.advance n).contents n := by
  unfold contents
  rw [h.count_advance hne, List.range_succ_eq_map, List.map_cons, List.map_map]
  congr 1
  · rw [Nat.add_zero, Nat.mod_eq_of_lt h.tail_lt]
  · apply List.map_congr_left
    intro i hi
    simp only [Function.comp_apply, RingBuffer.advance, next, Nat.mod_add_mod]
    rw [Nat.succ_eq_add_one, show r.tail + (i + 1) = r.tail + 1 + i by omega]

end InRange

end RingBuffer

end OpenKernel
