import Mathlib.Data.List.Basic
import Mathlib.Logic.Function.Basic
import Mathlib.Tactic.SplitIfs

/-!
# Logs that keep their last entries

A log of `n` rows that are overwritten in turn, with a count of all entries. What is read from
the rows, the oldest one first, is the end of the list of all entries.
-/

namespace OpenKernel

variable {α β : Type*}

structure RecentLog (α : Type*) where
  rows : ℕ → α
  count : ℕ

namespace RecentLog

/-- The row of the next entry. -/
def slot (n : ℕ) (r : RecentLog α) : ℕ := r.count % n

def append (n : ℕ) (r : RecentLog α) (a : α) : RecentLog α :=
  ⟨Function.update r.rows (r.slot n) a, r.count + 1⟩

/-- The rows in use, the oldest one first. -/
def recent (n : ℕ) (r : RecentLog α) : List α :=
  (List.range (min r.count n)).map fun i => r.rows ((r.count - min r.count n + i) % n)

/-- Read with `read`, the rows hold the last of the entries. -/
structure Holds (n : ℕ) (read : α → β) (r : RecentLog α) (entries : List β) : Prop where
  count : r.count = entries.length
  rows : ∀ i, i < entries.length → entries.length ≤ i + n →
    entries[i]? = some (read (r.rows (i % n)))

variable {n : ℕ} {read : α → β} {r : RecentLog α} {entries : List β}

theorem holds_nil (n : ℕ) (read : α → β) (rows : ℕ → α) : Holds n read ⟨rows, 0⟩ [] :=
  ⟨rfl, fun _ hi => absurd hi (Nat.not_lt_zero _)⟩

theorem Holds.append (h : Holds n read r entries) (a : α) :
    Holds n read (r.append n a) (entries ++ [read a]) := by
  refine ⟨?_, fun i hi hlast => ?_⟩
  · rw [List.length_append, ← h.count]
    rfl
  · rw [List.length_append, List.length_singleton] at hi hlast
    unfold RecentLog.append slot
    dsimp only
    rw [h.count]
    by_cases hnew : i = entries.length
    · rw [hnew, Function.update_self, List.getElem?_concat_length]
    · have hlt : i < entries.length := by omega
      have hne : i % n ≠ entries.length % n := by
        intro he
        -- two of the last entries are less than a turn apart
        have hsub : (entries.length - i) % n = 0 := Nat.sub_mod_eq_zero_of_mod_eq he.symm
        rw [Nat.mod_eq_of_lt (by omega)] at hsub
        omega
      rw [Function.update_of_ne hne, List.getElem?_append_left hlt]
      exact h.rows i hlt (by omega)

theorem Holds.recent (h : Holds n read r entries) :
    (r.recent n).map read = entries.drop (entries.length - n) := by
  unfold RecentLog.recent
  rw [h.count, List.map_map]
  apply List.ext_getElem?
  intro i
  rw [List.getElem?_drop, List.getElem?_map]
  by_cases hi : i < min entries.length n
  · rw [List.getElem?_range hi, h.rows _ (by omega) (by omega)]
    have hstart : entries.length - min entries.length n = entries.length - n := by omega
    rw [Option.map_some, Function.comp_apply, hstart]
  · rw [List.getElem?_eq_none (by rw [List.length_range]; omega), Option.map_none,
      List.getElem?_eq_none (by omega)]

end RecentLog

end OpenKernel
