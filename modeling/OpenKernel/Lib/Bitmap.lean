import Mathlib.Data.Nat.ModEq
import Mathlib.Logic.Function.Basic

/-!
# Packed bitmaps and cyclic search

A bitmap is a sequence of words of `w` bits; bit `i` is bit `i % w` of word
`i / w`. The search looks at the numbers below `count` in the order `hint`,
`hint + 1`, ..., each modulo `count`.
-/

namespace OpenKernel

abbrev Bitmap (w : ℕ) := ℕ → BitVec w

namespace Bitmap

variable {w : ℕ} (b : Bitmap w) {i j : ℕ}

def test (i : ℕ) : Bool := (b (i / w)).getLsbD (i % w)

theorem index_eq (hword : i / w = j / w) (hbit : i % w = j % w) : i = j := by
  rw [← Nat.div_add_mod i w, ← Nat.div_add_mod j w, hword, hbit]

theorem getLsbD_one_shiftLeft (hw : 0 < w) :
    (1#w <<< (j % w)).getLsbD (i % w) = decide (i % w = j % w) := by
  have hlt := Nat.mod_lt i hw
  by_cases heq : i % w = j % w
  · simp [heq, Nat.mod_lt j hw]
  · simp only [BitVec.getLsbD_shiftLeft, BitVec.getLsbD_one, heq, decide_false]
    by_cases hle : i % w < j % w
    · simp [hle]
    · have hne : i % w - j % w ≠ 0 := by omega
      simp [hne]

theorem test_setOr (hw : 0 < w) :
    test (Function.update b (j / w) (b (j / w) ||| 1#w <<< (j % w))) i =
      (decide (i = j) || test b i) := by
  unfold test
  by_cases hword : i / w = j / w
  · rw [hword, Function.update_self, BitVec.getLsbD_or, getLsbD_one_shiftLeft hw, Bool.or_comm]
    congr 1
    apply decide_eq_decide.mpr
    exact ⟨index_eq hword, fun h => by rw [h]⟩
  · have hne : i ≠ j := fun h => hword (by rw [h])
    simp [Function.update_of_ne hword, hne]

theorem test_clearAnd (hw : 0 < w) :
    test (Function.update b (j / w) (b (j / w) &&& ~~~(1#w <<< (j % w)))) i =
      (!decide (i = j) && test b i) := by
  unfold test
  by_cases hword : i / w = j / w
  · rw [hword, Function.update_self, BitVec.getLsbD_and, BitVec.getLsbD_not,
      getLsbD_one_shiftLeft hw, Bool.and_comm]
    have hlt := Nat.mod_lt i hw
    have hiff : i % w = j % w ↔ i = j := ⟨index_eq hword, fun h => by rw [h]⟩
    simp [hlt, hiff]
  · have hne : i ≠ j := fun h => hword (by rw [h])
    simp [Function.update_of_ne hword, hne]

theorem shiftRight_and_one_eq_zero (hw : 0 < w) :
    (b (i / w) >>> (i % w)) &&& 1#w = 0#w ↔ test b i = false := by
  unfold test
  constructor
  · intro h
    have hbit := congrArg (fun x => BitVec.getLsbD x 0) h
    simpa [BitVec.getLsbD_one, hw] using hbit
  · intro h
    apply BitVec.eq_of_getLsbD_eq
    intro k hk
    cases k with
    | zero => simpa [BitVec.getLsbD_one, hw] using h
    | succ k => simp [BitVec.getLsbD_one]

end Bitmap

section Cyclic

variable (free : ℕ → Prop) [DecidablePred free] (count hint : ℕ)

/-- Look at `(hint + n) % count` and at most `rounds - 1` numbers after it. -/
def cyclicFind : ℕ → ℕ → Option ℕ
  | 0, _ => none
  | rounds + 1, n =>
    if free ((hint + n) % count) then some ((hint + n) % count) else cyclicFind rounds (n + 1)

variable {free count hint} {rounds n i : ℕ}

theorem cyclicFind_some (h : cyclicFind free count hint rounds n = some i) :
    ∃ k, n ≤ k ∧ k < n + rounds ∧ i = (hint + k) % count ∧ free i ∧
      ∀ m, n ≤ m → m < k → ¬free ((hint + m) % count) := by
  induction rounds generalizing n with
  | zero => simp [cyclicFind] at h
  | succ rounds ih =>
    unfold cyclicFind at h
    split_ifs at h with hfree
    · obtain rfl := Option.some.inj h
      exact ⟨n, le_rfl, by omega, rfl, hfree, fun m h₁ h₂ => by omega⟩
    · obtain ⟨k, hle, hlt, hi, hik, hbefore⟩ := ih h
      refine ⟨k, by omega, by omega, hi, hik, ?_⟩
      intro m h₁ h₂
      by_cases hm : m = n
      · rw [hm]
        exact hfree
      · exact hbefore m (by omega) h₂

theorem cyclicFind_none (h : cyclicFind free count hint rounds n = none) {k : ℕ} (hle : n ≤ k)
    (hlt : k < n + rounds) : ¬free ((hint + k) % count) := by
  induction rounds generalizing n with
  | zero => omega
  | succ rounds ih =>
    unfold cyclicFind at h
    split_ifs at h with hfree
    by_cases hk : k = n
    · rw [hk]
      exact hfree
    · exact ih h (by omega) (by omega)

theorem exists_turn (hint : ℕ) (hi : i < count) : ∃ k < count, (hint + k) % count = i := by
  have hpos : 0 < count := by omega
  have hmod := Nat.mod_lt hint hpos
  rcases le_or_gt (hint % count) i with hle | hgt
  · refine ⟨i - hint % count, by omega, ?_⟩
    rw [Nat.add_mod, Nat.mod_eq_of_lt (a := i - hint % count) (by omega),
      Nat.add_sub_cancel' hle, Nat.mod_eq_of_lt hi]
  · refine ⟨i + count - hint % count, by omega, ?_⟩
    rw [Nat.add_mod, Nat.mod_eq_of_lt (a := i + count - hint % count) (by omega),
      Nat.add_sub_cancel' (by omega), Nat.add_mod_right, Nat.mod_eq_of_lt hi]

theorem cyclicFind_turn_eq_none :
    cyclicFind free count hint count 0 = none ↔ ∀ i < count, ¬free i := by
  constructor
  · intro h i hi
    obtain ⟨k, hk, rfl⟩ := exists_turn hint hi
    exact cyclicFind_none h (Nat.zero_le k) (by omega)
  · intro h
    cases hfind : cyclicFind free count hint count 0 with
    | none => rfl
    | some i =>
      obtain ⟨k, _, hk, hi, hfree, _⟩ := cyclicFind_some hfind
      have hlt : i < count := by
        rw [hi]
        exact Nat.mod_lt _ (by omega)
      exact absurd hfree (h i hlt)

end Cyclic

end OpenKernel
