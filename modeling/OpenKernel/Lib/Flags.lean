import Mathlib.Data.Nat.Bitwise

/-!
# Flags in a byte

A byte holds eight flags; a mask names some of them. Setting, clearing and
toggling the flags of one mask, seen through another.
-/

namespace OpenKernel.Flags

def Has (m mask : UInt8) : Prop := m &&& mask ≠ 0

instance (m mask : UInt8) : Decidable (Has m mask) := inferInstanceAs (Decidable (_ ≠ _))

variable {m mask a b : UInt8}

theorem not_has_zero (mask : UInt8) : ¬ Has 0 mask := by simp [Has]

theorem not_has_empty (m : UInt8) : ¬ Has m 0 := by simp [Has]

theorem or_and_distrib (a b c : UInt8) : (a ||| b) &&& c = (a &&& c) ||| (b &&& c) := by
  apply UInt8.toBitVec_inj.mp
  exact BitVec.and_or_distrib_right

theorem has_union : Has m (a ||| b) ↔ Has m a ∨ Has m b := by
  have h : m &&& (a ||| b) = (m &&& a) ||| (m &&& b) := by
    rw [UInt8.and_comm, or_and_distrib, UInt8.and_comm a, UInt8.and_comm b]
  unfold Has
  rw [h, Ne, UInt8.or_eq_zero_iff, not_and_or]

theorem has_set : Has (m ||| a) mask ↔ Has m mask ∨ Has a mask := by
  unfold Has
  rw [or_and_distrib, Ne, UInt8.or_eq_zero_iff, not_and_or]

theorem has_clear : Has (m &&& ~~~a) mask ↔ Has m (~~~a &&& mask) := by
  unfold Has
  rw [UInt8.and_assoc]

theorem has_toggle (h : a &&& mask = 0) : Has (m ^^^ a) mask ↔ Has m mask := by
  have hxor : (m ^^^ a) &&& mask = (m &&& mask) ^^^ (a &&& mask) := by
    apply UInt8.toBitVec_inj.mp
    ext i
    simp [Bool.and_xor_distrib_right]
  unfold Has
  rw [hxor, h, UInt8.xor_zero]

theorem toNat_or_top (h : a < 0x80) : (a ||| 0x80).toNat = 128 + a.toNat := by
  have hlt : a.toNat < 2 ^ 7 := h
  have hadd := Nat.two_pow_add_eq_or_of_lt hlt 1
  rw [UInt8.toNat_or, Nat.or_comm]
  exact hadd.symm

theorem or_top_inj (ha : a < 0x80) (hb : b < 0x80) : a ||| 0x80 = b ||| 0x80 ↔ a = b := by
  rw [← UInt8.toNat_inj, toNat_or_top ha, toNat_or_top hb, ← UInt8.toNat_inj]
  omega

theorem or_top_ne (ha : a < 0x80) (hb : b < 0x80) : a ||| 0x80 ≠ b := by
  rw [Ne, ← UInt8.toNat_inj, toNat_or_top ha]
  have : b.toNat < 128 := hb
  omega

theorem and_top_eq_zero : a &&& 0x80 = 0 ↔ a < 0x80 := by
  have hlt := a.toNat_lt
  have h80 : (0x80 : UInt8).toNat = 128 := rfl
  have hand : (a &&& 0x80).toNat = (decide (a.toNat / 2 ^ 7 % 2 = 1)).toNat * 2 ^ 7 := by
    rw [UInt8.toNat_and, ← Nat.testBit_eq_decide_div_mod_eq]
    exact Nat.and_two_pow a.toNat 7
  rw [← UInt8.toNat_inj, hand, UInt8.lt_iff_toNat_lt, h80]
  simp only [Nat.reducePow, UInt8.toNat_zero, mul_eq_zero, Bool.toNat_eq_zero,
    decide_eq_false_iff_not]
  omega

end OpenKernel.Flags
