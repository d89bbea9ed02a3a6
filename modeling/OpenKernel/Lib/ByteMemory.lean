import Mathlib.Data.UInt
import Mathlib.Logic.Basic

/-!
# Byte memory with 32-bit words

Memory is a function from addresses to bytes, together with a record of the
addresses written since the record was last cleared. Words are stored with the
least significant byte first.
-/

namespace OpenKernel

structure ByteMemory where
  byte : ℕ → UInt8
  written : List ℕ

namespace ByteMemory

def load (m : ByteMemory) (a : ℕ) : ℕ :=
  (m.byte a).toNat + 2 ^ 8 * (m.byte (a + 1)).toNat + 2 ^ 16 * (m.byte (a + 2)).toNat +
    2 ^ 24 * (m.byte (a + 3)).toNat

def store (m : ByteMemory) (a v : ℕ) : ByteMemory where
  byte x := if a ≤ x ∧ x < a + 4 then (v / 2 ^ (8 * (x - a))).toUInt8 else m.byte x
  written := [a, a + 1, a + 2, a + 3] ++ m.written

def storeByte (m : ByteMemory) (a : ℕ) (v : UInt8) : ByteMemory where
  byte := Function.update m.byte a v
  written := a :: m.written

def clearLog (m : ByteMemory) : ByteMemory := { m with written := [] }

variable (m : ByteMemory) {a b v x : ℕ}

theorem load_lt : m.load a < 2 ^ 32 := by
  have h₀ := (m.byte a).toNat_lt
  have h₁ := (m.byte (a + 1)).toNat_lt
  have h₂ := (m.byte (a + 2)).toNat_lt
  have h₃ := (m.byte (a + 3)).toNat_lt
  unfold load
  omega

@[simp] theorem load_store_self (hv : v < 2 ^ 32) : (m.store a v).load a = v := by
  simp only [load, store]
  rw [if_pos (by omega), if_pos (by omega), if_pos (by omega), if_pos (by omega)]
  simp only [Nat.sub_self, Nat.add_sub_cancel_left, Nat.toUInt8_eq, UInt8.toNat_ofNat']
  omega

theorem load_congr {m m' : ByteMemory} (h : ∀ x, a ≤ x → x < a + 4 → m'.byte x = m.byte x) :
    m'.load a = m.load a := by
  unfold load
  rw [h a (by omega) (by omega), h (a + 1) (by omega) (by omega), h (a + 2) (by omega) (by omega),
    h (a + 3) (by omega) (by omega)]

theorem load_store_of_disjoint (h : a + 4 ≤ b ∨ b + 4 ≤ a) : (m.store a v).load b = m.load b := by
  apply load_congr
  intro x h₁ h₂
  simp only [store]
  rw [if_neg (by omega)]

theorem mem_written_store : x ∈ (m.store a v).written ↔ (a ≤ x ∧ x < a + 4) ∨ x ∈ m.written := by
  simp only [store, List.mem_append, List.mem_cons, List.not_mem_nil, or_false]
  constructor
  · rintro (h | h)
    · exact Or.inl (by omega)
    · exact Or.inr h
  · rintro (h | h)
    · exact Or.inl (by omega)
    · exact Or.inr h

/-- From `m` to `m'` only bytes of `[lo, hi)` have been written. -/
def Within (lo hi : ℕ) (m m' : ByteMemory) : Prop :=
  ∀ x, x < lo ∨ hi ≤ x → m'.byte x = m.byte x ∧ (x ∈ m'.written → x ∈ m.written)

namespace Within

variable {m} {m' : ByteMemory} {lo hi : ℕ}

theorem refl : Within lo hi m m := fun _ _ => ⟨rfl, id⟩

theorem mono {hi' : ℕ} (h : Within lo hi m m') (hle : hi ≤ hi') : Within lo hi' m m' :=
  fun x hx => h x (by omega)

theorem store (h : Within lo hi m m') (hlo : lo ≤ a) (hhi : a + 4 ≤ hi) :
    Within lo hi m (m'.store a v) := by
  intro x hx
  obtain ⟨hbyte, hwritten⟩ := h x hx
  constructor
  · rw [← hbyte]
    simp only [ByteMemory.store]
    rw [if_neg (by omega)]
  · intro hw
    rcases mem_written_store m' |>.mp hw with hw | hw
    · omega
    · exact hwritten hw

theorem load_eq (h : Within lo hi m m') (ha : a + 4 ≤ lo ∨ hi ≤ a) : m'.load a = m.load a := by
  apply load_congr
  intro x h₁ h₂
  exact (h x (by omega)).1

end Within

theorem within_storeByte (c : UInt8) : Within a (a + 1) m (m.storeByte a c) := by
  intro x hx
  have hne : x ≠ a := by omega
  simp [storeByte, hne]

end ByteMemory

end OpenKernel
