import OpenKernel.Lib.ByteMemory

/-!
# Words on a stack

A stack in byte memory grows downwards, one 32-bit word at a time. What lies on it is a
list of words from the stack pointer up, which a store below it does not change.
-/

namespace OpenKernel

abbrev Word := BitVec 32

namespace ByteMemory

/-- The words of the list stand one behind the other from `a` on. -/
def WordsAt (m : ByteMemory) : ℕ → List Word → Prop
  | _, [] => True
  | a, v :: vs => m.load a = v.toNat ∧ WordsAt m (a + 4) vs

variable {m m' : ByteMemory} {a b : ℕ} {v : Word} {vs ws : List Word}

theorem WordsAt.congr (h : WordsAt m a vs)
    (hbyte : ∀ x, a ≤ x → x < a + 4 * vs.length → m'.byte x = m.byte x) : WordsAt m' a vs := by
  induction vs generalizing a with
  | nil => trivial
  | cons v vs ih =>
    rw [List.length_cons] at hbyte
    refine ⟨?_, ih h.2 fun x hlo hhi => hbyte x (by omega) (by omega)⟩
    rw [← h.1]
    exact load_congr fun x hlo hhi => hbyte x hlo (by omega)

theorem WordsAt.store (h : WordsAt m a vs) (hb : b + 4 ≤ a) (n : ℕ) :
    WordsAt (m.store b n) a vs := by
  apply h.congr
  intro x hlo _
  exact if_neg (by omega)

theorem WordsAt.push (h : WordsAt m (b + 4) vs) (v : Word) :
    WordsAt (m.store b v.toNat) b (v :: vs) :=
  ⟨load_store_self m v.isLt, h.store le_rfl _⟩

theorem WordsAt.drop (h : WordsAt m a (ws ++ vs)) : WordsAt m (a + 4 * ws.length) vs := by
  induction ws generalizing a with
  | nil => exact h
  | cons w ws ih =>
    have hrest := ih h.2
    rwa [List.length_cons, Nat.mul_succ, Nat.add_comm (4 * _) 4, ← Nat.add_assoc]

theorem WordsAt.ofNat_load (h : WordsAt m a (v :: vs)) : BitVec.ofNat 32 (m.load a) = v := by
  rw [h.1, BitVec.ofNat_toNat, BitVec.setWidth_eq]

end ByteMemory

end OpenKernel
