import Mathlib.Logic.Function.Basic

/-!
# Owners of resources

Each owner holds at most one resource, no resource is held twice, and the live
resources are exactly the held ones: nothing leaks and nothing dangles. A
resource changes hands by being acquired, released or moved.
-/

namespace OpenKernel

open Function

variable {ι ρ : Type*}

/-- `ptr` is what each owner holds. -/
structure Owns (ptr : ι → Option ρ) (live : ρ → Prop) : Prop where
  injective : ∀ i j p, ptr i = some p → ptr j = some p → i = j
  live_iff : ∀ p, live p ↔ ∃ i, ptr i = some p

namespace Owns

variable {ptr : ι → Option ρ} {live live' : ρ → Prop} {i j : ι} {p : ρ}

theorem live_of_held (h : Owns ptr live) (hi : ptr i = some p) : live p :=
  (h.live_iff p).mpr ⟨i, hi⟩

theorem congr (h : Owns ptr live) (hl : ∀ p, live' p ↔ live p) : Owns ptr live' :=
  ⟨h.injective, fun p => (hl p).trans (h.live_iff p)⟩

variable [DecidableEq ι]

/-- A resource that is held by its owner is given up, once. -/
theorem release (h : Owns ptr live) (hi : ptr i = some p)
    (hl : ∀ q, live' q ↔ live q ∧ q ≠ p) : Owns (update ptr i none) live' := by
  have hne : ∀ k q, update ptr i none k = some q → k ≠ i ∧ ptr k = some q := by
    intro k q hk
    by_cases hki : k = i
    · subst hki
      rw [update_self] at hk
      cases hk
    · exact ⟨hki, (update_of_ne hki ..).symm.trans hk⟩
  refine ⟨?_, ?_⟩
  · intro k l q hk hl
    exact h.injective k l q (hne k q hk).2 (hne l q hl).2
  · intro q
    rw [hl, h.live_iff]
    constructor
    · rintro ⟨⟨k, hk⟩, hq⟩
      have hki : k ≠ i := by
        rintro rfl
        exact hq (Option.some.inj (hk.symm.trans hi))
      exact ⟨k, (update_of_ne hki ..).trans hk⟩
    · rintro ⟨k, hk⟩
      obtain ⟨hki, hk⟩ := hne k q hk
      refine ⟨⟨k, hk⟩, ?_⟩
      rintro rfl
      exact hki (h.injective k i q hk hi)

/-- A new resource is given to an owner with empty hands. -/
theorem acquire (h : Owns ptr live) (hi : ptr i = none) (hp : ¬live p)
    (hl : ∀ q, live' q ↔ live q ∨ q = p) : Owns (update ptr i (some p)) live' := by
  have hfresh : ∀ k, ptr k ≠ some p := fun k hk => hp (h.live_of_held hk)
  have hcases : ∀ k q, update ptr i (some p) k = some q ↔ k = i ∧ q = p ∨ ptr k = some q := by
    intro k q
    by_cases hki : k = i
    · subst hki
      rw [update_self, hi]
      simp [eq_comm]
    · rw [update_of_ne hki]
      simp [hki]
  refine ⟨?_, ?_⟩
  · intro k l q hk hl
    rw [hcases] at hk hl
    rcases hk with ⟨rfl, rfl⟩ | hk
    · rcases hl with ⟨rfl, -⟩ | hl
      · rfl
      · exact absurd hl (hfresh l)
    · rcases hl with ⟨-, rfl⟩ | hl
      · exact absurd hk (hfresh k)
      · exact h.injective k l q hk hl
  · intro q
    rw [hl, h.live_iff]
    simp only [hcases]
    constructor
    · rintro (⟨k, hk⟩ | rfl)
      · exact ⟨k, Or.inr hk⟩
      · exact ⟨i, Or.inl ⟨rfl, rfl⟩⟩
    · rintro ⟨k, ⟨-, rfl⟩ | hk⟩
      · exact Or.inr rfl
      · exact Or.inl ⟨k, hk⟩

theorem move (h : Owns ptr live) (hij : i ≠ j) (hj : ptr j = none) :
    Owns (update (update ptr i none) j (ptr i)) live := by
  cases hi : ptr i with
  | none =>
    have hsame : update (update ptr i none) j none = ptr := by
      rw [← hi, update_eq_self, hi, ← hj, update_eq_self]
    rw [hsame]
    exact h
  | some p =>
    have hreleased : Owns (update ptr i none) fun q => live q ∧ q ≠ p :=
      h.release hi fun q => Iff.rfl
    refine hreleased.acquire ((update_of_ne hij.symm ..).trans hj) (fun hp => hp.2 rfl) ?_
    intro q
    by_cases hq : q = p
    · subst hq
      simp [h.live_of_held hi]
    · simp [hq]

end Owns

end OpenKernel
