import Mathlib.Data.List.Induction
import OpenKernel.Lib.Transition

/-!
# Histories

What happens is judged by the list of what has happened before it. `Throughout`
asks for something at every point of a history, and `Since` for one kind of
happening after which another kind has not occurred.
-/

namespace OpenKernel

variable {α : Type*} {P Q A B : List α → α → Prop} {h : List α} {e : α}

/-- Everything that happens meets `P`. -/
def Throughout (P : List α → α → Prop) (h : List α) : Prop :=
  ∀ before e, before ++ [e] <+: h → P before e

theorem throughout_nil : Throughout P [] := by simp [Throughout]

theorem throughout_append : Throughout P (h ++ [e]) ↔ Throughout P h ∧ P h e := by
  constructor
  · intro hall
    exact ⟨fun before a hpre => hall before a (hpre.trans (List.prefix_append _ _)),
      hall h e (List.prefix_refl _)⟩
  · rintro ⟨hall, hlast⟩ before a hpre
    rcases List.prefix_concat_iff.mp hpre with heq | hpre
    · obtain ⟨rfl, rfl⟩ := List.append_singleton_inj.mp heq
      exact hlast
    · exact hall before a hpre

theorem throughout_iff_take :
    Throughout P h ↔ ∀ i : Fin h.length, P (h.take i) (h.get i) := by
  constructor
  · intro hall i
    refine hall _ _ ?_
    rw [List.get_eq_getElem, List.take_append_getElem i.isLt]
    exact List.take_prefix _ _
  · rintro hall before e ⟨rest, rfl⟩
    have hi := hall ⟨before.length, by simp⟩
    simpa using hi

instance [∀ h e, Decidable (P h e)] : Decidable (Throughout P h) :=
  @decidable_of_iff _ _ throughout_iff_take.symm (Nat.decidableForallFin _)

/-- What `Q` preserves holds at the end of every history that meets `Q`. -/
theorem Throughout.invariant (inv : List α → Prop) (hnil : inv [])
    (hnext : ∀ h e, inv h → Q h e → inv (h ++ [e])) (hall : Throughout Q h) : inv h := by
  induction h using List.reverseRecOn with
  | nil => exact hnil
  | append_singleton h e ih =>
    obtain ⟨hall, hlast⟩ := throughout_append.mp hall
    exact hnext h e (ih hall) hlast

theorem throughout_iff (inv : List α → Prop) (hnil : inv [])
    (hnext : ∀ h e, inv h → Q h e → inv (h ++ [e])) (hiff : ∀ h e, inv h → (P h e ↔ Q h e)) :
    Throughout P h ↔ Throughout Q h := by
  induction h using List.reverseRecOn with
  | nil => exact iff_of_true throughout_nil throughout_nil
  | append_singleton h e ih =>
    rw [throughout_append, throughout_append, ih]
    constructor
    · rintro ⟨hall, hlast⟩
      exact ⟨hall, (hiff h e (hall.invariant inv hnil hnext)).mp hlast⟩
    · rintro ⟨hall, hlast⟩
      exact ⟨hall, (hiff h e (hall.invariant inv hnil hnext)).mpr hlast⟩

/-- `A` has happened, and `B` has not happened since. -/
def Since (A B : List α → α → Prop) (h : List α) : Prop :=
  ∃ p a q, h = p ++ a :: q ∧ A p a ∧ ∀ q₁ b q₂, q = q₁ ++ b :: q₂ → ¬ B (p ++ a :: q₁) b

theorem not_since_nil : ¬ Since A B [] := by simp [Since]

/-- The last element of a list split in two is in the second part. -/
theorem append_singleton_eq_append_cons {p q : List α} {a : α} :
    h ++ [e] = p ++ a :: q ↔
      (q = [] ∧ p = h ∧ a = e) ∨ ∃ q', q = q' ++ [e] ∧ h = p ++ a :: q' := by
  rcases List.eq_nil_or_concat q with rfl | ⟨q', b, hq⟩
  · rw [List.append_singleton_inj]
    constructor
    · rintro ⟨rfl, rfl⟩
      exact Or.inl ⟨rfl, rfl, rfl⟩
    · rintro (⟨-, rfl, rfl⟩ | ⟨q', hq, -⟩)
      · exact ⟨rfl, rfl⟩
      · simp at hq
  · rw [List.concat_eq_append] at hq
    subst hq
    have hassoc : p ++ a :: (q' ++ [b]) = (p ++ a :: q') ++ [b] := by simp
    rw [hassoc, List.append_singleton_inj]
    constructor
    · rintro ⟨rfl, rfl⟩
      exact Or.inr ⟨q', rfl, rfl⟩
    · rintro (⟨hq, -⟩ | ⟨q'', hq, rfl⟩)
      · simp at hq
      · obtain ⟨rfl, rfl⟩ := List.append_singleton_inj.mp hq
        exact ⟨rfl, rfl⟩

theorem since_append : Since A B (h ++ [e]) ↔ A h e ∨ Since A B h ∧ ¬ B h e := by
  constructor
  · rintro ⟨p, a, q, heq, ha, hnone⟩
    rcases append_singleton_eq_append_cons.mp heq with ⟨rfl, rfl, rfl⟩ | ⟨q', rfl, rfl⟩
    · exact Or.inl ha
    · refine Or.inr ⟨⟨p, a, q', rfl, ha, fun q₁ b q₂ hq => ?_⟩, hnone q' e [] rfl⟩
      exact hnone q₁ b (q₂ ++ [e]) (by rw [hq]; simp)
  · rintro (ha | ⟨⟨p, a, q, rfl, ha, hnone⟩, hlast⟩)
    · exact ⟨h, e, [], rfl, ha, by simp⟩
    · refine ⟨p, a, q ++ [e], by simp, ha, fun q₁ b q₂ hq => ?_⟩
      rcases append_singleton_eq_append_cons.mp hq with ⟨rfl, rfl, rfl⟩ | ⟨q₃, rfl, rfl⟩
      · exact hlast
      · exact hnone q₁ b q₃ rfl

/-! ### Histories of runs -/

section Runs

variable {σ : Type*} {step : σ → α → Option σ} {ok : σ → α → Prop} {s t : σ}

theorem Run.keeps_history (rel : σ → List α → Prop)
    (hstep : ∀ s a t h, rel s h → step s a = some t → rel t (h ++ [a]))
    (hrun : Run step ok s h t) (hs : rel s []) : rel t h := by
  induction h using List.reverseRecOn generalizing t with
  | nil =>
    cases hrun
    exact hs
  | append_singleton h e ih =>
    obtain ⟨r, hr, -, hst⟩ := Run.concat_iff.mp hrun
    exact hstep r e t h (ih hr) hst

theorem Run.exists_iff_throughout (rel : σ → List α → Prop)
    (hstep : ∀ s a t h, rel s h → step s a = some t → rel t (h ++ [a]))
    (hnext : ∀ s a h, rel s h → ((∃ t, ok s a ∧ step s a = some t) ↔ Q h a)) (hs : rel s []) :
    (∃ t, Run step ok s h t) ↔ Throughout Q h := by
  induction h using List.reverseRecOn with
  | nil => exact iff_of_true ⟨s, .nil s⟩ throughout_nil
  | append_singleton h e ih =>
    rw [throughout_append, ← ih]
    constructor
    · rintro ⟨t, hrun⟩
      obtain ⟨r, hr, hok, hst⟩ := Run.concat_iff.mp hrun
      exact ⟨⟨r, hr⟩, (hnext r e h (hr.keeps_history rel hstep hs)).mp ⟨t, hok, hst⟩⟩
    · rintro ⟨⟨r, hr⟩, hq⟩
      obtain ⟨t, hok, hst⟩ := (hnext r e h (hr.keeps_history rel hstep hs)).mpr hq
      exact ⟨t, Run.concat_iff.mpr ⟨r, hr, hok, hst⟩⟩

end Runs

end OpenKernel
