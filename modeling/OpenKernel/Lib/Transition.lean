import Mathlib.Logic.Basic
import Mathlib.Data.List.Basic

/-!
# Runs of partial step functions

A program is a step function `σ → α → Option σ`: the call `a` made in state `s`
returns in a new state, or never returns (`none`). A run is a finite sequence
of calls that all return; `ok` restricts which calls may be made in which state.
-/

namespace OpenKernel

variable {σ α : Type*}

/-- Finite runs of `step`, every call of which meets `ok` in the state it is made in. -/
inductive Run (step : σ → α → Option σ) (ok : σ → α → Prop) : σ → List α → σ → Prop
  | nil (s : σ) : Run step ok s [] s
  | cons {s t u : σ} {a : α} {as : List α} :
      ok s a → step s a = some t → Run step ok t as u → Run step ok s (a :: as) u

/-- Executes the calls, each after a check that it is allowed. -/
def runChecked (step : σ → α → Option σ) (ok : σ → α → Prop) [∀ s a, Decidable (ok s a)] (s : σ)
    (as : List α) : Option σ :=
  as.foldlM (fun s a => if ok s a then step s a else none) s

/-- Every call is allowed. -/
def anyCall (_ : σ) (_ : α) : Prop := True

namespace Run

variable {step : σ → α → Option σ} {ok : σ → α → Prop} {s t : σ} {as : List α}

theorem invariant (inv : σ → Prop)
    (hstep : ∀ s a t, inv s → ok s a → step s a = some t → inv t)
    (h : Run step ok s as t) (hs : inv s) : inv t := by
  induction h with
  | nil s => exact hs
  | cons hok hst _ ih => exact ih (hstep _ _ _ hs hok hst)

theorem simulates {τ : Type*} {r : τ} (rel : σ → τ → Prop) (next : τ → α → τ)
    (hstep : ∀ s a t r, rel s r → ok s a → step s a = some t → rel t (next r a))
    (h : Run step ok s as t) (hs : rel s r) : rel t (as.foldl next r) := by
  induction h generalizing r with
  | nil s => exact hs
  | cons hok hst _ ih => exact ih (hstep _ _ _ _ hs hok hst)

theorem append {as' : List α} {u : σ} (h : Run step ok s as t) (h' : Run step ok t as' u) :
    Run step ok s (as ++ as') u := by
  induction h with
  | nil s => exact h'
  | cons hok hst _ ih => exact .cons hok hst (ih h')

theorem concat_iff {a : α} : Run step ok s (as ++ [a]) t ↔
    ∃ r, Run step ok s as r ∧ ok r a ∧ step r a = some t := by
  constructor
  · intro h
    induction as generalizing s with
    | nil =>
      cases h with
      | cons hok hst hrest =>
        cases hrest
        exact ⟨s, .nil s, hok, hst⟩
    | cons b as ih =>
      cases h with
      | cons hok hst hrest =>
        obtain ⟨r, hr, hlast⟩ := ih hrest
        exact ⟨r, .cons hok hst hr, hlast⟩
  · rintro ⟨r, hr, hok, hst⟩
    exact hr.append (.cons hok hst (.nil t))

theorem restrict {ok' : σ → α → Prop} (inv : σ → Prop)
    (hstep : ∀ s a t, inv s → ok s a → step s a = some t → ok' s a ∧ inv t)
    (h : Run step ok s as t) (hs : inv s) : Run step ok' s as t := by
  induction h with
  | nil s => exact .nil s
  | cons hok hst _ ih =>
    obtain ⟨hok', ht⟩ := hstep _ _ _ hs hok hst
    exact .cons hok' hst (ih ht)

theorem of_foldlM (h : as.foldlM step s = some t) : Run step anyCall s as t := by
  induction as generalizing s with
  | nil =>
    obtain rfl : s = t := by simpa using h
    exact .nil s
  | cons a as ih =>
    cases hst : step s a with
    | none => simp [List.foldlM_cons, hst] at h
    | some r =>
      rw [List.foldlM_cons, hst] at h
      exact .cons trivial hst (ih h)

theorem of_checked [∀ s a, Decidable (ok s a)] (h : runChecked step ok s as = some t) :
    Run step ok s as t := by
  unfold runChecked at h
  induction as generalizing s with
  | nil =>
    obtain rfl : s = t := by simpa using h
    exact .nil s
  | cons a as ih =>
    rw [List.foldlM_cons] at h
    obtain ⟨r, hr, hrest⟩ := Option.bind_eq_some_iff.mp h
    split_ifs at hr with hok
    exact .cons hok hr (ih hrest)

end Run

theorem foldlM_follows {β γ : Type*} {f : β → α → Option β} {g : γ → α → γ} {l : List α}
    (rel : β → γ → Prop)
    (hround : ∀ b c, ∀ a ∈ l, rel b c → ∃ b', f b a = some b' ∧ rel b' (g c a)) {b : β} {c : γ}
    (h : rel b c) : ∃ b', l.foldlM f b = some b' ∧ rel b' (l.foldl g c) := by
  induction l generalizing b c with
  | nil => exact ⟨b, rfl, h⟩
  | cons a l ih =>
    obtain ⟨b₁, hb₁, h₁⟩ := hround b c a List.mem_cons_self h
    obtain ⟨b₂, hb₂, h₂⟩ := ih (fun b c x hx => hround b c x (List.mem_cons_of_mem _ hx)) h₁
    exact ⟨b₂, by rw [List.foldlM_cons, hb₁]; exact hb₂, h₂⟩

end OpenKernel
