import Mathlib.Algebra.Group.Fin.Basic
import Mathlib.Data.List.OfFn

/-!
# Queues served in turn

A loop serves `n + 1` queues one after the other, over and over. A round is what it deals with,
in this order, if nothing else arrives. What joins a queue comes last in the round as long as
nothing waits in a queue that is served later.
-/

namespace OpenKernel

variable {α : Type*} {n : ℕ} {queue queue' : Fin (n + 1) → List α} {first j : Fin (n + 1)} {a : α}

/-- The queues from the one served next on. -/
def serviceRound (queue : Fin (n + 1) → List α) (first : Fin (n + 1)) : List α :=
  (List.ofFn fun i => queue (first + i)).flatten

/-- Nothing waits in a queue served later in the round than `j`. -/
def LastInRound (queue : Fin (n + 1) → List α) (first j : Fin (n + 1)) : Prop :=
  ∀ i, j - first < i → queue (first + i) = []

instance : Decidable (LastInRound queue first j) :=
  letI : ∀ l : List α, Decidable (l = []) := fun _ => decidable_of_iff _ List.isEmpty_iff
  inferInstanceAs (Decidable (∀ _, _ → _))

theorem serviceRound_eq_nil (h : ∀ i, queue i = []) : serviceRound queue first = [] := by
  rw [serviceRound, List.flatten_eq_nil_iff]
  intro l hl
  obtain ⟨i, rfl⟩ := List.mem_ofFn.mp hl
  exact h _

theorem serviceRound_succ (h : queue first = []) :
    serviceRound queue (first + 1) = serviceRound queue first := by
  have hfront : (List.ofFn fun i => queue (first + i)) =
      queue first :: List.ofFn fun i : Fin n => queue (first + i.succ) := by
    rw [List.ofFn_succ, add_zero]
  have hback : (List.ofFn fun i => queue (first + 1 + i)) =
      (List.ofFn fun i : Fin n => queue (first + i.succ)) ++ [queue first] := by
    rw [List.ofFn_succ_last]
    congr 2
    · funext i
      rw [add_assoc, add_comm 1, Fin.coeSucc_eq_succ]
    · rw [add_assoc, add_comm 1, Fin.last_add_one, add_zero]
  rw [serviceRound, serviceRound, hfront, hback, h]
  simp

theorem serviceRound_cons (hfirst : queue first = a :: queue' first)
    (hother : ∀ i, i ≠ first → queue' i = queue i) :
    serviceRound queue first = a :: serviceRound queue' first := by
  have hrest : (fun i : Fin n => queue' (first + i.succ)) = fun i => queue (first + i.succ) := by
    funext i
    apply hother
    rw [ne_eq, add_eq_left]
    exact Fin.succ_ne_zero i
  rw [serviceRound, serviceRound, List.ofFn_succ, List.ofFn_succ, add_zero, hfirst, hrest]
  rfl

/-- What joins a queue behind which nothing waits comes last. -/
theorem flatten_ofFn_concat {w w' : Fin n → List α} {j : Fin n}
    (hj : w' j = w j ++ [a]) (hother : ∀ i, i ≠ j → w' i = w i) (hlater : ∀ i, j < i → w i = []) :
    (List.ofFn w').flatten = (List.ofFn w).flatten ++ [a] := by
  induction n with
  | zero => exact j.elim0
  | succ n ih =>
    rw [List.ofFn_succ, List.ofFn_succ, List.flatten_cons, List.flatten_cons]
    cases j using Fin.cases with
    | zero =>
      have hnil : (fun i : Fin n => w i.succ) = fun _ => [] :=
        funext fun i => hlater i.succ (Fin.succ_pos i)
      have hnil' : (fun i : Fin n => w' i.succ) = fun _ => [] := by
        rw [← hnil]
        exact funext fun i => hother i.succ (Fin.succ_ne_zero i)
      rw [hnil, hnil', hj, List.ofFn_const, List.flatten_replicate_nil, List.append_nil,
        List.append_nil]
    | succ j =>
      have hrest := @ih (fun i => w i.succ) (fun i => w' i.succ) j hj
        (fun i hi => hother i.succ fun he => hi (Fin.succ_inj.mp he))
        (fun i hi => hlater i.succ (Fin.succ_lt_succ_iff.mpr hi))
      rw [hother 0 (Fin.succ_ne_zero j).symm, hrest, List.append_assoc]

theorem serviceRound_concat (hlast : LastInRound queue first j) (hj : queue' j = queue j ++ [a])
    (hother : ∀ i, i ≠ j → queue' i = queue i) :
    serviceRound queue' first = serviceRound queue first ++ [a] := by
  refine flatten_ofFn_concat (j := j - first) ?_ ?_ hlast
  · rw [add_sub_cancel, hj]
  · intro i hi
    apply hother
    rintro rfl
    rw [add_sub_cancel_left] at hi
    exact hi rfl

end OpenKernel
