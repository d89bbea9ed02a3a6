import OpenKernel.Process.Lifecycle

/-!
# Terminated processes

Once nothing refers to a zombie any more, no call but the creation that reuses
its slot can bring it back. `process_terminate` reaches that point for a process
it can detach; a blocked process stays on its wait queue and a later wake-up
makes the zombie ready again.
-/

namespace OpenKernel.Process

open Function

/-- Any call except a creation that takes the slot `p`. -/
def KeepsSlot (p : Slot) (s : State) : Call → Prop
  | .create .. => createdSlot s ≠ some p
  | _ => True

/-- `p` is a zombie to which nothing refers. -/
structure Forgotten (p : Slot) (s : State) : Prop where
  confined : Confined {p}ᶜ s
  zombie : s.pcbs.status p = .zombie

theorem Forgotten.step {p : Slot} {s t : State} {call : Call} (h : Forgotten p s)
    (hk : KeepsSlot p s call) (he : step s call = some t) : Forgotten p t := by
  cases call with
  | create entry priority stack =>
    cases he
    cases hi : createdSlot s with
    | none =>
      rw [processCreate_of_none hi]
      exact h
    | some i =>
      have hip : i ≠ p := by
        rintro rfl
        exact hk hi
      refine ⟨confined_processCreate hi h.confined hip, ?_⟩
      rw [status_processCreate hi, update_of_ne hip.symm]
      exact h.zombie
  | terminate pid =>
    rcases processTerminate_cases he with ⟨rfl, -⟩ | ⟨hlt, -, -, -, u, hu, rfl⟩
    · exact h
    · have hr := Routine.schedulerRemoveProcess h.confined hu
      refine ⟨confined_markTerminated hr.confined, ?_⟩
      rw [status_markTerminated]
      by_cases hp : p = ⟨pid, hlt⟩
      · rw [hp, update_self]
      · rw [update_of_ne hp, hr.status_eq p (by simp)]
        exact h.zombie
  | _ =>
    have hr := routine_step h.confined (by simp) (by simp) he
    exact ⟨hr.confined, (hr.status_eq p (by simp)).trans h.zombie⟩

/-- A process that `process_terminate` accepts and can detach is never ready or running again,
whatever calls follow, until a creation reuses its slot. -/
theorem terminated_stays_dead {s : State} {pid : ℕ} (h : pid < maxProcesses) (h0 : pid ≠ 0)
    (hn : pid < s.nextPid) (hst : s.pcbs.status ⟨pid, h⟩ = .ready ∨ s.pcbs.status ⟨pid, h⟩ = .blocked)
    (hcur : s.currentProcess ≠ some ⟨pid, h⟩) (hd : Detachable s ⟨pid, h⟩) :
    ∃ t, processTerminate s pid = some t ∧
      ∀ calls u, Run step (KeepsSlot ⟨pid, h⟩) t calls u →
        u.pcbs.status ⟨pid, h⟩ ≠ .ready ∧ u.currentProcess ≠ some ⟨pid, h⟩ := by
  have hz : s.pcbs.status ⟨pid, h⟩ ≠ .zombie := by
    rcases hst with hst | hst <;> rw [hst] <;> decide
  obtain ⟨t, ht, hconf, hstatus, -⟩ :=
    processTerminate_detachable (confined_univ s) h h0 hn hz hd hcur
  refine ⟨t, ht, fun calls u hrun => ?_⟩
  have hforgot : Forgotten ⟨pid, h⟩ t := by
    refine ⟨?_, by rw [hstatus, update_self]⟩
    rwa [Set.compl_eq_univ_sdiff]
  have hu := hrun.invariant (Forgotten ⟨pid, h⟩) (fun _ _ _ hf hk he => hf.step hk he) hforgot
  refine ⟨by simp [hu.zombie], fun hc => ?_⟩
  exact hu.confined.current _ hc rfl

/-- The first process after boot, ended while it is ready and alone on the ready queue. -/
theorem terminated_stays_dead_first :
    ∃ t, processTerminate (processCreate (processInit boot 4096 0 0) 1 1 8192).1 1 = some t ∧
      ∀ calls u, Run step (KeepsSlot 1) t calls u →
        u.pcbs.status 1 ≠ .ready ∧ u.currentProcess ≠ some 1 := by
  refine terminated_stays_dead (s := (processCreate (processInit boot 4096 0 0) 1 1 8192).1)
    (by decide : 1 < maxProcesses) (by decide) (by decide) (by decide) (by decide) (Or.inl ⟨by decide, ?_⟩)
  refine ⟨⟨[1], ⟨⟨by decide, rfl⟩, by decide⟩, fun _ => rfl⟩, fun q => ?_⟩
  exact Linked.not_reach_none _

/-- The first process blocks on a queue and is terminated; the next wake-up of that queue
makes the zombie ready. -/
theorem terminated_blocked_wakes :
    ∃ s t u, Run step anyCall (processInit boot 4096 0 0)
        [.create 1 1 8192, .schedule, .block 0] s ∧
      s.pcbs.status 1 = .blocked ∧ s.pcbs.pidOf 1 = 1 ∧ processTerminate s 1 = some t ∧
      t.pcbs.status 1 = .zombie ∧ Run step anyCall t [.wake 0] u ∧
      u.pcbs.status 1 = .ready := by
  refine ⟨_, _, _, Run.of_foldlM rfl, by decide, by decide, rfl, by decide,
    Run.of_foldlM rfl, by decide⟩

end OpenKernel.Process
