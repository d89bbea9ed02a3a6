import OpenKernel.Process.Lifecycle
import Mathlib.Data.Fintype.BigOperators

/-!
# Slots, pids and the process counter

`find_free_pcb` takes the first slot whose state is zombie or has the number 0,
which is the number of `ready`. As long as no ready process stands below the
first zombie slot, and terminated processes are taken off every queue, live
processes keep their slots and pids to themselves and `process_count` counts them.
-/

namespace OpenKernel.Process

open Function Linked

def Live (s : State) (p : Slot) : Prop := s.pcbs.status p ≠ .zombie

instance (s : State) (p : Slot) : Decidable (Live s p) := inferInstanceAs (Decidable (_ ≠ _))

/-- `process_terminate(pid)` is refused, or it ends a process that is not running and that no
queue leads to once it has been taken off the ready ring. -/
def TerminateSafe (s : State) (pid : ℕ) : Prop :=
  pid = 0 ∨ s.nextPid ≤ pid ∨ ∃ h : pid < maxProcesses,
    s.pcbs.status ⟨pid, h⟩ = .zombie ∨
      (s.currentProcess ≠ some ⟨pid, h⟩ ∧ Detachable s ⟨pid, h⟩)

/-- `process_create` is refused, or the pid counter has not wrapped around to 0 and each
ready slot has a zombie slot below it. -/
def CreateSafe (s : State) : Prop :=
  maxProcesses ≤ s.processCount ∨
    (s.nextPid ≠ 0 ∧ ∀ p, s.pcbs.status p = .ready → ∃ z < p, s.pcbs.status z = .zombie)

def SlotSafe (s : State) : Call → Prop
  | .create .. => CreateSafe s
  | .terminate pid => TerminateSafe s pid
  | _ => True

structure SlotInv (s : State) : Prop where
  confined : Confined {p | Live s p} s
  count : s.processCount = (Finset.univ.filter fun p => Live s p).card
  nextPid_lt : s.nextPid < 2 ^ 32
  pid_lt : s.nextPid ≠ 0 → ∀ p, Live s p → s.pcbs.pidOf p < s.nextPid
  pid_inj : ∀ p q, Live s p → Live s q → s.pcbs.pidOf p = s.pcbs.pidOf q → p = q

theorem CreateSafe.created {s : State} {i : Slot} (hs : CreateSafe s)
    (hi : createdSlot s = some i) : s.pcbs.status i = .zombie ∧ s.nextPid ≠ 0 := by
  obtain ⟨hcount, hfind⟩ := createdSlot_eq_some hi
  rcases hs with hs | ⟨hpid, hready⟩
  · omega
  refine ⟨(findFreePcb_status hfind).resolve_right fun hr => ?_, hpid⟩
  obtain ⟨z, hz, hzombie⟩ := hready i hr
  rcases findFreePcb_min hfind hz with h | h <;> rw [hzombie] at h <;> cases h

theorem SlotInv.routine {s t : State} (h : SlotInv s) (hr : Routine {p | Live s p} s t) :
    SlotInv t := by
  have hlive : ∀ p, Live t p ↔ Live s p := by
    intro p
    constructor
    · intro hp
      by_contra hn
      exact hp ((hr.status_eq p hn).trans (not_not.mp hn))
    · exact fun hp he => hp (hr.alive p he)
  refine ⟨?_, ?_, ?_, ?_, ?_⟩
  · simpa only [hlive] using hr.confined
  · simpa only [hlive, hr.processCount_eq] using h.count
  · rw [hr.nextPid_eq]
    exact h.nextPid_lt
  · simpa only [hlive, hr.nextPid_eq, hr.pidOf_eq] using h.pid_lt
  · simpa only [hlive, hr.pidOf_eq] using h.pid_inj

theorem SlotInv.create {s : State} {entry priority stack : ℕ} (h : SlotInv s)
    (hs : CreateSafe s) : SlotInv (processCreate s entry priority stack).1 := by
  cases hi : createdSlot s with
  | none =>
    rw [processCreate_of_none hi]
    exact h
  | some i =>
    obtain ⟨hzombie, hpid⟩ := hs.created hi
    have hdead : ¬ Live s i := fun hl => hl hzombie
    obtain ⟨-, -, hnext, hcount, -⟩ :=
      statics_processCreate hi entry priority stack
    have hlive : ∀ p, Live (processCreate s entry priority stack).1 p ↔ p = i ∨ Live s p := by
      intro p
      unfold Live
      rw [status_processCreate hi]
      by_cases hp : p = i
      · subst hp
        simp
      · simp [hp]
    have hold : ∀ p, Live s p → (processCreate s entry priority stack).1.pcbs.pidOf p =
        s.pcbs.pidOf p := by
      intro p hp
      rw [pidOf_processCreate hi, update_of_ne]
      rintro rfl
      exact hdead hp
    have hnew : (processCreate s entry priority stack).1.pcbs.pidOf i = s.nextPid := by
      rw [pidOf_processCreate hi, update_self]
    refine ⟨?_, ?_, ?_, ?_, ?_⟩
    · refine confined_processCreate hi ⟨?_, ?_, ?_⟩ ((hlive i).mpr (Or.inl rfl))
      · exact (hlive 0).mpr (Or.inr h.confined.idle)
      · exact fun c hc => (hlive c).mpr (Or.inr (h.confined.current c hc))
      · exact fun p hp => (hlive p).mpr (Or.inr (h.confined.queued p hp))
    · have hset : (Finset.univ.filter fun p => Live (processCreate s entry priority stack).1 p) =
          insert i (Finset.univ.filter fun p => Live s p) := by
        ext p
        simp [hlive]
      rw [hcount, hset, Finset.card_insert_of_notMem (by simp [hdead]), ← h.count]
      have := (createdSlot_eq_some hi).1
      unfold word maxProcesses at *
      omega
    · rw [hnext]
      exact Nat.mod_lt _ (by decide)
    · intro hne p hp
      rw [hnext] at hne ⊢
      have hlt : s.nextPid + 1 < 2 ^ 32 := by
        by_contra hge
        have : s.nextPid + 1 = 2 ^ 32 := by have := h.nextPid_lt; omega
        simp [word, this] at hne
      rw [word, Nat.mod_eq_of_lt hlt]
      rcases (hlive p).mp hp with rfl | hp
      · omega
      · have := h.pid_lt hpid p hp
        rw [hold p hp]
        omega
    · intro p q hp hq he
      rcases (hlive p).mp hp with rfl | hp <;> rcases (hlive q).mp hq with rfl | hq
      · rfl
      · rw [hnew, hold q hq] at he
        exact absurd he.symm (h.pid_lt hpid q hq).ne
      · rw [hnew, hold p hp] at he
        exact absurd he (h.pid_lt hpid p hp).ne
      · rw [hold p hp, hold q hq] at he
        exact h.pid_inj p q hp hq he

theorem SlotInv.terminate {s t : State} {pid : ℕ} (h : SlotInv s) (hs : TerminateSafe s pid)
    (he : processTerminate s pid = some t) : SlotInv t := by
  rcases processTerminate_cases he with ⟨rfl, -⟩ | ⟨hlt, h0, hn, hz, -⟩
  · exact h
  rcases hs with hs | hs | ⟨_, hs | ⟨hcur, hd⟩⟩
  · exact absurd hs h0
  · omega
  · exact absurd hs hz
  obtain ⟨t', he', hconf, hst, hpid, hnext, hcount⟩ :=
    processTerminate_detachable h.confined hlt h0 hn hz hd hcur
  obtain rfl : t' = t := Option.some.inj (he'.symm.trans he)
  have hlive : ∀ p, Live t' p ↔ Live s p ∧ p ≠ ⟨pid, hlt⟩ := by
    intro p
    unfold Live
    rw [hst]
    by_cases hp : p = ⟨pid, hlt⟩
    · subst hp
      simp
    · simp [hp]
  refine ⟨?_, ?_, hnext ▸ h.nextPid_lt, ?_, ?_⟩
  · have hset : {p | Live t' p} = {p | Live s p} \ {⟨pid, hlt⟩} := by
      ext p
      simp [hlive]
    rw [hset]
    exact hconf
  · have hset : (Finset.univ.filter fun p => Live t' p) =
        (Finset.univ.filter fun p => Live s p).erase ⟨pid, hlt⟩ := by
      ext p
      simp [hlive, and_comm]
    have hmem : (⟨pid, hlt⟩ : Slot) ∈ Finset.univ.filter fun p => Live s p :=
      Finset.mem_filter.mpr ⟨Finset.mem_univ _, hz⟩
    have hpos := Finset.card_pos.mpr ⟨_, hmem⟩
    have hle : (Finset.univ.filter fun p => Live s p).card ≤ maxProcesses := by
      simpa using Finset.card_le_univ (Finset.univ.filter fun p => Live s p)
    rw [hcount, hset, Finset.card_erase_of_mem hmem, h.count]
    generalize (Finset.univ.filter fun p => Live s p).card = c at *
    unfold word maxProcesses at *
    omega
  · intro hne p hp
    rw [hnext] at hne ⊢
    rw [hpid]
    exact h.pid_lt hne p ((hlive p).mp hp).1
  · intro p q hp hq heq
    rw [hpid] at heq
    exact h.pid_inj p q ((hlive p).mp hp).1 ((hlive q).mp hq).1 heq

theorem SlotInv.step {s t : State} {call : Call} (h : SlotInv s) (hs : SlotSafe s call)
    (he : step s call = some t) : SlotInv t := by
  cases call with
  | create entry priority stack =>
    cases he
    exact h.create hs
  | terminate pid => exact h.terminate hs he
  | _ => exact h.routine (routine_step h.confined (by simp) (by simp) he)

theorem slotInv_processInit {stack stack1024 stack256 : ℕ}
    (h : stack ≠ 0 ∨ stack1024 ≠ 0 ∨ stack256 ≠ 0) :
    SlotInv (processInit boot stack stack1024 stack256) := by
  obtain ⟨-, hst, hpid⟩ := views_processInit stack stack1024 stack256
  obtain ⟨hrq, hcur, hnext, hwq⟩ := statics_processInit stack stack1024 stack256
  have hlive : ∀ p, Live (processInit boot stack stack1024 stack256) p ↔ p = 0 := by
    intro p
    unfold Live
    rw [hst]
    split_ifs with hp <;> simp [hp]
  refine ⟨⟨(hlive 0).mpr rfl, ?_, ?_⟩, ?_, ?_, ?_, ?_⟩
  · intro c hc
    rw [hcur] at hc
    exact (hlive c).mpr (Option.some.inj hc).symm
  · rintro p (hp | ⟨q, hp⟩)
    · rw [hrq] at hp
      exact absurd hp (not_reach_none p)
    · rw [hwq] at hp
      exact absurd hp (not_reach_none p)
  · have hset : (Finset.univ.filter fun p =>
        Live (processInit boot stack stack1024 stack256) p) = {0} := by
      ext p
      simp [hlive]
    rw [processCount_processInit stack stack1024 stack256 h, hset, Finset.card_singleton]
  · simp [hnext]
  · intro _ p _
    rw [hpid, hnext]
    exact Nat.one_pos
  · intro p q hp hq _
    rw [(hlive p).mp hp, (hlive q).mp hq]

/-- In every run of safe calls after a successful `process_init`, live processes have distinct
pids, `process_count` counts them, and a further safe creation takes the slot of none of them
and changes nothing but links in their PCBs. -/
theorem live_slots_kept {stack stack1024 stack256 : ℕ} {calls : List Call} {t : State}
    (hstack : stack ≠ 0 ∨ stack1024 ≠ 0 ∨ stack256 ≠ 0)
    (hrun : Run step SlotSafe (processInit boot stack stack1024 stack256) calls t) :
    (∀ p q, Live t p → Live t q → t.pcbs.pidOf p = t.pcbs.pidOf q → p = q) ∧
      t.processCount = (Finset.univ.filter fun p => Live t p).card ∧
      ∀ entry priority newStack i, SlotSafe t (.create entry priority newStack) →
        createdSlot t = some i → ¬ Live t i ∧ ∀ p, Live t p →
          ∃ v, (processCreate t entry priority newStack).1.pcbs p = { t.pcbs p with next := v } := by
  have h : SlotInv t := hrun.invariant SlotInv (fun _ _ _ h hs he => h.step hs he)
    (slotInv_processInit hstack)
  refine ⟨h.pid_inj, h.count, ?_⟩
  intro entry priority newStack i hs hi
  have hdead : ¬ Live t i := fun hl => hl (CreateSafe.created hs hi).1
  refine ⟨hdead, fun p hp => processCreate_frame hi ?_⟩
  rintro rfl
  exact hdead hp

/-- One creation after boot is safe, and the second process would go to slot 1 as well. -/
theorem live_slots_kept_boot :
    ∃ t, Run step SlotSafe (processInit boot 4096 0 0) [.create 1 1 8192] t ∧
      t.processCount = 2 ∧ Live t 1 ∧
      (Finset.univ.filter fun p => Live t p).card = t.processCount := by
  have hrun : Run step SlotSafe (processInit boot 4096 0 0) [.create 1 1 8192]
      (processCreate (processInit boot 4096 0 0) 1 1 8192).1 := by
    refine .cons (Or.inr ⟨by decide, ?_⟩) rfl (.nil _)
    decide
  exact ⟨_, hrun, by decide, by decide, (live_slots_kept (by decide) hrun).2.1.symm⟩

/-- Two creations in a row hand out slot 1 twice: the first process is ready when the second
one takes its PCB and its pid. -/
theorem create_takes_ready_slot :
    ∃ t, Run step anyCall (processInit boot 4096 0 0) [.create 1 1 8192] t ∧
      t.pcbs.status 1 = .ready ∧ createdSlot t = some 1 ∧ t.pcbs.pidOf 1 = 1 ∧
      (processCreate t 2 1 16384).1.pcbs.pidOf 1 = 2 ∧
      (processCreate t 2 1 16384).1.processCount = 3 ∧
      (Finset.univ.filter fun p => Live (processCreate t 2 1 16384).1 p).card = 2 :=
  ⟨_, Run.of_foldlM rfl, by decide, by decide, by decide, by decide, by decide, by decide⟩

end OpenKernel.Process
