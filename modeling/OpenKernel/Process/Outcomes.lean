import OpenKernel.Process.StackFailure

/-!
# What a call does with the stacks

Every call of `process.c` leaves the running process as it is or saves its stack pointer and goes
on with another one, and the field `kernel_stack` of a PCB changes only where `pcb_init` and
`process_terminate` write it.
-/

namespace OpenKernel.Process

open Function

/-! ### The stacks of the table -/

def Table.stackOf (t : Table) (i : Slot) : ℕ := (t i).kernelStack

section Views

variable (s : State) (t : Table) (p prev current : Slot)

theorem stackOf_modify (f : Pcb → Pcb) :
    (t.modify p f).stackOf = update t.stackOf p (f (t p)).kernelStack := by
  funext j
  by_cases h : j = p
  · subst h
    simp [Table.stackOf, Table.modify]
  · simp [Table.stackOf, Table.modify, h]

@[simp] theorem stackOf_setNext (v : Option Slot) : (t.setNext p v).stackOf = t.stackOf :=
  (stackOf_modify t p _).trans (update_eq_self p t.stackOf)

@[simp] theorem stackOf_setState (v : ProcessState) : (t.setState p v).stackOf = t.stackOf :=
  (stackOf_modify t p _).trans (update_eq_self p t.stackOf)

@[simp] theorem stackOf_addToReadyQueue :
    (addToReadyQueue s p).pcbs.stackOf = s.pcbs.stackOf := by
  cases h : s.readyQueue <;> simp [addToReadyQueue, h]

theorem stackOf_dispatch : (dispatch s prev current).pcbs.stackOf = s.pcbs.stackOf := by
  have hrequeue : ∀ u : State, (requeue u prev).pcbs.stackOf = u.pcbs.stackOf := by
    intro u
    unfold requeue
    split_ifs <;> simp
  have hrunning : ∀ t : Table, (t.modify current fun p =>
      { p with state := .running, ticksRemaining := p.priority }).stackOf = t.stackOf :=
    fun t => (stackOf_modify t current _).trans (update_eq_self current t.stackOf)
  have hsaved : ∀ (t : Table) (esp : ℕ),
      (t.modify prev fun p => { p with esp := esp }).stackOf = t.stackOf :=
    fun t _ => (stackOf_modify t prev _).trans (update_eq_self prev t.stackOf)
  unfold dispatch
  by_cases hc : prev = current
  · rw [if_neg (not_not.mpr hc)]
    exact (hrunning _).trans (hrequeue _)
  · rw [if_pos hc]
    exact (hsaved _ _).trans ((hrunning _).trans (hrequeue _))

theorem stackOf_pcbInit (pid entry priority stack : ℕ) :
    (pcbInit s p pid entry priority stack).pcbs.stackOf = update s.pcbs.stackOf p stack := by
  unfold pcbInit
  dsimp only
  split_ifs
  · exact stackOf_modify _ _ _
  · rw [stackOf_modify, stackOf_modify, Table.modify_self, update_idem]

end Views

/-! ### Outcomes -/

/-- The running process goes on, or its stack pointer is saved and another one goes on. -/
inductive Outcome (s t : State) : Prop
  | stays (hcur : t.currentProcess = s.currentProcess) (hesp : t.pcbs.espOf = s.pcbs.espOf)
  | switches {prev current : Slot} (hprev : s.currentProcess = some prev)
      (hcur : t.currentProcess = some current) (hne : prev ≠ current)
      (hesp : t.pcbs.espOf = update s.pcbs.espOf prev (savedEsp s))

section Outcomes

variable {s t u : State}

theorem Outcome.of_same (h : Outcome u t) (hesps : u.pcbs.espOf = s.pcbs.espOf)
    (hesp : u.esp = s.esp) (hcur : u.currentProcess = s.currentProcess) : Outcome s t := by
  have hsaved : savedEsp u = savedEsp s := congrArg (fun n => word (n + 2 ^ 32 - 16)) hesp
  cases h with
  | stays hc he => exact .stays (hc.trans hcur) (he.trans hesps)
  | switches hp hc hne he => exact .switches (hcur.symm.trans hp) hc hne (by rw [he, hesps, hsaved])

theorem outcome_dispatch {prev current : Slot} (hprev : s.currentProcess = some prev) :
    Outcome s (dispatch s prev current) := by
  by_cases hc : prev = current
  · refine .stays ?_ ?_
    · rw [currentProcess_dispatch, hprev, hc]
    · rw [espOf_dispatch, if_pos hc]
  · refine .switches hprev (currentProcess_dispatch _ _ _) hc ?_
    rw [espOf_dispatch, if_neg hc]

theorem outcome_schedulerSchedule (s : State) :
    Outcome s (schedulerSchedule s) ∧ (schedulerSchedule s).pcbs.stackOf = s.pcbs.stackOf := by
  rcases schedulerSchedule_cases s with ⟨he, -⟩ | ⟨prev, hc, -, -, -, he⟩ |
    ⟨prev, head, hc, -, -, he⟩
  · rw [he]
    exact ⟨.stays rfl rfl, rfl⟩
  · rw [he]
    exact ⟨outcome_dispatch hc, stackOf_dispatch _ _ _⟩
  · rw [he]
    exact ⟨(outcome_dispatch (s := popped s head) hc).of_same rfl rfl rfl, stackOf_dispatch _ _ _⟩

theorem stackOf_processWake (s : State) (q : ℕ) :
    (processWake s q).pcbs.stackOf = s.pcbs.stackOf := by
  unfold processWake dequeueWaiter
  cases h : (s.waitQueues q).head <;> simp

theorem stackOf_processWakeAll {fuel q : ℕ} (h : processWakeAll fuel s q = some t) :
    t.pcbs.stackOf = s.pcbs.stackOf := by
  induction fuel generalizing s with
  | zero =>
    unfold processWakeAll at h
    split_ifs at h
    cases h
    rfl
  | succ fuel ih =>
    unfold processWakeAll at h
    split_ifs at h
    · cases h
      rfl
    · rw [ih h, stackOf_processWake]

theorem outcome_processBlock (s : State) (q : ℕ) :
    Outcome s (processBlock s q) ∧ (processBlock s q).pcbs.stackOf = s.pcbs.stackOf := by
  unfold processBlock
  cases hc : s.currentProcess with
  | none => exact ⟨.stays rfl rfl, rfl⟩
  | some c =>
    dsimp only
    split_ifs
    · exact ⟨.stays rfl rfl, rfl⟩
    · obtain ⟨hout, hstack⟩ := outcome_schedulerSchedule (suspend s q c)
      refine ⟨hout.of_same ?_ ?_ ?_, hstack.trans ?_⟩ <;> unfold suspend appendWaiter <;>
        cases ht : (s.waitQueues q).tail <;> simp [ht]

theorem outcome_processYield (h : processYield s = some t) :
    Outcome s t ∧ t.pcbs.stackOf = s.pcbs.stackOf := by
  unfold processYield at h
  cases hc : s.currentProcess with
  | none =>
    rw [hc] at h
    cases h
  | some c =>
    rw [hc] at h
    dsimp only at h
    split_ifs at h
    · cases h
      exact ⟨.stays rfl rfl, rfl⟩
    · cases h
      obtain ⟨hout, hstack⟩ := outcome_schedulerSchedule
        (addToReadyQueue { s with pcbs := s.pcbs.setState c .ready, currentProcess := some c } c)
      refine ⟨hout.of_same ?_ ?_ ?_, hstack.trans ?_⟩
      · simp
      · simp
      · simpa using hc.symm
      · simp

/-- A call other than those that create and end processes. -/
def Call.Switching : Call → Prop
  | .create .. => False
  | .terminate _ => False
  | _ => True

theorem outcome_step {c : Call} (hc : c.Switching) (h : step s c = some t) :
    Outcome s t ∧ t.pcbs.stackOf = s.pcbs.stackOf := by
  cases c with
  | create => exact hc.elim
  | terminate => exact hc.elim
  | yield => exact outcome_processYield h
  | block q =>
    cases h
    exact outcome_processBlock s q
  | wake q =>
    cases h
    obtain ⟨hesp, hcur⟩ := espOf_processWake s q
    exact ⟨.stays hcur hesp, stackOf_processWake s q⟩
  | wakeAll q fuel =>
    obtain ⟨hesp, hcur⟩ := espOf_processWakeAll h
    exact ⟨.stays hcur hesp, stackOf_processWakeAll h⟩
  | unlock m =>
    cases h
    obtain ⟨hesp, hcur⟩ := espOf_processWake { s with locked := update s.locked m 0 } m
    exact ⟨.stays hcur hesp, stackOf_processWake _ m⟩
  | schedule =>
    cases h
    exact outcome_schedulerSchedule s
  | run esp =>
    cases h
    exact ⟨.stays rfl rfl, rfl⟩

/-- The slot that `process_terminate` clears, if it does not refuse. -/
def doomed (s : State) (pid : ℕ) : Option Slot :=
  if h : pid < maxProcesses then
    if pid ≠ 0 ∧ pid < s.nextPid ∧ s.pcbs.status ⟨pid, h⟩ ≠ .zombie then some ⟨pid, h⟩ else none
  else none

theorem processTerminate_doomed {pid : ℕ} (h : processTerminate s pid = some t) :
    t.pcbs.espOf = s.pcbs.espOf ∧ t.currentProcess = s.currentProcess ∧
      t.pcbs.stackOf = match doomed s pid with
        | none => s.pcbs.stackOf
        | some i => update s.pcbs.stackOf i 0 := by
  obtain ⟨hesp, hcur⟩ := espOf_processTerminate h
  refine ⟨hesp, hcur, ?_⟩
  rcases processTerminate_cases h with ⟨rfl, hrefused⟩ | ⟨hlt, hpid, hnext, hstatus, u, hu, rfl⟩
  · have hnone : doomed t pid = none := by
      unfold doomed
      split_ifs with hlt hall
      · obtain ⟨h₁, h₂, h₃⟩ := hall
        rcases hrefused with h₁' | h₂' | ⟨_, h₃'⟩
        · exact absurd h₁' h₁
        · exact absurd h₂' (not_le.mpr h₂)
        · exact absurd h₃' h₃
      · rfl
      · rfl
    rw [hnone]
  · have hsome : doomed s pid = some ⟨pid, hlt⟩ := by
      rw [doomed, dif_pos hlt, if_pos ⟨hpid, hnext, hstatus⟩]
    have hsame : u.pcbs.stackOf = s.pcbs.stackOf := by
      funext q
      obtain ⟨v, hv⟩ := schedulerRemoveProcess_pcb hu q
      rw [Table.stackOf, hv]
      rfl
    rw [hsome]
    dsimp only
    rw [← hsame]
    exact stackOf_modify _ _ _

theorem processCreate_stack {i : Slot} (h : createdSlot s = some i) (entry priority stack : ℕ) :
    (processCreate s entry priority stack).1.currentProcess = s.currentProcess ∧
      (processCreate s entry priority stack).1.pcbs.stackOf = update s.pcbs.stackOf i stack ∧
      ∀ j, j ≠ i → (processCreate s entry priority stack).1.pcbs.espOf j = s.pcbs.espOf j := by
  rw [processCreate_of_some h]
  dsimp only
  refine ⟨?_, ?_, ?_⟩
  · rw [currentProcess_addToReadyQueue]
    exact (statics_pcbInit _ _ _ _ _ _).2.1
  · rw [stackOf_addToReadyQueue, stackOf_pcbInit]
  · intro j hj
    rw [espOf_addToReadyQueue]
    unfold pcbInit
    dsimp only
    split_ifs
    · rw [espOf_modify, update_of_ne hj]
    · rw [espOf_modify, espOf_modify, update_of_ne hj, update_of_ne hj]

theorem processCreate_esp {i : Slot} (h : createdSlot s = some i) (entry priority : ℕ) {stack : ℕ}
    (hstack : stack ≠ 0) : (processCreate s entry priority stack).1.pcbs.espOf i =
      word (stack + processStackSize - 20) := by
  rw [processCreate_of_some h]
  dsimp only
  rw [espOf_addToReadyQueue, espOf_pcbInit _ _ hstack, update_self]

end Outcomes

end OpenKernel.Process
