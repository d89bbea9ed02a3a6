import OpenKernel.Process.Model

/-!
# What the scheduler primitives change

One equation for each primitive of `process.c` and each observed part of the
state: the links, the states and the pids of the PCBs, the entry of the ready
queue, the running process, the counters and the wait queues. Later proofs use
these equations and never open the definitions again.
-/

namespace OpenKernel.Process

open Function

section AddToReadyQueue

variable (s : State) (p : Slot)

/-- The links after `add_to_ready_queue`: a self loop, or `p` behind the entry. -/
def addLinks (link : Slot → Option Slot) (rq : Option Slot) (p : Slot) : Slot → Option Slot :=
  match rq with
  | none => update link p (some p)
  | some head => update (update link p (link head)) head (some p)

@[simp] theorem link_addToReadyQueue :
    (addToReadyQueue s p).pcbs.link = addLinks s.pcbs.link s.readyQueue p := by
  cases h : s.readyQueue <;> simp [addToReadyQueue, addLinks, h]

@[simp] theorem status_addToReadyQueue :
    (addToReadyQueue s p).pcbs.status = update s.pcbs.status p .ready := by
  cases h : s.readyQueue <;> simp [addToReadyQueue, h]

@[simp] theorem pidOf_addToReadyQueue : (addToReadyQueue s p).pcbs.pidOf = s.pcbs.pidOf := by
  cases h : s.readyQueue <;> simp [addToReadyQueue, h]

@[simp] theorem readyQueue_addToReadyQueue :
    (addToReadyQueue s p).readyQueue = some (s.readyQueue.getD p) := by
  cases h : s.readyQueue <;> simp [addToReadyQueue, h]

@[simp] theorem currentProcess_addToReadyQueue :
    (addToReadyQueue s p).currentProcess = s.currentProcess := by
  cases h : s.readyQueue <;> simp [addToReadyQueue, h]

@[simp] theorem nextPid_addToReadyQueue : (addToReadyQueue s p).nextPid = s.nextPid := by
  cases h : s.readyQueue <;> simp [addToReadyQueue, h]

@[simp] theorem processCount_addToReadyQueue :
    (addToReadyQueue s p).processCount = s.processCount := by
  cases h : s.readyQueue <;> simp [addToReadyQueue, h]

@[simp] theorem waitQueues_addToReadyQueue :
    (addToReadyQueue s p).waitQueues = s.waitQueues := by
  cases h : s.readyQueue <;> simp [addToReadyQueue, h]

theorem addToReadyQueue_frame {j : Slot} (hj : j ≠ p) :
    ∃ v, (addToReadyQueue s p).pcbs j = { s.pcbs j with next := v } := by
  cases h : s.readyQueue with
  | none =>
    refine ⟨(s.pcbs j).next, ?_⟩
    simp [addToReadyQueue, h, Table.setNext, Table.setState, Table.modify_of_ne, hj]
  | some head =>
    by_cases hjh : j = head
    · subst hjh
      refine ⟨some p, ?_⟩
      simp [addToReadyQueue, h, Table.setNext, Table.setState, Table.modify_of_ne, hj]
    · refine ⟨(s.pcbs j).next, ?_⟩
      simp [addToReadyQueue, h, Table.setNext, Table.setState, Table.modify_of_ne, hj, hjh]

end AddToReadyQueue

section Dispatch

variable (s : State) (prev current : Slot)

/-- Links and entry of the ready queue once `prev` has been queued again if it was running. -/
def requeueLinks : Slot → Option Slot :=
  if s.pcbs.status prev = .running then addLinks s.pcbs.link s.readyQueue prev
  else s.pcbs.link

def requeueEntry : Option Slot :=
  if s.pcbs.status prev = .running then some (s.readyQueue.getD prev) else s.readyQueue

def requeueStatus : Slot → ProcessState :=
  if s.pcbs.status prev = .running then update s.pcbs.status prev .ready else s.pcbs.status

theorem views_requeue :
    (requeue s prev).pcbs.link = requeueLinks s prev ∧
      (requeue s prev).pcbs.status = requeueStatus s prev ∧
      (requeue s prev).pcbs.pidOf = s.pcbs.pidOf ∧
      (requeue s prev).readyQueue = requeueEntry s prev := by
  unfold requeue requeueLinks requeueStatus requeueEntry
  split_ifs <;> simp

theorem statics_requeue :
    (requeue s prev).currentProcess = s.currentProcess ∧
      (requeue s prev).nextPid = s.nextPid ∧
      (requeue s prev).processCount = s.processCount ∧
      (requeue s prev).waitQueues = s.waitQueues := by
  unfold requeue
  split_ifs <;> simp

theorem views_contextSwitch :
    (contextSwitch s prev current).pcbs.link = s.pcbs.link ∧
      (contextSwitch s prev current).pcbs.status = s.pcbs.status ∧
      (contextSwitch s prev current).pcbs.pidOf = s.pcbs.pidOf := by
  refine ⟨?_, ?_, ?_⟩
  · exact (Table.link_modify _ _ _).trans (update_eq_self prev s.pcbs.link)
  · exact (Table.status_modify _ _ _).trans (update_eq_self prev s.pcbs.status)
  · exact (Table.pidOf_modify _ _ _).trans (update_eq_self prev s.pcbs.pidOf)

theorem views_modify_running (t : Table) (i : Slot) :
    (t.modify i fun p => { p with state := .running, ticksRemaining := p.priority }).link =
      t.link ∧
    (t.modify i fun p => { p with state := .running, ticksRemaining := p.priority }).pidOf =
      t.pidOf :=
  ⟨(Table.link_modify _ _ _).trans (update_eq_self i t.link),
    (Table.pidOf_modify _ _ _).trans (update_eq_self i t.pidOf)⟩

@[simp] theorem link_dispatch :
    (dispatch s prev current).pcbs.link = requeueLinks s prev := by
  by_cases hc : prev = current <;>
    simp [dispatch, hc, views_contextSwitch, views_modify_running, views_requeue, requeueLinks]

@[simp] theorem readyQueue_dispatch :
    (dispatch s prev current).readyQueue = requeueEntry s prev := by
  by_cases hc : prev = current <;>
    simp [dispatch, hc, contextSwitch, views_requeue, requeueEntry]

@[simp] theorem status_dispatch :
    (dispatch s prev current).pcbs.status = update (requeueStatus s prev) current .running := by
  by_cases hc : prev = current <;>
    simp [dispatch, hc, views_contextSwitch, Table.status_modify, views_requeue, requeueStatus]

@[simp] theorem pidOf_dispatch : (dispatch s prev current).pcbs.pidOf = s.pcbs.pidOf := by
  by_cases hc : prev = current <;>
    simp [dispatch, hc, views_contextSwitch, views_modify_running, views_requeue]

@[simp] theorem currentProcess_dispatch :
    (dispatch s prev current).currentProcess = some current := by
  by_cases hc : prev = current <;> simp [dispatch, hc, contextSwitch, statics_requeue]

@[simp] theorem nextPid_dispatch : (dispatch s prev current).nextPid = s.nextPid := by
  by_cases hc : prev = current <;> simp [dispatch, hc, contextSwitch, statics_requeue]

@[simp] theorem processCount_dispatch :
    (dispatch s prev current).processCount = s.processCount := by
  by_cases hc : prev = current <;> simp [dispatch, hc, contextSwitch, statics_requeue]

@[simp] theorem waitQueues_dispatch : (dispatch s prev current).waitQueues = s.waitQueues := by
  by_cases hc : prev = current <;> simp [dispatch, hc, contextSwitch, statics_requeue]

end Dispatch

def popped (s : State) (head : Slot) : State :=
  { s with readyQueue := if s.pcbs.link head = some head then none else s.pcbs.link head }

/-- Everything `scheduler_schedule` can do: stay, fall back to slot 0, or pop the entry. -/
theorem schedulerSchedule_cases (s : State) :
    (schedulerSchedule s = s ∧ ∀ prev, s.currentProcess = some prev → s.processCount ≠ 0 →
      s.readyQueue = none ∧ s.pcbs.pidOf prev = 0) ∨
    (∃ prev, s.currentProcess = some prev ∧ s.processCount ≠ 0 ∧ s.readyQueue = none ∧
      s.pcbs.pidOf prev ≠ 0 ∧ schedulerSchedule s = dispatch s prev 0) ∨
    (∃ prev head, s.currentProcess = some prev ∧ s.processCount ≠ 0 ∧
      s.readyQueue = some head ∧ schedulerSchedule s = dispatch (popped s head) prev head) := by
  unfold schedulerSchedule
  cases hc : s.currentProcess with
  | none => exact Or.inl ⟨rfl, by simp⟩
  | some prev =>
    by_cases hz : s.processCount = 0
    · exact Or.inl ⟨by simp [hz], fun _ _ h => absurd hz h⟩
    cases hq : s.readyQueue with
    | some head => exact Or.inr (Or.inr ⟨prev, head, rfl, hz, rfl, by simp [hz, popped, hc]⟩)
    | none =>
      by_cases hp : s.pcbs.pidOf prev = 0
      · refine Or.inl ⟨by simp [hz, hp], ?_⟩
        rintro p hpp -
        exact ⟨rfl, Option.some.inj hpp ▸ hp⟩
      · exact Or.inr (Or.inl ⟨prev, rfl, hz, rfl, hp, by simp [hz, hp]⟩)

theorem schedulerSchedule_of_count {s : State} (h : s.processCount = 0) :
    schedulerSchedule s = s := by
  unfold schedulerSchedule
  cases s.currentProcess <;> simp [h]

section Create

variable (s : State) (i : Slot) (pid entry priority stack : ℕ)

theorem link_pcbInit :
    (pcbInit s i pid entry priority stack).pcbs.link = update s.pcbs.link i none := by
  unfold pcbInit
  by_cases h : stack = 0 <;> simp [h, Table.link_modify]

theorem status_pcbInit :
    (pcbInit s i pid entry priority stack).pcbs.status = update s.pcbs.status i .ready := by
  unfold pcbInit
  by_cases h : stack = 0 <;> simp [h, Table.status_modify]

theorem pidOf_pcbInit :
    (pcbInit s i pid entry priority stack).pcbs.pidOf = update s.pcbs.pidOf i pid := by
  unfold pcbInit
  by_cases h : stack = 0 <;> simp [h, Table.pidOf_modify]

theorem statics_pcbInit :
    (pcbInit s i pid entry priority stack).readyQueue = s.readyQueue ∧
      (pcbInit s i pid entry priority stack).currentProcess = s.currentProcess ∧
      (pcbInit s i pid entry priority stack).nextPid = s.nextPid ∧
      (pcbInit s i pid entry priority stack).processCount = s.processCount ∧
      (pcbInit s i pid entry priority stack).waitQueues = s.waitQueues := by
  unfold pcbInit
  by_cases h : stack = 0 <;> simp [h]

end Create

section Init

variable (stack stack1024 stack256 : ℕ)

theorem views_processInit :
    (∀ p, (processInit boot stack stack1024 stack256).pcbs.link p = none) ∧
      (∀ p, (processInit boot stack stack1024 stack256).pcbs.status p =
        if p = 0 then .running else .zombie) ∧
      ∀ p, (processInit boot stack stack1024 stack256).pcbs.pidOf p = 0 := by
  refine ⟨fun p => ?_, fun p => ?_, fun p => ?_⟩ <;> unfold processInit <;>
    by_cases hp : p = 0 <;> dsimp only <;> split_ifs <;>
    simp [Table.link, Table.status, Table.pidOf, Table.modify, hp, boot]

theorem statics_processInit :
    (processInit boot stack stack1024 stack256).readyQueue = none ∧
      (processInit boot stack stack1024 stack256).currentProcess = some 0 ∧
      (processInit boot stack stack1024 stack256).nextPid = 1 ∧
      ∀ q, (processInit boot stack stack1024 stack256).waitQueues q = ⟨none, none⟩ := by
  unfold processInit
  dsimp only
  split_ifs <;> simp [boot]

theorem processCount_processInit (h : stack ≠ 0 ∨ stack1024 ≠ 0 ∨ stack256 ≠ 0) :
    (processInit boot stack stack1024 stack256).processCount = 1 := by
  unfold processInit
  dsimp only
  split_ifs with h₁ h₂ h₃ <;> first | rfl | simp_all

end Init

/-- The slot `process_create` takes, if it takes one. -/
def createdSlot (s : State) : Option Slot :=
  if maxProcesses ≤ s.processCount then none else findFreePcb s

theorem findFreePcb_status {s : State} {i : Slot} (h : findFreePcb s = some i) :
    s.pcbs.status i = .zombie ∨ s.pcbs.status i = .ready := by
  have hi := List.find?_some h
  cases hs : s.pcbs.status i <;> simp [hs, ProcessState.code] at hi ⊢

theorem findFreePcb_min {s : State} {i j : Slot} (h : findFreePcb s = some i) (hj : j < i) :
    s.pcbs.status j = .running ∨ s.pcbs.status j = .blocked := by
  obtain ⟨-, as, bs, hl, has⟩ := List.find?_eq_some_iff_append.mp h
  have hmem : j ∈ as := by
    have hsorted : (as ++ i :: bs).Pairwise (· < ·) := by
      rw [← hl]
      exact List.pairwise_lt_finRange _
    have hjm : j ∈ as ++ i :: bs := by
      rw [← hl]
      exact List.mem_finRange j
    rcases List.mem_append.mp hjm with hj' | hj'
    · exact hj'
    · have hib := (List.pairwise_append.mp hsorted).2.1
      rcases List.mem_cons.mp hj' with rfl | hj'
      · exact absurd hj (lt_irrefl _)
      · exact absurd hj (lt_asymm ((List.pairwise_cons.mp hib).1 j hj'))
  have hn := has j hmem
  cases hs : s.pcbs.status j <;> simp [hs, ProcessState.code] at hn ⊢

end OpenKernel.Process
