import OpenKernel.Process.Effects

/-!
# Where references to processes can travel

A process can be made current, ready or blocked only if something refers to it:
the ready queue or a wait queue leads to it, it is the running process, or it is
slot 0, to which the scheduler falls back. `Confined A` says that all of these
lie in `A`. The calls other than `process_create` and `process_terminate` keep
references inside any such `A` and change no state outside it.
-/

namespace OpenKernel.Process

open Function Linked

def Queued (s : State) (p : Slot) : Prop :=
  Reach s.pcbs.link s.readyQueue p ∨ ∃ q, Reach s.pcbs.link (s.waitQueues q).head p

structure Confined (A : Set Slot) (s : State) : Prop where
  idle : 0 ∈ A
  current : ∀ c, s.currentProcess = some c → c ∈ A
  queued : ∀ p, Queued s p → p ∈ A

theorem confined_univ (s : State) : Confined Set.univ s :=
  ⟨trivial, fun _ _ => trivial, fun _ _ => trivial⟩

theorem closed_queued (s : State) : Closed s.pcbs.link {p | Queued s p} := by
  rintro a (ha | ⟨q, ha⟩) b hb
  · exact Or.inl (.step ha hb)
  · exact Or.inr ⟨q, .step ha hb⟩

theorem Queued.subset {s : State} {p : Slot} (hp : Queued s p) {R : Set Slot}
    (hR : Closed s.pcbs.link R) (hrq : ∀ p, s.readyQueue = some p → p ∈ R)
    (hwq : ∀ q p, (s.waitQueues q).head = some p → p ∈ R) : p ∈ R := by
  rcases hp with hp | ⟨q, hp⟩
  · exact hR.reach_subset hrq hp
  · exact hR.reach_subset (hwq q) hp

theorem Queued.of_readyQueue {s : State} {p : Slot} (h : s.readyQueue = some p) : Queued s p :=
  Or.inl (.root h)

theorem Queued.of_head {s : State} {q : ℕ} {p : Slot} (h : (s.waitQueues q).head = some p) :
    Queued s p :=
  Or.inr ⟨q, .root h⟩

theorem closed_addLinks {link : Slot → Option Slot} {rq : Option Slot} {R : Set Slot}
    (hR : Closed link R) (hrq : ∀ h, rq = some h → h ∈ R) (p : Slot) :
    Closed (addLinks link rq p) (insert p R) := by
  intro a ha b hb
  cases rq with
  | none =>
    by_cases hap : a = p
    · subst hap
      simp only [addLinks, update_self, Option.some.injEq] at hb
      simp [← hb]
    · simp only [addLinks, update_of_ne hap] at hb
      exact Or.inr (hR a (ha.resolve_left hap) b hb)
  | some h =>
    by_cases hah : a = h
    · subst hah
      simp only [addLinks, update_self, Option.some.injEq] at hb
      simp [← hb]
    · simp only [addLinks, update_of_ne hah] at hb
      refine Or.inr ?_
      by_cases hap : a = p
      · subst hap
        rw [update_self] at hb
        exact hR h (hrq h rfl) b hb
      · rw [update_of_ne hap] at hb
        exact hR a (ha.resolve_left hap) b hb
/-- What every call but creation and termination does to the processes, seen from `A`. -/
structure Routine (A : Set Slot) (s t : State) : Prop where
  confined : Confined A t
  status_eq : ∀ p ∉ A, t.pcbs.status p = s.pcbs.status p
  alive : ∀ p, t.pcbs.status p = .zombie → s.pcbs.status p = .zombie
  pidOf_eq : t.pcbs.pidOf = s.pcbs.pidOf
  nextPid_eq : t.nextPid = s.nextPid
  processCount_eq : t.processCount = s.processCount

namespace Routine

variable {A : Set Slot} {s t u : State} {p prev cur : Slot}

theorem refl (h : Confined A s) : Routine A s s :=
  ⟨h, fun _ _ => rfl, fun _ h => h, rfl, rfl, rfl⟩

theorem trans (h : Routine A s t) (h' : Routine A t u) : Routine A s u where
  confined := h'.confined
  status_eq p hp := (h'.status_eq p hp).trans (h.status_eq p hp)
  alive p hp := h.alive p (h'.alive p hp)
  pidOf_eq := h'.pidOf_eq.trans h.pidOf_eq
  nextPid_eq := h'.nextPid_eq.trans h.nextPid_eq
  processCount_eq := h'.processCount_eq.trans h.processCount_eq

theorem of_update {v : ProcessState} (hp : p ∈ A) (hv : v ≠ .zombie) (hc : Confined A t)
    (hst : t.pcbs.status = update s.pcbs.status p v) (hpid : t.pcbs.pidOf = s.pcbs.pidOf)
    (hn : t.nextPid = s.nextPid) (hcount : t.processCount = s.processCount) : Routine A s t where
  confined := hc
  status_eq q hq := by
    rw [hst, update_of_ne]
    rintro rfl
    exact hq hp
  alive q hq := by
    rw [hst] at hq
    by_cases hqp : q = p
    · subst hqp
      rw [update_self] at hq
      exact absurd hq hv
    · rwa [update_of_ne hqp] at hq
  pidOf_eq := hpid
  nextPid_eq := hn
  processCount_eq := hcount

theorem setState {v : ProcessState} (h : Confined A s) (hp : p ∈ A) (hv : v ≠ .zombie) :
    Routine A s { s with pcbs := s.pcbs.setState p v } := by
  refine of_update hp hv ⟨h.idle, h.current, ?_⟩ (by simp) (by simp) rfl rfl
  intro q hq
  apply h.queued q
  simpa [Queued] using hq

theorem addToReadyQueue (h : Confined A s) (hp : p ∈ A) :
    Routine A s (addToReadyQueue s p) := by
  refine of_update hp (v := .ready) (by simp) ⟨h.idle, ?_, ?_⟩ (by simp) (by simp) (by simp)
    (by simp)
  · intro c hc
    exact h.current c (by simpa using hc)
  · intro q hq
    have hR : Closed (Process.addToReadyQueue s p).pcbs.link (insert p {p | Queued s p}) := by
      rw [link_addToReadyQueue]
      exact closed_addLinks (closed_queued s) (fun _ => Queued.of_readyQueue) p
    have hin := hq.subset hR ?_ ?_
    · rcases hin with rfl | hq'
      · exact hp
      · exact h.queued q hq'
    · intro a ha
      cases hrq : s.readyQueue with
      | none =>
        simp only [readyQueue_addToReadyQueue, hrq, Option.getD_none, Option.some.injEq] at ha
        exact Or.inl ha.symm
      | some b =>
        simp only [readyQueue_addToReadyQueue, hrq, Option.getD_some, Option.some.injEq] at ha
        exact Or.inr (ha ▸ Queued.of_readyQueue hrq)
    · intro k a ha
      rw [waitQueues_addToReadyQueue] at ha
      exact Or.inr (Queued.of_head ha)

theorem requeue (h : Confined A s) (hp : prev ∈ A) : Routine A s (requeue s prev) := by
  unfold Process.requeue
  split_ifs
  · have h₁ := setState (v := .ready) h hp (by simp)
    exact h₁.trans (addToReadyQueue h₁.confined hp)
  · exact refl h

theorem dispatch (h : Confined A s) (hp : prev ∈ A) (hc : cur ∈ A) :
    Routine A s (dispatch s prev cur) := by
  have h₁ := requeue (s := { s with currentProcess := some cur })
    ⟨h.idle, fun _ he => Option.some.inj he ▸ hc, h.queued⟩ hp
  refine trans ⟨h₁.confined, h₁.status_eq, h₁.alive, h₁.pidOf_eq, h₁.nextPid_eq,
    h₁.processCount_eq⟩ ?_
  refine of_update hc (v := .running) (by simp) ⟨h.idle, ?_, ?_⟩ ?_ ?_ ?_ ?_
  · intro c he
    rw [currentProcess_dispatch] at he
    exact Option.some.inj he ▸ hc
  · intro q hq
    apply h₁.confined.queued q
    simpa [Queued, views_requeue, statics_requeue, requeueLinks, requeueEntry] using hq
  · simp [views_requeue, requeueStatus]
  · simp [views_requeue]
  · simp [statics_requeue]
  · simp [statics_requeue]

theorem popped (h : Confined A s) {head : Slot} (hq : s.readyQueue = some head) :
    Routine A s (popped s head) := by
  refine ⟨⟨h.idle, h.current, ?_⟩, fun _ _ => rfl, fun _ h => h, rfl, rfl, rfl⟩
  intro p hp
  apply h.queued p
  refine hp.subset (closed_queued s) ?_ ?_
  · intro a ha
    simp only [Process.popped] at ha
    split_ifs at ha
    exact Or.inl (.step (.root hq) ha)
  · intro q a ha
    exact Queued.of_head ha

theorem schedulerSchedule (h : Confined A s) : Routine A s (schedulerSchedule s) := by
  rcases schedulerSchedule_cases s with ⟨he, -⟩ | ⟨prev, hc, -, -, -, he⟩ |
    ⟨prev, head, hc, -, hq, he⟩
  · rw [he]
    exact refl h
  · rw [he]
    exact dispatch h (h.current prev hc) h.idle
  · rw [he]
    have h₁ := popped h hq
    exact h₁.trans (dispatch h₁.confined (h.current prev hc)
      (h.queued head (Queued.of_readyQueue hq)))

theorem clearLink (h : Confined A s) :
    Routine A s { s with pcbs := s.pcbs.setNext p none } := by
  refine ⟨⟨h.idle, h.current, ?_⟩, by simp, by simp, by simp, rfl, rfl⟩
  intro q hq
  apply h.queued q
  refine hq.subset (R := {p | Queued s p}) ?_ (fun _ ha => Queued.of_readyQueue ha)
    (fun _ _ ha => Queued.of_head ha)
  simp only [Table.link_setNext]
  exact (closed_queued s).update (by simp)

/-- Hanging a process whose link is null behind the tail of a wait queue. -/
theorem appendWaiter (h : Confined A s) (hp : p ∈ A) (hnull : s.pcbs.link p = none) (q : ℕ) :
    Routine A s (appendWaiter s q p) := by
  have hR : Closed s.pcbs.link (insert p {p | Queued s p}) :=
    (closed_queued s).insert (by simp [hnull])
  have hA : insert p {p | Queued s p} ⊆ A := Set.insert_subset hp h.queued
  have hhead : ∀ k a, (s.waitQueues k).head = some a → a ∈ insert p {p | Queued s p} :=
    fun _ _ ha => Or.inr (Queued.of_head ha)
  cases ht : (s.waitQueues q).tail with
  | none =>
    refine ⟨⟨h.idle, ?_, ?_⟩, ?_, ?_, ?_, ?_, ?_⟩ <;>
      simp only [Process.appendWaiter, ht, imp_self, implies_true]
    · exact h.current
    · intro r hr
      refine hA (hr.subset hR (fun _ ha => Or.inr (Queued.of_readyQueue ha)) ?_)
      intro k a ha
      by_cases hk : k = q
      · subst hk
        simp only [update_self, Option.some.injEq] at ha
        exact Or.inl ha.symm
      · simp only [update_of_ne hk] at ha
        exact hhead k a ha
  | some tail =>
    refine ⟨⟨h.idle, ?_, ?_⟩, ?_, ?_, ?_, ?_, ?_⟩ <;>
      simp only [Process.appendWaiter, ht, Table.status_setNext, Table.pidOf_setNext,
        imp_self, implies_true]
    · exact h.current
    · intro r hr
      refine hA (hr.subset (R := insert p {p | Queued s p}) ?_
        (fun _ ha => Or.inr (Queued.of_readyQueue ha)) ?_)
      · simp only [Table.link_setNext]
        exact hR.update (by simp)
      · intro k a ha
        by_cases hk : k = q
        · subst hk
          simp only [update_self] at ha
          exact hhead k a ha
        · simp only [update_of_ne hk] at ha
          exact hhead k a ha

theorem suspend (h : Confined A s) (hp : p ∈ A) (q : ℕ) : Routine A s (suspend s q p) := by
  have h₁ := setState (v := .blocked) h hp (by simp)
  have h₂ := clearLink (p := p) h₁.confined
  exact (h₁.trans h₂).trans (appendWaiter h₂.confined hp (by simp) q)

theorem processBlock (h : Confined A s) (q : ℕ) : Routine A s (processBlock s q) := by
  unfold Process.processBlock
  cases hc : s.currentProcess with
  | none => exact refl h
  | some c =>
    have h₁ := suspend h (h.current c hc) q
    dsimp only
    split_ifs
    · exact refl h
    · exact h₁.trans (schedulerSchedule h₁.confined)

theorem processYield (h : Confined A s) (he : processYield s = some t) : Routine A s t := by
  unfold Process.processYield at he
  cases hc : s.currentProcess with
  | none => simp [hc] at he
  | some c =>
    have hA := h.current c hc
    simp only [hc] at he
    split_ifs at he
    · cases he
      exact refl h
    · cases he
      have h₁ := setState (v := .ready) h hA (by simp)
      have h₂ := addToReadyQueue h₁.confined hA
      simpa only [hc] using (h₁.trans h₂).trans (schedulerSchedule h₂.confined)

theorem dequeueWaiter {q : ℕ} {w : Slot} (h : Confined A s)
    (hw : (s.waitQueues q).head = some w) : Routine A s (dequeueWaiter s q w) := by
  refine ⟨⟨h.idle, h.current, ?_⟩, ?_, ?_, ?_, rfl, rfl⟩
  · intro p hp
    apply h.queued p
    refine hp.subset (R := {p | Queued s p}) ?_ (fun _ ha => Queued.of_readyQueue ha) ?_
    · simp only [Process.dequeueWaiter, Table.link_setNext]
      exact (closed_queued s).update (by simp)
    · intro k a ha
      by_cases hk : k = q
      · subst hk
        simp only [Process.dequeueWaiter, update_self] at ha
        exact Or.inr ⟨k, .step (.root hw) ha⟩
      · simp only [Process.dequeueWaiter, update_of_ne hk] at ha
        exact Queued.of_head ha
  · simp [Process.dequeueWaiter]
  · simp [Process.dequeueWaiter]
  · simp [Process.dequeueWaiter]

theorem processWake (h : Confined A s) (q : ℕ) : Routine A s (processWake s q) := by
  unfold Process.processWake
  cases hw : (s.waitQueues q).head with
  | none => exact refl h
  | some w =>
    have hA := h.queued w (Queued.of_head hw)
    have h₁ := dequeueWaiter h hw
    have h₂ := setState (v := .ready) h₁.confined hA (by simp)
    exact (h₁.trans h₂).trans (addToReadyQueue h₂.confined hA)

theorem processWakeAll (fuel : ℕ) (h : Confined A s) (q : ℕ)
    (he : processWakeAll fuel s q = some t) : Routine A s t := by
  induction fuel generalizing s with
  | zero =>
    unfold Process.processWakeAll at he
    split_ifs at he
    cases he
    exact refl h
  | succ fuel ih =>
    unfold Process.processWakeAll at he
    split_ifs at he
    · cases he
      exact refl h
    · have h₁ := processWake h q
      exact h₁.trans (ih h₁.confined he)

theorem mutexUnlock (h : Confined A s) (m : ℕ) : Routine A s (mutexUnlock s m) := by
  have h₁ := processWake (s := { s with locked := update s.locked m 0 })
    ⟨h.idle, h.current, h.queued⟩ m
  exact ⟨h₁.confined, h₁.status_eq, h₁.alive, h₁.pidOf_eq, h₁.nextPid_eq, h₁.processCount_eq⟩

end Routine

/-- Creation and termination are the only calls that are not routine. -/
theorem routine_step {A : Set Slot} {s t : State} {call : Call} (h : Confined A s)
    (hc : ∀ entry priority stack, call ≠ .create entry priority stack)
    (ht : ∀ pid, call ≠ .terminate pid) (he : step s call = some t) : Routine A s t := by
  cases call with
  | create e p k => exact absurd rfl (hc e p k)
  | terminate pid => exact absurd rfl (ht pid)
  | yield => exact Routine.processYield h he
  | block q =>
    cases he
    exact Routine.processBlock h q
  | wake q =>
    cases he
    exact Routine.processWake h q
  | wakeAll q fuel => exact Routine.processWakeAll fuel h q he
  | unlock m =>
    cases he
    exact Routine.mutexUnlock h m
  | schedule =>
    cases he
    exact Routine.schedulerSchedule h
  | run esp =>
    cases he
    exact ⟨⟨h.idle, h.current, h.queued⟩, fun _ _ => rfl, fun _ h => h, rfl, rfl, rfl⟩

end OpenKernel.Process
