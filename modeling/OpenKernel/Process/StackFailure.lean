import OpenKernel.Process.TerminationTarget

/-!
# Creation without a stack

`pcb_init` reports that there is no kernel stack and returns, with the saved
stack pointer still 0; `process_create` does not notice, queues the process and
counts it, and the scheduler switches to stack pointer 0. As long as every
creation that gets as far as `kmalloc` is given a block, the scheduler switches
only to processes whose stack pointer was set up or saved.
-/

namespace OpenKernel.Process

open Function Linked

/-! ### The saved stack pointers -/

/-- The stack pointer saved in a PCB. -/
def Table.espOf (t : Table) (i : Slot) : ℕ := (t i).esp

/-- What `context_switch` saves: the stack pointer below the four pushed registers. -/
def savedEsp (s : State) : ℕ := word (s.esp + 2 ^ 32 - 16)

section Esp

variable (s : State) (t : Table) (p prev current : Slot)

theorem espOf_modify (f : Pcb → Pcb) : (t.modify p f).espOf = update t.espOf p (f (t p)).esp := by
  funext j
  by_cases h : j = p
  · subst h
    simp [Table.espOf, Table.modify]
  · simp [Table.espOf, Table.modify, h]

@[simp] theorem espOf_setNext (v : Option Slot) : (t.setNext p v).espOf = t.espOf :=
  (espOf_modify t p _).trans (update_eq_self p t.espOf)

@[simp] theorem espOf_setState (v : ProcessState) : (t.setState p v).espOf = t.espOf :=
  (espOf_modify t p _).trans (update_eq_self p t.espOf)

@[simp] theorem espOf_addToReadyQueue : (addToReadyQueue s p).pcbs.espOf = s.pcbs.espOf := by
  cases h : s.readyQueue <;> simp [addToReadyQueue, h]

@[simp] theorem esp_addToReadyQueue : (addToReadyQueue s p).esp = s.esp := by
  cases h : s.readyQueue <;> simp [addToReadyQueue, h]

theorem esp_requeue :
    (requeue s prev).pcbs.espOf = s.pcbs.espOf ∧ (requeue s prev).esp = s.esp := by
  unfold requeue
  split_ifs <;> simp

theorem espOf_dispatch : (dispatch s prev current).pcbs.espOf =
    if prev = current then s.pcbs.espOf else update s.pcbs.espOf prev (savedEsp s) := by
  have hrunning : ∀ (t : Table), (t.modify current fun p =>
      { p with state := .running, ticksRemaining := p.priority }).espOf = t.espOf :=
    fun t => (espOf_modify t current _).trans (update_eq_self current t.espOf)
  obtain ⟨hesps, hesp⟩ := esp_requeue { s with currentProcess := some current } prev
  unfold dispatch
  by_cases hc : prev = current
  · rw [if_pos hc, if_neg (not_not.mpr hc)]
    dsimp only
    rw [hrunning, hesps]
  · rw [if_neg hc, if_pos hc]
    unfold contextSwitch
    dsimp only
    rw [espOf_modify, hrunning, hesps, hesp]
    rfl

theorem espOf_pcbInit {pid entry priority stack : ℕ} (hstack : stack ≠ 0) :
    (pcbInit s p pid entry priority stack).pcbs.espOf =
      update s.pcbs.espOf p (word (stack + processStackSize - 20)) := by
  unfold pcbInit
  dsimp only
  rw [if_neg hstack, espOf_modify, espOf_modify, update_idem]

end Esp

/-! ### One call -/

/-- A stack pointer changes only when the process is switched out, and then it is saved. -/
structure Saves (s t : State) : Prop where
  espOf : ∀ i, t.pcbs.espOf i = s.pcbs.espOf i ∨ t.pcbs.espOf i = savedEsp s
  current : ∀ c, s.currentProcess = some c →
    t.currentProcess = some c ∨ t.pcbs.espOf c = savedEsp s

section Calls

variable {s t : State} {A : Set Slot}

theorem saves_of_same (hesp : t.pcbs.espOf = s.pcbs.espOf)
    (hcur : t.currentProcess = s.currentProcess) : Saves s t :=
  ⟨fun i => Or.inl (congrFun hesp i), fun _ hc => Or.inl (hcur.trans hc)⟩

theorem saves_schedulerSchedule (s : State) : Saves s (schedulerSchedule s) := by
  have hdispatch : ∀ (u : State) (prev current : Slot), s.currentProcess = some prev →
      u.pcbs = s.pcbs → u.esp = s.esp → Saves s (dispatch u prev current) := by
    intro u prev current hprev hpcbs hesp
    have hsaved : savedEsp u = savedEsp s := congrArg (fun n => word (n + 2 ^ 32 - 16)) hesp
    constructor
    · intro i
      rw [espOf_dispatch, hpcbs, hsaved]
      split_ifs
      · exact Or.inl rfl
      · by_cases hi : i = prev
        · exact Or.inr (by rw [hi, update_self])
        · exact Or.inl (update_of_ne hi _ _)
    · intro c hc
      obtain rfl := Option.some.inj (hprev.symm.trans hc)
      rw [currentProcess_dispatch, espOf_dispatch, hsaved]
      by_cases hcur : prev = current
      · exact Or.inl (congrArg some hcur.symm)
      · rw [if_neg hcur, update_self]
        exact Or.inr rfl
  rcases schedulerSchedule_cases s with ⟨he, -⟩ | ⟨prev, hc, -, -, -, he⟩ |
    ⟨prev, head, hc, -, -, he⟩
  · rw [he]
    exact saves_of_same rfl rfl
  · rw [he]
    exact hdispatch s prev 0 hc rfl rfl
  · rw [he]
    exact hdispatch (popped s head) prev head hc rfl rfl

theorem Saves.of_same {u : State} (h : Saves u t) (hesps : u.pcbs.espOf = s.pcbs.espOf)
    (hesp : u.esp = s.esp) (hcur : u.currentProcess = s.currentProcess) : Saves s t := by
  have hsaved : savedEsp u = savedEsp s := congrArg (fun n => word (n + 2 ^ 32 - 16)) hesp
  constructor
  · intro i
    rw [← hesps, ← hsaved]
    exact h.espOf i
  · intro c hc
    rw [← hsaved]
    exact h.current c (hcur.trans hc)

theorem saves_processBlock (s : State) (q : ℕ) : Saves s (processBlock s q) := by
  unfold processBlock
  cases hc : s.currentProcess with
  | none => exact saves_of_same rfl rfl
  | some c =>
    dsimp only
    split_ifs
    · exact saves_of_same rfl rfl
    · refine (saves_schedulerSchedule _).of_same ?_ ?_ ?_ <;> unfold suspend appendWaiter <;>
        cases ht : (s.waitQueues q).tail <;> simp [ht]

theorem saves_processYield (h : processYield s = some t) : Saves s t := by
  unfold processYield at h
  cases hc : s.currentProcess with
  | none =>
    rw [hc] at h
    cases h
  | some c =>
    rw [hc] at h
    dsimp only at h
    split_ifs at h
    · cases h
      exact saves_of_same rfl rfl
    · cases h
      refine (saves_schedulerSchedule _).of_same ?_ ?_ ?_
      · simp
      · simp
      · simpa using hc.symm

theorem espOf_processWake (s : State) (q : ℕ) :
    (processWake s q).pcbs.espOf = s.pcbs.espOf ∧
      (processWake s q).currentProcess = s.currentProcess := by
  unfold processWake dequeueWaiter
  cases h : (s.waitQueues q).head <;> simp

theorem espOf_processWakeAll {fuel q : ℕ} (h : processWakeAll fuel s q = some t) :
    t.pcbs.espOf = s.pcbs.espOf ∧ t.currentProcess = s.currentProcess := by
  induction fuel generalizing s with
  | zero =>
    unfold processWakeAll at h
    split_ifs at h
    cases h
    exact ⟨rfl, rfl⟩
  | succ fuel ih =>
    unfold processWakeAll at h
    split_ifs at h
    · cases h
      exact ⟨rfl, rfl⟩
    · obtain ⟨hesp, hcur⟩ := ih h
      obtain ⟨hesp', hcur'⟩ := espOf_processWake s q
      exact ⟨hesp.trans hesp', hcur.trans hcur'⟩

theorem espOf_processTerminate {pid : ℕ} (h : processTerminate s pid = some t) :
    t.pcbs.espOf = s.pcbs.espOf ∧ t.currentProcess = s.currentProcess := by
  rcases processTerminate_cases h with ⟨rfl, -⟩ | ⟨hlt, -, -, -, u, hu, rfl⟩
  · exact ⟨rfl, rfl⟩
  · have hsame : u.pcbs.espOf = s.pcbs.espOf := by
      funext q
      obtain ⟨v, hv⟩ := schedulerRemoveProcess_pcb hu q
      rw [Table.espOf, hv]
      rfl
    refine ⟨?_, (schedulerRemoveProcess_frame hu).2⟩
    rw [← hsame]
    exact (espOf_modify _ _ _).trans (update_eq_self _ _)

/-- Only creation refers to a process that nothing referred to before. -/
theorem confined_step {call : Call} (h : Confined A s)
    (hc : ∀ entry priority stack, call ≠ .create entry priority stack)
    (he : step s call = some t) : Confined A t := by
  by_cases ht : ∃ pid, call = .terminate pid
  · obtain ⟨pid, rfl⟩ := ht
    rcases processTerminate_cases he with ⟨rfl, -⟩ | ⟨hlt, -, -, -, u, hu, rfl⟩
    · exact h
    · exact confined_markTerminated (Routine.schedulerRemoveProcess h hu).confined
  · exact (routine_step h hc (fun pid he => ht ⟨pid, he⟩) he).confined

theorem Confined.mono {B : Set Slot} (h : Confined A s) (hAB : A ⊆ B) : Confined B s :=
  ⟨hAB h.idle, fun c hc => hAB (h.current c hc), fun p hp => hAB (h.queued p hp)⟩

end Calls

/-! ### Runs -/

/-- With `kmalloc` failing, `process_create` returns 0 and changes neither the count nor a state
nor, by a process without a stack, the ready queue. -/
structure FailsCleanly (s : State) (entry priority : ℕ) : Prop where
  returned : (processCreate s entry priority 0).2 = 0
  queue : ∀ p, Reach (processCreate s entry priority 0).1.pcbs.link
      (processCreate s entry priority 0).1.readyQueue p →
    ((processCreate s entry priority 0).1.pcbs p).kernelStack = 0 →
    Reach s.pcbs.link s.readyQueue p
  count : (processCreate s entry priority 0).1.processCount = s.processCount
  states : (processCreate s entry priority 0).1.pcbs.status = s.pcbs.status

/-- The processes that have a stack pointer, in the PCB or in the CPU. -/
def withStack (s : State) : Set Slot := {i | s.pcbs.espOf i ≠ 0 ∨ s.currentProcess = some i}

/-- Whatever call is made, no process with the saved stack pointer 0 is switched to. -/
def SwitchesToStacks (s : State) : Prop :=
  ∀ call t c, step s call = some t → t.currentProcess = some c → s.currentProcess ≠ some c →
    s.pcbs.espOf c ≠ 0

/-- A creation is refused before it asks for a stack, or gets one inside the address space; and a
process is not switched out while its stack pointer is 16, of which `context_switch` saves 0. -/
def StackGiven (s : State) : Call → Prop
  | .create _ _ stack => createdSlot s = none ∨ stack ≠ 0 ∧ stack + processStackSize ≤ 2 ^ 32
  | .yield => savedEsp s ≠ 0
  | .block _ => savedEsp s ≠ 0
  | .schedule => savedEsp s ≠ 0
  | _ => True

section Runs

variable {s t : State}

/-- Once a slot is found, creation counts the process whether or not it has a stack. -/
theorem failsCleanly_iff (s : State) (entry priority : ℕ) :
    FailsCleanly s entry priority ↔ createdSlot s = none := by
  constructor
  · intro h
    cases hi : createdSlot s with
    | none => rfl
    | some i =>
      have hlt := (createdSlot_eq_some hi).1
      have hcount := h.count
      rw [(statics_processCreate hi entry priority 0).2.2.2.1] at hcount
      unfold maxProcesses at hlt
      unfold word at hcount
      omega
  · intro h
    have he : processCreate s entry priority 0 = (s, 0) := processCreate_of_none h
    refine ⟨?_, ?_, ?_, ?_⟩
    · rw [he]
    · intro p hp _
      rwa [he] at hp
    · rw [he]
    · rw [he]

theorem withStack_subset_of_same (hesp : t.pcbs.espOf = s.pcbs.espOf)
    (hcur : t.currentProcess = s.currentProcess) : withStack s ⊆ withStack t := by
  rintro i (hi | hi)
  · exact Or.inl (by rwa [hesp])
  · exact Or.inr (hcur.trans hi)

theorem Saves.withStack_subset (h : Saves s t) (hne : savedEsp s ≠ 0) :
    withStack s ⊆ withStack t := by
  rintro i (hi | hi)
  · rcases h.espOf i with he | he
    · exact Or.inl (ne_of_eq_of_ne he hi)
    · exact Or.inl (ne_of_eq_of_ne he hne)
  · rcases h.current i hi with hc | he
    · exact Or.inr hc
    · exact Or.inl (ne_of_eq_of_ne he hne)

theorem withStack_subset_step {call : Call} (hgiven : StackGiven s call)
    (hc : ∀ entry priority stack, call ≠ .create entry priority stack)
    (h : step s call = some t) : withStack s ⊆ withStack t := by
  cases call with
  | create entry priority stack => exact absurd rfl (hc entry priority stack)
  | terminate pid =>
    obtain ⟨hesp, hcur⟩ := espOf_processTerminate h
    exact withStack_subset_of_same hesp hcur
  | yield =>
    simp only [StackGiven] at hgiven
    exact (saves_processYield h).withStack_subset hgiven
  | block q =>
    cases h
    simp only [StackGiven] at hgiven
    exact (saves_processBlock s q).withStack_subset hgiven
  | wake q =>
    cases h
    obtain ⟨hesp, hcur⟩ := espOf_processWake s q
    exact withStack_subset_of_same hesp hcur
  | wakeAll q fuel =>
    obtain ⟨hesp, hcur⟩ := espOf_processWakeAll h
    exact withStack_subset_of_same hesp hcur
  | unlock m =>
    cases h
    obtain ⟨hesp, hcur⟩ := espOf_processWake { s with locked := update s.locked m 0 } m
    exact withStack_subset_of_same hesp hcur
  | schedule =>
    cases h
    simp only [StackGiven] at hgiven
    exact (saves_schedulerSchedule s).withStack_subset hgiven
  | run esp =>
    cases h
    exact withStack_subset_of_same rfl rfl

/-- A created process has the stack pointer that `pcb_init` set up. -/
theorem confined_withStack_create {entry priority stack : ℕ} (h : Confined (withStack s) s)
    (hgiven : StackGiven s (.create entry priority stack)) :
    Confined (withStack (processCreate s entry priority stack).1)
      (processCreate s entry priority stack).1 := by
  cases hi : createdSlot s with
  | none =>
    rw [processCreate_of_none hi]
    exact h
  | some i =>
    obtain ⟨hstack, hfits⟩ : stack ≠ 0 ∧ stack + processStackSize ≤ 2 ^ 32 := by
      rcases hgiven with hnone | hgiven
      · rw [hi] at hnone
        cases hnone
      · exact hgiven
    have htop : word (stack + processStackSize - 20) ≠ 0 := by
      unfold processStackSize at hfits ⊢
      unfold word
      omega
    have hesp : (processCreate s entry priority stack).1.pcbs.espOf =
        update s.pcbs.espOf i (word (stack + processStackSize - 20)) := by
      rw [processCreate_of_some hi]
      dsimp only
      rw [espOf_addToReadyQueue, espOf_pcbInit _ _ hstack]
    have hcur := (statics_processCreate hi entry priority stack).2.1
    have hnew : i ∈ withStack (processCreate s entry priority stack).1 := by
      left
      rwa [hesp, update_self]
    have hsub : withStack s ⊆ withStack (processCreate s entry priority stack).1 := by
      rintro j (hj | hj)
      · by_cases hji : j = i
        · exact hji ▸ hnew
        · left
          rwa [hesp, update_of_ne hji]
      · exact Or.inr (hcur.trans hj)
    exact confined_processCreate hi (h.mono hsub) hnew

theorem confined_withStack_step {call : Call} (h : Confined (withStack s) s)
    (hgiven : StackGiven s call) (he : step s call = some t) : Confined (withStack t) t := by
  by_cases hc : ∃ entry priority stack, call = .create entry priority stack
  · obtain ⟨entry, priority, stack, rfl⟩ := hc
    cases he
    exact confined_withStack_create h hgiven
  · have hc : ∀ entry priority stack, call ≠ .create entry priority stack :=
      fun entry priority stack he => hc ⟨entry, priority, stack, he⟩
    exact (confined_step h hc he).mono (withStack_subset_step hgiven hc he)

theorem confined_withStack_init (stack stack1024 stack256 : ℕ) :
    Confined (withStack (processInit boot stack stack1024 stack256))
      (processInit boot stack stack1024 stack256) := by
  obtain ⟨hrq, hcur, -, hwq⟩ := statics_processInit stack stack1024 stack256
  have hidle : 0 ∈ withStack (processInit boot stack stack1024 stack256) := Or.inr hcur
  refine ⟨hidle, ?_, ?_⟩
  · intro c hc
    obtain rfl := Option.some.inj (hcur.symm.trans hc)
    exact hidle
  · rintro p (hp | ⟨q, hp⟩)
    · rw [hrq] at hp
      exact absurd hp (not_reach_none p)
    · rw [hwq q] at hp
      exact absurd hp (not_reach_none p)

theorem Confined.switchesToStacks (h : Confined (withStack s) s) : SwitchesToStacks s := by
  intro call t c he hc hne
  by_cases hcall : ∃ entry priority stack, call = .create entry priority stack
  · -- creation leaves the running process
    obtain ⟨entry, priority, stack, rfl⟩ := hcall
    cases he
    cases hi : createdSlot s with
    | none =>
      rw [processCreate_of_none hi] at hc
      exact absurd hc hne
    | some i =>
      rw [(statics_processCreate hi entry priority stack).2.1] at hc
      exact absurd hc hne
  · have ht : Confined (withStack s) t :=
      confined_step h (fun entry priority stack he => hcall ⟨entry, priority, stack, he⟩) he
    exact (ht.current c hc).resolve_right hne

/-- Creation fails cleanly exactly when it is refused before it asks for a stack; and in every run
in which the others are given one, no process without a stack is switched to. -/
theorem no_stackless_switch {stack stack1024 stack256 : ℕ} {calls : List Call}
    (hrun : Run step StackGiven (processInit boot stack stack1024 stack256) calls s) :
    (∀ entry priority, FailsCleanly s entry priority ↔ createdSlot s = none) ∧
      SwitchesToStacks s := by
  have hinv : Confined (withStack s) s := by
    refine hrun.invariant (fun s => Confined (withStack s) s) ?_
      (confined_withStack_init stack stack1024 stack256)
    intro s call t h hgiven he
    exact confined_withStack_step h hgiven he
  exact ⟨failsCleanly_iff s, hinv.switchesToStacks⟩

end Runs

/-- A first process is created with a stack and switched to. -/
theorem no_stackless_switch_first :
    ∃ s, Run step StackGiven (processInit boot 4096 0 0) [.run 4096, .create 1 1 8192] s ∧
      createdSlot s = some 1 ∧ s.readyQueue = some 1 ∧ s.pcbs.espOf 1 = 12268 ∧
      SwitchesToStacks s := by
  obtain ⟨s, t, hs, ht, hslot, hqueue, hesp⟩ : ∃ s t,
      step (processInit boot 4096 0 0) (.run 4096) = some s ∧ step s (.create 1 1 8192) = some t ∧
      createdSlot t = some 1 ∧ t.readyQueue = some 1 ∧ t.pcbs.espOf 1 = 12268 :=
    ⟨_, _, rfl, rfl, by decide, by decide, by decide⟩
  have hgiven : StackGiven s (.create 1 1 8192) := Or.inr ⟨by decide, by decide⟩
  have hrun : Run step StackGiven (processInit boot 4096 0 0) [.run 4096, .create 1 1 8192] t :=
    .cons trivial hs (.cons hgiven ht (.nil t))
  exact ⟨t, hrun, hslot, hqueue, hesp, (no_stackless_switch hrun).2⟩

/-- Without a stack the process gets its pid, is queued and counted, and the next call of the
scheduler switches to stack pointer 0. -/
theorem stackless_process_runs :
    ∃ s t, Run step anyCall (processInit boot 4096 0 0) [] s ∧
      processCreate s 1 1 0 = (t, 1) ∧ t.readyQueue = some 1 ∧ (t.pcbs 1).kernelStack = 0 ∧
      (schedulerSchedule t).currentProcess = some 1 ∧ t.pcbs.espOf 1 = 0 ∧
      ¬ FailsCleanly s 1 1 ∧ ¬ SwitchesToStacks t := by
  obtain ⟨t, ht, hqueue, hstack, hnext, hcur, hesp⟩ : ∃ t,
      processCreate (processInit boot 4096 0 0) 1 1 0 = (t, 1) ∧ t.readyQueue = some 1 ∧
      (t.pcbs 1).kernelStack = 0 ∧ (schedulerSchedule t).currentProcess = some 1 ∧
      t.currentProcess = some 0 ∧ t.pcbs.espOf 1 = 0 :=
    ⟨_, rfl, by decide, by decide, by decide, by decide, by decide⟩
  refine ⟨_, t, .nil _, ht, hqueue, hstack, hnext, hesp, ?_, ?_⟩
  · intro hclean
    have hreturned := hclean.returned
    rw [ht] at hreturned
    cases hreturned
  · intro hswitch
    refine hswitch .schedule _ 1 rfl hnext ?_ hesp
    rw [hcur]
    decide

end OpenKernel.Process
