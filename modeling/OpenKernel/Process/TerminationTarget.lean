import OpenKernel.Process.Slots

/-!
# Which process `process_terminate` ends

`process_terminate` uses the pid as an index into `pcbs`. Slots are reused and
pids are not, so that the process with that pid need not stand in that slot, and
the index need not lie in the array. The call does what its name says exactly
when it is refused and nobody has the pid, or the process stands in the slot of
its own pid.
-/

namespace OpenKernel.Process

open Function Linked

/-- `process_terminate`, with the argument of its `kfree` if it makes that call. -/
def processTerminateFreeing (s : State) (pid : ℕ) : Option (State × Option ℕ) :=
  if pid = 0 then some (s, none)
  else if s.nextPid ≤ pid then some (s, none)
  else if h : pid < maxProcesses then
    let pcb : Slot := ⟨pid, h⟩
    if s.pcbs.status pcb = .zombie then some (s, none)
    else (schedulerRemoveProcess s pcb).map fun s =>
      let stack := (s.pcbs pcb).kernelStack
      (markTerminated s pcb, if stack ≠ 0 then some stack else none)
  else none

/-- The index with which `process_terminate` accesses `pcbs`, once it has checked the pid. -/
def terminateIndex (s : State) (pid : ℕ) : Option ℕ :=
  if pid = 0 then none else if s.nextPid ≤ pid then none else some pid

/-- The idle process: slot 0, as long as it has pid 0. -/
def Idle (s : State) (p : Slot) : Prop := p = 0 ∧ s.pcbs.pidOf p = 0

/-- `p` is a live process other than the idle one and has the pid `pid`. -/
structure Named (s : State) (pid : ℕ) (p : Slot) : Prop where
  live : Live s p
  pid_eq : s.pcbs.pidOf p = pid
  not_idle : ¬ Idle s p

/-- Between `s` and `t` the process `p` is ended, its stack given back, and nobody else is
touched. -/
structure Ends (s t : State) (freed : Option ℕ) (p : Slot) : Prop where
  zombie : t.pcbs.status p = .zombie
  cleared : (t.pcbs p).kernelStack = 0
  freed : freed = if (s.pcbs p).kernelStack ≠ 0 then some (s.pcbs p).kernelStack else none
  count : t.processCount + 1 = s.processCount
  others : ∀ q, q ≠ p → Live s q → t.pcbs.status q = s.pcbs.status q ∧
    (t.pcbs q).kernelStack = (s.pcbs q).kernelStack

/-- `process_terminate(pid)` stays inside `pcbs`, ends exactly the process that has the pid,
and changes nothing if there is none. -/
structure TerminatesNamed (s : State) (pid : ℕ) : Prop where
  in_range : ∀ i, terminateIndex s pid = some i → i < maxProcesses
  named : ∀ p, Named s pid p → ∃ t freed,
    processTerminateFreeing s pid = some (t, freed) ∧ Ends s t freed p
  unnamed : (∀ p, Live s p → s.pcbs.pidOf p ≠ pid) →
    processTerminateFreeing s pid = some (s, none)

/-- The pid is 0, was never handed out, or indexes a zombie. -/
def Refused (s : State) (pid : ℕ) : Prop :=
  pid = 0 ∨ s.nextPid ≤ pid ∨ ∃ h : pid < maxProcesses, s.pcbs.status ⟨pid, h⟩ = .zombie

/-- Following the ready queue from its entry leads back to the entry or to `p`. -/
def Followable (s : State) (p : Slot) : Prop :=
  ∀ head, s.readyQueue = some head →
    Reach s.pcbs.link (s.pcbs.link head) head ∨ Reach s.pcbs.link (s.pcbs.link head) p

/-- The slot with the number `pid` holds the only live process that has this pid, it is counted,
and the ready queue can be followed if the process is on it. -/
structure InOwnSlot (s : State) (pid : ℕ) (i : Slot) : Prop where
  index : (i : ℕ) = pid
  pid_ne_zero : pid ≠ 0
  pid_lt : pid < s.nextPid
  live : Live s i
  own_pid : s.pcbs.pidOf i = pid
  sole : ∀ q, Live s q → s.pcbs.pidOf q = pid → q = i
  counted : s.processCount ≠ 0
  followable : s.pcbs.status i = .ready → Followable s i

theorem fst_processTerminateFreeing (s : State) (pid : ℕ) :
    (processTerminateFreeing s pid).map Prod.fst = processTerminate s pid := by
  unfold processTerminateFreeing processTerminate
  dsimp only
  split_ifs
  all_goals simp [Function.comp_def]

section Removal

variable {s u : State} {p : Slot}

/-- The loop of `remove_from_ready_queue` returns exactly if the links lead from the entry to
the entry again or to the process. -/
theorem removeLoop_isSome_iff {link : Slot → Option Slot} {pcb head : Slot} :
    (∃ r, removeLoop link pcb head maxProcesses head = some r) ↔
      Reach link (link head) head ∨ Reach link (link head) pcb := by
  constructor
  · suffices ∀ fuel cur r, removeLoop link pcb head fuel cur = some r →
        Reach link (link cur) head ∨ Reach link (link cur) pcb by
      rintro ⟨r, hr⟩
      exact this _ _ r hr
    intro fuel
    induction fuel with
    | zero => simp [removeLoop]
    | succ fuel ih =>
      intro cur r hr
      cases hl : link cur with
      | none => simp [removeLoop, hl] at hr
      | some n =>
        simp only [removeLoop, hl] at hr
        split_ifs at hr with h₁ h₂
        · exact Or.inl (.root (by rw [h₁]))
        · exact Or.inr (.root (by rw [h₂]))
        · exact (ih n r hr).imp Reach.of_next Reach.of_next
  · -- the shortest way to the entry or to the process is short enough for the loop
    have hback : ∀ l, Seg link (link head) l (some head) → head ∉ l → l.Nodup → pcb ∉ l →
        ∃ r, removeLoop link pcb head maxProcesses head = some r := by
      intro l hs hh hl hp
      have hring : Ring link (some head) (head :: l) :=
        ⟨⟨rfl, hs⟩, List.nodup_cons.mpr ⟨hh, hl⟩⟩
      obtain ⟨c, hc⟩ := removeLoop_ring_notFound hring hp
      exact ⟨_, hc⟩
    have hfound : ∀ l, Seg link (link head) l (some pcb) → pcb ∉ l → l.Nodup → head ∉ l →
        pcb ≠ head → ∃ r, removeLoop link pcb head maxProcesses head = some r := by
      intro l hs hp hl hh hne
      obtain h | ⟨l₁, b, hb⟩ := List.eq_nil_or_concat (head :: l)
      · cases h
      rw [List.concat_eq_append] at hb
      have hnodup : (head :: l).Nodup := List.nodup_cons.mpr ⟨hh, hl⟩
      have hlen := hnodup.length_le_card
      rw [Fintype.card_fin, hb] at hlen
      simp only [List.length_append, List.length_cons, List.length_nil] at hlen
      refine ⟨_, removeLoop_found hne l₁ head maxProcesses (b := b) ?_ (by omega) ?_⟩
      · rw [← hb]
        exact ⟨rfl, hs⟩
      · rw [← hb]
        intro y hy
        refine ⟨?_, ?_⟩
        · rintro rfl
          exact hh hy
        · rintro rfl
          exact hp hy
    by_cases hne : pcb = head
    · subst hne
      rw [or_self]
      intro h
      obtain ⟨l, hs, hh, hl⟩ := h.exists_seg
      exact hback l hs hh hl hh
    rintro (h | h)
    · obtain ⟨l, hs, hh, hl⟩ := h.exists_seg
      by_cases hp : pcb ∈ l
      · obtain ⟨l₁, l₂, rfl, hp₁⟩ := List.eq_append_cons_of_mem hp
        obtain ⟨m, hs₁, rfl, -⟩ := seg_append.mp hs
        exact hfound l₁ hs₁ hp₁ hl.of_append_left (fun hm => hh (by simp [hm])) hne
      · exact hback l hs hh hl hp
    · obtain ⟨l, hs, hp, hl⟩ := h.exists_seg
      by_cases hh : head ∈ l
      · obtain ⟨l₁, l₂, rfl, hh₁⟩ := List.eq_append_cons_of_mem hh
        obtain ⟨m, hs₁, rfl, -⟩ := seg_append.mp hs
        exact hback l₁ hs₁ hh₁ hl.of_append_left (fun hm => hp (by simp [hm]))
      · exact hfound l hs hp hl hh hne

theorem schedulerRemoveProcess_isSome_iff :
    (∃ u, schedulerRemoveProcess s p = some u) ↔ (s.pcbs.status p = .ready → Followable s p) := by
  by_cases hr : s.pcbs.status p = .ready
  · simp only [schedulerRemoveProcess, hr, if_true, true_imp_iff, Followable]
    cases hq : s.readyQueue with
    | none => simp [removeFromReadyQueue, hq]
    | some head =>
      simp only [removeFromReadyQueue, hq, Option.some.injEq, forall_eq']
      by_cases hself : s.pcbs.link head = some head
      · rw [if_pos hself]
        simp only [Option.some.injEq, exists_eq', true_iff]
        exact Or.inl (.root hself)
      · rw [if_neg hself, ← removeLoop_isSome_iff]
        constructor
        · rintro ⟨u, hu⟩
          obtain ⟨r, hr, -⟩ := Option.map_eq_some_iff.mp hu
          exact ⟨r, hr⟩
        · rintro ⟨r, hr⟩
          exact ⟨_, by rw [hr, Option.map_some]⟩
  · simp [schedulerRemoveProcess, hr]

/-- Removal from the ready queue changes nothing but links in any PCB. -/
theorem schedulerRemoveProcess_pcb (he : schedulerRemoveProcess s p = some u) (q : Slot) :
    ∃ v, u.pcbs q = { s.pcbs q with next := v } := by
  have hset : ∀ (t : Table) (i : Slot) (w : Option Slot), (∃ v, t q = { s.pcbs q with next := v }) →
      ∃ v, t.setNext i w q = { s.pcbs q with next := v } := by
    rintro t i w ⟨v, hv⟩
    by_cases hqi : q = i
    · subst hqi
      exact ⟨w, by simp [Table.setNext, hv]⟩
    · exact ⟨v, by rw [Table.setNext, Table.modify_of_ne _ _ _ hqi, hv]⟩
  unfold schedulerRemoveProcess removeFromReadyQueue at he
  split_ifs at he
  · cases hq : s.readyQueue with
    | none =>
      simp only [hq, Option.some.injEq] at he
      exact he ▸ ⟨_, rfl⟩
    | some head =>
      simp only [hq] at he
      by_cases hself : s.pcbs.link head = some head
      · rw [if_pos hself] at he
        cases he
        exact hset _ _ _ ⟨_, rfl⟩
      · rw [if_neg hself] at he
        obtain ⟨⟨c, found⟩, -, rfl⟩ := Option.map_eq_some_iff.mp he
        refine hset _ _ _ ?_
        dsimp only
        split_ifs
        · exact hset _ _ _ ⟨_, rfl⟩
        · exact ⟨_, rfl⟩
  · cases he
    exact ⟨_, rfl⟩

end Removal

section Target

variable {s t : State} {pid : ℕ} {i : Slot} {freed : Option ℕ}

theorem processTerminateFreeing_of_refused (h : Refused s pid) :
    processTerminateFreeing s pid = some (s, none) := by
  unfold processTerminateFreeing
  rcases h with rfl | hn | ⟨hlt, hz⟩
  · simp
  · simp [hn]
  · simp [hlt, hz]

theorem processTerminateFreeing_of_not_refused (h : ¬ Refused s pid) (hi : (i : ℕ) = pid) :
    processTerminateFreeing s pid = (schedulerRemoveProcess s i).map fun u =>
      (markTerminated u i,
        if (u.pcbs i).kernelStack ≠ 0 then some (u.pcbs i).kernelStack else none) := by
  subst hi
  simp only [Refused, not_or, not_exists, not_le] at h
  obtain ⟨h0, hn, hz⟩ := h
  simp [processTerminateFreeing, h0, not_le.mpr hn, hz i.isLt]

theorem ends_of_not_refused (h : ¬ Refused s pid) (hi : (i : ℕ) = pid)
    (hcount : s.processCount < 2 ^ 32) (hpos : s.processCount ≠ 0)
    (he : processTerminateFreeing s pid = some (t, freed)) : Ends s t freed i := by
  rw [processTerminateFreeing_of_not_refused h hi] at he
  obtain ⟨u, hu, hut⟩ := Option.map_eq_some_iff.mp he
  obtain ⟨rfl, rfl⟩ := Prod.mk.inj hut
  obtain ⟨v, hv⟩ := schedulerRemoveProcess_pcb hu i
  obtain ⟨rq, pcbs, hshape, hst, -⟩ := schedulerRemoveProcess_shape hu
  refine ⟨?_, ?_, ?_, ?_, ?_⟩
  · simp
  · simp [markTerminated]
  · simp [hv]
  · simp only [markTerminated, hshape, word]
    omega
  · intro q hq _
    obtain ⟨w, hw⟩ := schedulerRemoveProcess_pcb hu q
    refine ⟨?_, ?_⟩
    · rw [status_markTerminated, update_of_ne hq, hshape, hst]
    · simp [markTerminated, Table.modify_of_ne _ _ _ hq, hw]

theorem zombie_of_not_refused (h : ¬ Refused s pid) (hi : (i : ℕ) = pid)
    (he : processTerminateFreeing s pid = some (t, freed)) : t.pcbs.status i = .zombie := by
  rw [processTerminateFreeing_of_not_refused h hi] at he
  obtain ⟨u, -, hut⟩ := Option.map_eq_some_iff.mp he
  obtain ⟨rfl, -⟩ := Prod.mk.inj hut
  simp

theorem InOwnSlot.not_refused (h : InOwnSlot s pid i) : ¬ Refused s pid := by
  rintro (h0 | hn | ⟨hlt, hz⟩)
  · exact h.pid_ne_zero h0
  · exact absurd h.pid_lt (not_lt.mpr hn)
  · obtain rfl : i = ⟨pid, hlt⟩ := Fin.ext h.index
    exact h.live hz

theorem InOwnSlot.terminatesNamed (h : InOwnSlot s pid i) (hcount : s.processCount < 2 ^ 32) :
    TerminatesNamed s pid := by
  refine ⟨?_, ?_, ?_⟩
  · intro j hj
    have hi := i.isLt
    rw [h.index] at hi
    simp only [terminateIndex] at hj
    split_ifs at hj
    exact Option.some.inj hj ▸ hi
  · intro p hp
    obtain rfl := h.sole p hp.live hp.pid_eq
    obtain ⟨u, hu⟩ := schedulerRemoveProcess_isSome_iff.mpr h.followable
    have he := processTerminateFreeing_of_not_refused h.not_refused h.index
    rw [hu, Option.map_some] at he
    exact ⟨_, _, he, ends_of_not_refused h.not_refused h.index hcount h.counted he⟩
  · intro hnone
    exact absurd h.own_pid (hnone i h.live)

theorem terminatesNamed_of_refused (h : Refused s pid) (hnone : ∀ p, ¬ Named s pid p) :
    TerminatesNamed s pid := by
  refine ⟨?_, fun p hp => absurd hp (hnone p), fun _ => processTerminateFreeing_of_refused h⟩
  intro j hj
  simp only [terminateIndex] at hj
  split_ifs at hj with h0 hn
  rcases h with h | h | ⟨hlt, -⟩
  · exact absurd h h0
  · exact absurd h hn
  · exact Option.some.inj hj ▸ hlt

/-- If the call is not refused, the process with the pid stands in the slot of its pid. -/
theorem TerminatesNamed.inOwnSlot (h : TerminatesNamed s pid) (hr : ¬ Refused s pid) :
    ∃ i, InOwnSlot s pid i := by
  have hr' := hr
  simp only [Refused, not_or, not_exists, not_le] at hr'
  obtain ⟨h0, hn, hz⟩ := hr'
  have hlt : pid < maxProcesses := h.in_range pid (by simp [terminateIndex, h0, not_le.mpr hn])
  have hlive : Live s ⟨pid, hlt⟩ := hz hlt
  -- a live slot is ended, so somebody must have the pid
  have hnamed : ∃ p, Named s pid p := by
    by_contra hnone
    have hnobody : ∀ p, Live s p → s.pcbs.pidOf p ≠ pid := by
      intro p hp he
      refine hnone ⟨p, hp, he, ?_⟩
      rintro ⟨-, hp0⟩
      exact h0 (he.symm.trans hp0)
    have hzombie := zombie_of_not_refused (i := ⟨pid, hlt⟩) hr rfl (h.unnamed hnobody)
    exact hlive hzombie
  -- and whoever has it is the slot that is ended
  have hself : ∀ p, Named s pid p → p = ⟨pid, hlt⟩ := by
    intro p hp
    obtain ⟨t, freed, he, hends⟩ := h.named p hp
    by_contra hne
    have hzombie := zombie_of_not_refused (i := ⟨pid, hlt⟩) hr rfl he
    rw [(hends.others _ (Ne.symm hne) hlive).1] at hzombie
    exact hlive hzombie
  obtain ⟨p, hp⟩ := hnamed
  obtain rfl := hself p hp
  obtain ⟨t, freed, he, hends⟩ := h.named _ hp
  refine ⟨⟨pid, hlt⟩, rfl, h0, hn, hlive, hp.pid_eq, ?_, ?_, ?_⟩
  · intro q hq hqp
    refine hself q ⟨hq, hqp, ?_⟩
    rintro ⟨-, hq0⟩
    exact h0 (hqp.symm.trans hq0)
  · have := hends.count
    omega
  · apply schedulerRemoveProcess_isSome_iff.mp
    rw [processTerminateFreeing_of_not_refused (i := ⟨pid, hlt⟩) hr rfl] at he
    obtain ⟨u, hu, -⟩ := Option.map_eq_some_iff.mp he
    exact ⟨u, hu⟩

theorem processCount_lt {stack stack1024 stack256 : ℕ} {calls : List Call}
    (hrun : Run step anyCall (processInit boot stack stack1024 stack256) calls s) :
    s.processCount < 2 ^ 32 := by
  have hword : ∀ n, word n < 2 ^ 32 := fun n => Nat.mod_lt _ (by decide)
  refine hrun.invariant (fun s => s.processCount < 2 ^ 32) ?_ ?_
  · intro s call t h _ he
    cases call with
    | create entry priority newStack =>
      cases he
      cases hi : createdSlot s with
      | none =>
        rw [processCreate_of_none hi]
        exact h
      | some i =>
        rw [(statics_processCreate hi entry priority newStack).2.2.2.1]
        exact hword _
    | terminate pid =>
      rcases processTerminate_cases he with ⟨rfl, -⟩ | ⟨hlt, -, -, -, u, -, rfl⟩
      · exact h
      · exact hword _
    | _ =>
      rw [(routine_step (confined_univ s) (by simp) (by simp) he).processCount_eq]
      exact h
  · unfold processInit
    dsimp only
    split_ifs <;> simp [boot]

/-- In every reachable state, `process_terminate(pid)` ends exactly the process with that pid,
and nothing if there is none, precisely when it is refused and nobody but the idle process has
the pid, or the process stands in the slot with the number `pid`. -/
theorem terminatesNamed_iff {stack stack1024 stack256 : ℕ} {calls : List Call}
    (hrun : Run step anyCall (processInit boot stack stack1024 stack256) calls s) (pid : ℕ) :
    TerminatesNamed s pid ↔
      (Refused s pid ∧ ∀ p, ¬ Named s pid p) ∨ ∃ i, InOwnSlot s pid i := by
  constructor
  · intro h
    by_cases hr : Refused s pid
    · refine Or.inl ⟨hr, fun p hp => ?_⟩
      obtain ⟨t, freed, he, hends⟩ := h.named p hp
      rw [processTerminateFreeing_of_refused hr] at he
      obtain ⟨rfl, -⟩ := Prod.mk.inj (Option.some.inj he)
      exact hp.live hends.zombie
    · exact Or.inr (h.inOwnSlot hr)
  · rintro (⟨hr, hnone⟩ | ⟨i, hi⟩)
    · exact terminatesNamed_of_refused hr hnone
    · exact hi.terminatesNamed (processCount_lt hrun)

end Target

/-- The first process after boot stands in slot 1 and has the pid 1. -/
theorem terminatesNamed_iff_first :
    ∃ s, Run step anyCall (processInit boot 4096 0 0) [.create 1 1 8192] s ∧
      InOwnSlot s 1 1 ∧ TerminatesNamed s 1 := by
  obtain ⟨s, hs, hown⟩ : ∃ s, [.create 1 1 8192].foldlM step (processInit boot 4096 0 0) = some s ∧
      InOwnSlot s 1 1 := by
    refine ⟨_, rfl, rfl, by decide, by decide, by decide, by decide, by decide, by decide, ?_⟩
    intro _ head hhead
    obtain rfl : 1 = head := Option.some.inj hhead
    exact Or.inl (.root (by decide))
  have hrun : Run step anyCall (processInit boot 4096 0 0) [.create 1 1 8192] s :=
    Run.of_foldlM hs
  exact ⟨s, hrun, hown, (terminatesNamed_iff hrun 1).mpr (Or.inr ⟨1, hown⟩)⟩

/-- The slot of an ended process is reused: the process with pid 2 stands in slot 1, and the
request to end it is refused. -/
theorem terminate_misses_reused_slot :
    ∃ s, Run step anyCall (processInit boot 4096 0 0)
        [.create 1 1 8192, .terminate 1, .create 1 1 8192] s ∧
      Named s 2 1 ∧ processTerminateFreeing s 2 = some (s, none) ∧ ¬ TerminatesNamed s 2 := by
  obtain ⟨s, hs, hlive, hpid, he⟩ : ∃ s,
      [.create 1 1 8192, .terminate 1, .create 1 1 8192].foldlM step
        (processInit boot 4096 0 0) = some s ∧ Live s 1 ∧ s.pcbs.pidOf 1 = 2 ∧
      processTerminateFreeing s 2 = some (s, none) :=
    ⟨_, rfl, by decide, by decide, rfl⟩
  have hnamed : Named s 2 1 := ⟨hlive, hpid, by simp [Idle, hpid]⟩
  refine ⟨s, Run.of_foldlM hs, hnamed, he, fun h => ?_⟩
  obtain ⟨t, freed, ht, hends⟩ := h.named 1 hnamed
  obtain ⟨rfl, -⟩ := Prod.mk.inj (Option.some.inj (he.symm.trans ht))
  exact hlive hends.zombie

end OpenKernel.Process
