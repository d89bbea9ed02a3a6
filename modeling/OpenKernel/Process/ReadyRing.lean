import OpenKernel.Process.WaitQueues
import OpenKernel.Process.Lifecycle

/-!
# The ready ring

Popping the entry of the ready queue does not relink the ring's last member, so
that the popped process stays on every ring of two or more. In runs that pop
rings of one member only, and that create processes in zombie slots only, the
ready queue is at all times the ring of exactly the ready processes.
-/

namespace OpenKernel.Process

open Function Linked

/-- Following `next` from `ready_queue` visits each ready process once, nobody else, and
returns to `ready_queue`. -/
def ReadyRing (s : State) : Prop :=
  ∃ l, Ring s.pcbs.link s.readyQueue l ∧ ∀ p, p ∈ l ↔ s.pcbs.status p = .ready

/-- The entry of the ready queue, if any, is its only member. -/
def SoleEntry (s : State) : Prop := ∀ h, s.readyQueue = some h → s.pcbs.link h = some h

/-- The calls of processes and of the timer, without termination: creations take zombie slots,
and whatever pops the ready queue pops its only member. A process other than the idle one
never does when it yields: it has just queued itself beside the idle process. -/
def RingSafe (s : State) : Call → Prop
  | .create .. => maxProcesses ≤ s.processCount ∨
      ∀ p, s.pcbs.status p = .ready → ∃ z < p, s.pcbs.status z = .zombie
  | .terminate _ => False
  | .yield => ∀ c, s.currentProcess = some c → s.pcbs.pidOf c = 0
  | .block _ => ∀ c, s.currentProcess = some c → s.pcbs.pidOf c = 0 ∨ SoleEntry s
  | .schedule => SoleEntry s
  | _ => True

/-- A new member goes behind the entry. -/
def insertSecond (p : Slot) : List Slot → List Slot
  | [] => [p]
  | h :: l => h :: p :: l

theorem mem_insertSecond {p a : Slot} {l : List Slot} : a ∈ insertSecond p l ↔ a = p ∨ a ∈ l := by
  cases l with
  | nil => simp [insertSecond]
  | cons h l =>
    simp only [insertSecond, List.mem_cons]
    tauto

theorem ring_addLinks {link : Slot → Option Slot} {rq : Option Slot} {l : List Slot} {p : Slot}
    (h : Ring link rq l) (hp : p ∉ l) :
    Ring (addLinks link rq p) (some (rq.getD p)) (insertSecond p l) := by
  cases l with
  | nil =>
    have hq : rq = none := h.head_eq
    rw [hq]
    exact ring_singleton p
  | cons e l =>
    have hq : rq = some e := h.head_eq
    rw [hq] at h ⊢
    exact h.insert hp

/-- The ready ring `l`, the waiters `w` and the running process `c` partition the live
processes by their states. -/
structure RingInv (s : State) (l : List Slot) (w : ℕ → List Slot) (c : Slot) : Prop where
  ring : Ring s.pcbs.link s.readyQueue l
  ready : ∀ p, p ∈ l ↔ s.pcbs.status p = .ready
  waiting : Waiting s w
  blocked : ∀ q, ∀ p ∈ w q, s.pcbs.status p = .blocked
  current : s.currentProcess = some c
  running : ∀ p, s.pcbs.status p = .running ↔ p = c
  idle_pid : s.pcbs.pidOf 0 = 0
  idle : s.pcbs.status 0 = .ready ∨ s.pcbs.status 0 = .running
  count : s.processCount = 0 → c = 0

/-- Queueing a process that is on no queue and not running. -/
theorem RingInv.enter {s : State} {l : List Slot} {w : ℕ → List Slot} {c p : Slot}
    (hring : Ring s.pcbs.link s.readyQueue l) (hpl : p ∉ l)
    (hready : ∀ a, a ≠ p → (a ∈ l ↔ s.pcbs.status a = .ready)) (hwait : Waiting s w)
    (hblocked : ∀ q, ∀ a ∈ w q, s.pcbs.status a = .blocked) (hpw : ∀ q, p ∉ w q)
    (hcur : s.currentProcess = some c) (hpc : p ≠ c)
    (hrun : ∀ a, a ≠ p → (s.pcbs.status a = .running ↔ a = c)) (hpid : s.pcbs.pidOf 0 = 0)
    (hidle : p ≠ 0 → s.pcbs.status 0 = .ready ∨ s.pcbs.status 0 = .running)
    (hcount : s.processCount = 0 → c = 0) :
    RingInv (addToReadyQueue s p) (insertSecond p l) w c where
  ring := by
    rw [link_addToReadyQueue, readyQueue_addToReadyQueue]
    exact ring_addLinks hring hpl
  ready a := by
    rw [mem_insertSecond, status_addToReadyQueue]
    by_cases ha : a = p
    · simp [ha]
    · simp [ha, hready a ha]
  waiting := by
    apply hwait.addToReadyQueue hpw
    intro e he q hm
    have hel : e ∈ l := List.mem_of_head? (hring.head_eq.symm.trans he)
    have hep : e ≠ p := fun e' => hpl (e' ▸ hel)
    have hr := (hready e hep).mp hel
    rw [hblocked q e hm] at hr
    cases hr
  blocked q a ha := by
    have hap : a ≠ p := fun e => hpw q (e ▸ ha)
    simpa [hap] using hblocked q a ha
  current := by simpa using hcur
  running a := by
    rw [status_addToReadyQueue]
    by_cases ha : a = p
    · subst ha
      simp [hpc]
    · rw [update_of_ne ha]
      exact hrun a ha
  idle_pid := by simpa using hpid
  idle := by
    by_cases h0 : p = 0
    · simp [h0]
    · simpa [Ne.symm h0] using hidle h0
  count := by simpa using hcount

namespace RingInv

variable {s t : State} {l : List Slot} {w : ℕ → List Slot} {c p : Slot} {q : ℕ}

theorem not_waiting_of_ready (h : RingInv s l w c) (hp : p ∈ l) (q : ℕ) : p ∉ w q := by
  intro hm
  have hr := (h.ready p).mp hp
  rw [h.blocked q p hm] at hr
  cases hr

theorem not_waiting_of_running (h : RingInv s l w c) (q : ℕ) : c ∉ w q := by
  intro hm
  have hr := (h.running c).mpr rfl
  rw [h.blocked q c hm] at hr
  cases hr

theorem reach_mem (h : RingInv s l w c) (hp : Reach s.pcbs.link s.readyQueue p) : p ∈ l :=
  h.ring.closed.reach_subset (fun _ he => List.mem_of_head? (h.ring.head_eq.symm.trans he)) hp

theorem idle_mem (h : RingInv s l w c) (hc : s.pcbs.pidOf c ≠ 0) : (0 : Slot) ∈ l := by
  refine (h.ready 0).mpr (h.idle.resolve_right fun hr => hc ?_)
  rw [← (h.running 0).mp hr]
  exact h.idle_pid

theorem eq_singleton (h : RingInv s l w c) (hsole : SoleEntry s) (hne : l ≠ []) :
    ∃ e, l = [e] := by
  obtain ⟨e, k, rfl⟩ := List.exists_cons_of_ne_nil hne
  have hself := hsole e h.ring.head_eq
  cases k with
  | nil => exact ⟨e, rfl⟩
  | cons b k =>
    have hb : s.pcbs.link e = some b := h.ring.1.2.1
    rw [hself, Option.some.injEq] at hb
    have hn := h.ring.2
    simp [hb] at hn

theorem ne_of_ready (h : RingInv s l w c) (hp : p ∈ l) : p ≠ c := by
  rintro rfl
  have hr := (h.ready p).mp hp
  rw [(h.running p).mpr rfl] at hr
  cases hr

section HandOver

variable {e : Slot} {x : ProcessState}

theorem running_handOver (h : RingInv s [e] w c)
    (hst : t.pcbs.status = update (update s.pcbs.status c x) e .running) (hx : x ≠ .running)
    (a : Slot) : t.pcbs.status a = .running ↔ a = e := by
  rw [hst]
  by_cases hae : a = e
  · simp [hae]
  · by_cases hac : a = c
    · subst hac
      simp [hae, hx]
    · rw [update_of_ne hae, update_of_ne hac, h.running]
      simp [hae, hac]

theorem ready_handOver (h : RingInv s [e] w c)
    (hst : t.pcbs.status = update (update s.pcbs.status c x) e .running) (a : Slot) :
    t.pcbs.status a = .ready ↔ a = c ∧ x = .ready := by
  have hec : e ≠ c := h.ne_of_ready (by simp)
  rw [hst]
  by_cases hae : a = e
  · subst hae
    simp [hec]
  · by_cases hac : a = c
    · subst hac
      simp [hae]
    · have hready := h.ready a
      simp only [List.mem_singleton, hae, false_iff] at hready
      simp [hae, hac, hready]

theorem blocked_handOver (h : RingInv s [e] w c)
    (hst : t.pcbs.status = update (update s.pcbs.status c x) e .running) {q : ℕ} {a : Slot}
    (ha : a ∈ w q) : t.pcbs.status a = .blocked := by
  have hac : a ≠ c := fun hc => h.not_waiting_of_running q (hc ▸ ha)
  have hae : a ≠ e := fun he => h.not_waiting_of_ready (by simp) q (he ▸ ha)
  rw [hst, update_of_ne hae, update_of_ne hac]
  exact h.blocked q a ha

end HandOver

theorem schedulerSchedule (h : RingInv s l w c) (hsole : SoleEntry s) :
    ∃ l' c', RingInv (schedulerSchedule s) l' w c' := by
  have hcw := h.not_waiting_of_running
  have hwait := h.waiting.schedulerSchedule
    (fun a ha _ => Option.some.inj (h.current.symm.trans ha) ▸ hcw)
    (fun a ha => h.not_waiting_of_ready (h.reach_mem ha))
  rcases schedulerSchedule_cases s with ⟨he, -⟩ | ⟨prev, hc, -, hq, hpid, -⟩ |
    ⟨prev, e, hc, hcount, hq, he⟩
  · rw [he]
    exact ⟨l, c, h⟩
  · -- nothing is ready, so the running process is the idle one
    obtain rfl : c = prev := Option.some.inj (h.current.symm.trans hc)
    have hl := h.ring.eq_none_iff.mp hq
    exact absurd (hl ▸ h.idle_mem hpid) (by simp)
  · obtain rfl : c = prev := Option.some.inj (h.current.symm.trans hc)
    obtain ⟨e', rfl⟩ := h.eq_singleton hsole (by
      rintro rfl
      have := h.ring.head_eq
      rw [hq] at this
      cases this)
    obtain rfl : e = e' := Option.some.inj (hq.symm.trans h.ring.head_eq)
    have hself := hsole e hq
    have hrun : s.pcbs.status c = .running := (h.running c).mpr rfl
    have hst : (Process.schedulerSchedule s).pcbs.status =
        update (update s.pcbs.status c .ready) e .running := by
      rw [he, status_dispatch, requeueStatus]
      simp [popped, hrun]
    have hr := Routine.schedulerSchedule (confined_univ s)
    have hready := h.ready_handOver hst
    have hrunning := h.running_handOver hst (by simp)
    refine ⟨[c], e, ⟨?_, ?_, hwait, fun q a ha => h.blocked_handOver hst ha, ?_, hrunning, ?_,
      ?_, ?_⟩⟩
    · rw [he, link_dispatch, readyQueue_dispatch, requeueLinks, requeueEntry]
      simpa [popped, hself, hrun, addLinks] using ring_singleton c
    · intro a
      rw [hready]
      simp
    · rw [he, currentProcess_dispatch]
    · rw [hr.pidOf_eq]
      exact h.idle_pid
    · -- the idle process was running or the entry of the ring
      rcases h.idle with h0 | h0
      · right
        rw [hrunning]
        simpa using (h.ready 0).mpr h0
      · left
        rw [hready]
        exact ⟨(h.running 0).mp h0, rfl⟩
    · intro hz
      exact absurd (hr.processCount_eq ▸ hz) hcount

/-- The caller becomes the last waiter and the only ready process runs. -/
theorem processBlock (h : RingInv s l w c) (hpid : s.pcbs.pidOf c ≠ 0) (hsole : SoleEntry s) :
    ∃ c', RingInv (processBlock s q) [] (update w q (w q ++ [c])) c' := by
  have hcw := h.not_waiting_of_running
  obtain ⟨e, rfl⟩ := h.eq_singleton hsole (by
    rintro rfl
    exact absurd (h.idle_mem hpid) (by simp))
  have he0 : (0 : Slot) = e := by simpa using h.idle_mem hpid
  subst he0
  have hq : s.readyQueue = some 0 := h.ring.head_eq
  have hself := hsole 0 hq
  have hc0 : (0 : Slot) ≠ c := by
    rintro rfl
    exact hpid h.idle_pid
  have hcount : s.processCount ≠ 0 := fun hz => hc0 (h.count hz).symm
  obtain ⟨hst, hpids, hrq, hcur, hcnt⟩ := Waiting.views_suspend s q c
  have hlink : (suspend s q c).pcbs.link 0 = some 0 := by
    rw [h.waiting.link_suspend hc0 (h.not_waiting_of_ready (by simp) q)]
    exact hself
  have hblock : Process.processBlock s q = dispatch (popped (suspend s q c) 0) c 0 := by
    have hs : Process.processBlock s q = Process.schedulerSchedule (suspend s q c) := by
      simp [Process.processBlock, h.current, hpid]
    rw [hs]
    simp [Process.schedulerSchedule, hcur, h.current, hcnt, hcount, hrq, hq, popped]
  have hnotrunning : (popped (suspend s q c) 0).pcbs.status c ≠ .running := by simp [popped, hst]
  have hst' : (Process.processBlock s q).pcbs.status =
      update (update s.pcbs.status c .blocked) 0 .running := by
    rw [hblock, status_dispatch, requeueStatus, if_neg hnotrunning, popped, hst]
  have hpop : Waiting (popped (suspend s q c) 0) (update w q (w q ++ [c])) :=
    (h.waiting.suspend hcw).congr rfl fun _ _ _ => rfl
  have hready := h.ready_handOver hst'
  have hrunning := h.running_handOver hst' (by simp)
  refine ⟨0, ⟨?_, ?_, ?_, ?_, ?_, hrunning, ?_, Or.inr ((hrunning 0).mpr rfl), fun _ => rfl⟩⟩
  · rw [hblock, link_dispatch, readyQueue_dispatch, requeueLinks, requeueEntry,
      if_neg hnotrunning, if_neg hnotrunning]
    simpa [popped, hlink] using ring_nil
  · intro a
    rw [hready]
    simp
  · rw [hblock]
    apply hpop.dispatch (fun hr => absurd hr hnotrunning)
    simp [popped, hlink]
  · intro r a ha
    rcases Waiting.mem_update_append.mp ha with hm | ⟨-, rfl⟩
    · exact h.blocked_handOver hst' hm
    · rw [hst']
      simp [hc0.symm]
  · rw [hblock, currentProcess_dispatch]
  · rw [(Routine.processBlock (confined_univ s) q).pidOf_eq]
    exact h.idle_pid

/-- The first waiter, if there is one, becomes ready and goes behind the entry. -/
theorem processWake (h : RingInv s l w c) :
    ∃ l' w', RingInv (processWake s q) l' w' c := by
  unfold Process.processWake
  rw [h.waiting.head_eq]
  cases hw : w q with
  | nil => exact ⟨l, w, h⟩
  | cons a k =>
    have haw : a ∈ w q := by simp [hw]
    have hblocked := h.blocked q a haw
    have hal : a ∉ l := fun hm => h.not_waiting_of_ready hm q haw
    have hsub : ∀ r x, x ∈ update w q k r → x ∈ w r := fun r x =>
      Waiting.mem_of_mem_dequeued hw
    have hout := h.waiting.not_mem_of_dequeue hw
    have hac : a ≠ c := fun e => h.not_waiting_of_running q (e ▸ haw)
    refine ⟨_, _, RingInv.enter (w := update w q k) ?_ hal ?_ ?_ ?_ hout h.current hac ?_ ?_ ?_
      h.count⟩
    · have hring : Ring (update s.pcbs.link a none) s.readyQueue l :=
        ⟨h.ring.1.update hal, h.ring.2⟩
      simpa [dequeueWaiter] using hring
    · intro x hx
      simpa [dequeueWaiter, hx] using h.ready x
    · exact (h.waiting.dequeueWaiter hw).congr rfl (by simp)
    · intro r x hx
      have hxa : x ≠ a := fun e => hout r (e ▸ hx)
      simpa [dequeueWaiter, hxa] using h.blocked r x (hsub r x hx)
    · intro x hx
      simpa [dequeueWaiter, hx] using h.running x
    · simpa [dequeueWaiter] using h.idle_pid
    · intro ha0
      simpa [dequeueWaiter, Ne.symm ha0] using h.idle

theorem processWakeAll (fuel : ℕ) (h : RingInv s l w c) (he : processWakeAll fuel s q = some t) :
    ∃ l' w', RingInv t l' w' c := by
  induction fuel generalizing s l w with
  | zero =>
    unfold Process.processWakeAll at he
    split_ifs at he
    cases he
    exact ⟨l, w, h⟩
  | succ fuel ih =>
    unfold Process.processWakeAll at he
    by_cases hn : (s.waitQueues q).head = none
    · rw [if_pos hn] at he
      cases he
      exact ⟨l, w, h⟩
    · rw [if_neg hn] at he
      obtain ⟨l', w', h'⟩ := h.processWake (q := q)
      exact ih h' he

theorem processCreate (h : RingInv s l w c) (entry priority stack : ℕ)
    (hs : maxProcesses ≤ s.processCount ∨
      ∀ p, s.pcbs.status p = .ready → ∃ z < p, s.pcbs.status z = .zombie) :
    ∃ l', RingInv (processCreate s entry priority stack).1 l' w c := by
  cases hi : createdSlot s with
  | none =>
    rw [processCreate_of_none hi]
    exact ⟨l, h⟩
  | some i =>
    obtain ⟨hlt, hfind⟩ := createdSlot_eq_some hi
    have hzombie : s.pcbs.status i = .zombie := by
      apply (findFreePcb_status hfind).resolve_right
      intro hr
      obtain ⟨z, hzi, hz⟩ := hs.resolve_left (not_le.mpr hlt) i hr
      rcases findFreePcb_min hfind hzi with hf | hf <;> rw [hz] at hf <;> cases hf
    have hil : i ∉ l := by
      rw [h.ready, hzombie]
      simp
    have hiw : ∀ q, i ∉ w q := by
      intro q hm
      have hb := h.blocked q i hm
      rw [hzombie] at hb
      cases hb
    have hic : i ≠ c := by
      intro e
      have hr := (h.running i).mpr e
      rw [hzombie] at hr
      cases hr
    have hi0 : (0 : Slot) ≠ i := by
      rintro rfl
      rcases h.idle with hr | hr <;> rw [hzombie] at hr <;> cases hr
    obtain ⟨hrq, hcur, -, hcnt, hwq⟩ := statics_pcbInit
      { s with nextPid := word (s.nextPid + 1) } i s.nextPid entry priority stack
    have h₁ : RingInv (Process.addToReadyQueue (pcbInit { s with nextPid := word (s.nextPid + 1) }
        i s.nextPid entry priority stack) i) (insertSecond i l) w c := by
      refine RingInv.enter ?_ hil ?_ (h.waiting.congr hwq ?_) ?_ hiw (hcur.trans h.current) hic
        ?_ ?_ ?_ ?_
      · rw [link_pcbInit, hrq]
        exact ⟨h.ring.1.update hil, h.ring.2⟩
      · intro a ha
        rw [status_pcbInit, update_of_ne ha]
        exact h.ready a
      · intro q a ha
        have hai : a ≠ i := fun e => hiw q (e ▸ ha)
        rw [link_pcbInit, update_of_ne hai]
      · intro q a ha
        have hai : a ≠ i := fun e => hiw q (e ▸ ha)
        rw [status_pcbInit, update_of_ne hai]
        exact h.blocked q a ha
      · intro a ha
        rw [status_pcbInit, update_of_ne ha]
        exact h.running a
      · rw [pidOf_pcbInit, update_of_ne hi0]
        exact h.idle_pid
      · intro _
        rw [status_pcbInit, update_of_ne hi0]
        exact h.idle
      · rw [hcnt]
        exact h.count
    rw [processCreate_of_some hi]
    refine ⟨_, h₁.ring, h₁.ready, h₁.waiting.congr rfl fun _ _ _ => rfl, h₁.blocked, h₁.current,
      h₁.running, h₁.idle_pid, h₁.idle, fun hz => ?_⟩
    unfold word maxProcesses at *
    dsimp only at hz
    omega

theorem step {call : Call} (h : RingInv s l w c) (hs : RingSafe s call)
    (he : step s call = some t) : ∃ l' w' c', RingInv t l' w' c' := by
  cases call with
  | create entry priority stack =>
    cases he
    obtain ⟨l', h'⟩ := h.processCreate entry priority stack hs
    exact ⟨l', w, c, h'⟩
  | terminate pid => exact hs.elim
  | yield =>
    have hid : processYield s = some s := by
      simp [processYield, h.current, hs c h.current]
    cases hid.symm.trans he
    exact ⟨l, w, c, h⟩
  | block q =>
    cases he
    by_cases hpid : s.pcbs.pidOf c = 0
    · have hid : Process.processBlock s q = s := by
        simp [Process.processBlock, h.current, hpid]
      rw [hid]
      exact ⟨l, w, c, h⟩
    · obtain ⟨c', h'⟩ := h.processBlock (q := q) hpid ((hs c h.current).resolve_left hpid)
      exact ⟨_, _, c', h'⟩
  | wake q =>
    cases he
    obtain ⟨l', w', h'⟩ := h.processWake (q := q)
    exact ⟨l', w', c, h'⟩
  | wakeAll q fuel =>
    obtain ⟨l', w', h'⟩ := h.processWakeAll fuel he
    exact ⟨l', w', c, h'⟩
  | unlock m =>
    cases he
    have hu : RingInv { s with locked := update s.locked m 0 } l w c :=
      ⟨h.ring, h.ready, h.waiting.congr rfl fun _ _ _ => rfl, h.blocked, h.current, h.running,
        h.idle_pid, h.idle, h.count⟩
    obtain ⟨l', w', h'⟩ := hu.processWake (q := m)
    exact ⟨l', w', c, h'⟩
  | schedule =>
    cases he
    obtain ⟨l', c', h'⟩ := h.schedulerSchedule hs
    exact ⟨l', w, c', h'⟩
  | run esp =>
    cases he
    exact ⟨l, w, c, h.ring, h.ready, h.waiting.congr rfl fun _ _ _ => rfl, h.blocked, h.current,
      h.running, h.idle_pid, h.idle, h.count⟩

end RingInv

theorem ringInv_processInit (stack stack1024 stack256 : ℕ) :
    RingInv (processInit boot stack stack1024 stack256) [] (fun _ => []) 0 := by
  obtain ⟨hlink, hst, hpid⟩ := views_processInit stack stack1024 stack256
  obtain ⟨hrq, hcur, -, hwq⟩ := statics_processInit stack stack1024 stack256
  refine ⟨?_, ?_, ⟨fun q => ?_, by simp⟩, by simp, hcur, ?_, hpid 0, ?_, fun _ => rfl⟩
  · rw [hrq]
    exact ring_nil
  · intro p
    rw [hst]
    by_cases hp : p = 0 <;> simp [hp]
  · rw [hwq]
    exact ⟨rfl, List.nodup_nil, rfl⟩
  · intro p
    rw [hst]
    by_cases hp : p = 0 <;> simp [hp]
  · rw [hst]
    simp

/-- In every run that creates processes in zombie slots and pops single-member rings only, the
ready queue is the ring of the ready processes and is null when there are none. -/
theorem ready_ring_kept {stack stack1024 stack256 : ℕ} {calls : List Call} {t : State}
    (hrun : Run step RingSafe (processInit boot stack stack1024 stack256) calls t) :
    ReadyRing t ∧ (t.readyQueue = none ↔ ∀ p, t.pcbs.status p ≠ .ready) := by
  have hinv : ∃ l w c, RingInv t l w c := by
    refine hrun.invariant (fun s => ∃ l w c, RingInv s l w c) ?_
      ⟨_, _, _, ringInv_processInit stack stack1024 stack256⟩
    rintro s call t ⟨l, w, c, h⟩ hs he
    exact h.step hs he
  obtain ⟨l, w, c, h⟩ := hinv
  refine ⟨⟨l, h.ring, h.ready⟩, ?_⟩
  rw [h.ring.eq_none_iff, List.eq_nil_iff_forall_not_mem]
  exact forall_congr' fun p => not_congr (h.ready p)

/-- The first process runs, blocks on queue 0 and is woken. -/
theorem ready_ring_kept_one :
    ∃ t, Run step RingSafe (processInit boot 4096 0 0)
        [.create 1 1 8192, .schedule, .block 0, .wake 0] t ∧
      ReadyRing t ∧ (t.readyQueue = none ↔ ∀ p, t.pcbs.status p ≠ .ready) := by
  have hcreate : RingSafe (processInit boot 4096 0 0) (.create 1 1 8192) := by
    apply Or.inr
    intro p hp
    rw [(views_processInit 4096 0 0).2.1 p] at hp
    split_ifs at hp
  have hsole₁ : SoleEntry (processCreate (processInit boot 4096 0 0) 1 1 8192).1 := by
    unfold SoleEntry
    decide
  have hsole₂ : SoleEntry
      (schedulerSchedule (processCreate (processInit boot 4096 0 0) 1 1 8192).1) := by
    unfold SoleEntry
    decide
  have hrun : Run step RingSafe (processInit boot 4096 0 0)
      [.create 1 1 8192, .schedule, .block 0, .wake 0] _ :=
    .cons hcreate rfl (.cons hsole₁ rfl (.cons (fun _ _ => Or.inr hsole₂) rfl
      (.cons trivial rfl (.nil _))))
  exact ⟨_, hrun, ready_ring_kept hrun⟩

/-- The first process yields to the idle process, which then runs and is still on the ring. -/
theorem running_process_on_ring :
    ∃ t, Run step anyCall (processInit boot 4096 0 0) [.create 1 1 8192, .schedule, .yield] t ∧
      Reach t.pcbs.link t.readyQueue 0 ∧ t.pcbs.status 0 = .running ∧ ¬ ReadyRing t := by
  obtain ⟨t, ht, hq, hlink, hst⟩ : ∃ t, [.create 1 1 8192, .schedule, .yield].foldlM step
      (processInit boot 4096 0 0) = some t ∧ t.readyQueue = some 1 ∧
      t.pcbs.link 1 = some 0 ∧ t.pcbs.status 0 = .running :=
    ⟨_, rfl, by decide, by decide, by decide⟩
  have hreach : Reach t.pcbs.link t.readyQueue 0 := .step (.root hq) hlink
  refine ⟨t, Run.of_foldlM ht, hreach, hst, ?_⟩
  rintro ⟨l, hring, hready⟩
  have hmem : (0 : Slot) ∈ l :=
    hring.closed.reach_subset (fun _ he => List.mem_of_head? (hring.head_eq.symm.trans he)) hreach
  rw [hready, hst] at hmem
  cases hmem

end OpenKernel.Process
