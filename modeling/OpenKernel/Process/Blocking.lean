import OpenKernel.Process.WaitQueues
import OpenKernel.Process.Lifecycle

/-!
# Blocking and first-in-first-out wake-ups

A popped process stays linked on the ready ring when the ring has other members.
If such a process blocks, the ring still leads to it and the scheduler runs it
again without a wake-up. Runs in which no process blocks while the ready queue
leads to it, and in which no creation takes slot 0, keep blocked processes off
the ready queue, and each wait queue hands them out in the order they came.
-/

namespace OpenKernel.Process

open Function Linked

/-- A process calls `process_block` on a queue, or is dequeued from it by a wake-up. -/
inductive Event
  | blocked (q : ℕ) (p : Slot)
  | dequeued (q : ℕ) (p : Slot)
  deriving DecidableEq

def wakeEvents (s : State) (q : ℕ) : List Event :=
  match (s.waitQueues q).head with
  | none => []
  | some waiter => [.dequeued q waiter]

def wakeAllEvents : ℕ → State → ℕ → List Event
  | 0, _, _ => []
  | fuel + 1, s, q => wakeEvents s q ++ wakeAllEvents fuel (processWake s q) q

theorem wakeAllEvents_of_empty {s : State} {q : ℕ} (h : (s.waitQueues q).head = none) (n : ℕ) :
    wakeAllEvents n s q = [] := by
  have hid : processWake s q = s := by simp [processWake, h]
  induction n with
  | zero => rfl
  | succ n ih => simp [wakeAllEvents, wakeEvents, h, hid, ih]

def events (s : State) : Call → List Event
  | .block q => (s.currentProcess.map (Event.blocked q)).toList
  | .wake q => wakeEvents s q
  | .unlock m => wakeEvents s m
  | .wakeAll q fuel => wakeAllEvents fuel s q
  | _ => []

def history : State → List Call → List Event
  | _, [] => []
  | s, call :: calls =>
    events s call ++
      match step s call with
      | none => []
      | some t => history t calls

def blockedOn (q : ℕ) (es : List Event) : List Slot :=
  es.filterMap fun
    | .blocked r p => if r = q then some p else none
    | .dequeued _ _ => none

def dequeuedFrom (q : ℕ) (es : List Event) : List Slot :=
  es.filterMap fun
    | .blocked _ _ => none
    | .dequeued r p => if r = q then some p else none

@[simp] theorem blockedOn_append (q : ℕ) (es fs : List Event) :
    blockedOn q (es ++ fs) = blockedOn q es ++ blockedOn q fs :=
  List.filterMap_append

@[simp] theorem dequeuedFrom_append (q : ℕ) (es fs : List Event) :
    dequeuedFrom q (es ++ fs) = dequeuedFrom q es ++ dequeuedFrom q fs :=
  List.filterMap_append

/-- The calls of processes and of the timer, without termination: no creation while the idle
process is ready, and whoever blocks is not the idle process and not on the ready queue. -/
def BlockSafe (s : State) : Call → Prop
  | .create .. => maxProcesses ≤ s.processCount ∨ s.pcbs.status 0 ≠ .ready
  | .terminate _ => False
  | .block _ => ∀ c, s.currentProcess = some c →
      s.pcbs.pidOf c ≠ 0 ∧ ¬ Reach s.pcbs.link s.readyQueue c
  | _ => True

/-- The waiters `w` are blocked, and neither running, nor on the ready queue, nor idle. -/
structure BlockInv (s : State) (w : ℕ → List Slot) : Prop where
  waiting : Waiting s w
  blocked : ∀ q, ∀ p ∈ w q, s.pcbs.status p = .blocked
  ready : ∀ p, Reach s.pcbs.link s.readyQueue p → ∀ q, p ∉ w q
  current : ∀ c, s.currentProcess = some c → ∀ q, c ∉ w q
  idle : ∀ q, (0 : Slot) ∉ w q
  idle_pid : s.pcbs.pidOf 0 = 0
  idle_live : s.pcbs.status 0 ≠ .zombie
  count : s.processCount = 0 → s.currentProcess = some 0

namespace BlockInv

variable {s t : State} {w : ℕ → List Slot} {p : Slot} {q : ℕ}

theorem setState {v : ProcessState} (h : BlockInv s w) (hp : ∀ q, p ∉ w q)
    (hv : v ≠ .zombie) : BlockInv { s with pcbs := s.pcbs.setState p v } w where
  waiting := h.waiting.congr rfl (by simp)
  blocked q a ha := by
    have hap : a ≠ p := fun e => hp q (e ▸ ha)
    simpa [hap] using h.blocked q a ha
  ready := by simpa using h.ready
  current := h.current
  idle := h.idle
  idle_pid := by simpa using h.idle_pid
  idle_live := by
    by_cases h0 : (0 : Slot) = p
    · simpa [← h0] using hv
    · simpa [h0] using h.idle_live
  count := h.count

theorem addToReadyQueue (h : BlockInv s w) (hp : ∀ q, p ∉ w q) :
    BlockInv (addToReadyQueue s p) w where
  waiting := h.waiting.addToReadyQueue hp fun e he => h.ready e (.root he)
  blocked q a ha := by
    have hap : a ≠ p := fun e => hp q (e ▸ ha)
    simpa [hap] using h.blocked q a ha
  ready a ha := by
    rcases reach_addToReadyQueue ha with rfl | ha
    · exact hp
    · exact h.ready a ha
  current := by simpa using h.current
  idle := h.idle
  idle_pid := by simpa using h.idle_pid
  idle_live := by
    by_cases h0 : (0 : Slot) = p
    · simp [← h0]
    · simpa [h0] using h.idle_live
  count := by simpa using h.count

theorem schedulerSchedule (h : BlockInv s w) : BlockInv (schedulerSchedule s) w := by
  have hnew : ∀ c, (Process.schedulerSchedule s).currentProcess = some c → ∀ q, c ∉ w q := by
    intro c hc
    rcases currentProcess_schedulerSchedule hc with ⟨hc, -⟩ | rfl | hc
    · exact h.current c hc
    · exact h.idle
    · exact h.ready c hc
  have hr := Routine.schedulerSchedule (confined_univ s)
  refine ⟨h.waiting.schedulerSchedule (fun c hc _ => h.current c hc) h.ready, ?_, ?_, hnew,
    h.idle, ?_, ?_, ?_⟩
  · intro q a ha
    rw [status_schedulerSchedule (fun hc => absurd ha (h.current a hc q))
      (fun hc => hnew a hc q ha)]
    exact h.blocked q a ha
  · intro a ha
    rcases reach_schedulerSchedule ha with ⟨hc, -⟩ | ha
    · exact h.current a hc
    · exact h.ready a ha
  · rw [hr.pidOf_eq]
    exact h.idle_pid
  · exact fun he => h.idle_live (hr.alive 0 he)
  · intro hz
    rw [hr.processCount_eq] at hz
    rw [schedulerSchedule_of_count hz]
    exact h.count hz

/-- The caller goes behind the other waiters and somebody else runs. -/
theorem processBlock {c : Slot} (h : BlockInv s w) (hc : s.currentProcess = some c)
    (hpid : s.pcbs.pidOf c ≠ 0) (hrq : ¬ Reach s.pcbs.link s.readyQueue c) :
    BlockInv (processBlock s q) (update w q (w q ++ [c])) := by
  have hcw := h.current c hc
  have hc0 : (0 : Slot) ≠ c := by
    rintro rfl
    exact hpid h.idle_pid
  have hcount : s.processCount ≠ 0 := fun hz => hc0 (Option.some.inj ((h.count hz).symm.trans hc))
  obtain ⟨hst, hpids, hq, hcur, hcnt⟩ := Waiting.views_suspend s q c
  have hblock : Process.processBlock s q = Process.schedulerSchedule (suspend s q c) := by
    simp [Process.processBlock, hc, hpid]
  have hmem : ∀ r, ∀ a ∈ update w q (w q ++ [c]) r, a ∈ w r ∨ a = c := by
    intro r a ha
    exact (Waiting.mem_update_append.mp ha).imp id And.right
  have hready : ∀ a, Reach (suspend s q c).pcbs.link (suspend s q c).readyQueue a →
      ∀ r, a ∉ update w q (w q ++ [c]) r := by
    intro a ha r hm
    have ha' := h.waiting.reach_suspend hrq h.ready ha
    rcases hmem r a hm with hm | rfl
    · exact h.ready a ha' r hm
    · exact hrq ha'
  have hnew : ∀ a, (Process.schedulerSchedule (suspend s q c)).currentProcess = some a →
      ∀ r, a ∉ update w q (w q ++ [c]) r := by
    intro a ha r hm
    rcases currentProcess_schedulerSchedule ha with ⟨he, hz⟩ | rfl | ha
    · rw [hcur, hc, Option.some.injEq] at he
      rw [hcnt, hpids, ← he] at hz
      exact hpid (hz hcount)
    · rcases hmem r 0 hm with hm | he
      · exact h.idle r hm
      · exact hc0 he
    · exact hready a ha r hm
  have hnotrunning : (suspend s q c).pcbs.status c ≠ .running := by simp [hst]
  have hr := Routine.processBlock (confined_univ s) q
  rw [hblock] at hr ⊢
  refine ⟨(h.waiting.suspend hcw).schedulerSchedule ?_ hready, ?_, ?_, hnew, ?_, ?_, ?_, ?_⟩
  · intro a ha hrun
    rw [hcur, hc, Option.some.injEq] at ha
    exact absurd (ha ▸ hrun) hnotrunning
  · intro r a ha
    rw [status_schedulerSchedule ?_ fun hn => hnew a hn r ha, hst]
    · rcases hmem r a ha with ha | rfl
      · have hac : a ≠ c := fun e => hcw r (e ▸ ha)
        rw [update_of_ne hac]
        exact h.blocked r a ha
      · rw [update_self]
    · intro ha'
      rw [hcur, hc, Option.some.injEq] at ha'
      exact ha' ▸ hnotrunning
  · intro a ha
    rcases reach_schedulerSchedule ha with ⟨ha', hrun⟩ | ha
    · rw [hcur, hc, Option.some.injEq] at ha'
      exact absurd (ha' ▸ hrun) hnotrunning
    · exact hready a ha
  · intro r hm
    rcases hmem r 0 hm with hm | he
    · exact h.idle r hm
    · exact hc0 he
  · rw [hr.pidOf_eq]
    exact h.idle_pid
  · exact fun he => h.idle_live (hr.alive 0 he)
  · exact fun hz => absurd (hr.processCount_eq ▸ hz) hcount

theorem processYield (h : BlockInv s w) (he : processYield s = some t) : BlockInv t w := by
  unfold Process.processYield at he
  cases hc : s.currentProcess with
  | none => simp [hc] at he
  | some c =>
    simp only [hc] at he
    split_ifs at he
    · cases he
      exact h
    · cases he
      have hcw := h.current c hc
      have h₁ := (h.setState hcw (v := .ready) (by simp)).addToReadyQueue hcw
      simpa only [hc] using h₁.schedulerSchedule

theorem dequeueWaiter {a : Slot} {l : List Slot} (h : BlockInv s w) (hw : w q = a :: l) :
    BlockInv (dequeueWaiter s q a) (update w q l) := by
  have hsub : ∀ r x, x ∈ update w q l r → x ∈ w r := fun r x =>
    Waiting.mem_of_mem_dequeued hw
  refine ⟨h.waiting.dequeueWaiter hw, ?_, ?_, ?_, ?_, ?_, ?_, h.count⟩
  · intro r x hx
    simpa [Process.dequeueWaiter] using h.blocked r x (hsub r x hx)
  · intro x hx r hm
    refine h.ready x ?_ r (hsub r x hm)
    have hR := (closed_reach s.pcbs.link s.readyQueue).update (a := a) (v := none) (by simp)
    apply hR.reach_subset (fun _ he => Reach.root he)
    simpa [Process.dequeueWaiter] using hx
  · exact fun c hc r hm => h.current c hc r (hsub r c hm)
  · exact fun r hm => h.idle r (hsub r 0 hm)
  · simpa [Process.dequeueWaiter] using h.idle_pid
  · simpa [Process.dequeueWaiter] using h.idle_live

theorem processWake (h : BlockInv s w) : BlockInv (processWake s q) (update w q (w q).tail) := by
  unfold Process.processWake
  rw [h.waiting.head_eq]
  cases hw : w q with
  | nil =>
    have hsame : update w q [].tail = w := by
      rw [List.tail_nil, ← hw, update_eq_self]
    rw [hsame]
    exact h
  | cons a l =>
    have hout := h.waiting.not_mem_of_dequeue hw
    exact ((h.dequeueWaiter hw).setState hout (v := .ready) (by simp)).addToReadyQueue hout

theorem wakeEvents_eq (h : BlockInv s w) :
    wakeEvents s q = ((w q).head?.map (Event.dequeued q)).toList := by
  unfold wakeEvents
  rw [h.waiting.head_eq]
  cases w q <;> rfl

/-- All waiters go back to the ready queue, in order. -/
theorem processWakeAll (fuel : ℕ) (h : BlockInv s w) (he : processWakeAll fuel s q = some t) :
    BlockInv t (update w q []) ∧ wakeAllEvents fuel s q = (w q).map (Event.dequeued q) := by
  induction fuel generalizing s w with
  | zero =>
    unfold Process.processWakeAll at he
    split_ifs at he with hn
    cases he
    rw [h.waiting.head_eq, List.head?_eq_none_iff] at hn
    rw [← hn, update_eq_self, hn]
    exact ⟨h, rfl⟩
  | succ fuel ih =>
    unfold Process.processWakeAll at he
    have hwake := h.processWake (q := q)
    by_cases hn : (s.waitQueues q).head = none
    · rw [if_pos hn] at he
      cases he
      rw [wakeAllEvents_of_empty hn]
      rw [h.waiting.head_eq, List.head?_eq_none_iff] at hn
      rw [← hn, update_eq_self, hn]
      exact ⟨h, rfl⟩
    · rw [if_neg hn] at he
      obtain ⟨hinv, hev⟩ := ih hwake he
      rw [update_idem] at hinv
      refine ⟨hinv, ?_⟩
      rw [wakeAllEvents, hev, h.wakeEvents_eq, update_self]
      rw [h.waiting.head_eq] at hn
      cases hw : w q with
      | nil => simp [hw] at hn
      | cons a l => simp

theorem pcbInit {i : Slot} (h : BlockInv s w) (n pid entry priority stack : ℕ)
    (hi : ∀ q, i ∉ w q) (hi0 : i ≠ 0) :
    BlockInv (pcbInit { s with nextPid := n } i pid entry priority stack) w := by
  obtain ⟨hrq, hcur, -, hcnt, hwq⟩ :=
    statics_pcbInit { s with nextPid := n } i pid entry priority stack
  refine ⟨h.waiting.congr hwq ?_, ?_, ?_, ?_, h.idle, ?_, ?_, ?_⟩
  · intro q a ha
    have hai : a ≠ i := fun e => hi q (e ▸ ha)
    rw [link_pcbInit, update_of_ne hai]
  · intro q a ha
    have hai : a ≠ i := fun e => hi q (e ▸ ha)
    rw [status_pcbInit, update_of_ne hai]
    exact h.blocked q a ha
  · intro a ha
    rw [link_pcbInit, hrq] at ha
    have hR := (closed_reach s.pcbs.link s.readyQueue).update (a := i) (v := none) (by simp)
    exact h.ready a (hR.reach_subset (fun _ he => Reach.root he) ha)
  · rw [hcur]
    exact h.current
  · rw [pidOf_pcbInit, update_of_ne hi0.symm]
    exact h.idle_pid
  · rw [status_pcbInit, update_of_ne hi0.symm]
    exact h.idle_live
  · rw [hcnt, hcur]
    exact h.count

theorem processCreate {entry priority stack : ℕ} (h : BlockInv s w)
    (hs : maxProcesses ≤ s.processCount ∨ s.pcbs.status 0 ≠ .ready) :
    BlockInv (processCreate s entry priority stack).1 w := by
  cases hi : createdSlot s with
  | none =>
    rw [processCreate_of_none hi]
    exact h
  | some i =>
    obtain ⟨hlt, hfind⟩ := createdSlot_eq_some hi
    have hfree := findFreePcb_status hfind
    have hout : ∀ q, i ∉ w q := by
      intro q hm
      have hb := h.blocked q i hm
      rcases hfree with hf | hf <;> rw [hb] at hf <;> cases hf
    have hi0 : i ≠ 0 := by
      rintro rfl
      rcases hfree with hf | hf
      · exact h.idle_live hf
      · exact hs.elim (fun hm => absurd hlt (not_lt.mpr hm)) fun hr => hr hf
    have h₁ := (h.pcbInit (word (s.nextPid + 1)) s.nextPid entry priority stack hout
      hi0).addToReadyQueue hout
    rw [processCreate_of_some hi]
    refine ⟨h₁.waiting.congr rfl fun _ _ _ => rfl, h₁.blocked, h₁.ready, h₁.current, h₁.idle,
      h₁.idle_pid, h₁.idle_live, fun hz => ?_⟩
    unfold word maxProcesses at *
    dsimp only at hz
    omega

/-- Taking a process off the ready queue writes only the links of the processes that the ready
queue leads to, and its own. -/
theorem removeFromReadyQueue (h : BlockInv s w) (hp : ∀ q, p ∉ w q)
    (he : removeFromReadyQueue s p = some t) : BlockInv t w := by
  have hreach := closed_reach s.pcbs.link s.readyQueue
  have hown : ∀ q, ∀ a ∈ w q, a ≠ p := fun q a ha e => hp q (e ▸ ha)
  unfold Process.removeFromReadyQueue at he
  cases hq : s.readyQueue with
  | none =>
    simp only [hq, Option.some.injEq] at he
    exact he ▸ h
  | some head =>
    simp only [hq] at he
    have hroot : Reach s.pcbs.link s.readyQueue head := .root hq
    by_cases hself : s.pcbs.link head = some head
    · rw [if_pos hself] at he
      obtain rfl := Option.some.inj he
      refine ⟨h.waiting.congr rfl ?_, by simpa using h.blocked, ?_, h.current, h.idle,
        by simpa using h.idle_pid, by simpa using h.idle_live, h.count⟩
      · intro q a ha
        simp [hown q a ha]
      · intro a ha
        exact absurd ha (not_reach_none a)
    · rw [if_neg hself] at he
      obtain ⟨⟨c, found⟩, hloop, rfl⟩ := Option.map_eq_some_iff.mp he
      obtain ⟨hc, hfound⟩ := removeLoop_reach hroot hloop
      have hlink : ∀ q, ∀ a ∈ w q,
          (if found then s.pcbs.setNext c (s.pcbs.link p) else s.pcbs).link a = s.pcbs.link a := by
        intro q a ha
        have hac : a ≠ c := fun e => h.ready c hc q (e ▸ ha)
        cases found <;> simp [hac]
      have hclosed : Closed (if found then s.pcbs.setNext c (s.pcbs.link p) else s.pcbs).link
          {a | Reach s.pcbs.link s.readyQueue a} := by
        split_ifs with hf
        · rw [Table.link_setNext]
          apply hreach.update
          intro b hb
          exact Reach.step (.step hc (hfound hf)) hb
        · exact hreach
      refine ⟨h.waiting.congr rfl ?_, ?_, ?_, h.current, h.idle, ?_, ?_, h.count⟩
      · intro q a ha
        rw [Table.link_setNext, update_of_ne (hown q a ha)]
        exact hlink q a ha
      · cases found <;> simpa using h.blocked
      · intro a ha
        have hR := hclosed.update (a := p) (v := none) (by simp)
        rw [Table.link_setNext] at ha
        refine h.ready a (hR.reach_subset ?_ ha)
        intro b hb
        dsimp only at hb
        split_ifs at hb
        · exact Option.some.inj hb ▸ hc
        · exact Option.some.inj hb ▸ hroot
      · cases found <;> simpa using h.idle_pid
      · cases found <;> simpa using h.idle_live

/-- A process that is not blocked is terminated, and others are left. -/
theorem processTerminate {pid : ℕ} (h : BlockInv s w)
    (hs : ∀ hlt : pid < maxProcesses, pid ≠ 0 → pid < s.nextPid →
      s.pcbs.status ⟨pid, hlt⟩ ≠ .zombie →
        s.pcbs.status ⟨pid, hlt⟩ ≠ .blocked ∧ word (s.processCount + 2 ^ 32 - 1) ≠ 0)
    (he : processTerminate s pid = some t) : BlockInv t w := by
  rcases processTerminate_cases he with ⟨rfl, -⟩ | ⟨hlt, hpid, hnext, hlive, u, hu, rfl⟩
  · exact h
  · obtain ⟨hblocked, hlast⟩ := hs hlt hpid hnext hlive
    have hout : ∀ q, ⟨pid, hlt⟩ ∉ w q := fun q hm => hblocked (h.blocked q _ hm)
    have hne : (0 : Slot) ≠ ⟨pid, hlt⟩ := fun e => hpid (congrArg Fin.val e).symm
    have hu' : BlockInv u w := by
      unfold schedulerRemoveProcess at hu
      split_ifs at hu
      · exact h.removeFromReadyQueue hout hu
      · exact Option.some.inj hu ▸ h
    have hcount : u.processCount = s.processCount := by
      obtain ⟨rq, pcbs, rfl, -⟩ := schedulerRemoveProcess_shape hu
      rfl
    refine ⟨hu'.waiting.congr rfl (by simp), ?_, ?_, hu'.current, hu'.idle, ?_, ?_, ?_⟩
    · intro q a ha
      have ha' : a ≠ ⟨pid, hlt⟩ := fun e => hout q (e ▸ ha)
      rw [status_markTerminated, update_of_ne ha']
      exact hu'.blocked q a ha
    · intro a ha
      rw [link_markTerminated] at ha
      exact hu'.ready a ha
    · simpa using hu'.idle_pid
    · rw [status_markTerminated, update_of_ne hne]
      exact hu'.idle_live
    · intro hz
      rw [← hcount] at hlast
      exact absurd hz hlast

theorem wake_events (h : BlockInv s w) (q r : ℕ) :
    w r ++ blockedOn r (wakeEvents s q) =
      dequeuedFrom r (wakeEvents s q) ++ update w q (w q).tail r := by
  rw [h.wakeEvents_eq]
  by_cases hr : r = q
  · subst hr
    cases w r <;> simp [blockedOn, dequeuedFrom]
  · cases w q <;> simp [blockedOn, dequeuedFrom, hr, Ne.symm hr]

/-- One call keeps the invariant, and what it dequeues comes from the front of what waited. -/
theorem step {call : Call} (h : BlockInv s w) (hs : BlockSafe s call)
    (he : step s call = some t) :
    ∃ w', BlockInv t w' ∧ ∀ q, w q ++ blockedOn q (events s call) =
      dequeuedFrom q (events s call) ++ w' q := by
  cases call with
  | create entry priority stack =>
    cases he
    exact ⟨w, h.processCreate hs, fun q => by simp [events, blockedOn, dequeuedFrom]⟩
  | terminate pid => exact hs.elim
  | yield => exact ⟨w, h.processYield he, fun q => by simp [events, blockedOn, dequeuedFrom]⟩
  | block q =>
    cases he
    cases hc : s.currentProcess with
    | none =>
      refine ⟨w, by simpa [Process.processBlock, hc] using h, fun r => ?_⟩
      simp [events, hc, blockedOn, dequeuedFrom]
    | some c =>
      obtain ⟨hpid, hrq⟩ := hs c hc
      refine ⟨_, h.processBlock hc hpid hrq, fun r => ?_⟩
      by_cases hr : r = q
      · subst hr
        simp [events, hc, blockedOn, dequeuedFrom]
      · simp [events, hc, blockedOn, dequeuedFrom, hr, Ne.symm hr]
  | wake q =>
    cases he
    exact ⟨_, h.processWake, h.wake_events q⟩
  | wakeAll q fuel =>
    obtain ⟨hinv, hev⟩ := h.processWakeAll fuel he
    refine ⟨_, hinv, fun r => ?_⟩
    rw [events, hev]
    by_cases hr : r = q
    · subst hr
      simp [blockedOn, dequeuedFrom, List.filterMap_map]
    · simp [blockedOn, dequeuedFrom, List.filterMap_map, hr, Ne.symm hr]
  | unlock m =>
    cases he
    have h' : BlockInv { s with locked := update s.locked m 0 } w :=
      ⟨h.waiting.congr rfl fun _ _ _ => rfl, h.blocked, h.ready, h.current, h.idle, h.idle_pid,
        h.idle_live, h.count⟩
    exact ⟨_, h'.processWake, h.wake_events m⟩
  | schedule =>
    cases he
    exact ⟨w, h.schedulerSchedule, fun q => by simp [events, blockedOn, dequeuedFrom]⟩
  | run esp =>
    cases he
    refine ⟨w, ⟨h.waiting.congr rfl fun _ _ _ => rfl, h.blocked, h.ready, h.current, h.idle,
      h.idle_pid, h.idle_live, h.count⟩, fun q => ?_⟩
    simp [events, blockedOn, dequeuedFrom]

/-- Over a whole run, what was dequeued from a queue followed by what still waits is what
waited at first followed by what blocked, in order. -/
theorem run {calls : List Call} (h : BlockInv s w) (hrun : Run Process.step BlockSafe s calls t) :
    ∃ w', BlockInv t w' ∧ ∀ q, w q ++ blockedOn q (history s calls) =
      dequeuedFrom q (history s calls) ++ w' q := by
  induction hrun generalizing w with
  | nil s => exact ⟨w, h, fun q => by simp [history, blockedOn, dequeuedFrom]⟩
  | cons hs he _ ih =>
    obtain ⟨w₁, h₁, hev⟩ := h.step hs he
    obtain ⟨w₂, h₂, hev'⟩ := ih h₁
    refine ⟨w₂, h₂, fun q => ?_⟩
    simp only [history, he, blockedOn_append, dequeuedFrom_append]
    rw [← List.append_assoc, hev q, List.append_assoc, hev' q, List.append_assoc]

end BlockInv

theorem blockInv_processInit (stack stack1024 stack256 : ℕ) :
    BlockInv (processInit boot stack stack1024 stack256) fun _ => [] := by
  obtain ⟨hlink, hst, hpid⟩ := views_processInit stack stack1024 stack256
  obtain ⟨hrq, hcur, -, hwq⟩ := statics_processInit stack stack1024 stack256
  refine ⟨⟨fun q => ?_, by simp⟩, by simp, by simp, by simp, by simp, hpid 0, ?_, fun _ => hcur⟩
  · rw [hwq]
    exact ⟨rfl, List.nodup_nil, rfl⟩
  · rw [hst]
    simp

/-- In every run in which nobody blocks while the ready queue leads to it, each wait queue
hands out exactly the processes that blocked on it, in that order, and no process that has
blocked and has not been dequeued since is the running one. -/
theorem blocking_fifo {stack stack1024 stack256 : ℕ} {calls : List Call} {t : State}
    (hrun : Run step BlockSafe (processInit boot stack stack1024 stack256) calls t) :
    ∃ w : ℕ → List Slot, ∀ q,
      blockedOn q (history (processInit boot stack stack1024 stack256) calls) =
        dequeuedFrom q (history (processInit boot stack stack1024 stack256) calls) ++ w q ∧
      ∀ p ∈ w q, t.currentProcess ≠ some p := by
  obtain ⟨w, h, hev⟩ := (blockInv_processInit stack stack1024 stack256).run hrun
  exact ⟨w, fun q => ⟨by simpa using hev q, fun p hp hc => h.current p hc q hp⟩⟩

theorem blockSafe_of_idle_ready {s : State} {c : Slot} {q : ℕ} (hcur : s.currentProcess = some c)
    (hready : s.readyQueue = some 0) (hlink : s.pcbs.link 0 = some 0) (hpid : s.pcbs.pidOf c ≠ 0)
    (hc : c ≠ 0) : BlockSafe s (.block q) := by
  intro d hd
  obtain rfl : c = d := Option.some.inj (hcur.symm.trans hd)
  refine ⟨hpid, fun h => ?_⟩
  have hR : Closed s.pcbs.link {0} := by
    rintro a rfl b hb
    exact (Option.some.inj (hlink.symm.trans hb)).symm
  rw [hready] at h
  exact hc (hR.reach_subset (fun a ha => (Option.some.inj ha).symm) h)

/-- Two processes block on queue 0, one after the other, and one wake-up takes the first. -/
theorem blocking_fifo_two :
    let calls : List Call := [.create 1 1 8192, .schedule, .block 0, .create 2 1 16384, .schedule,
      .block 0, .wake 0]
    ∃ t, Run step BlockSafe (processInit boot 4096 0 0) calls t ∧
      blockedOn 0 (history (processInit boot 4096 0 0) calls) = [1, 2] ∧
      dequeuedFrom 0 (history (processInit boot 4096 0 0) calls) = [1] ∧
      ∃ w : ℕ → List Slot, ∀ q, blockedOn q (history (processInit boot 4096 0 0) calls) =
        dequeuedFrom q (history (processInit boot 4096 0 0) calls) ++ w q ∧
      ∀ p ∈ w q, t.currentProcess ≠ some p := by
  intro calls
  have hrun : Run step BlockSafe (processInit boot 4096 0 0) calls _ :=
    .cons (Or.inr (by decide)) rfl <| .cons trivial rfl <|
      .cons (blockSafe_of_idle_ready (c := 1) (by decide) (by decide) (by decide) (by decide)
        (by decide)) rfl <|
      .cons (Or.inr (by decide)) rfl <| .cons trivial rfl <|
      .cons (blockSafe_of_idle_ready (c := 2) (by decide) (by decide) (by decide) (by decide)
        (by decide)) rfl <|
      .cons trivial rfl (.nil _)
  exact ⟨_, hrun, by decide, by decide, blocking_fifo hrun⟩

/-- With two processes besides the idle one: slot 2 is popped from a ring of two and blocks
on queue 5 while the ring still leads to it; two timer ticks later it runs again, without
any wake-up of queue 5. -/
theorem blocked_process_runs :
    ∃ t, Run step anyCall (processInit boot 4096 0 0)
        [.create 1 1 8192, .schedule, .block 0, .create 2 1 16384, .wake 0, .schedule,
          .block 5, .schedule, .schedule] t ∧
      blockedOn 5 (history (processInit boot 4096 0 0)
        [.create 1 1 8192, .schedule, .block 0, .create 2 1 16384, .wake 0, .schedule,
          .block 5, .schedule, .schedule]) = [2] ∧
      dequeuedFrom 5 (history (processInit boot 4096 0 0)
        [.create 1 1 8192, .schedule, .block 0, .create 2 1 16384, .wake 0, .schedule,
          .block 5, .schedule, .schedule]) = [] ∧
      t.currentProcess = some 2 :=
  ⟨_, Run.of_foldlM rfl, by decide, by decide, by decide⟩

end OpenKernel.Process
