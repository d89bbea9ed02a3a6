import OpenKernel.Process.Effects

/-!
# The order of dispatches

Each call of `scheduler_schedule` pops the entry of the ready ring and queues the
preempted process behind the new entry, not at the end of the ring. The process
that was running is therefore dispatched third on every ring of two or more: a
round visits the whole ring in order exactly when the ring has at most two members.
-/

namespace OpenKernel.Process

open Function Linked

/-- The processes running after each of `n` successive calls of `scheduler_schedule`. -/
def dispatched : ℕ → State → List (Option Slot)
  | 0, _ => []
  | n + 1, s => (schedulerSchedule s).currentProcess :: dispatched n (schedulerSchedule s)

/-- `ps` is the ready ring, all its members are ready, and `c` is running outside it. -/
structure RoundStart (s : State) (ps : List Slot) (c : Slot) : Prop where
  ring : Ring s.pcbs.link s.readyQueue ps
  nonempty : ps ≠ []
  ready : ∀ p ∈ ps, s.pcbs.status p = .ready
  current : s.currentProcess = some c
  running : s.pcbs.status c = .running
  outside : c ∉ ps

/-- One round dispatches the ring in order and then the process that was running. -/
def RoundRobin (s : State) (ps : List Slot) (c : Slot) : Prop :=
  dispatched (ps.length + 1) s = (ps ++ [c]).map some

theorem take_dispatched (k n : ℕ) (s : State) :
    (dispatched n s).take k = dispatched (min k n) s := by
  induction n generalizing k s with
  | zero => simp [dispatched]
  | succ n ih =>
    cases k with
    | zero => simp [dispatched]
    | succ k => simp [dispatched, ih, Nat.succ_min_succ]

/-- A call with the running process `c` and the entry `h`, observed. -/
structure Preempts (s t : State) (c h : Slot) (rest : Option Slot) : Prop where
  current : t.currentProcess = some h
  count : t.processCount = s.processCount
  entry : t.readyQueue = some (rest.getD c)
  link : t.pcbs.link = addLinks s.pcbs.link rest c
  running : t.pcbs.status h = .running

theorem preempts_schedulerSchedule {s : State} {c h : Slot} (hcur : s.currentProcess = some c)
    (hcount : s.processCount ≠ 0) (hentry : s.readyQueue = some h)
    (hrun : s.pcbs.status c = .running) :
    Preempts s (schedulerSchedule s) c h
      (if s.pcbs.link h = some h then none else s.pcbs.link h) := by
  have hs : schedulerSchedule s = dispatch (popped s h) c h := by
    rcases schedulerSchedule_cases s with ⟨-, h₀⟩ | ⟨_, _, _, h₀, _⟩ | ⟨c', h', hc', _, hh', he⟩
    · have := (h₀ c hcur hcount).1
      rw [hentry] at this
      cases this
    · rw [hentry] at h₀
      cases h₀
    · obtain rfl := Option.some.inj (hcur.symm.trans hc')
      obtain rfl := Option.some.inj (hentry.symm.trans hh')
      exact he
  rw [hs]
  refine ⟨?_, ?_, ?_, ?_, ?_⟩
  · simp
  · simp [popped]
  · simp [requeueEntry, popped, hrun]
  · simp [requeueLinks, popped, hrun]
  · simp

section Round

variable {s : State} {c : Slot} {ps : List Slot}

theorem RoundStart.dispatched_one {a : Slot} (h : RoundStart s [a] c) (hcount : s.processCount ≠ 0) :
    dispatched 2 s = [some a, some c] := by
  obtain ⟨hentry, hlink⟩ := h.ring.1
  have hself : s.pcbs.link a = some a := hlink
  have h₁ := preempts_schedulerSchedule h.current hcount hentry h.running
  rw [if_pos hself] at h₁
  -- the popped ring is empty, so that `c` is queued alone
  have h₂ := preempts_schedulerSchedule h₁.current (h₁.count ▸ hcount) h₁.entry h₁.running
  simp [dispatched, h₁.current, h₂.current]

theorem RoundStart.dispatched_two {a b : Slot} {l : List Slot} (h : RoundStart s (a :: b :: l) c)
    (hcount : s.processCount ≠ 0) : dispatched 3 s = [some a, some b, some c] := by
  obtain ⟨hentry, hab, -⟩ := h.ring.1
  have hne : a ≠ b := fun e => (List.nodup_cons.mp h.ring.2).1 (by simp [e])
  have hcb : c ≠ b := fun e => h.outside (by simp [e])
  have h₁ := preempts_schedulerSchedule h.current hcount hentry h.running
  rw [if_neg (by simp [hab, hne.symm]), hab] at h₁
  have h₂ := preempts_schedulerSchedule h₁.current (h₁.count ▸ hcount) h₁.entry h₁.running
  -- `c` now stands behind the entry `b`
  have hbc : (schedulerSchedule s).pcbs.link b = some c := by
    rw [h₁.link]
    simp [addLinks]
  rw [Option.getD_some, if_neg (by simp [hbc, hcb]), hbc] at h₂
  have h₃ := preempts_schedulerSchedule h₂.current (h₂.count ▸ h₁.count ▸ hcount) h₂.entry
    h₂.running
  simp [dispatched, h₁.current, h₂.current, h₃.current]

theorem RoundStart.not_roundRobin (h : RoundStart s ps c) (hcount : s.processCount = 0) :
    ¬ RoundRobin s ps c := by
  intro hr
  obtain ⟨a, l, rfl⟩ := List.exists_cons_of_ne_nil h.nonempty
  have hhead : (dispatched ((a :: l).length + 1) s).head? = some (some a) := by
    rw [show dispatched ((a :: l).length + 1) s = _ from hr]
    rfl
  rw [dispatched, schedulerSchedule_of_count hcount, h.current] at hhead
  apply h.outside
  simp_all

/-- A round of `scheduler_schedule` visits the ready ring in order, and then the process that
was running, exactly when the ring has at most two members and processes are counted. -/
theorem roundRobin_iff (h : RoundStart s ps c) :
    RoundRobin s ps c ↔ ps.length ≤ 2 ∧ s.processCount ≠ 0 := by
  by_cases hcount : s.processCount = 0
  · simp [h.not_roundRobin hcount, hcount]
  rw [and_iff_left hcount]
  unfold RoundRobin
  match ps, h with
  | [], h => exact absurd rfl h.nonempty
  | [a], h => simp [h.dispatched_one hcount]
  | [a, b], h => simp [h.dispatched_two hcount]
  | a :: b :: d :: l, h =>
    constructor
    · intro hr
      have h₃ := congrArg (List.take 3) hr
      rw [take_dispatched, show min 3 ((a :: b :: d :: l).length + 1) = 3 by simp,
        h.dispatched_two hcount] at h₃
      have hcd : c = d := by simpa using h₃
      exact absurd hcd fun e => h.outside (by simp [e])
    · intro hle
      simp at hle

end Round

/-- Two processes block on a queue and are woken: the ring of two is visited in order. -/
theorem roundRobin_iff_two :
    ∃ s, Run step anyCall (processInit boot 4096 0 0)
        [.create 1 1 8192, .schedule, .block 0, .create 1 1 16384, .schedule, .block 0,
          .wake 0, .wake 0] s ∧
      RoundStart s [1, 2] 0 ∧ RoundRobin s [1, 2] 0 := by
  obtain ⟨s, hs, hstart, hcount⟩ : ∃ s, [.create 1 1 8192, .schedule, .block 0,
      .create 1 1 16384, .schedule, .block 0, .wake 0, .wake 0].foldlM step
        (processInit boot 4096 0 0) = some s ∧ RoundStart s [1, 2] 0 ∧ s.processCount = 3 :=
    ⟨_, rfl, ⟨⟨⟨by decide, by decide, seg_nil.mpr (by decide)⟩, by decide⟩, by decide, by decide,
      by decide, by decide, by decide⟩, by decide⟩
  exact ⟨s, Run.of_foldlM hs, hstart, (roundRobin_iff hstart).mpr ⟨by simp, by simp [hcount]⟩⟩

/-- With three woken processes the idle process runs again before the third of them. -/
theorem round_of_three :
    ∃ s, Run step anyCall (processInit boot 4096 0 0)
        [.create 1 1 8192, .schedule, .block 0, .create 1 1 16384, .schedule, .block 0,
          .create 1 1 24576, .schedule, .block 0, .wake 0, .wake 0, .wake 0] s ∧
      RoundStart s [1, 3, 2] 0 ∧ dispatched 4 s = [some 1, some 3, some 0, some 1] ∧
      ¬ RoundRobin s [1, 3, 2] 0 := by
  obtain ⟨s, hs, hstart, hd⟩ : ∃ s, [.create 1 1 8192, .schedule, .block 0,
      .create 1 1 16384, .schedule, .block 0, .create 1 1 24576, .schedule, .block 0,
      .wake 0, .wake 0, .wake 0].foldlM step (processInit boot 4096 0 0) = some s ∧
      RoundStart s [1, 3, 2] 0 ∧ dispatched 4 s = [some 1, some 3, some 0, some 1] :=
    ⟨_, rfl, ⟨⟨⟨by decide, by decide, by decide, seg_nil.mpr (by decide)⟩, by decide⟩, by decide,
      by decide, by decide, by decide, by decide⟩, by decide⟩
  refine ⟨s, Run.of_foldlM hs, hstart, hd, ?_⟩
  unfold RoundRobin
  rw [show ([1, 3, 2] : List Slot).length + 1 = 4 from rfl, hd]
  decide

end OpenKernel.Process
