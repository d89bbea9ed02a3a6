import OpenKernel.Process.Model

/-!
# Mutexes

The functions of `sync.c` on one mutex, for any set of processes on one CPU. A
call runs with interrupts disabled and is one step, except that `mutex_lock`
gives up the CPU in `process_block` and later goes on in its retry loop. The
scheduler may take the CPU from a process that is in none of these functions,
and gives a free CPU to any ready process.
-/

namespace OpenKernel.Sync

open Function
open Process (ProcessState)

/-- Where the code of a process stands: in none of the mutex functions, or in the loop of
`mutex_lock`, after its call of `process_block`. -/
inductive Place
  | outside
  | retryLoop
  deriving DecidableEq, Repr

/-- The mutex, the scheduler's view of the processes, and who holds the mutex: those whose
`mutex_lock` returned, or whose `mutex_trylock` returned 1, with no `mutex_unlock` since. -/
structure State (P : Type*) where
  locked : ℕ
  waiters : List P
  current : Option P
  status : P → ProcessState
  place : P → Place
  holds : P → Bool

/-- The value read and the value left behind. -/
def atomicXchg (a val : ℕ) : ℕ × ℕ := (a, val)

/-- The test at the top of the loop of `mutex_lock`: the lock word and whether it was taken. -/
def tryAcquire (locked : ℕ) : ℕ × Bool :=
  if locked = 0 then
    let (old, locked) := atomicXchg locked 1
    (locked, old = 0)
  else (locked, false)

/-- The loop of `mutex_lock` with `pauses = 8 - spin`, up to its return or its call of
`process_block`. -/
def spinLoop (locked : ℕ) : ℕ → ℕ × Bool
  | 0 => tryAcquire locked
  | pauses + 1 =>
    match tryAcquire locked with
    | (locked, true) => (locked, true)
    | (locked, false) => spinLoop locked pauses

section Functions

variable {P : Type*} [DecidableEq P]

def mutexInit (s : State P) : State P := { s with locked := 0, waiters := [] }

/-- `process_block` on the mutex's queue, for a process other than the idle one. -/
def processBlock (s : State P) (p : P) : State P :=
  { s with
    status := update s.status p .blocked
    waiters := s.waiters ++ [p]
    place := update s.place p .retryLoop
    current := none }

def processWake (s : State P) : State P :=
  match s.waiters with
  | [] => s
  | waiter :: rest => { s with waiters := rest, status := update s.status waiter .ready }

/-- `mutex_lock` by `p`, from the loop with `pauses` pauses left. For the idle process
`process_block` returns at once and nobody else gets the CPU: the loop never ends. -/
def mutexLockFrom (pid : P → ℕ) (s : State P) (p : P) (pauses : ℕ) : Option (State P) :=
  match spinLoop s.locked pauses with
  | (locked, true) => some
    { s with
      locked := locked
      place := update s.place p .outside
      holds := update s.holds p true }
  | (locked, false) =>
    if pid p = 0 then none else some (processBlock { s with locked := locked } p)

def mutexUnlock (s : State P) (p : P) : State P :=
  processWake { s with locked := 0, holds := update s.holds p false }

def mutexTrylock (s : State P) (p : P) : State P × Bool :=
  let (old, locked) := atomicXchg s.locked 1
  let acquired : Bool := old = 0
  ({ s with locked := locked, holds := update s.holds p (acquired || s.holds p) }, acquired)

inductive Action (P : Type*)
  | lock
  | retry
  | trylock
  | unlock
  | preempt
  | dispatch (p : P)
  deriving DecidableEq

/-- The running process, if its code stands at `place`. -/
def callerAt (s : State P) (place : Place) : Option P := s.current.filter (s.place · = place)

/-- What the running process does, or what the scheduler does with it: `none` where the action
is not possible or does not end. The retry loop starts with `spin = 1`, as the increment of the
`for` follows the reset. -/
def step (pid : P → ℕ) (s : State P) : Action P → Option (State P)
  | .lock => (callerAt s .outside).bind fun p => mutexLockFrom pid s p 8
  | .retry => (callerAt s .retryLoop).bind fun p => mutexLockFrom pid s p 7
  | .trylock => (callerAt s .outside).map fun p => (mutexTrylock s p).1
  | .unlock => (callerAt s .outside).map fun p => mutexUnlock s p
  | .preempt => (callerAt s .outside).map fun p =>
      { s with current := none, status := update s.status p .ready }
  | .dispatch p =>
      if s.current = none ∧ s.status p = .ready then
        some { s with current := some p, status := update s.status p .running }
      else none

/-- Only a holder calls `mutex_unlock`. -/
def HolderUnlocks (s : State P) : Action P → Prop
  | .unlock => ∀ p, s.current = some p → s.holds p
  | _ => True

end Functions

section Effects

variable {P : Type*} [DecidableEq P] {pid : P → ℕ} {s t : State P} {p : P}

theorem spinLoop_eq (locked pauses : ℕ) :
    spinLoop locked pauses = if locked = 0 then (1, true) else (locked, false) := by
  induction pauses with
  | zero => by_cases h : locked = 0 <;> simp [spinLoop, tryAcquire, atomicXchg, h]
  | succ pauses ih =>
    by_cases h : locked = 0
    · simp [spinLoop, tryAcquire, atomicXchg, h]
    · simp [spinLoop, tryAcquire, h, ih]

/-- The state once `p` has taken the mutex. -/
def acquired (s : State P) (p : P) : State P :=
  { s with locked := 1, place := update s.place p .outside, holds := update s.holds p true }

theorem mutexLockFrom_cases {pauses : ℕ} (h : mutexLockFrom pid s p pauses = some t) :
    (s.locked = 0 ∧ t = acquired s p) ∨ (s.locked ≠ 0 ∧ pid p ≠ 0 ∧ t = processBlock s p) := by
  unfold mutexLockFrom at h
  rw [spinLoop_eq] at h
  by_cases hl : s.locked = 0
  · rw [if_pos hl] at h
    cases h
    exact Or.inl ⟨hl, rfl⟩
  · rw [if_neg hl] at h
    dsimp only at h
    split_ifs at h with hp
    cases h
    exact Or.inr ⟨hl, hp, rfl⟩

omit [DecidableEq P] in
theorem callerAt_eq_some {place : Place} (h : callerAt s place = some p) :
    s.current = some p ∧ s.place p = place := by
  simpa [callerAt, Option.filter_eq_some_iff] using h

/-- Everything a step can do. -/
theorem step_cases {action : Action P} (h : step pid s action = some t) :
    (∃ p, s.current = some p ∧ s.locked = 0 ∧ t = acquired s p) ∨
    (∃ p, s.current = some p ∧ s.locked ≠ 0 ∧ pid p ≠ 0 ∧ t = processBlock s p) ∨
    (s.locked ≠ 0 ∧ t = { s with locked := 1 }) ∨
    (∃ p, action = .unlock ∧ s.current = some p ∧ t = mutexUnlock s p) ∨
    (∃ p, s.current = some p ∧
      t = { s with current := none, status := update s.status p .ready }) ∨
    (∃ p, s.current = none ∧ s.status p = .ready ∧
      t = { s with current := some p, status := update s.status p .running }) := by
  have hlock : ∀ place pauses,
      (callerAt s place).bind (fun p => mutexLockFrom pid s p pauses) = some t →
      (∃ p, s.current = some p ∧ s.locked = 0 ∧ t = acquired s p) ∨
        ∃ p, s.current = some p ∧ s.locked ≠ 0 ∧ pid p ≠ 0 ∧ t = processBlock s p := by
    intro place pauses h
    obtain ⟨p, hp, h⟩ := Option.bind_eq_some_iff.mp h
    have hc := (callerAt_eq_some hp).1
    rcases mutexLockFrom_cases h with ⟨hl, rfl⟩ | ⟨hl, hpid, rfl⟩
    · exact Or.inl ⟨p, hc, hl, rfl⟩
    · exact Or.inr ⟨p, hc, hl, hpid, rfl⟩
  cases action with
  | lock =>
    rcases hlock _ _ h with h | h
    · exact Or.inl h
    · exact Or.inr (Or.inl h)
  | retry =>
    rcases hlock _ _ h with h | h
    · exact Or.inl h
    · exact Or.inr (Or.inl h)
  | trylock =>
    obtain ⟨p, hp, rfl⟩ := Option.map_eq_some_iff.mp h
    obtain ⟨hc, hplace⟩ := callerAt_eq_some hp
    by_cases hl : s.locked = 0
    · refine Or.inl ⟨p, hc, hl, ?_⟩
      simp [mutexTrylock, atomicXchg, hl, acquired, ← hplace]
    · refine Or.inr (Or.inr (Or.inl ⟨hl, ?_⟩))
      simp [mutexTrylock, atomicXchg, hl]
  | unlock =>
    obtain ⟨p, hp, rfl⟩ := Option.map_eq_some_iff.mp h
    exact Or.inr (Or.inr (Or.inr (Or.inl ⟨p, rfl, (callerAt_eq_some hp).1, rfl⟩)))
  | preempt =>
    obtain ⟨p, hp, rfl⟩ := Option.map_eq_some_iff.mp h
    exact Or.inr (Or.inr (Or.inr (Or.inr (Or.inl ⟨p, (callerAt_eq_some hp).1, rfl⟩))))
  | dispatch p =>
    simp only [step] at h
    split_ifs at h with hp
    cases h
    exact Or.inr (Or.inr (Or.inr (Or.inr (Or.inr ⟨p, hp.1, hp.2, rfl⟩))))

theorem holds_processWake (s : State P) : (processWake s).holds = s.holds := by
  unfold processWake
  split <;> rfl

theorem locked_processWake (s : State P) : (processWake s).locked = s.locked := by
  unfold processWake
  split <;> rfl

end Effects

/-- Before the mutex is used: nobody is in its functions or holds it, and every process is
ready, except the one running. -/
structure Fresh {P : Type*} (s : State P) : Prop where
  outside : ∀ p, s.place p = .outside
  free : ∀ p, s.holds p = false
  status : ∀ p, s.status p = .ready ∨ s.status p = .running
  current : ∀ p, s.current = some p ↔ s.status p = .running

section Exclusion

variable {P : Type*} [DecidableEq P] {pid : P → ℕ} {s t : State P}

/-- The lock word is a bit that says whether there is a holder, and there is at most one. -/
structure Exclusive (s : State P) : Prop where
  bit : s.locked = 0 ∨ s.locked = 1
  holder : s.locked = 1 ↔ ∃ p, s.holds p
  unique : ∀ p q, s.holds p → s.holds q → p = q

omit [DecidableEq P] in
theorem exclusive_mutexInit (h : Fresh s) : Exclusive (mutexInit s) := by
  refine ⟨Or.inl rfl, ?_, ?_⟩
  · simp [mutexInit, h.free]
  · simp [mutexInit, h.free]

omit [DecidableEq P] in
theorem Exclusive.congr (h : Exclusive s) (hl : t.locked = s.locked) (hh : t.holds = s.holds) :
    Exclusive t := by
  refine ⟨?_, ?_, ?_⟩
  · rw [hl]
    exact h.bit
  · rw [hl, hh]
    exact h.holder
  · rw [hh]
    exact h.unique

theorem Exclusive.acquired {p : P} (h : Exclusive s) (hl : s.locked = 0) :
    Exclusive (acquired s p) := by
  have hnone : ∀ q, s.holds q = false := by
    intro q
    by_contra hq
    have h1 := h.holder.mpr ⟨q, by simpa using hq⟩
    omega
  have hp : ∀ q, (Sync.acquired s p).holds q → q = p := by
    intro q hq
    by_contra hne
    simp [Sync.acquired, hne, hnone] at hq
  refine ⟨Or.inr rfl, ?_, ?_⟩
  · refine ⟨fun _ => ⟨p, ?_⟩, fun _ => rfl⟩
    simp [Sync.acquired]
  · intro q r hq hr
    rw [hp q hq, hp r hr]

theorem Exclusive.mutexUnlock {p : P} (h : Exclusive s) (hp : s.holds p) :
    Exclusive (mutexUnlock s p) := by
  have hnone : ∀ q, (Sync.mutexUnlock s p).holds q = false := by
    intro q
    rw [Sync.mutexUnlock, holds_processWake]
    by_cases hq : q = p
    · simp [hq]
    · have hnot : ¬ s.holds q := fun hh => hq (h.unique q p hh hp)
      simpa [hq] using hnot
  have hl : (Sync.mutexUnlock s p).locked = 0 := by
    rw [Sync.mutexUnlock, locked_processWake]
  refine ⟨Or.inl hl, ?_, ?_⟩
  · simp [hl, hnone]
  · simp [hnone]

theorem Exclusive.step {action : Action P} (h : Exclusive s) (hok : HolderUnlocks s action)
    (he : step pid s action = some t) : Exclusive t := by
  rcases step_cases he with ⟨p, -, hl, rfl⟩ | ⟨p, -, -, -, rfl⟩ | ⟨hl, rfl⟩ | ⟨p, rfl, hc, rfl⟩ |
    ⟨p, -, rfl⟩ | ⟨p, -, -, rfl⟩
  · exact h.acquired hl
  · exact h.congr rfl rfl
  · exact h.congr (h.bit.resolve_left hl).symm rfl
  · exact h.mutexUnlock (hok p hc)
  · exact h.congr rfl rfl
  · exact h.congr rfl rfl

/-- In every interleaving at most one process holds the mutex, and `locked` is 1 exactly when
there is one. -/
theorem mutual_exclusion {actions : List (Action P)} (hs : Fresh s)
    (hrun : Run (step pid) HolderUnlocks (mutexInit s) actions t) :
    (∀ p q, t.holds p → t.holds q → p = q) ∧ (t.locked = 1 ↔ ∃ p, t.holds p) := by
  have h := hrun.invariant Exclusive (fun _ _ _ h hok he => h.step hok he)
    (exclusive_mutexInit hs)
  exact ⟨h.unique, h.holder⟩

/-- Three ready processes and an unused mutex. -/
def threeReady : State (Fin 3) := ⟨0, [], none, fun _ => .ready, fun _ => .outside, fun _ => false⟩

theorem fresh_threeReady : Fresh threeReady :=
  ⟨fun _ => rfl, fun _ => rfl, fun _ => Or.inl rfl, by decide⟩

/-- The first process takes the mutex, the other two block on it, and the first unlocks: the
second is ready inside the retry loop. -/
def contention : List (Action (Fin 3)) :=
  [.dispatch 0, .lock, .preempt, .dispatch 1, .lock, .dispatch 2, .lock, .dispatch 0, .unlock]

theorem run_contention : ∃ t, Run (step fun p : Fin 3 => p.val + 1) HolderUnlocks
    (mutexInit threeReady) contention t ∧ t.waiters = [2] ∧ t.locked = 0 := by
  refine ⟨_, .cons trivial rfl (.cons trivial rfl (.cons trivial rfl (.cons trivial rfl
    (.cons trivial rfl (.cons trivial rfl (.cons trivial rfl (.cons trivial rfl
    (.cons ?_ rfl (.nil _))))))))), rfl, rfl⟩
  unfold HolderUnlocks
  decide

theorem mutual_exclusion_three : ∃ t, Run (step fun p : Fin 3 => p.val + 1) HolderUnlocks
    (mutexInit threeReady) contention t ∧
    (∀ p q, t.holds p → t.holds q → p = q) ∧ (t.locked = 1 ↔ ∃ p, t.holds p) := by
  obtain ⟨t, hrun, -⟩ := run_contention
  exact ⟨t, hrun, mutual_exclusion fresh_threeReady hrun⟩

end Exclusion

section WakeUps

variable {P : Type*} [DecidableEq P] {pid : P → ℕ} {s t : State P}

/-- The waiters are the blocked processes, and a free mutex with waiters has been handed to a
woken process that will try it again. -/
structure Unstranded (s : State P) : Prop where
  bit : s.locked = 0 ∨ s.locked = 1
  nodup : s.waiters.Nodup
  blocked : ∀ p, p ∈ s.waiters ↔ s.status p = .blocked
  current : ∀ p, s.current = some p ↔ s.status p = .running
  live : ∀ p, s.status p ≠ .zombie
  inside : ∀ p ∈ s.waiters, s.place p = .retryLoop
  woken : s.locked = 0 → s.waiters ≠ [] → ∃ p, p ∉ s.waiters ∧ s.place p = .retryLoop

omit [DecidableEq P] in
theorem unstranded_mutexInit (h : Fresh s) : Unstranded (mutexInit s) := by
  refine ⟨Or.inl rfl, List.nodup_nil, ?_, h.current, ?_, ?_, ?_⟩
  · intro p
    rcases h.status p with hp | hp <;> simp [mutexInit, hp]
  · intro p
    rcases h.status p with hp | hp <;> simp [mutexInit, hp]
  · simp [mutexInit]
  · simp [mutexInit]

namespace Unstranded

variable {p : P}

omit [DecidableEq P] in
theorem not_waiting (h : Unstranded s) (hc : s.current = some p) : p ∉ s.waiters := by
  rw [h.blocked, (h.current p).mp hc]
  simp

theorem acquired (h : Unstranded s) (hc : s.current = some p) : Unstranded (acquired s p) := by
  refine ⟨Or.inr rfl, h.nodup, h.blocked, h.current, h.live, ?_, ?_⟩
  · intro q hq
    have hqp : q ≠ p := by
      rintro rfl
      exact h.not_waiting hc hq
    simpa [Sync.acquired, hqp] using h.inside q hq
  · simp [Sync.acquired]

theorem processBlock (h : Unstranded s) (hc : s.current = some p) (hl : s.locked ≠ 0) :
    Unstranded (processBlock s p) := by
  have hp := h.not_waiting hc
  refine ⟨h.bit, ?_, ?_, ?_, ?_, ?_, fun h0 => absurd h0 hl⟩
  · rw [Sync.processBlock, List.nodup_append_comm]
    exact List.nodup_cons.mpr ⟨hp, h.nodup⟩
  · intro q
    by_cases hq : q = p
    · simp [Sync.processBlock, hq]
    · simp [Sync.processBlock, hq, h.blocked]
  · intro q
    by_cases hq : q = p
    · simp [Sync.processBlock, hq]
    · have hrun : s.status q ≠ .running := by
        intro hr
        have hcq := (h.current q).mpr hr
        rw [hc, Option.some.injEq] at hcq
        exact hq hcq.symm
      simp [Sync.processBlock, hq, hrun]
  · intro q
    by_cases hq : q = p
    · simp [Sync.processBlock, hq]
    · simpa [Sync.processBlock, hq] using h.live q
  · intro q hq
    by_cases hqp : q = p
    · simp [Sync.processBlock, hqp]
    · have hm : q ∈ s.waiters := by simpa [Sync.processBlock, hqp] using hq
      simpa [Sync.processBlock, hqp] using h.inside q hm

/-- The first waiter, if there is one, leaves the queue and is ready inside the retry loop. -/
theorem mutexUnlock (h : Unstranded s) : Unstranded (mutexUnlock s p) := by
  unfold Sync.mutexUnlock processWake
  cases hw : s.waiters with
  | nil =>
    refine ⟨Or.inl rfl, List.nodup_nil, ?_, h.current, h.live, by simp, by simp⟩
    intro q
    have hb := h.blocked q
    rwa [hw] at hb
  | cons a l =>
    have hn := h.nodup
    rw [hw, List.nodup_cons] at hn
    have ha : s.status a = .blocked := (h.blocked a).mp (by simp [hw])
    refine ⟨Or.inl rfl, hn.2, ?_, ?_, ?_, ?_, ?_⟩
    · intro q
      by_cases hq : q = a
      · simp [hq, hn.1]
      · have hb := h.blocked q
        rw [hw] at hb
        simpa [hq] using hb
    · intro q
      by_cases hq : q = a
      · have hcur : s.current ≠ some a := by
          rw [Ne, h.current a, ha]
          simp
        simp [hq, hcur]
      · simpa [hq] using h.current q
    · intro q
      by_cases hq : q = a
      · simp [hq]
      · simpa [hq] using h.live q
    · intro q hq
      exact h.inside q (by simp [hw, show q ∈ l from hq])
    · exact fun _ _ => ⟨a, hn.1, h.inside a (by simp [hw])⟩

theorem schedule {v : ProcessState} {c : Option P} (h : Unstranded s)
    (hp : s.status p = .ready ∨ s.status p = .running) (hv : v = .ready ∨ v = .running)
    (hc : ∀ q, c = some q ↔ update s.status p v q = .running) :
    Unstranded { s with current := c, status := update s.status p v } := by
  refine ⟨h.bit, h.nodup, ?_, hc, ?_, h.inside, h.woken⟩
  · intro q
    by_cases hq : q = p
    · subst hq
      rcases hp with hp | hp <;> rcases hv with rfl | rfl <;> simp [h.blocked, hp]
    · simpa [hq] using h.blocked q
  · intro q
    by_cases hq : q = p
    · subst hq
      rcases hv with rfl | rfl <;> simp
    · simpa [hq] using h.live q

theorem step {action : Action P} (h : Unstranded s) (he : step pid s action = some t) :
    Unstranded t := by
  rcases step_cases he with ⟨p, hc, -, rfl⟩ | ⟨p, hc, hl, -, rfl⟩ | ⟨hl, rfl⟩ | ⟨p, rfl, -, rfl⟩ |
    ⟨p, hc, rfl⟩ | ⟨p, hc, hready, rfl⟩
  · exact h.acquired hc
  · exact h.processBlock hc hl
  · exact ⟨Or.inr rfl, h.nodup, h.blocked, h.current, h.live, h.inside, by simp⟩
  · exact h.mutexUnlock
  · apply h.schedule (Or.inr ((h.current p).mp hc)) (Or.inl rfl)
    intro q
    by_cases hq : q = p
    · simp [hq]
    · have hcq := h.current q
      rw [hc, Option.some.injEq] at hcq
      simp [hq, ← hcq, Ne.symm hq]
  · apply h.schedule (Or.inl hready) (Or.inr rfl)
    intro q
    by_cases hq : q = p
    · simp [hq]
    · have hcq := h.current q
      rw [hc] at hcq
      simp [hq, ← hcq, Ne.symm hq]

end Unstranded

/-- In every interleaving a mutex with waiters is locked, or a process taken off the queue
since is ready or running inside the retry loop of `mutex_lock`. -/
theorem no_lost_wakeup {actions : List (Action P)} (hs : Fresh s)
    (hrun : Run (step pid) HolderUnlocks (mutexInit s) actions t) (hw : t.waiters ≠ []) :
    t.locked = 1 ∨ ∃ p, p ∉ t.waiters ∧ t.place p = .retryLoop ∧
      (t.status p = .ready ∨ t.status p = .running) := by
  have h := hrun.invariant Unstranded (fun _ _ _ h _ he => h.step he) (unstranded_mutexInit hs)
  apply h.bit.symm.imp_right
  intro h0
  obtain ⟨p, hp, hplace⟩ := h.woken h0 hw
  refine ⟨p, hp, hplace, ?_⟩
  have hnb : t.status p ≠ .blocked := fun hb => hp ((h.blocked p).mpr hb)
  have hnz := h.live p
  cases hst : t.status p <;> simp_all

theorem no_lost_wakeup_three : ∃ t, Run (step fun p : Fin 3 => p.val + 1) HolderUnlocks
    (mutexInit threeReady) contention t ∧ t.waiters ≠ [] ∧
    (t.locked = 1 ∨ ∃ p, p ∉ t.waiters ∧ t.place p = .retryLoop ∧
      (t.status p = .ready ∨ t.status p = .running)) := by
  obtain ⟨t, hrun, hw, -⟩ := run_contention
  have hne : t.waiters ≠ [] := by simp [hw]
  exact ⟨t, hrun, hne, no_lost_wakeup fresh_threeReady hrun hne⟩

end WakeUps

end OpenKernel.Sync
