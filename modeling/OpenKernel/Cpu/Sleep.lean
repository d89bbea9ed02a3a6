import Mathlib.Algebra.GroupWithZero.Nat
import Mathlib.Tactic.SplitIfs
import OpenKernel.Lib.Transition

/-!
# Sleeping

`timer_sleep` of `timer.c` while the interrupt handler of the timer counts the ticks.
An interrupt may come between any two accesses to `tick_count`. The wait that the
function computes is about a hundredth of the right one, and it is added to the counter
with a wrap, so the function sleeps long enough only for very short times.
-/

namespace OpenKernel.Timer

def tickHz : UInt32 := 100

def ticksPerMs : UInt32 := if tickHz / 1000 = 0 then 1 else tickHz / 1000

/-- What `timer_sleep` adds to `tick_count`. -/
def wait (ms : UInt32) : UInt32 := ms * ticksPerMs / 1000 + 1

/-- Where `timer_sleep` is: before it reads `tick_count`, in its loop, or behind it. -/
inductive Point
  | enter
  | loop (target : UInt32)
  | done
  deriving DecidableEq

structure Sleep where
  tickCount : UInt32
  point : Point
  /-- The calls of `timer_irq_handler` since the call of `timer_sleep`. -/
  ticks : ℕ
  deriving DecidableEq

/-- A tick of the timer, or the next access of `timer_sleep` to `tick_count`. -/
inductive Event
  | tick
  | access
  deriving DecidableEq

def timerIrqHandler (s : Sleep) : Sleep :=
  { s with tickCount := s.tickCount + 1, ticks := s.ticks + 1 }

/-- The target is computed from the first access, and compared with every other one. -/
def timerSleep (ms : UInt32) (s : Sleep) : Sleep :=
  match s.point with
  | .enter => { s with point := .loop (s.tickCount + wait ms) }
  | .loop target => if s.tickCount < target then s else { s with point := .done }
  | .done => s

/-- What happens until the loop ends. -/
def step (ms : UInt32) (s : Sleep) (event : Event) : Option Sleep :=
  if s.point = .done then none
  else match event with
    | .tick => some (timerIrqHandler s)
    | .access => some (timerSleep ms s)

def called (start : UInt32) : Sleep := ⟨start, .enter, 0⟩

/-- The loop never ends before `ms` milliseconds' worth of ticks. -/
def SleepsLongEnough (ms start : UInt32) : Prop :=
  ∀ events s, Run (step ms) anyCall (called start) events s → s.point = .done →
    ms.toNat * tickHz.toNat ≤ 1000 * s.ticks

theorem toNat_wait (ms : UInt32) : (wait ms).toNat = ms.toNat / 1000 + 1 := by
  have hms := ms.toNat_lt
  have hone : ms * ticksPerMs = ms := UInt32.mul_one ms
  rw [wait, hone, UInt32.toNat_add, UInt32.toNat_div]
  change (ms.toNat / 1000 + 1) % 2 ^ 32 = _
  omega

/-! ### How long a run takes -/

/-- The counter follows the ticks, and the target was computed at one of them. -/
def Counts (ms start : UInt32) (s : Sleep) : Prop :=
  s.tickCount.toNat = (start.toNat + s.ticks) % 2 ^ 32 ∧
    match s.point with
    | .enter => True
    | .loop target => ∃ k ≤ s.ticks, target.toNat = (start.toNat + k + (wait ms).toNat) % 2 ^ 32
    | .done => ∃ k ≤ s.ticks,
      (start.toNat + k + (wait ms).toNat) % 2 ^ 32 ≤ (start.toNat + s.ticks) % 2 ^ 32

section Runs

variable {ms start : UInt32} {s t : Sleep} {events : List Event}

theorem Counts.timerIrqHandler (h : Counts ms start s) (hpoint : s.point ≠ .done) :
    Counts ms start (timerIrqHandler s) := by
  obtain ⟨hcount, hp⟩ := h
  refine ⟨?_, ?_⟩
  · change (s.tickCount + 1).toNat = (start.toNat + (s.ticks + 1)) % 2 ^ 32
    rw [UInt32.toNat_add, hcount]
    change ((start.toNat + s.ticks) % 2 ^ 32 + 1) % 2 ^ 32 = _
    omega
  · unfold Timer.timerIrqHandler
    cases hs : s.point with
    | enter => trivial
    | loop target =>
      rw [hs] at hp
      obtain ⟨k, hk, htarget⟩ := hp
      exact ⟨k, Nat.le_succ_of_le hk, htarget⟩
    | done => exact absurd hs hpoint

theorem Counts.timerSleep (h : Counts ms start s) : Counts ms start (timerSleep ms s) := by
  obtain ⟨hcount, hp⟩ := h
  unfold Timer.timerSleep
  cases hs : s.point with
  | enter =>
    refine ⟨hcount, s.ticks, Nat.le_refl _, ?_⟩
    rw [UInt32.toNat_add, hcount]
    omega
  | loop target =>
    rw [hs] at hp
    obtain ⟨k, hk, htarget⟩ := hp
    dsimp only
    split_ifs with hlt
    · exact ⟨hcount, by rw [hs]; exact ⟨k, hk, htarget⟩⟩
    · refine ⟨hcount, k, hk, ?_⟩
      rw [UInt32.lt_iff_toNat_lt] at hlt
      rw [← htarget, ← hcount]
      exact Nat.le_of_not_lt hlt
  | done => exact ⟨hcount, hp⟩

theorem Counts.step (h : Counts ms start s) {event : Event} (hstep : step ms s event = some t) :
    Counts ms start t := by
  unfold Timer.step at hstep
  split_ifs at hstep with hpoint
  cases event with
  | tick =>
    cases hstep
    exact h.timerIrqHandler hpoint
  | access =>
    cases hstep
    exact h.timerSleep

theorem counts_of_run (h : Run (step ms) anyCall (called start) events s) : Counts ms start s := by
  refine h.invariant (Counts ms start) (fun _ _ _ hs _ hstep => hs.step hstep) ⟨?_, trivial⟩
  exact (Nat.mod_eq_of_lt start.toNat_lt).symm

theorem wait_le_ticks (h : Run (step ms) anyCall (called start) events s) (hdone : s.point = .done)
    (hwrap : start.toNat + s.ticks + (wait ms).toNat < 2 ^ 32) : (wait ms).toNat ≤ s.ticks := by
  obtain ⟨-, hp⟩ := counts_of_run h
  rw [hdone] at hp
  obtain ⟨k, hk, hle⟩ := hp
  rw [Nat.mod_eq_of_lt (by omega), Nat.mod_eq_of_lt (by omega)] at hle
  omega

theorem run_of_not_lt (n : ℕ) {c target : UInt32} {k : ℕ} (h : ¬c + n.toUInt32 < target) :
    Run (step ms) anyCall ⟨c, .loop target, k⟩ (List.replicate n .tick ++ [.access])
      ⟨c + n.toUInt32, .done, k + n⟩ := by
  induction n generalizing c k with
  | zero =>
    have hzero : c + (0 : ℕ).toUInt32 = c := UInt32.add_zero c
    rw [hzero] at h ⊢
    refine .cons trivial ?_ (.nil _)
    change some (if c < target then _ else _) = _
    rw [if_neg h]
    rfl
  | succ n ih =>
    have hsucc : c + (n + 1).toUInt32 = c + 1 + n.toUInt32 := by
      change c + UInt32.ofNat (n + 1) = _
      rw [UInt32.ofNat_add, UInt32.add_comm (UInt32.ofNat n), ← UInt32.add_assoc]
      rfl
    rw [hsucc] at h ⊢
    have hrest := ih (k := k + 1) h
    rw [Nat.add_right_comm] at hrest
    exact .cons trivial rfl hrest

theorem exists_run (n : ℕ) (h : ¬start + n.toUInt32 < start + wait ms) :
    ∃ events s, Run (step ms) anyCall (called start) events s ∧ s.point = .done ∧ s.ticks = n := by
  have hrun : Run (step ms) anyCall _ _ _ := run_of_not_lt n (k := 0) h
  rw [Nat.zero_add] at hrun
  exact ⟨.access :: _, _, .cons trivial rfl hrun, rfl, rfl⟩

theorem SleepsLongEnough.le_ticks (h : SleepsLongEnough ms start) (n : ℕ)
    (hreached : ¬start + n.toUInt32 < start + wait ms) : ms.toNat * 100 ≤ 1000 * n := by
  obtain ⟨events, s, hrun, hdone, rfl⟩ := exists_run n hreached
  exact h events s hrun hdone

theorem SleepsLongEnough.wait_suffices (h : SleepsLongEnough ms start) :
    ms = 0 ∨ start.toNat + (wait ms).toNat < 2 ^ 32 ∧ ms.toNat ≤ 10 * (wait ms).toNat := by
  by_cases hwrap : start.toNat + (wait ms).toNat < 2 ^ 32
  · have hback : (wait ms).toNat.toUInt32 = wait ms := UInt32.ofNat_toNat
    have hlong := h.le_ticks (wait ms).toNat (by rw [hback]; exact UInt32.lt_irrefl _)
    exact Or.inr ⟨hwrap, by omega⟩
  · have hreached : ¬start + (0 : ℕ).toUInt32 < start + wait ms := by
      have hstart := start.toNat_lt
      have hwait := (wait ms).toNat_lt
      have hzero : start + (0 : ℕ).toUInt32 = start := UInt32.add_zero start
      rw [hzero, UInt32.lt_iff_toNat_lt, UInt32.toNat_add]
      omega
    have hlong := h.le_ticks 0 hreached
    exact Or.inl (UInt32.toNat.inj (by change ms.toNat = 0; omega))

end Runs

/-- `timer_sleep` sleeps long enough exactly for no time at all, and for at most ten milliseconds
unless the counter is about to wrap. -/
theorem sleepsLongEnough_iff (ms start : UInt32) :
    SleepsLongEnough ms start ↔ ms = 0 ∨ ms ≤ 10 ∧ start ≠ 0xFFFFFFFF := by
  have hwait := toNat_wait ms
  have hle : ms ≤ 10 ↔ ms.toNat ≤ 10 := UInt32.le_iff_toNat_le
  have hmax : start = 0xFFFFFFFF ↔ start.toNat = 2 ^ 32 - 1 := UInt32.toNat_inj.symm
  rw [hle, Ne, hmax]
  constructor
  · intro h
    rcases h.wait_suffices with hzero | ⟨hwrap, hlong⟩
    · exact Or.inl hzero
    · exact Or.inr ⟨by omega, by omega⟩
  · rintro (rfl | ⟨hms, hstart⟩) events s hrun hdone
    · exact Nat.zero_le _
    · have hlt := start.toNat_lt
      have htick : tickHz.toNat = 100 := rfl
      -- the loop cannot end before the first tick
      have hpos : s.ticks ≠ 0 := by
        intro hzero
        have hwaited := wait_le_ticks hrun hdone (by omega)
        omega
      rw [htick]
      omega

/-- A second takes two ticks, and at the largest counter nothing is waited for. -/
theorem not_sleepsLongEnough_second :
    ¬SleepsLongEnough 1000 0 ∧ ¬SleepsLongEnough 10 0xFFFFFFFF := by
  constructor
  · intro h
    have hrun : Run (step 1000) anyCall (called 0) [.access, .tick, .tick, .access]
        ⟨2, .done, 2⟩ := Run.of_foldlM (by decide)
    exact absurd (h _ _ hrun rfl) (by decide)
  · intro h
    have hrun : Run (step 10) anyCall (called 0xFFFFFFFF) [.access, .access]
        ⟨0xFFFFFFFF, .done, 0⟩ := Run.of_foldlM (by decide)
    exact absurd (h _ _ hrun rfl) (by decide)

end OpenKernel.Timer
