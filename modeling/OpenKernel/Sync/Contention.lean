import OpenKernel.Process.Blocking
import OpenKernel.Sync.Mutex

/-!
# Contended mutexes and the scheduler

`mutex_lock` of `sync.c` over the scheduler and the wait queues of `process.c`.
A round of its loop spins with interrupts disabled and then takes the mutex or
calls `process_block`; when that call returns, the next round begins. The idle
process is turned away by `process_block`, which returns at once.
-/

namespace OpenKernel.Contention

open Function Linked
open Process (Slot Call ProcessState)

/-- A call of `mutex_lock` that has not returned: the mutex, and whether it has been unlocked
since the caller last found it locked. -/
structure Attempt where
  mutex : ℕ
  unlocked : Bool
  deriving DecidableEq

structure System where
  kernel : Process.State
  locking : Slot → Option Attempt

inductive Action
  | lock (m : ℕ)
  /-- `process_block` has returned to `mutex_lock`. -/
  | retry
  | trylock (m : ℕ)
  | unlock (m : ℕ)
  | call (c : Call)
  deriving DecidableEq

def setLocked (kernel : Process.State) (m locked : ℕ) : Process.State :=
  { kernel with locked := update kernel.locked m locked }

/-- One round of the loop of `mutex_lock` by process `c`, with `pauses = 8 - spin`. -/
def lockRound (s : System) (c : Slot) (m pauses : ℕ) : System :=
  match Sync.spinLoop (s.kernel.locked m) pauses with
  | (locked, true) =>
    { kernel := setLocked s.kernel m locked, locking := update s.locking c none }
  | (locked, false) =>
    { kernel := Process.processBlock (setLocked s.kernel m locked) m
      locking := update s.locking c (some ⟨m, false⟩) }

/-- The running process, if it is not inside `mutex_lock`. -/
def caller (s : System) : Option Slot := s.kernel.currentProcess.filter (s.locking · = none)

/-- A new process has called nothing yet. -/
def lockingAfter (s : System) : Call → Slot → Option Attempt
  | .create .. =>
    match Process.createdSlot s.kernel with
    | some i => update s.locking i none
    | none => s.locking
  | _ => s.locking

def Attempt.afterUnlock (m : ℕ) (a : Attempt) : Attempt :=
  if a.mutex = m then { a with unlocked := true } else a

/-- The wait queue of a mutex is private to `sync.c`. -/
def usesQueue : Call → Option ℕ
  | .block q => some q
  | .wake q => some q
  | .wakeAll q _ => some q
  | .unlock m => some m
  | _ => none

/-- What the running process does, or the timer: `mutex` tells the mutexes from the other wait
queues, and `none` is an action that is not possible or does not return. -/
def step (mutex : ℕ → Bool) (s : System) : Action → Option System
  | .lock m => if mutex m then (caller s).map fun c => lockRound s c m 8 else none
  | .retry =>
    s.kernel.currentProcess.bind fun c => (s.locking c).map fun a => lockRound s c a.mutex 7
  | .trylock m =>
    if mutex m then
      (caller s).map fun _ => { s with kernel := setLocked s.kernel m 1 }
    else none
  | .unlock m =>
    if mutex m then
      (caller s).map fun _ =>
        { kernel := Process.mutexUnlock s.kernel m
          locking := fun p => (s.locking p).map (Attempt.afterUnlock m) }
    else none
  | .call c =>
    if (usesQueue c).any mutex then none
    else if c ≠ .schedule ∧ caller s = none then none
    else
      (Process.step s.kernel c).map fun kernel => { kernel := kernel, locking := lockingAfter s c }

def start (stack stack1024 stack256 : ℕ) : System where
  kernel := Process.processInit Process.boot stack stack1024 stack256
  locking _ := none

/-- The running process finds mutex `m` locked, in its first round or in a later one. -/
def Contended (s : System) (a : Action) (c : Slot) (m : ℕ) : Prop :=
  s.kernel.currentProcess = some c ∧ s.kernel.locked m ≠ 0 ∧
    (a = .lock m ∨ a = .retry ∧ ∃ b, s.locking c = some ⟨m, b⟩)

/-- Process `c` waits at the end of the queue of `m`, and another process runs. -/
structure Yielded (s : System) (c : Slot) (m : ℕ) : Prop where
  queued : (s.kernel.waitQueues m).tail = some c
  blocked : s.kernel.pcbs.status c = .blocked
  other : ∃ p, s.kernel.currentProcess = some p ∧ p ≠ c

/-- The running process is not the idle one, and the ready queue does not lead to it. -/
def CanBlock (kernel : Process.State) : Prop :=
  ∀ c, kernel.currentProcess = some c →
    kernel.pcbs.pidOf c ≠ 0 ∧ ¬Reach kernel.pcbs.link kernel.readyQueue c

/-- Whoever finds a mutex locked can block; no creation takes the slot of the idle process; and
no blocked process is terminated, nor the last one that is counted. -/
def YieldSafe (s : System) : Action → Prop
  | .lock m => s.kernel.locked m ≠ 0 → CanBlock s.kernel
  | .retry => ∀ c a, s.kernel.currentProcess = some c → s.locking c = some a →
      s.kernel.locked a.mutex ≠ 0 → CanBlock s.kernel
  | .call (.block _) => CanBlock s.kernel
  | .call (.create ..) =>
      Process.maxProcesses ≤ s.kernel.processCount ∨ s.kernel.pcbs.status 0 ≠ .ready
  | .call (.terminate pid) => ∀ hlt : pid < Process.maxProcesses, pid ≠ 0 →
      pid < s.kernel.nextPid → s.kernel.pcbs.status ⟨pid, hlt⟩ ≠ .zombie →
        s.kernel.pcbs.status ⟨pid, hlt⟩ ≠ .blocked ∧
          Process.word (s.kernel.processCount + 2 ^ 32 - 1) ≠ 0
  | _ => True

section Round

variable {s : System} {c : Slot} {m pauses : ℕ}

theorem lockRound_free (h : s.kernel.locked m = 0) :
    lockRound s c m pauses =
      { kernel := setLocked s.kernel m 1, locking := update s.locking c none } := by
  unfold lockRound
  rw [Sync.spinLoop_eq, if_pos h]

theorem lockRound_locked (h : s.kernel.locked m ≠ 0) :
    lockRound s c m pauses =
      { kernel := Process.processBlock s.kernel m
        locking := update s.locking c (some ⟨m, false⟩) } := by
  have hsame : setLocked s.kernel m (s.kernel.locked m) = s.kernel := by
    unfold setLocked
    rw [update_eq_self]
  unfold lockRound
  rw [Sync.spinLoop_eq, if_neg h]
  dsimp only
  rw [hsame]

end Round

/-! ### Runs -/

section Runs

variable {mutex : ℕ → Bool} {s t : System} {w w' : ℕ → List Slot} {c : Slot} {m : ℕ}

theorem caller_eq_some (h : caller s = some c) : s.kernel.currentProcess = some c :=
  (Option.filter_eq_some_iff.mp h).1

theorem exists_current_processBlock {k : Process.State} (hc : k.currentProcess = some c) (q : ℕ) :
    ∃ p, (Process.processBlock k q).currentProcess = some p := by
  unfold Process.processBlock
  simp only [hc]
  split_ifs
  · exact ⟨c, hc⟩
  · obtain ⟨-, -, -, hcur, -⟩ := Process.Waiting.views_suspend k q c
    rcases Process.schedulerSchedule_cases (Process.suspend k q c) with ⟨he, -⟩ |
      ⟨prev, -, -, -, -, he⟩ | ⟨prev, head, -, -, -, he⟩
    · exact ⟨c, by rw [he, hcur, hc]⟩
    · exact ⟨0, by rw [he, Process.currentProcess_dispatch]⟩
    · exact ⟨head, by rw [he, Process.currentProcess_dispatch]⟩

/-- Whoever is inside `mutex_lock`, with no unlock since it last found the mutex locked, waits
on the queue of the mutex. -/
structure LockInv (mutex : ℕ → Bool) (s : System) (w : ℕ → List Slot) : Prop where
  block : Process.BlockInv s.kernel w
  isMutex : ∀ p a, s.locking p = some a → mutex a.mutex = true
  waits : ∀ p a, s.locking p = some a → a.unlocked = false → p ∈ w a.mutex

namespace LockInv

theorem setLocked (h : Process.BlockInv s.kernel w) (m v : ℕ) :
    Process.BlockInv (setLocked s.kernel m v) w :=
  ⟨h.waiting.congr rfl fun _ _ _ => rfl, h.blocked, h.ready, h.current, h.idle, h.idle_pid,
    h.idle_live, h.count⟩

theorem keep (h : LockInv mutex s w) {kernel : Process.State} (hblock : Process.BlockInv kernel w')
    (hsame : ∀ q, mutex q = true → w' q = w q) {locking : Slot → Option Attempt}
    (hlocking : ∀ p a, locking p = some a → s.locking p = some a) :
    LockInv mutex ⟨kernel, locking⟩ w' := by
  refine ⟨hblock, ?_, ?_⟩
  · intro p a ha
    exact h.isMutex p a (hlocking p a ha)
  · intro p a ha hu
    have ha' := hlocking p a ha
    rw [hsame _ (h.isMutex p a ha')]
    exact h.waits p a ha' hu

theorem unlocked (h : LockInv mutex s w) (hc : s.kernel.currentProcess = some c) {a : Attempt}
    (ha : s.locking c = some a) : a.unlocked = true := by
  by_contra hu
  exact h.block.current c hc a.mutex (h.waits c a ha (by simpa using hu))

theorem update_none (c : Slot) :
    ∀ p a, update s.locking c none p = some a → s.locking p = some a := by
  intro p a ha
  by_cases hp : p = c
  · subst hp
    rw [update_self] at ha
    cases ha
  · rwa [update_of_ne hp] at ha

theorem acquire (h : LockInv mutex s w) (c : Slot) (m : ℕ) :
    LockInv mutex ⟨Contention.setLocked s.kernel m 1, update s.locking c none⟩ w :=
  h.keep (setLocked h.block m 1) (fun _ _ => rfl) (update_none c)

/-- The caller joins the queue of the mutex. -/
theorem block_caller (h : LockInv mutex s w) (hm : mutex m = true)
    (hc : s.kernel.currentProcess = some c) (hok : CanBlock s.kernel) :
    LockInv mutex ⟨Process.processBlock s.kernel m, update s.locking c (some ⟨m, false⟩)⟩
      (update w m (w m ++ [c])) := by
  obtain ⟨hpid, hrq⟩ := hok c hc
  refine ⟨h.block.processBlock hc hpid hrq, ?_, ?_⟩
  · intro p a ha
    by_cases hp : p = c
    · subst hp
      dsimp only at ha
      rw [update_self] at ha
      obtain rfl := Option.some.inj ha
      exact hm
    · exact h.isMutex p a ((update_of_ne hp ..).symm.trans ha)
  · intro p a ha hu
    by_cases hp : p = c
    · subst hp
      dsimp only at ha
      rw [update_self] at ha
      obtain rfl := Option.some.inj ha
      rw [update_self]
      simp
    · have hw := h.waits p a ((update_of_ne hp ..).symm.trans ha) hu
      by_cases ham : a.mutex = m
      · rw [ham] at hw ⊢
        rw [update_self]
        exact List.mem_append_left _ hw
      · rwa [update_of_ne ham]

theorem lockRound (h : LockInv mutex s w) (hm : mutex m = true)
    (hc : s.kernel.currentProcess = some c) (pauses : ℕ)
    (hok : s.kernel.locked m ≠ 0 → CanBlock s.kernel) :
    ∃ w', LockInv mutex (lockRound s c m pauses) w' := by
  by_cases hfree : s.kernel.locked m = 0
  · rw [lockRound_free hfree]
    exact ⟨w, h.acquire c m⟩
  · rw [lockRound_locked hfree]
    exact ⟨_, h.block_caller hm hc (hok hfree)⟩

theorem unlock (h : LockInv mutex s w) (m : ℕ) :
    LockInv mutex
      ⟨Process.mutexUnlock s.kernel m, fun p => (s.locking p).map (Attempt.afterUnlock m)⟩
      (update w m (w m).tail) := by
  refine ⟨(setLocked h.block m 0).processWake, ?_, ?_⟩
  · intro p a ha
    obtain ⟨b, hb, rfl⟩ := Option.map_eq_some_iff.mp ha
    have hmutex := h.isMutex p b hb
    unfold Attempt.afterUnlock
    split_ifs
    · exact hmutex
    · exact hmutex
  · intro p a ha hu
    obtain ⟨b, hb, rfl⟩ := Option.map_eq_some_iff.mp ha
    unfold Attempt.afterUnlock at hu ⊢
    split_ifs at hu ⊢ with hbm
    rw [update_of_ne hbm]
    exact h.waits p b hb hu

theorem call (h : LockInv mutex s w) {a : Call} (hok : YieldSafe s (.call a))
    (hq : (usesQueue a).any mutex = false) {kernel : Process.State}
    (hk : Process.step s.kernel a = some kernel) :
    ∃ w', LockInv mutex ⟨kernel, lockingAfter s a⟩ w' := by
  have hother : ∀ q l, mutex q = false → ∀ r, mutex r = true → update w q l r = w r := by
    intro q l hmq r hr
    refine update_of_ne ?_ _ _
    rintro rfl
    rw [hr] at hmq
    cases hmq
  cases a with
  | create entry priority stack =>
    obtain rfl := Option.some.inj hk
    refine ⟨w, h.keep (h.block.processCreate hok) (fun _ _ => rfl) ?_⟩
    dsimp only [lockingAfter]
    cases Process.createdSlot s.kernel with
    | none => exact fun _ _ ha => ha
    | some i => exact update_none i
  | terminate pid =>
    exact ⟨w, h.keep (h.block.processTerminate hok hk) (fun _ _ => rfl) fun _ _ ha => ha⟩
  | yield => exact ⟨w, h.keep (h.block.processYield hk) (fun _ _ => rfl) fun _ _ ha => ha⟩
  | block q =>
    obtain rfl := Option.some.inj hk
    cases hc : s.kernel.currentProcess with
    | none =>
      refine ⟨w, h.keep ?_ (fun _ _ => rfl) fun _ _ ha => ha⟩
      unfold Process.processBlock
      rw [hc]
      exact h.block
    | some c =>
      obtain ⟨hpid, hrq⟩ := hok c hc
      exact ⟨_, h.keep (h.block.processBlock hc hpid hrq) (hother q _ hq) fun _ _ ha => ha⟩
  | wake q =>
    obtain rfl := Option.some.inj hk
    exact ⟨_, h.keep h.block.processWake (hother q _ hq) fun _ _ ha => ha⟩
  | wakeAll q fuel =>
    exact ⟨_, h.keep (h.block.processWakeAll fuel hk).1 (hother q _ hq) fun _ _ ha => ha⟩
  | unlock m =>
    obtain rfl := Option.some.inj hk
    exact ⟨_, h.keep (setLocked h.block m 0).processWake (hother m _ hq) fun _ _ ha => ha⟩
  | schedule =>
    obtain rfl := Option.some.inj hk
    exact ⟨w, h.keep h.block.schedulerSchedule (fun _ _ => rfl) fun _ _ ha => ha⟩
  | run esp =>
    obtain rfl := Option.some.inj hk
    refine ⟨w, h.keep ?_ (fun _ _ => rfl) fun _ _ ha => ha⟩
    exact ⟨h.block.waiting.congr rfl fun _ _ _ => rfl, h.block.blocked, h.block.ready,
      h.block.current, h.block.idle, h.block.idle_pid, h.block.idle_live, h.block.count⟩

theorem step {a : Action} (h : LockInv mutex s w) (hok : YieldSafe s a)
    (hst : step mutex s a = some t) : ∃ w', LockInv mutex t w' := by
  cases a with
  | lock m =>
    dsimp only [Contention.step] at hst
    split_ifs at hst with hm
    obtain ⟨c, hc, rfl⟩ := Option.map_eq_some_iff.mp hst
    exact h.lockRound hm (caller_eq_some hc) 8 hok
  | retry =>
    obtain ⟨c, hc, hst⟩ := Option.bind_eq_some_iff.mp hst
    obtain ⟨a, ha, rfl⟩ := Option.map_eq_some_iff.mp hst
    exact h.lockRound (h.isMutex c a ha) hc 7 (hok c a hc ha)
  | trylock m =>
    dsimp only [Contention.step] at hst
    split_ifs at hst
    obtain ⟨c, hc, rfl⟩ := Option.map_eq_some_iff.mp hst
    exact ⟨w, h.keep (setLocked h.block m 1) (fun _ _ => rfl) fun _ _ ha => ha⟩
  | unlock m =>
    dsimp only [Contention.step] at hst
    split_ifs at hst
    obtain ⟨c, hc, rfl⟩ := Option.map_eq_some_iff.mp hst
    exact ⟨_, h.unlock m⟩
  | call a =>
    dsimp only [Contention.step] at hst
    split_ifs at hst with hq hc
    obtain ⟨kernel, hk, rfl⟩ := Option.map_eq_some_iff.mp hst
    exact h.call hok (by simpa using hq) hk

theorem yielded (h : LockInv mutex s w) (hm : mutex m = true)
    (hc : s.kernel.currentProcess = some c) (hok : CanBlock s.kernel)
    (locking : Slot → Option Attempt) :
    Yielded ⟨Process.processBlock s.kernel m, locking⟩ c m := by
  have hblock := (h.block_caller hm hc hok).block
  have hmem : c ∈ update w m (w m ++ [c]) m := by
    rw [update_self]
    simp
  have htail := (hblock.waiting.list m).2.2
  rw [update_self, List.getLast?_concat] at htail
  refine ⟨htail, hblock.blocked m c hmem, ?_⟩
  obtain ⟨p, hp⟩ := exists_current_processBlock hc m
  refine ⟨p, hp, ?_⟩
  rintro rfl
  exact hblock.current p hp m hmem

end LockInv

theorem lockInv_start (mutex : ℕ → Bool) (stack stack1024 stack256 : ℕ) :
    LockInv mutex (start stack stack1024 stack256) fun _ => [] := by
  refine ⟨Process.blockInv_processInit stack stack1024 stack256, ?_, ?_⟩
  · intro p a ha
    cases ha
  · intro p a ha
    cases ha

/-- In every run that meets `YieldSafe`, nobody runs a second round of `mutex_lock` on a mutex
that has stayed locked, and whoever finds a mutex locked waits for it while another process
runs. -/
theorem contended_lock_yields {mutex : ℕ → Bool} {stack stack1024 stack256 : ℕ}
    {actions : List Action} {s : System}
    (hrun : Run (step mutex) YieldSafe (start stack stack1024 stack256) actions s) :
    (∀ c a, s.kernel.currentProcess = some c → s.locking c = some a → a.unlocked = true) ∧
      ∀ a t c m, Contended s a c m → YieldSafe s a → step mutex s a = some t → Yielded t c m := by
  obtain ⟨w, h⟩ : ∃ w, LockInv mutex s w := by
    refine hrun.invariant (fun s => ∃ w, LockInv mutex s w) ?_ ⟨_, lockInv_start mutex ..⟩
    rintro s a t ⟨w, h⟩ hok hst
    exact h.step hok hst
  refine ⟨fun c a hc ha => h.unlocked hc ha, ?_⟩
  rintro a t c m ⟨hc, hlocked, rfl | ⟨rfl, b, hb⟩⟩ hok hst
  · dsimp only [step] at hst
    split_ifs at hst with hm
    obtain ⟨c', hc', rfl⟩ := Option.map_eq_some_iff.mp hst
    obtain rfl : c = c' := Option.some.inj (hc.symm.trans (caller_eq_some hc'))
    rw [lockRound_locked hlocked]
    exact h.yielded hm hc (hok hlocked) _
  · obtain ⟨c', hc', hst⟩ := Option.bind_eq_some_iff.mp hst
    obtain rfl : c = c' := Option.some.inj (hc.symm.trans hc')
    obtain ⟨a, ha, rfl⟩ := Option.map_eq_some_iff.mp hst
    obtain rfl : ⟨m, b⟩ = a := Option.some.inj (hb.symm.trans ha)
    rw [lockRound_locked hlocked]
    exact h.yielded (h.isMutex c _ hb) hc (hok c _ hc hb hlocked) _

/-- The idle process holds the mutex when the timer dispatches process 1. -/
def idleHolds : System :=
  ⟨Process.schedulerSchedule
    (setLocked (Process.processCreate (start 4096 0 0).kernel 1 1 8192).1 0 1), fun _ => none⟩

theorem canBlock_idleHolds : CanBlock idleHolds.kernel := by
  have hcur : idleHolds.kernel.currentProcess = some 1 := by decide
  have hlink : idleHolds.kernel.pcbs.link 0 = some 0 := by decide
  intro c hc
  obtain rfl : 1 = c := Option.some.inj (hcur.symm.trans hc)
  refine ⟨by decide, fun h => ?_⟩
  -- the ready queue leads to the idle process only
  have hR : Closed idleHolds.kernel.pcbs.link {0} := by
    rintro a rfl b hb
    exact (Option.some.inj (hlink.symm.trans hb)).symm
  have hmem := hR.reach_subset (by decide) h
  exact absurd hmem (by decide)

/-- Process 1 finds the mutex locked and waits for the idle process. -/
theorem contended_lock_yields_idle :
    ∃ s t, Run (step fun _ => true) YieldSafe (start 4096 0 0)
        [.call (.create 1 1 8192), .lock 0, .call .schedule] s ∧
      step (fun _ => true) s (.lock 0) = some t ∧ Yielded t 1 0 := by
  have hrun : Run (step fun _ => true) YieldSafe (start 4096 0 0)
      [.call (.create 1 1 8192), .lock 0, .call .schedule] _ :=
    .cons (Or.inr (by decide)) rfl (.cons (fun h => absurd rfl h) rfl (.cons trivial rfl (.nil _)))
  refine ⟨_, _, hrun, rfl, ?_⟩
  refine (contended_lock_yields hrun).2 (.lock 0) _ 1 0 ⟨by decide, by decide, Or.inl rfl⟩ ?_ rfl
  intro _
  exact canBlock_idleHolds

/-- Process 1 holds the mutex and the idle process wants it. -/
def idleLocks : List Action :=
  [.call (.create 1 1 8192), .call .schedule, .lock 0, .call .schedule, .lock 0]

/-- `process_block` returns to the idle process at once: it runs round after round, with the
mutex locked and nobody else running. -/
theorem idle_process_spins :
    ∃ s, Run (step fun _ => true) anyCall (start 4096 0 0) idleLocks s ∧
      s.kernel.currentProcess = some 0 ∧ s.locking 0 = some ⟨0, false⟩ ∧
      s.kernel.locked 0 = 1 ∧ Contended s .retry 0 0 ∧
      ∃ t, step (fun _ => true) s .retry = some t ∧ ¬Yielded t 0 0 ∧
        t.kernel.currentProcess = some 0 ∧ t.locking 0 = some ⟨0, false⟩ := by
  refine ⟨_, Run.of_foldlM rfl, by decide, by decide, by decide,
    ⟨by decide, by decide, Or.inr ⟨rfl, false, by decide⟩⟩, _, rfl, ?_, by decide, by decide⟩
  intro h
  exact absurd h.blocked (by decide)

end Runs

end OpenKernel.Contention
