import OpenKernel.Process.WaitQueues
import OpenKernel.Process.Lifecycle

/-!
# The interrupt flag across context switches

The scheduler of `process.c` together with the interrupt flag of the processor.
A switch is entered from the timer interrupt, whose stub clears the flag and whose
`iret` restores the flag it found, or from a plain call of `process_yield` or
`process_block`; `context_switch` itself neither saves nor restores EFLAGS. Calls
are not interrupted halfway.
-/

namespace OpenKernel.Interrupts

open Process (Slot Call)
open Function

/-- How a process that is not running came to be so, with the interrupt flag it had. -/
inductive Departure
  /-- `pcb_init` built its frame, and it has not run since. -/
  | created
  /-- The timer interrupt pushed its EFLAGS. -/
  | preempted (flag : Bool)
  /-- It called `process_yield`. -/
  | yielded (flag : Bool)
  /-- It called `process_block`. -/
  | blocked (flag : Bool)
  deriving DecidableEq

namespace Departure

/-- The flag with which a process continues when `context_switch` returns with `flag`: the
`iret` of the interrupt stub pops EFLAGS, every other way back is a `ret`. -/
def resume (flag : Bool) : Departure → Bool
  | preempted saved => saved
  | created => flag
  | yielded _ => flag
  | blocked _ => flag

/-- The flag is the process's own: a new process has interrupts enabled, and one that was
preempted or yielded has the flag it left with. -/
def Kept (flag : Bool) : Departure → Prop
  | created => flag = true
  | preempted saved => flag = saved
  | yielded saved => flag = saved
  | blocked _ => True

/-- A switch made with this flag gives the process its own. -/
def Resumable (flag : Bool) : Departure → Prop
  | created => flag = true
  | preempted _ => True
  | yielded saved => saved = flag
  | blocked _ => True

theorem kept_resume_iff {flag : Bool} {d : Departure} :
    d.Kept (d.resume flag) ↔ d.Resumable flag := by
  cases d with
  | created => exact Iff.rfl
  | preempted saved => exact iff_of_true rfl trivial
  | yielded saved => exact eq_comm
  | blocked saved => exact Iff.rfl

end Departure

/-- `left` is how each process that is not running left the processor, and `disabled` whether
a process has executed `cli` since it entered its entry function. -/
structure System where
  kernel : Process.State
  tickCount : ℕ
  interrupts : Bool
  left : Slot → Departure
  disabled : Slot → Bool

inductive Action
  | sti
  | cli
  | timer
  | yield
  | block (q : ℕ)
  /-- A call that does not switch. -/
  | call (c : Call)
  deriving DecidableEq

/-- The caller leaves as `departure`, `context_switch` returns with `flag`, and the process
that `kernel` has made current continues. -/
def switched (s : System) (kernel : Process.State) (flag : Bool) (departure : Departure) : System :=
  match s.kernel.currentProcess, kernel.currentProcess with
  | some prev, some next =>
    if prev = next then { s with kernel := kernel }
    else
      { s with
        kernel := kernel
        interrupts := (s.left next).resume flag
        left := update s.left prev departure
        disabled := if s.left next = .created then update s.disabled next false else s.disabled }
  | _, _ => { s with kernel := kernel }

def ticked (s : System) : System := { s with tickCount := Process.word (s.tickCount + 1) }

/-- `timer_irq_handler`, called with interrupts off; it returns through `iret`. -/
def timerIrqHandler (s : System) : System :=
  let s := ticked s
  if s.tickCount % 10 = 0 then
    switched s (Process.schedulerSchedule s.kernel) false (.preempted s.interrupts)
  else s

/-- The processes that have not run after the call. -/
def leftAfter (s : System) : Call → Slot → Departure
  | .create .. =>
    match Process.createdSlot s.kernel with
    | some i => update s.left i .created
    | none => s.left
  | _ => s.left

def disable (s : System) : System :=
  match s.kernel.currentProcess with
  | some p => { s with interrupts := false, disabled := update s.disabled p true }
  | none => { s with interrupts := false }

def step (s : System) : Action → Option System
  | .sti => some { s with interrupts := true }
  | .cli => some (disable s)
  | .timer => if s.interrupts then some (timerIrqHandler s) else none
  | .yield =>
    (Process.processYield s.kernel).map fun kernel =>
      switched s kernel s.interrupts (.yielded s.interrupts)
  | .block q =>
    some (switched s (Process.processBlock s.kernel q) s.interrupts (.blocked s.interrupts))
  | .call .yield => none
  | .call (.block _) => none
  | .call .schedule => none
  | .call c =>
    (Process.step s.kernel c).map fun kernel => { s with kernel := kernel, left := leftAfter s c }

/-- `kernel_main` enables interrupts and calls `process_init`. -/
def start (tickCount stack stack1024 stack256 : ℕ) : System where
  kernel := Process.processInit Process.boot stack stack1024 stack256
  tickCount := tickCount
  interrupts := true
  left _ := .created
  disabled _ := false

/-- What the step from `s` to `t` does to the flag: a process that is switched in finds its own,
and the running process has interrupts enabled unless it executed `cli`. -/
structure FlagKept (s t : System) : Prop where
  resumed : ∀ p, t.kernel.currentProcess = some p → s.kernel.currentProcess ≠ some p →
    (s.left p).Kept t.interrupts
  enabled : ∀ p, t.kernel.currentProcess = some p → t.disabled p = false → t.interrupts = true

/-- Whatever state the step leads to, the flag is kept. -/
def KeepsFlag (s : System) (a : Action) : Prop := ∀ t, step s a = some t → FlagKept s t

/-- A tenth tick finds no other process at the head of the ready queue. -/
def Quiet (s : System) : Action → Prop
  | .timer => (ticked s).tickCount % 10 = 0 → s.kernel.processCount ≠ 0 →
      ∀ p, s.kernel.readyQueue = some p → s.kernel.currentProcess = some p
  | _ => True

section Switched

variable {s : System} {kernel : Process.State} {flag : Bool} {d : Departure}

theorem switched_of_eq (h : kernel.currentProcess = s.kernel.currentProcess) :
    switched s kernel flag d = { s with kernel := kernel } := by
  unfold switched
  rw [h]
  cases s.kernel.currentProcess with
  | none => rfl
  | some prev => exact if_pos rfl

theorem interrupts_switched {prev next : Slot} (hc : s.kernel.currentProcess = some prev)
    (hn : kernel.currentProcess = some next) (hne : prev ≠ next) :
    (switched s kernel flag d).interrupts = (s.left next).resume flag := by
  unfold switched
  rw [hc, hn]
  dsimp only
  rw [if_neg hne]

theorem kernel_switched : (switched s kernel flag d).kernel = kernel := by
  unfold switched
  split
  · split_ifs <;> rfl
  · rfl

end Switched

/-! ### The idle process -/

structure OnlyIdle (s : System) : Prop where
  current : s.kernel.currentProcess = some 0
  running : s.kernel.pcbs.status 0 = .running
  pid : s.kernel.pcbs.pidOf 0 = 0
  waiters : ∀ q, (s.kernel.waitQueues q).head = none
  left : ∀ p, s.left p = .created
  enabled : s.disabled 0 = false → s.interrupts = true

namespace OnlyIdle

variable {s t : System}

theorem flagKept (hs : OnlyIdle s) (ht : OnlyIdle t) : FlagKept s t := by
  refine ⟨?_, ?_⟩
  · intro p hp hne
    exact absurd (hs.current.trans (ht.current.symm.trans hp)) hne
  · intro p hp
    obtain rfl : 0 = p := Option.some.inj (ht.current.symm.trans hp)
    exact ht.enabled

theorem congr (h : OnlyIdle s) {kernel : Process.State} {left : Slot → Departure}
    (hcur : kernel.currentProcess = s.kernel.currentProcess)
    (hst : kernel.pcbs.status 0 = .running)
    (hpid : kernel.pcbs.pidOf 0 = s.kernel.pcbs.pidOf 0)
    (hwq : kernel.waitQueues = s.kernel.waitQueues) (hleft : ∀ p, left p = .created) :
    OnlyIdle { s with kernel := kernel, left := left } :=
  ⟨hcur.trans h.current, hst, hpid.trans h.pid, fun q => hwq ▸ h.waiters q, hleft, h.enabled⟩

theorem create (h : OnlyIdle s) (entry priority stack : ℕ) :
    OnlyIdle { s with
      kernel := (Process.processCreate s.kernel entry priority stack).1
      left := leftAfter s (.create entry priority stack) } := by
  cases hi : Process.createdSlot s.kernel with
  | none =>
    have hleft : leftAfter s (.create entry priority stack) = s.left := by
      dsimp only [leftAfter]
      rw [hi]
    rw [hleft, Process.processCreate_of_none hi]
    exact h
  | some i =>
    -- a running process does not look free
    have hne : (0 : Slot) ≠ i := by
      rintro rfl
      have hfree := Process.findFreePcb_status (Process.createdSlot_eq_some hi).2
      rw [h.running] at hfree
      exact absurd hfree (by decide)
    obtain ⟨-, hcur, -, -, hwq⟩ := Process.statics_processCreate hi entry priority stack
    refine h.congr hcur ?_ ?_ hwq ?_
    · rw [Process.status_processCreate hi, update_of_ne hne]
      exact h.running
    · rw [Process.pidOf_processCreate hi, update_of_ne hne]
    · intro p
      dsimp only [leftAfter]
      rw [hi]
      by_cases hp : p = i
      · subst hp
        exact update_self ..
      · exact (update_of_ne hp ..).trans (h.left p)

theorem terminate (h : OnlyIdle s) {pid : ℕ} {kernel : Process.State}
    (hk : Process.processTerminate s.kernel pid = some kernel) :
    OnlyIdle { s with kernel := kernel } := by
  rcases Process.processTerminate_cases hk with ⟨rfl, -⟩ | ⟨hlt, hpid, -, -, u, hu, rfl⟩
  · exact h
  · obtain ⟨rq, pcbs, rfl, hst, hpids⟩ := Process.schedulerRemoveProcess_shape hu
    have hne : (0 : Slot) ≠ ⟨pid, hlt⟩ := by
      intro he
      exact hpid (congrArg Fin.val he).symm
    refine h.congr rfl ?_ ?_ rfl h.left
    · rw [Process.status_markTerminated, update_of_ne hne, hst]
      exact h.running
    · rw [Process.pidOf_markTerminated, hpids]

theorem processWake (h : OnlyIdle s) (q : ℕ) : Process.processWake s.kernel q = s.kernel := by
  unfold Process.processWake
  rw [h.waiters q]

theorem call (h : OnlyIdle s) {c : Call} (hst : step s (.call c) = some t) : OnlyIdle t := by
  cases c with
  | create entry priority stack =>
    obtain rfl := Option.some.inj hst
    exact h.create entry priority stack
  | terminate pid =>
    obtain ⟨kernel, hk, rfl⟩ := Option.map_eq_some_iff.mp hst
    exact h.terminate hk
  | yield => cases hst
  | block q => cases hst
  | wake q =>
    obtain rfl := Option.some.inj hst
    refine h.congr ?_ ?_ ?_ ?_ h.left
    all_goals rw [h.processWake q]
    exact h.running
  | wakeAll q fuel =>
    obtain ⟨kernel, hk, rfl⟩ := Option.map_eq_some_iff.mp hst
    have hnone : Process.processWakeAll fuel s.kernel q = some s.kernel := by
      unfold Process.processWakeAll
      rw [if_pos (h.waiters q)]
    obtain rfl : s.kernel = kernel := Option.some.inj (hnone.symm.trans hk)
    exact h
  | unlock m =>
    obtain rfl := Option.some.inj hst
    have hlocked : OnlyIdle
        { s with kernel := { s.kernel with locked := update s.kernel.locked m 0 } } :=
      h.congr rfl h.running rfl rfl h.left
    have hwake := hlocked.processWake m
    refine h.congr ?_ ?_ ?_ ?_ h.left
    all_goals
      unfold Process.mutexUnlock
      rw [hwake]
    exact h.running
  | schedule => cases hst
  | run esp =>
    obtain rfl := Option.some.inj hst
    exact h.congr rfl h.running rfl rfl h.left

theorem cli (h : OnlyIdle s) : OnlyIdle (disable s) := by
  unfold disable
  rw [h.current]
  refine ⟨h.current, h.running, h.pid, h.waiters, h.left, ?_⟩
  intro hd
  dsimp only at hd
  rw [update_self] at hd
  cases hd

theorem ticked (h : OnlyIdle s) : OnlyIdle (ticked s) :=
  ⟨h.current, h.running, h.pid, h.waiters, h.left, h.enabled⟩

/-- A tick that finds no other process ready. -/
theorem timer (h : OnlyIdle s) (hq : Quiet s .timer) : OnlyIdle (timerIrqHandler s) := by
  have ht := h.ticked
  unfold timerIrqHandler
  dsimp only
  split_ifs with htick
  · rcases Process.schedulerSchedule_cases (Interrupts.ticked s).kernel with ⟨he, -⟩ |
      ⟨prev, hc, -, -, hpid, -⟩ | ⟨prev, head, hc, hcount, hrq, he⟩
    · rw [he, switched_of_eq rfl]
      exact ht
    · obtain rfl : 0 = prev := Option.some.inj (ht.current.symm.trans hc)
      exact absurd ht.pid hpid
    · obtain rfl : 0 = prev := Option.some.inj (ht.current.symm.trans hc)
      obtain rfl : 0 = head := Option.some.inj (ht.current.symm.trans (hq htick hcount head hrq))
      have hcur := Process.currentProcess_dispatch
        (Process.popped (Interrupts.ticked s).kernel 0) 0 0
      rw [he, switched_of_eq (hcur.trans ht.current.symm)]
      refine ht.congr (hcur.trans ht.current.symm) ?_ ?_ ?_ ht.left
      · rw [Process.status_dispatch, update_self]
      · rw [Process.pidOf_dispatch]
        rfl
      · exact Process.waitQueues_dispatch ..
  · exact ht

theorem step {a : Action} (h : OnlyIdle s) (hq : Quiet s a) (hst : step s a = some t) :
    OnlyIdle t := by
  cases a with
  | sti =>
    obtain rfl := Option.some.inj hst
    exact ⟨h.current, h.running, h.pid, h.waiters, h.left, fun _ => rfl⟩
  | cli =>
    obtain rfl := Option.some.inj hst
    exact h.cli
  | timer =>
    unfold Interrupts.step at hst
    split_ifs at hst
    obtain rfl := Option.some.inj hst
    exact h.timer hq
  | yield =>
    obtain ⟨kernel, hk, rfl⟩ := Option.map_eq_some_iff.mp hst
    unfold Process.processYield at hk
    rw [h.current] at hk
    dsimp only at hk
    rw [if_pos h.pid] at hk
    obtain rfl := Option.some.inj hk
    rw [switched_of_eq rfl]
    exact h
  | block q =>
    obtain rfl := Option.some.inj hst
    have hblock : Process.processBlock s.kernel q = s.kernel := by
      unfold Process.processBlock
      rw [h.current]
      dsimp only
      rw [if_pos h.pid]
    rw [hblock, switched_of_eq rfl]
    exact h
  | call c => exact h.call hst

/-- The first process that the timer switches to finds interrupts off. -/
theorem quiet_of_keepsFlag {a : Action} (h : OnlyIdle s) (hk : KeepsFlag s a)
    (hst : Interrupts.step s a = some t) : Quiet s a := by
  cases a with
  | timer =>
    intro htick hcount p hrq
    by_contra hne
    have hp : (0 : Slot) ≠ p := by
      rintro rfl
      exact hne h.current
    have hcur : (Process.schedulerSchedule (Interrupts.ticked s).kernel).currentProcess =
        some p := by
      rcases Process.schedulerSchedule_cases (Interrupts.ticked s).kernel with ⟨-, hstay⟩ |
        ⟨prev, -, -, hnone, -, -⟩ | ⟨prev, head, -, -, hhead, he⟩
      · cases hrq.symm.trans (hstay 0 h.current hcount).1
      · cases hrq.symm.trans hnone
      · rw [he, Process.currentProcess_dispatch, ← hhead]
        exact hrq
    have hkept := hk t hst
    unfold Interrupts.step at hst
    split_ifs at hst
    obtain rfl := Option.some.inj hst
    unfold timerIrqHandler at hkept
    dsimp only at hkept
    rw [if_pos htick] at hkept
    have hflag := hkept.resumed p (by rw [kernel_switched, hcur]) hne
    rw [interrupts_switched h.ticked.current hcur hp] at hflag
    have hresumable : (s.left p).Resumable false := Departure.kept_resume_iff.mp hflag
    rw [h.left p] at hresumable
    cases hresumable
  | _ => trivial

end OnlyIdle

theorem onlyIdle_start (tickCount stack stack1024 stack256 : ℕ) :
    OnlyIdle (start tickCount stack stack1024 stack256) := by
  obtain ⟨-, hst, hpid⟩ := Process.views_processInit stack stack1024 stack256
  obtain ⟨-, hcur, -, hwq⟩ := Process.statics_processInit stack stack1024 stack256
  refine ⟨hcur, ?_, hpid 0, ?_, fun _ => rfl, fun _ => rfl⟩
  · unfold start
    rw [hst, if_pos rfl]
  · intro q
    unfold start
    rw [hwq]

/-- A run keeps every process's interrupt flag exactly when no tick switches: the first switch
of any run is made by the timer, with interrupts off, to a process that has not run yet. -/
theorem keepsFlag_iff (tickCount stack stack1024 stack256 : ℕ) (actions : List Action)
    (s : System) :
    Run step KeepsFlag (start tickCount stack stack1024 stack256) actions s ↔
      Run step Quiet (start tickCount stack stack1024 stack256) actions s := by
  have hstart := onlyIdle_start tickCount stack stack1024 stack256
  constructor
  · intro h
    refine h.restrict OnlyIdle ?_ hstart
    intro s a t hs hk hst
    have hq := hs.quiet_of_keepsFlag hk hst
    exact ⟨hq, hs.step hq hst⟩
  · intro h
    refine h.restrict OnlyIdle ?_ hstart
    intro s a t hs hq hst
    refine ⟨?_, hs.step hq hst⟩
    intro u hu
    exact hs.flagKept (hs.step hq hu)

/-- The first process is dispatched by the tenth tick, with interrupts off. -/
theorem new_process_interrupts_off :
    ∃ s t, Run step anyCall (start 0 4096 0 0)
        (.call (.create 1 1 8192) :: List.replicate 9 .timer) s ∧
      step s .timer = some t ∧ s.left 1 = .created ∧ t.kernel.currentProcess = some 1 ∧
      t.disabled 1 = false ∧ t.interrupts = false ∧ ¬FlagKept s t := by
  refine ⟨_, _, Run.of_foldlM rfl, rfl, by decide, by decide, by decide, by decide, ?_⟩
  intro h
  exact absurd (h.enabled 1 (by decide) (by decide)) (by decide)

end OpenKernel.Interrupts
