import OpenKernel.Lib.Linked
import OpenKernel.Lib.Transition
import Mathlib.Algebra.GroupWithZero.Nat
import Mathlib.Data.Fintype.Basic
import Mathlib.Data.Fin.Basic

/-!
# Process table, scheduler and wait queues

The functions of `process.c`, with `mutex_unlock` of `sync.c`, over an explicit
kernel state. A `pcb_t *` is an index into `pcbs` or null; every static variable
of the source is a field. What `kmalloc` returns is an argument of the functions
that call it, and address 0 is its null result. Loops over links that need not
end, and accesses outside `pcbs`, give `none`: the call never returns normally.
Console output is left out.
-/

namespace OpenKernel.Process

def maxProcesses : ℕ := 64

def processStackSize : ℕ := 4096

/-- A position in `pcbs`, the target of a non-null `pcb_t *`. -/
abbrev Slot := Fin maxProcesses

instance : NeZero maxProcesses := ⟨by decide⟩

def word (n : ℕ) : ℕ := n % 2 ^ 32

inductive ProcessState
  | ready
  | running
  | blocked
  | zombie
  deriving DecidableEq, Repr

/-- The numbers `process.h` gives the states. -/
def ProcessState.code : ProcessState → ℕ
  | .ready => 0
  | .running => 1
  | .blocked => 2
  | .zombie => 3

structure Pcb where
  pid : ℕ
  state : ProcessState
  esp : ℕ
  ebp : ℕ
  eip : ℕ
  cr3 : ℕ
  kernelStack : ℕ
  priority : ℕ
  ticksRemaining : ℕ
  next : Option Slot
  deriving DecidableEq

structure WaitQueue where
  head : Option Slot
  tail : Option Slot
  deriving DecidableEq

abbrev Table := Slot → Pcb

namespace Table

def modify (t : Table) (i : Slot) (f : Pcb → Pcb) : Table := Function.update t i (f (t i))

def setNext (t : Table) (i : Slot) (v : Option Slot) : Table :=
  t.modify i fun p => { p with next := v }

def setState (t : Table) (i : Slot) (v : ProcessState) : Table :=
  t.modify i fun p => { p with state := v }

def link (t : Table) (i : Slot) : Option Slot := (t i).next

def status (t : Table) (i : Slot) : ProcessState := (t i).state

def pidOf (t : Table) (i : Slot) : ℕ := (t i).pid

variable (t : Table) (i : Slot) (v : Option Slot) (st : ProcessState) (f : Pcb → Pcb)

@[simp] theorem modify_self : t.modify i f i = f (t i) := Function.update_self _ _ _

theorem modify_of_ne {j : Slot} (h : j ≠ i) : t.modify i f j = t j := Function.update_of_ne h _ _

theorem link_modify : (t.modify i f).link = Function.update t.link i (f (t i)).next := by
  funext j
  by_cases h : j = i
  · subst h
    simp [link, modify]
  · simp [link, modify, h]

theorem status_modify : (t.modify i f).status = Function.update t.status i (f (t i)).state := by
  funext j
  by_cases h : j = i
  · subst h
    simp [status, modify]
  · simp [status, modify, h]

theorem pidOf_modify : (t.modify i f).pidOf = Function.update t.pidOf i (f (t i)).pid := by
  funext j
  by_cases h : j = i
  · subst h
    simp [pidOf, modify]
  · simp [pidOf, modify, h]

@[simp] theorem link_setNext : (t.setNext i v).link = Function.update t.link i v :=
  link_modify t i _

@[simp] theorem status_setNext : (t.setNext i v).status = t.status :=
  (status_modify t i _).trans (Function.update_eq_self i t.status)

@[simp] theorem pidOf_setNext : (t.setNext i v).pidOf = t.pidOf :=
  (pidOf_modify t i _).trans (Function.update_eq_self i t.pidOf)

@[simp] theorem link_setState : (t.setState i st).link = t.link :=
  (link_modify t i _).trans (Function.update_eq_self i t.link)

@[simp] theorem status_setState : (t.setState i st).status = Function.update t.status i st :=
  status_modify t i _

@[simp] theorem pidOf_setState : (t.setState i st).pidOf = t.pidOf :=
  (pidOf_modify t i _).trans (Function.update_eq_self i t.pidOf)

end Table

/-- The statics of `process.c`, the wait queues and mutex words of the kernel
(mutex `m` has the words `locked m` and `waitQueues m`), the words of the kernel
stacks in memory and the CPU's stack pointer. -/
structure State where
  pcbs : Table
  readyQueue : Option Slot
  currentProcess : Option Slot
  nextPid : ℕ
  processCount : ℕ
  waitQueues : ℕ → WaitQueue
  locked : ℕ → ℕ
  mem : ℕ → ℕ
  esp : ℕ

/-- `pcb_init`: `stack` is what `kmalloc(PROCESS_STACK_SIZE)` returned. -/
def pcbInit (s : State) (i : Slot) (pid entry priority stack : ℕ) : State :=
  let pcbs := s.pcbs.modify i fun _ =>
    { pid := pid, state := .ready, esp := 0, ebp := 0, eip := entry, cr3 := 0,
      kernelStack := stack, priority := priority, ticksRemaining := priority, next := none }
  if stack = 0 then { s with pcbs := pcbs }
  else
    -- the frame the first context switch pops: EDI, ESI, EBX, EBP and the entry address
    let top := stack + processStackSize
    let mem := Function.update s.mem (word (top - 4)) entry
    let mem := Function.update mem (word (top - 8)) 0
    let mem := Function.update mem (word (top - 12)) 0
    let mem := Function.update mem (word (top - 16)) 0
    let mem := Function.update mem (word (top - 20)) 0
    { s with
      pcbs := pcbs.modify i fun p => { p with esp := word (top - 20), ebp := word (top - 20) }
      mem := mem }

/-- `find_free_pcb`: the literal 0 of the source is compared with the state's number. -/
def findFreePcb (s : State) : Option Slot :=
  (List.finRange maxProcesses).find? fun i =>
    s.pcbs.status i = .zombie || (s.pcbs.status i).code = 0

def addToReadyQueue (s : State) (pcb : Slot) : State :=
  let pcbs := s.pcbs.setState pcb .ready
  match s.readyQueue with
  | none => { s with readyQueue := some pcb, pcbs := pcbs.setNext pcb (some pcb) }
  | some head =>
    { s with pcbs := (pcbs.setNext pcb (pcbs.link head)).setNext head (some pcb) }

/-- The `while` loop of `remove_from_ready_queue`, entered at `current`: the PCB at which
it stops and whether it stopped there because `pcb` is next. It only reads links, so that
without an exit in `MAX_PROCESSES` rounds it runs forever. -/
def removeLoop (link : Slot → Option Slot) (pcb head : Slot) : ℕ → Slot → Option (Slot × Bool)
  | 0, _ => none
  | fuel + 1, current =>
    match link current with
    | none => none
    | some n =>
      if n = head then some (current, false)
      else if n = pcb then some (current, true)
      else removeLoop link pcb head fuel n

def removeFromReadyQueue (s : State) (pcb : Slot) : Option State :=
  match s.readyQueue with
  | none => some s
  | some head =>
    if s.pcbs.link head = some head then
      some { s with readyQueue := none, pcbs := s.pcbs.setNext pcb none }
    else
      (removeLoop s.pcbs.link pcb head maxProcesses head).map fun (current, found) =>
        let pcbs := if found then s.pcbs.setNext current (s.pcbs.link pcb) else s.pcbs
        { s with
          readyQueue := if head = pcb then some current else some head
          pcbs := pcbs.setNext pcb none }

/-- `context_switch`: the four pushes, the exchange of stack pointers, the four pops and
the return. -/
def contextSwitch (s : State) (prev current : Slot) : State :=
  let pcbs := s.pcbs.modify prev fun p => { p with esp := word (s.esp + 2 ^ 32 - 16) }
  { s with pcbs := pcbs, esp := word ((pcbs current).esp + 20) }

/-- A process that is still running when it is switched out becomes ready again. -/
def requeue (s : State) (prev : Slot) : State :=
  if s.pcbs.status prev = .running then
    addToReadyQueue { s with pcbs := s.pcbs.setState prev .ready } prev
  else s

/-- The second half of `scheduler_schedule`, once the next process has been picked. -/
def dispatch (s : State) (prev current : Slot) : State :=
  let s := requeue { s with currentProcess := some current } prev
  let s := { s with pcbs := s.pcbs.modify current fun p =>
    { p with state := .running, ticksRemaining := p.priority } }
  if prev ≠ current then contextSwitch s prev current else s

def schedulerSchedule (s : State) : State :=
  match s.currentProcess with
  | none => s
  | some prev =>
    if s.processCount = 0 then s
    else
      match s.readyQueue with
      | none => if s.pcbs.pidOf prev = 0 then s else dispatch s prev 0
      | some head =>
        let rest := s.pcbs.link head
        dispatch { s with readyQueue := if rest = some head then none else rest } prev head

/-- The statics before `process_init` runs. -/
def boot : State where
  pcbs _ := ⟨0, .ready, 0, 0, 0, 0, 0, 0, 0, none⟩
  readyQueue := none
  currentProcess := none
  nextPid := 1
  processCount := 0
  waitQueues _ := ⟨none, none⟩
  locked _ := 0
  mem _ := 0
  esp := 0

/-- `process_init`: the arguments are what the three attempts to allocate a stack for the
idle process return. -/
def processInit (s : State) (stack stack1024 stack256 : ℕ) : State :=
  let pcbs : Table := fun i => { s.pcbs i with state := .zombie, pid := 0, next := none }
  let kernelStack := if stack ≠ 0 then stack else if stack1024 ≠ 0 then stack1024 else stack256
  let s := { s with
    currentProcess := some 0
    pcbs := pcbs.modify 0 fun p =>
      { p with pid := 0, state := .running, priority := 0, ticksRemaining := 1,
               kernelStack := kernelStack } }
  if kernelStack = 0 then s
  else { s with processCount := 1, nextPid := 1 }

/-- `process_create`: the new state and the returned pid, 0 on failure. -/
def processCreate (s : State) (entry priority stack : ℕ) : State × ℕ :=
  if maxProcesses ≤ s.processCount then (s, 0)
  else
    match findFreePcb s with
    | none => (s, 0)
    | some pcb =>
      let pid := s.nextPid
      let s := pcbInit { s with nextPid := word (s.nextPid + 1) } pcb pid entry priority stack
      let s := addToReadyQueue s pcb
      ({ s with processCount := word (s.processCount + 1) }, pid)

def schedulerRemoveProcess (s : State) (pcb : Slot) : Option State :=
  if s.pcbs.status pcb = .ready then removeFromReadyQueue s pcb else some s

/-- The statements of `process_terminate` after the removal from the scheduler. -/
def markTerminated (s : State) (pcb : Slot) : State :=
  { s with
    pcbs := s.pcbs.modify pcb fun p => { p with kernelStack := 0, state := .zombie }
    processCount := word (s.processCount + 2 ^ 32 - 1) }

/-- `process_terminate`. The argument indexes `pcbs` unchecked. -/
def processTerminate (s : State) (pid : ℕ) : Option State :=
  if pid = 0 then some s
  else if s.nextPid ≤ pid then some s
  else if h : pid < maxProcesses then
    let pcb : Slot := ⟨pid, h⟩
    if s.pcbs.status pcb = .zombie then some s
    else (schedulerRemoveProcess s pcb).map fun s => markTerminated s pcb
  else none

def processYield (s : State) : Option State :=
  match s.currentProcess with
  | none => none
  | some current =>
    if s.pcbs.pidOf current = 0 then some s
    else
      let s := { s with pcbs := s.pcbs.setState current .ready }
      some (schedulerSchedule (addToReadyQueue s current))

/-- The statements of `process_block` that put the caller, its link already cleared, at the
tail of the queue. -/
def appendWaiter (s : State) (q : ℕ) (pcb : Slot) : State :=
  let wq := s.waitQueues q
  match wq.tail with
  | some tail =>
    { s with
      pcbs := s.pcbs.setNext tail (some pcb)
      waitQueues := Function.update s.waitQueues q ⟨wq.head, some pcb⟩ }
  | none => { s with waitQueues := Function.update s.waitQueues q ⟨some pcb, some pcb⟩ }

/-- `process_block` up to its call of the scheduler. -/
def suspend (s : State) (q : ℕ) (current : Slot) : State :=
  appendWaiter { s with pcbs := (s.pcbs.setState current .blocked).setNext current none } q current

def processBlock (s : State) (q : ℕ) : State :=
  match s.currentProcess with
  | none => s
  | some current =>
    if s.pcbs.pidOf current = 0 then s else schedulerSchedule (suspend s q current)

/-- The statements of `process_wake` that take the first waiter off the queue. -/
def dequeueWaiter (s : State) (q : ℕ) (waiter : Slot) : State :=
  let rest := s.pcbs.link waiter
  let tail := if rest = none then none else (s.waitQueues q).tail
  { s with
    waitQueues := Function.update s.waitQueues q ⟨rest, tail⟩
    pcbs := s.pcbs.setNext waiter none }

def processWake (s : State) (q : ℕ) : State :=
  match (s.waitQueues q).head with
  | none => s
  | some waiter =>
    let s := dequeueWaiter s q waiter
    addToReadyQueue { s with pcbs := s.pcbs.setState waiter .ready } waiter

/-- `process_wake_all`: `fuel` bounds the rounds of its loop. -/
def processWakeAll : ℕ → State → ℕ → Option State
  | fuel, s, q =>
    if (s.waitQueues q).head = none then some s
    else
      match fuel with
      | 0 => none
      | fuel + 1 => processWakeAll fuel (processWake s q) q

def mutexUnlock (s : State) (m : ℕ) : State :=
  processWake { s with locked := Function.update s.locked m 0 } m

/-- The calls the running code makes. `run` is the running process moving its own stack
pointer between two calls; `schedule` is the timer interrupt or a direct call. -/
inductive Call
  | create (entry priority stack : ℕ)
  | terminate (pid : ℕ)
  | yield
  | block (q : ℕ)
  | wake (q : ℕ)
  | wakeAll (q fuel : ℕ)
  | unlock (m : ℕ)
  | schedule
  | run (esp : ℕ)
  deriving DecidableEq

def step (s : State) : Call → Option State
  | .create entry priority stack => some (processCreate s entry priority stack).1
  | .terminate pid => processTerminate s pid
  | .yield => processYield s
  | .block q => some (processBlock s q)
  | .wake q => some (processWake s q)
  | .wakeAll q fuel => processWakeAll fuel s q
  | .unlock m => some (mutexUnlock s m)
  | .schedule => some (schedulerSchedule s)
  | .run esp => some { s with esp := word esp }

end OpenKernel.Process
