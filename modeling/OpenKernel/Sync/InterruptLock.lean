import OpenKernel.Lib.Transition
import OpenKernel.Sync.Mutex

/-!
# Spinlocks and interrupts

The locks of `sync.h` on one processor. Code is interrupted wherever the interrupt flag is set,
and the handlers, which are interrupted in turn once they set the flag, use the same lock. A
handler, like any other code, may call the scheduler, which goes on with another context and
leaves the flag as it is. A step is one instruction.
-/

namespace OpenKernel.InterruptLock

open Sync (atomicXchg)

/-- Where a piece of code stands. `flags` is the interrupt flag that `pushfl` saved, or nothing
when `spinlock_lock` was called by itself. -/
inductive Stage
  | outside
  /-- In `spinlock_lock_irqsave`, at the `cli`. -/
  | saved (flag : Bool)
  /-- In `spinlock_lock`, at the `xchg`. -/
  | exchanging (flags : Option Bool)
  /-- In `spinlock_lock`, at the read of the inner loop. -/
  | spinning (flags : Option Bool)
  /-- In the section, up to the store of `spinlock_unlock`. -/
  | inside (flags : Option Bool)
  /-- In `spinlock_unlock_irqrestore`, at the `popfl`. -/
  | restoring (flag : Bool)
  deriving DecidableEq

/-- The lock word, the interrupt flag, the code that runs with the code that it interrupted,
innermost first, and the contexts that the scheduler has left. -/
structure State where
  locked : ℕ
  flag : Bool
  running : Stage
  below : List Stage
  others : List (List Stage)
  deriving DecidableEq

inductive Action
  /-- `spinlock_lock_irqsave` is called, and its `pushfl` executed. -/
  | lockIrqsave
  | lock
  /-- The next instruction of the lock's functions, or the call that ends the section. -/
  | go
  | cli
  | sti
  | interrupt
  | iret
  /-- `process_create`: a context that has not run yet. -/
  | create
  /-- `scheduler_schedule` switches to the `i`-th of the contexts that it has left. -/
  | switch (i : ℕ)
  deriving DecidableEq

def go (s : State) : Option State :=
  match s.running with
  | .outside => none
  | .saved flag => some { s with flag := false, running := .exchanging (some flag) }
  | .exchanging flags =>
    let (old, locked) := atomicXchg s.locked 1
    some { s with locked := locked, running := if old = 0 then .inside flags else .spinning flags }
  | .spinning flags =>
    some { s with running := if s.locked = 0 then .exchanging flags else .spinning flags }
  | .inside none => some { s with locked := 0, running := .outside }
  | .inside (some flag) => some { s with locked := 0, running := .restoring flag }
  | .restoring flag => some { s with flag := flag, running := .outside }

/-- The code of the kernel or a driver, which may set and clear the flag and call the scheduler. -/
def Stage.Free : Stage → Prop
  | .outside => True
  | .inside _ => True
  | _ => False

instance : DecidablePred Stage.Free := fun g => by
  cases g <;> unfold Stage.Free <;> infer_instance

def step (s : State) : Action → Option State
  | .lockIrqsave =>
    if s.running = .outside then some { s with running := .saved s.flag } else none
  | .lock =>
    if s.running = .outside then some { s with running := .exchanging none } else none
  | .go => go s
  | .cli => if s.running.Free then some { s with flag := false } else none
  | .sti => if s.running.Free then some { s with flag := true } else none
  | .interrupt =>
    if s.flag then
      some { s with flag := false, running := .outside, below := s.running :: s.below }
    else none
  | .iret =>
    match s.running, s.below with
    | .outside, code :: below => some { s with flag := true, running := code, below := below }
    | _, _ => none
  | .create => if s.running.Free then some { s with others := s.others ++ [[.outside]] } else none
  | .switch i =>
    if s.running.Free then
      match s.others[i]? with
      | some (code :: below) =>
        some { s with
          running := code
          below := below
          others := s.others.set i (s.running :: s.below) }
      | _ => none
    else none

/-- `spinlock_init` in code that runs with the flag `flag`. -/
def spinlockInit (flag : Bool) : State := ⟨0, flag, .outside, [], []⟩

/-- What an instruction needs and does. -/
inductive Effect (s : State) : Action → State → Prop
  | lockIrqsave (hout : s.running = .outside) :
      Effect s .lockIrqsave { s with running := .saved s.flag }
  | lock (hout : s.running = .outside) : Effect s .lock { s with running := .exchanging none }
  | go {t : State} (hgo : go s = some t) : Effect s .go t
  | cli (hfree : s.running.Free) : Effect s .cli { s with flag := false }
  | sti (hfree : s.running.Free) : Effect s .sti { s with flag := true }
  | interrupt (hflag : s.flag = true) :
      Effect s .interrupt
        { s with flag := false, running := .outside, below := s.running :: s.below }
  | iret {code : Stage} {below : List Stage} (hout : s.running = .outside)
      (hbelow : s.below = code :: below) :
      Effect s .iret { s with flag := true, running := code, below := below }
  | create (hfree : s.running.Free) :
      Effect s .create { s with others := s.others ++ [[.outside]] }
  | switch {i : ℕ} {code : Stage} {below : List Stage} {front back : List (List Stage)}
      (hfree : s.running.Free) (heq : s.others = front ++ (code :: below) :: back) :
      Effect s (.switch i)
        { s with
          running := code
          below := below
          others := front ++ (s.running :: s.below) :: back }

theorem effect_of_switch {s t : State} {i : ℕ} (hstep : step s (.switch i) = some t) :
    Effect s (.switch i) t := by
  simp only [step] at hstep
  split_ifs at hstep with hfree
  split at hstep <;> cases hstep
  next code below hget =>
  obtain ⟨hlt, hval⟩ := List.getElem?_eq_some_iff.mp hget
  obtain ⟨front, back, heq, -, hset⟩ := List.exists_of_set hlt
  rw [hval] at heq
  rw [hset]
  exact .switch hfree heq

theorem effect_of_step {s t : State} {a : Action} (hstep : step s a = some t) :
    Effect s a t := by
  cases a with
  | go => exact .go hstep
  | switch i => exact effect_of_switch hstep
  | iret =>
    simp only [step] at hstep
    split at hstep <;> cases hstep
    next code below hout hbelow => exact .iret hout hbelow
  | lockIrqsave =>
    simp only [step] at hstep
    split_ifs at hstep with hout
    cases hstep
    exact .lockIrqsave hout
  | lock =>
    simp only [step] at hstep
    split_ifs at hstep with hout
    cases hstep
    exact .lock hout
  | cli =>
    simp only [step] at hstep
    split_ifs at hstep with hfree
    cases hstep
    exact .cli hfree
  | sti =>
    simp only [step] at hstep
    split_ifs at hstep with hfree
    cases hstep
    exact .sti hfree
  | interrupt =>
    simp only [step] at hstep
    split_ifs at hstep with hflag
    cases hstep
    exact .interrupt hflag
  | create =>
    simp only [step] at hstep
    split_ifs at hstep with hfree
    cases hstep
    exact .create hfree

theorem Stage.Free.cases {g : Stage} (h : g.Free) : g = .outside ∨ ∃ flags, g = .inside flags := by
  cases g with
  | outside => exact Or.inl rfl
  | inside flags => exact Or.inr ⟨flags, rfl⟩
  | saved flag => exact h.elim
  | exchanging flags => exact h.elim
  | spinning flags => exact h.elim
  | restoring flag => exact h.elim

/-- The lock is taken by `spinlock_lock_irqsave` only, and the code in the section neither enables
interrupts nor calls the scheduler. -/
def Disciplined (s : State) : Action → Prop
  | .lock => False
  | .sti => s.running = .outside
  | .switch _ => s.running = .outside
  | _ => True

section Discipline

variable {s t : State} {a : Action} {as : List Action}

/-- The flag that the caller of `spinlock_lock_irqsave` had. -/
def State.callerFlag (s : State) : Bool :=
  match s.running with
  | .outside => s.flag
  | .saved flag => flag
  | .exchanging flags => flags.getD s.flag
  | .spinning flags => flags.getD s.flag
  | .inside flags => flags.getD s.flag
  | .restoring flag => flag

/-- What the running code is at fits the lock word and the flag. -/
def Fits (locked : ℕ) (flag : Bool) : Stage → Prop
  | .outside => locked = 0
  | .saved saved => locked = 0 ∧ saved = flag
  | .exchanging flags => locked = 0 ∧ flag = false ∧ flags ≠ none
  | .spinning _ => False
  | .inside flags => locked = 1 ∧ flag = false ∧ flags ≠ none
  | .restoring _ => locked = 0 ∧ flag = false

/-- No code but the running one has the lock or is about to take it. -/
structure IrqInv (s : State) : Prop where
  running : Fits s.locked s.flag s.running
  below : ∀ g ∈ s.below, g = .outside ∨ g = .saved true
  others : ∀ stack ∈ s.others, ∃ low, stack = .outside :: low ∧
    ∀ g ∈ low, g = .outside ∨ g = .saved true

theorem irqInv_spinlockInit (flag : Bool) : IrqInv (spinlockInit flag) := ⟨rfl, nofun, nofun⟩

theorem IrqInv.others_free (h : IrqInv s) :
    ∀ stack ∈ s.others, ∀ g ∈ stack, g = .outside ∨ g = .saved true := by
  intro stack hstack g hg
  obtain ⟨low, rfl, hlow⟩ := h.others stack hstack
  rcases List.mem_cons.mp hg with rfl | hg
  · exact Or.inl rfl
  · exact hlow g hg

theorem IrqInv.go (h : IrqInv s) (hgo : go s = some t) : IrqInv t := by
  obtain ⟨locked, flag, running, below, others⟩ := s
  obtain ⟨hrun, hbelow, hothers⟩ := h
  cases running with
  | outside => cases hgo
  | saved saved =>
    cases hgo
    exact ⟨⟨hrun.1, rfl, nofun⟩, hbelow, hothers⟩
  | exchanging flags =>
    obtain ⟨rfl, hflag, hflags⟩ := hrun
    cases hgo
    exact ⟨⟨rfl, hflag, hflags⟩, hbelow, hothers⟩
  | spinning flags => exact hrun.elim
  | inside flags =>
    obtain ⟨-, hflag, hflags⟩ := hrun
    cases flags with
    | none => exact absurd rfl hflags
    | some saved =>
      cases hgo
      exact ⟨⟨rfl, hflag⟩, hbelow, hothers⟩
  | restoring saved =>
    cases hgo
    exact ⟨hrun.1, hbelow, hothers⟩

theorem IrqInv.interrupt (h : IrqInv s) (hflag : s.flag = true) :
    IrqInv { s with flag := false, running := .outside, below := s.running :: s.below } := by
  obtain ⟨locked, flag, running, below, others⟩ := s
  obtain ⟨hrun, hbelow, hothers⟩ := h
  obtain rfl : flag = true := hflag
  have hstays : locked = 0 ∧ (running = .outside ∨ running = .saved true) := by
    cases running with
    | outside => exact ⟨hrun, .inl rfl⟩
    | saved saved => exact ⟨hrun.1, .inr (congrArg _ hrun.2)⟩
    | exchanging flags => exact absurd hrun.2.1 (by simp)
    | spinning flags => exact hrun.elim
    | inside flags => exact absurd hrun.2.1 (by simp)
    | restoring saved => exact absurd hrun.2 (by simp)
  refine ⟨hstays.1, fun g hg => ?_, hothers⟩
  rcases List.mem_cons.mp hg with rfl | hg
  · exact hstays.2
  · exact hbelow g hg

theorem IrqInv.switch {code : Stage} {below : List Stage} {front back : List (List Stage)}
    (h : IrqInv s) (hout : s.running = .outside)
    (heq : s.others = front ++ (code :: below) :: back) :
    IrqInv ⟨s.locked, s.flag, code, below, front ++ (s.running :: s.below) :: back⟩ := by
  have hothers := h.others
  rw [heq] at hothers
  obtain ⟨low, hcode, hlow⟩ := hothers (code :: below)
    (List.mem_append_right _ (List.mem_cons_self ..))
  obtain ⟨rfl, rfl⟩ := List.cons.inj hcode
  have hrun := h.running
  rw [hout] at hrun
  refine ⟨hrun, hlow, fun stack hstack => ?_⟩
  rcases List.mem_append.mp hstack with hfront | hrest
  · exact hothers stack (List.mem_append_left _ hfront)
  rcases List.mem_cons.mp hrest with rfl | hback
  · exact ⟨s.below, by rw [hout], h.below⟩
  · exact hothers stack (List.mem_append_right _ (List.mem_cons_of_mem _ hback))

theorem IrqInv.step (h : IrqInv s) (hok : Disciplined s a) (hstep : step s a = some t) :
    IrqInv t := by
  have hrun := h.running
  cases effect_of_step hstep with
  | lockIrqsave hout =>
    rw [hout] at hrun
    exact ⟨⟨hrun, rfl⟩, h.below, h.others⟩
  | lock hout => exact hok.elim
  | go hgo => exact h.go hgo
  | cli hfree =>
    refine ⟨?_, h.below, h.others⟩
    dsimp only
    rcases hfree.cases with hout | ⟨flags, hin⟩
    · rw [hout] at hrun ⊢
      exact hrun
    · rw [hin] at hrun ⊢
      exact ⟨hrun.1, rfl, hrun.2.2⟩
  | sti hfree =>
    have hout : s.running = .outside := hok
    refine ⟨?_, h.below, h.others⟩
    dsimp only
    rw [hout] at hrun ⊢
    exact hrun
  | interrupt hflag => exact h.interrupt hflag
  | @iret code below hout hbelow =>
    rw [hout] at hrun
    have hmem := h.below
    rw [hbelow] at hmem
    refine ⟨?_, fun g hg => hmem g (List.mem_cons_of_mem _ hg), h.others⟩
    rcases hmem code (List.mem_cons_self ..) with rfl | rfl
    · exact hrun
    · exact ⟨hrun, rfl⟩
  | create hfree =>
    refine ⟨hrun, h.below, fun stack hstack => ?_⟩
    rcases List.mem_append.mp hstack with hstack | hstack
    · exact h.others stack hstack
    · exact ⟨[], List.mem_singleton.mp hstack, nofun⟩
  | switch hfree heq => exact h.switch hok heq

theorem IrqInv.returns (h : IrqInv s) : ∃ n u, n ≤ 4 ∧
    (List.replicate n ()).foldlM (fun s _ => InterruptLock.go s) s = some u ∧
      u = ⟨0, s.callerFlag, .outside, s.below, s.others⟩ := by
  obtain ⟨locked, flag, running, below, others⟩ := s
  obtain ⟨hrun, -, -⟩ := h
  cases running with
  | outside =>
    obtain rfl : locked = 0 := hrun
    exact ⟨0, _, by decide, rfl, rfl⟩
  | saved saved =>
    obtain ⟨rfl, rfl⟩ := hrun
    exact ⟨4, _, by decide, rfl, rfl⟩
  | exchanging flags =>
    obtain ⟨rfl, rfl, hflags⟩ := hrun
    obtain ⟨saved, rfl⟩ := Option.ne_none_iff_exists'.mp hflags
    exact ⟨3, _, by decide, rfl, rfl⟩
  | spinning flags => exact hrun.elim
  | inside flags =>
    obtain ⟨rfl, rfl, hflags⟩ := hrun
    obtain ⟨saved, rfl⟩ := Option.ne_none_iff_exists'.mp hflags
    exact ⟨2, _, by decide, rfl, rfl⟩
  | restoring saved =>
    obtain ⟨rfl, rfl⟩ := hrun
    exact ⟨1, _, by decide, rfl, rfl⟩

/-- Where the lock is taken by `spinlock_lock_irqsave` only, and the sections neither enable
interrupts nor call the scheduler: in whatever order handlers interrupt each other, contexts are
switched and all of them use the lock, nobody ever finds it taken; neither interrupted code nor a
context that the scheduler has left has it; it is taken exactly while the running code is in its
section; and after at most four more steps of its own that code is out of the functions, with
the flag that it called them with. -/
theorem irqsave_never_spins {flag : Bool} (h : Run step Disciplined (spinlockInit flag) as t) :
    (∀ flags, t.running ≠ .spinning flags) ∧ (∀ g ∈ t.below, g = .outside ∨ g = .saved true) ∧
      (∀ stack ∈ t.others, ∀ g ∈ stack, g = .outside ∨ g = .saved true) ∧
      (t.locked ≠ 0 ↔ ∃ flags, t.running = .inside flags) ∧
      ∃ n u, n ≤ 4 ∧ (List.replicate n ()).foldlM (fun s _ => go s) t = some u ∧
        u = ⟨0, t.callerFlag, .outside, t.below, t.others⟩ := by
  have hinv : IrqInv t := h.invariant IrqInv (fun s a t hs hok hstep => hs.step hok hstep)
    (irqInv_spinlockInit flag)
  refine ⟨fun flags hs => ?_, hinv.below, hinv.others_free, ?_, hinv.returns⟩
  · have hrun := hinv.running
    rw [hs] at hrun
    exact hrun
  · have hrun := hinv.running
    cases hs : t.running with
    | inside flags =>
      rw [hs] at hrun
      exact iff_of_true (by rw [hrun.1]; decide) ⟨flags, rfl⟩
    | outside => rw [hs] at hrun; exact iff_of_false (not_not.mpr hrun) (by simp)
    | saved saved => rw [hs] at hrun; exact iff_of_false (not_not.mpr hrun.1) (by simp)
    | exchanging flags => rw [hs] at hrun; exact iff_of_false (not_not.mpr hrun.1) (by simp)
    | spinning flags => rw [hs] at hrun; exact hrun.elim
    | restoring saved => rw [hs] at hrun; exact iff_of_false (not_not.mpr hrun.1) (by simp)

/-- The timer comes between the `pushfl` and the `cli`, and its handler switches to another
context, which uses the lock. -/
theorem irqsave_never_spins_switch :
    let as : List Action := [.create, .lockIrqsave, .interrupt, .switch 0, .lockIrqsave, .go, .go]
    ∃ t, Run step Disciplined (spinlockInit true) as t ∧
      t.others = [[.outside, .saved true]] ∧ (∀ flags, t.running ≠ .spinning flags) ∧
      (t.locked ≠ 0 ↔ ∃ flags, t.running = .inside flags) := by
  intro as
  have hrun : Run step Disciplined (spinlockInit true) as
      ⟨1, false, .inside (some false), [], [[.outside, .saved true]]⟩ :=
    .cons trivial rfl <| .cons trivial rfl <| .cons trivial rfl <| .cons rfl rfl <|
      .cons trivial rfl <| .cons trivial rfl <| .cons trivial rfl <| .nil _
  obtain ⟨hspin, -, -, hlocked, -⟩ := irqsave_never_spins hrun
  exact ⟨_, hrun, rfl, hspin, hlocked⟩

end Discipline

/-! ### A lock that interrupted code has -/

section Hanging

variable {s t : State} {a : Action} {as bs : List Action} {low : List Stage} {g : Stage}

/-- In `spinlock_lock`, without the lock. -/
def Stage.Waiting : Stage → Prop
  | .exchanging _ => True
  | .spinning _ => True
  | _ => False

def Stage.isInside : Stage → Bool
  | .inside _ => true
  | _ => false

/-- The code of all contexts, that of the running one first. -/
def State.stacks (s : State) : List (List Stage) := (s.running :: s.below) :: s.others

/-- How much code of all contexts is in the section. -/
def State.holders (s : State) : ℕ := s.stacks.flatten.countP Stage.isInside

/-- Code in the section is where the lock is taken, and never twice. -/
def OneHolder (s : State) : Prop := s.holders = if s.locked = 0 then 0 else 1

/-- Code waits for the lock on top of `low`. -/
def WaitsAbove (low : List Stage) (s : State) : Prop :=
  ∃ stack ∈ s.stacks, ∃ upper w, stack = upper ++ w :: low ∧ w.Waiting

theorem holders_eq (s : State) : s.holders =
    (if s.running.isInside then 1 else 0) + s.below.countP Stage.isInside +
      s.others.flatten.countP Stage.isInside := by
  unfold State.holders State.stacks
  rw [List.flatten_cons, List.countP_append, List.countP_cons]
  omega

theorem OneHolder.move (h : OneHolder s) (hrun : s.running.isInside = false)
    (hg : g.isInside = false) (flag : Bool) :
    OneHolder { s with flag := flag, running := g } := by
  unfold OneHolder at h ⊢
  rw [holders_eq] at h ⊢
  rw [hrun] at h
  rw [hg]
  exact h

theorem OneHolder.go (h : OneHolder s) (hgo : go s = some t) : OneHolder t := by
  obtain ⟨locked, flag, running, below, others⟩ := s
  cases running with
  | outside => cases hgo
  | saved saved =>
    cases hgo
    exact h.move rfl rfl false
  | spinning flags =>
    simp only [InterruptLock.go, Option.some.injEq] at hgo
    subst hgo
    refine h.move rfl ?_ flag
    split_ifs <;> rfl
  | restoring saved =>
    cases hgo
    exact h.move rfl rfl saved
  | exchanging flags =>
    have hpair : atomicXchg locked 1 = (locked, 1) := rfl
    simp only [InterruptLock.go, hpair, Option.some.injEq] at hgo
    subst hgo
    unfold OneHolder at h ⊢
    rw [holders_eq] at h ⊢
    dsimp only [Stage.isInside] at h ⊢
    by_cases hfree : locked = 0
    · rw [if_pos hfree]
      rw [if_pos hfree] at h
      rw [if_neg Nat.one_ne_zero]
      simp only [if_true]
      simp only [Bool.false_eq_true, if_false] at h
      omega
    · rw [if_neg hfree]
      rw [if_neg hfree] at h
      exact h
  | inside flags =>
    -- the code that leaves its section was the only one in it
    have hleft : ∀ g flag, g.isInside = false →
        OneHolder ⟨0, flag, g, below, others⟩ := by
      intro g flag hg
      unfold OneHolder at h ⊢
      rw [holders_eq] at h ⊢
      dsimp only at h ⊢
      rw [hg]
      simp only [Stage.isInside, if_true] at h
      split_ifs at h
      · omega
      · simp only [Bool.false_eq_true, if_false, if_true]
        omega
    cases flags with
    | none =>
      cases hgo
      exact hleft _ _ rfl
    | some saved =>
      cases hgo
      exact hleft _ _ rfl

theorem OneHolder.step (h : OneHolder s) (hstep : step s a = some t) : OneHolder t := by
  cases effect_of_step hstep with
  | lockIrqsave hout => exact h.move (by rw [hout]; rfl) rfl s.flag
  | lock hout => exact h.move (by rw [hout]; rfl) rfl s.flag
  | go hgo => exact h.go hgo
  | cli hfree => exact h
  | sti hfree => exact h
  | interrupt hflag =>
    unfold OneHolder at h ⊢
    rw [holders_eq] at h ⊢
    rw [← h]
    simp only [Stage.isInside, List.countP_cons]
    simp only [Bool.false_eq_true, if_false]
    omega
  | iret hout hbelow =>
    unfold OneHolder at h ⊢
    rw [holders_eq] at h ⊢
    have hrun : Stage.outside.isInside = false := rfl
    rw [hout, hbelow, List.countP_cons, hrun, if_neg Bool.false_ne_true] at h
    dsimp only
    omega
  | create hfree =>
    unfold OneHolder at h ⊢
    rw [holders_eq] at h ⊢
    rw [← h, List.flatten_append, List.countP_append]
    rfl
  | switch hfree heq =>
    unfold OneHolder at h ⊢
    rw [holders_eq] at h ⊢
    rw [heq] at h
    simp only [List.flatten_append, List.flatten_cons, List.countP_append, List.countP_cons] at h ⊢
    omega

/-- The running code does not have a lock that code below a waiter has. -/
theorem WaitsAbove.held (h : WaitsAbove low s) (hone : OneHolder s)
    (hlow : 0 < low.countP Stage.isInside) : s.locked ≠ 0 ∧ s.running.isInside = false := by
  obtain ⟨stack, hstack, upper, w, rfl, hw⟩ := h
  have hwait : w.isInside = false := by cases w <;> first | rfl | exact hw.elim
  unfold OneHolder at hone
  rw [holders_eq] at hone
  have hcount : (upper ++ w :: low).countP Stage.isInside =
      upper.countP Stage.isInside + low.countP Stage.isInside := by
    rw [List.countP_append, List.countP_cons, hwait]
    simp
  rcases List.mem_cons.mp hstack with heq | hmem
  · have hrun := congrArg (List.countP Stage.isInside) heq
    rw [hcount, List.countP_cons] at hrun
    refine ⟨?_, ?_⟩
    · rintro hzero
      rw [if_pos hzero] at hone
      omega
    · cases upper with
      | nil => rw [← (List.cons.inj heq).1, hwait]
      | cons g upper =>
        obtain ⟨rfl, -⟩ := List.cons.inj heq
        rw [List.countP_cons] at hrun
        cases hg : s.running.isInside with
        | false => rfl
        | true =>
          rw [hg, if_pos rfl] at hone hrun
          split_ifs at hone <;> omega
  · have hle : (upper ++ w :: low).countP Stage.isInside ≤
        s.others.flatten.countP Stage.isInside :=
      (List.sublist_flatten_of_mem hmem).countP_le
    rw [hcount] at hle
    refine ⟨?_, ?_⟩
    · rintro hzero
      rw [if_pos hzero] at hone
      omega
    · cases hg : s.running.isInside with
      | false => rfl
      | true =>
        rw [hg, if_pos rfl] at hone
        split_ifs at hone <;> omega

theorem WaitsAbove.move (h : WaitsAbove low s) (hg : s.running.Waiting → g.Waiting)
    (locked : ℕ) (flag : Bool) : WaitsAbove low ⟨locked, flag, g, s.below, s.others⟩ := by
  obtain ⟨stack, hstack, upper, w, rfl, hw⟩ := h
  rcases List.mem_cons.mp hstack with heq | hmem
  · cases upper with
    | nil =>
      obtain ⟨rfl, rfl⟩ := List.cons.inj heq
      exact ⟨_, List.mem_cons_self .., [], g, rfl, hg hw⟩
    | cons first upper =>
      obtain ⟨-, hbelow⟩ := List.cons.inj heq
      exact ⟨_, List.mem_cons_self .., g :: upper, w, congrArg (g :: ·) hbelow.symm, hw⟩
  · exact ⟨_, List.mem_cons_of_mem _ hmem, upper, w, rfl, hw⟩

/-- A waiter that finds the lock taken goes on waiting. -/
theorem WaitsAbove.go (h : WaitsAbove low s) (htaken : s.locked ≠ 0) (hgo : go s = some t) :
    WaitsAbove low t := by
  obtain ⟨locked, flag, running, below, others⟩ := s
  cases running with
  | outside => cases hgo
  | saved saved =>
    cases hgo
    exact h.move (fun hw => hw.elim) _ _
  | exchanging flags =>
    have hpair : atomicXchg locked 1 = (locked, 1) := rfl
    simp only [InterruptLock.go, hpair, if_neg htaken, Option.some.injEq] at hgo
    subst hgo
    refine h.move (fun _ => ?_) _ _
    exact trivial
  | spinning flags =>
    simp only [InterruptLock.go, if_neg htaken, Option.some.injEq] at hgo
    subst hgo
    exact h
  | inside flags =>
    cases flags <;> cases hgo <;> exact h.move (fun hw => hw.elim) _ _
  | restoring saved =>
    cases hgo
    exact h.move (fun hw => hw.elim) _ _

theorem WaitsAbove.step (h : WaitsAbove low s) (htaken : s.locked ≠ 0)
    (hstep : step s a = some t) : WaitsAbove low t := by
  cases effect_of_step hstep with
  | lockIrqsave hout => exact h.move (fun hw => by rw [hout] at hw; exact hw.elim) _ _
  | lock hout =>
    refine h.move (fun _ => ?_) _ _
    exact trivial
  | go hgo => exact h.go htaken hgo
  | cli hfree => exact h
  | sti hfree => exact h
  | interrupt hflag =>
    obtain ⟨stack, hstack, upper, w, rfl, hw⟩ := h
    rcases List.mem_cons.mp hstack with heq | hmem
    · exact ⟨_, List.mem_cons_self .., .outside :: upper, w, congrArg (.outside :: ·) heq.symm, hw⟩
    · exact ⟨_, List.mem_cons_of_mem _ hmem, upper, w, rfl, hw⟩
  | iret hout hbelow =>
    obtain ⟨stack, hstack, upper, w, rfl, hw⟩ := h
    rcases List.mem_cons.mp hstack with heq | hmem
    · rw [hout, hbelow] at heq
      -- the handler that returns is not the waiter
      cases upper with
      | nil =>
        obtain ⟨rfl, -⟩ := List.cons.inj heq
        exact hw.elim
      | cons first upper =>
        obtain ⟨-, htail⟩ := List.cons.inj heq
        exact ⟨_, List.mem_cons_self .., upper, w, htail.symm, hw⟩
    · exact ⟨_, List.mem_cons_of_mem _ hmem, upper, w, rfl, hw⟩
  | create hfree =>
    obtain ⟨stack, hstack, hwait⟩ := h
    refine ⟨stack, ?_, hwait⟩
    rcases List.mem_cons.mp hstack with rfl | hmem
    · exact List.mem_cons_self ..
    · exact List.mem_cons_of_mem _ (List.mem_append_left _ hmem)
  | switch hfree heq =>
    obtain ⟨stack, hstack, hwait⟩ := h
    refine ⟨stack, ?_, hwait⟩
    unfold State.stacks at hstack ⊢
    rw [heq] at hstack
    simp only [List.mem_cons, List.mem_append] at hstack ⊢
    tauto

/-- On one processor, with handlers and context switches in any order: once code waits in
`spinlock_lock` on top of code that it has interrupted and that has the lock, the lock stays
taken, the waiter stays above the holder, and no code of any context ever runs with the lock. -/
theorem taken_lock_hangs {flag : Bool} (h : Run step anyCall (spinlockInit flag) as s)
    (hwait : WaitsAbove low s) (hlow : 0 < low.countP Stage.isInside)
    (hrun : Run step anyCall s bs t) :
    WaitsAbove low t ∧ t.locked ≠ 0 ∧ t.running.isInside = false := by
  have hone : OneHolder s := h.invariant OneHolder (fun s a t hs _ hstep => hs.step hstep) rfl
  obtain ⟨hone', hwait'⟩ := hrun.invariant (fun s => OneHolder s ∧ WaitsAbove low s)
    (fun s a t ⟨hs, hw⟩ _ hstep => ⟨hs.step hstep, hw.step (hw.held hs hlow).1 hstep⟩)
    ⟨hone, hwait⟩
  exact ⟨hwait', hwait'.held hone' hlow⟩

/-- The timer comes in the section of `spinlock_lock`; its handler, interrupted in turn, waits for
the lock; the scheduler goes on with another context, which finds the lock taken as well. -/
theorem taken_lock_hangs_switch :
    let as : List Action := [.create, .lock, .go, .interrupt, .sti, .lock, .interrupt]
    let bs : List Action := [.switch 0, .lock, .go]
    ∃ s t, Run step anyCall (spinlockInit true) as s ∧ Run step anyCall s bs t ∧
      t.running = .spinning none ∧ WaitsAbove [.inside none] t ∧ t.locked ≠ 0 := by
  intro as bs
  have has : Run step anyCall (spinlockInit true) as
      ⟨1, false, .outside, [.exchanging none, .inside none], [[.outside]]⟩ := .of_foldlM rfl
  have hbs : Run step anyCall ⟨1, false, .outside, [.exchanging none, .inside none], [[.outside]]⟩
      bs ⟨1, false, .spinning none, [], [[.outside, .exchanging none, .inside none]]⟩ :=
    .of_foldlM rfl
  have hwait : WaitsAbove [.inside none]
      ⟨1, false, .outside, [.exchanging none, .inside none], [[.outside]]⟩ :=
    ⟨_, List.mem_cons_self .., [.outside], _, rfl, trivial⟩
  obtain ⟨hwait', htaken, -⟩ := taken_lock_hangs has hwait (by decide) hbs
  exact ⟨_, _, has, hbs, rfl, hwait', htaken⟩

end Hanging

end OpenKernel.InterruptLock
