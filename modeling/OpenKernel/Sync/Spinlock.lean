import OpenKernel.Lib.Transition
import OpenKernel.Sync.Mutex

/-!
# Spinlocks

The spinlock functions of `sync.h` on one lock, for any number of processors that take their
steps in any order. A step is one access to memory. The section that the lock guards reads the
shared data and then writes it, as two steps.
-/

namespace OpenKernel.Spinlock

open Function
open Sync (atomicXchg)

/-- Where a processor stands in the functions of the lock and in the guarded section, with the
update that it makes there. -/
inductive Stage (σ : Type*)
  | outside
  /-- In `spinlock_lock`, at the `xchg`. -/
  | exchanging (f : σ → σ)
  /-- In `spinlock_lock`, at the read of the inner loop. -/
  | spinning (f : σ → σ)
  /-- In `spinlock_trylock`, at the `xchg`. -/
  | trying (f : σ → σ)
  /-- In the section, before the read of the data. -/
  | entered (f : σ → σ)
  /-- In the section, before the write of the data. -/
  | loaded (f : σ → σ) (v : σ)
  /-- In `spinlock_unlock`, at the store. -/
  | unlocking

/-- A call of `spinlock_lock` or `spinlock_trylock`, with whether it got the lock. -/
structure Entry (ι σ : Type*) where
  caller : ι
  f : σ → σ
  taken : Bool

/-- The lock word, the data, the processors, and the calls in the order in which they wrote the
data or failed. -/
structure State (ι σ : Type*) where
  locked : ℕ
  data : σ
  stage : ι → Stage σ
  log : List (Entry ι σ)

inductive Action (ι σ : Type*)
  | lock (i : ι) (f : σ → σ)
  | trylock (i : ι) (f : σ → σ)
  /-- The next access of a processor that is in one of the functions or in the section. -/
  | go (i : ι)

/-- `spinlock_init`, with nobody using the lock. -/
def spinlockInit {ι σ : Type*} (data : σ) : State ι σ := ⟨0, data, fun _ => .outside, []⟩

section Functions

variable {ι σ : Type*} [DecidableEq ι]

def State.move (s : State ι σ) (i : ι) (g : Stage σ) : State ι σ :=
  { s with stage := update s.stage i g }

def go (s : State ι σ) (i : ι) : Option (State ι σ) :=
  match s.stage i with
  | .outside => none
  | .exchanging f =>
    let (old, locked) := atomicXchg s.locked 1
    let s := { s with locked := locked }
    some (s.move i (if old = 0 then .entered f else .spinning f))
  | .spinning f => some (s.move i (if s.locked = 0 then .exchanging f else .spinning f))
  | .trying f =>
    let (old, locked) := atomicXchg s.locked 1
    let s := { s with locked := locked }
    if old = 0 then some (s.move i (.entered f))
    else some (({ s with log := s.log ++ [Entry.mk i f false] } : State ι σ).move i .outside)
  | .entered f => some (s.move i (.loaded f s.data))
  | .loaded f v =>
    let s := { s with data := f v, log := s.log ++ [Entry.mk i f true] }
    some (s.move i .unlocking)
  | .unlocking =>
    let s := { s with locked := 0 }
    some (s.move i .outside)

def step (s : State ι σ) : Action ι σ → Option (State ι σ)
  | .lock i f =>
    match s.stage i with
    | .outside => some (s.move i (.exchanging f))
    | _ => none
  | .trylock i f =>
    match s.stage i with
    | .outside => some (s.move i (.trying f))
    | _ => none
  | .go i => go s i

end Functions

namespace Stage

variable {σ : Type*}

/-- Between the `xchg` that took the lock and the store that gives it up. -/
def Inside : Stage σ → Prop
  | .outside => False
  | .exchanging _ => False
  | .spinning _ => False
  | .trying _ => False
  | .entered _ => True
  | .loaded _ _ => True
  | .unlocking => True

/-- The update of a call that has neither written the data nor failed. -/
def pending : Stage σ → List (σ → σ)
  | .outside => []
  | .exchanging f => [f]
  | .spinning f => [f]
  | .trying f => [f]
  | .entered f => [f]
  | .loaded f _ => [f]
  | .unlocking => []

end Stage

section Invariant

variable {ι σ : Type*}

/-- The updates one after the other, without those of failed calls. -/
def replay (d : σ) (log : List (Entry ι σ)) : σ :=
  log.foldl (fun d e => if e.taken then e.f d else d) d

/-- The lock word says whether there is a holder, who alone is inside, and what has been read of
the data is still there. -/
structure LockInv (d : σ) (s : State ι σ) (holder : Option ι) : Prop where
  word : s.locked = if holder = none then 0 else 1
  inside : ∀ i, (s.stage i).Inside ↔ holder = some i
  fresh : ∀ i f v, s.stage i = .loaded f v → v = s.data
  data : s.data = replay d s.log

theorem lockInv_spinlockInit (d : σ) : LockInv d (spinlockInit d : State ι σ) none where
  word := rfl
  inside _ := iff_of_false (fun h => h) nofun
  fresh _ _ _ h := nomatch h
  data := rfl

theorem LockInv.free_iff {d : σ} {s : State ι σ} {p : Option ι} (h : LockInv d s p) :
    s.locked = 0 ↔ p = none := by
  rw [h.word]
  split_ifs with hp <;> simp [hp]

end Invariant

section Serial

variable {ι σ : Type*} [DecidableEq ι] {d : σ} {s t : State ι σ} {a : Action ι σ}
variable {as : List (Action ι σ)} {i j : ι} {f : σ → σ} {p q : Option ι}

theorem stage_move (g : Stage σ) : (s.move i g).stage i = g := update_self ..

theorem stage_move_of_ne (g : Stage σ) (hj : j ≠ i) : (s.move i g).stage j = s.stage j :=
  update_of_ne hj _ _

/-- What a step by processor `i` has to show: only the holder writes the data. -/
theorem LockInv.move (h : LockInv d s p) {locked : ℕ} {data : σ} {log : List (Entry ι σ)}
    {g : Stage σ} (hword : locked = if q = none then 0 else 1) (hself : g.Inside ↔ q = some i)
    (hother : ∀ j, j ≠ i → (q = some j ↔ p = some j))
    (hfresh : ∀ f v, g = .loaded f v → v = data) (hkept : data = s.data ∨ p = some i)
    (hdata : data = replay d log) :
    LockInv d ((⟨locked, data, s.stage, log⟩ : State ι σ).move i g) q where
  word := hword
  inside j := by
    by_cases hj : j = i
    · rw [hj, stage_move]
      exact hself
    · rw [stage_move_of_ne g hj, hother j hj]
      exact h.inside j
  fresh j f v hs := by
    by_cases hj : j = i
    · rw [hj, stage_move] at hs
      exact hfresh f v hs
    · rw [stage_move_of_ne g hj] at hs
      rcases hkept with rfl | hp
      · exact h.fresh j f v hs
      · have hin : (s.stage j).Inside := by
          rw [show s.stage j = _ from hs]
          trivial
        have hpj := (h.inside j).mp hin
        rw [hp] at hpj
        exact absurd (Option.some.inj hpj).symm hj
  data := hdata

theorem LockInv.stay (h : LockInv d s p) {g : Stage σ} {log : List (Entry ι σ)}
    (hout : ¬(s.stage i).Inside) (hg : ¬g.Inside) (hlog : replay d log = replay d s.log) :
    LockInv d ({ s with log := log }.move i g) p := by
  have hp : p ≠ some i := fun hp => hout ((h.inside i).mpr hp)
  refine h.move h.word (iff_of_false hg hp) (fun _ _ => Iff.rfl) ?_ (.inl rfl)
    (h.data.trans hlog.symm)
  rintro f v rfl
  exact absurd trivial hg

/-- One access keeps the invariant, for the holder after it. -/
theorem LockInv.go (h : LockInv d s p) (hgo : go s i = some t) : ∃ q, LockInv d t q := by
  have hxchg : atomicXchg s.locked 1 = (s.locked, 1) := rfl
  unfold Spinlock.go at hgo
  cases hs : s.stage i with
  | outside =>
    rw [hs] at hgo
    cases hgo
  | exchanging f =>
    have hout : ¬(s.stage i).Inside := by rw [hs]; exact id
    simp only [hs, hxchg, Option.some.injEq] at hgo
    by_cases hfree : s.locked = 0
    · obtain rfl := h.free_iff.mp hfree
      rw [if_pos hfree] at hgo
      subst hgo
      exact ⟨some i, h.move rfl (iff_of_true trivial rfl)
        (fun j hj => iff_of_false (fun he => hj (Option.some.inj he).symm) nofun)
        nofun (.inl rfl) h.data⟩
    · rw [if_neg hfree] at hgo
      subst hgo
      have hword : 1 = if p = none then 0 else 1 := by
        rw [if_neg fun hp => hfree (h.free_iff.mpr hp)]
      have hp : p ≠ some i := fun hp => hout ((h.inside i).mpr hp)
      exact ⟨p, h.move hword (iff_of_false id hp) (fun _ _ => Iff.rfl) nofun (.inl rfl) h.data⟩
  | spinning f =>
    have hout : ¬(s.stage i).Inside := by rw [hs]; exact id
    simp only [hs, Option.some.injEq] at hgo
    subst hgo
    refine ⟨p, h.stay hout ?_ rfl⟩
    split_ifs <;> exact id
  | trying f =>
    have hout : ¬(s.stage i).Inside := by rw [hs]; exact id
    simp only [hs, hxchg] at hgo
    by_cases hfree : s.locked = 0
    · obtain rfl := h.free_iff.mp hfree
      rw [if_pos hfree, Option.some.injEq] at hgo
      subst hgo
      exact ⟨some i, h.move rfl (iff_of_true trivial rfl)
        (fun j hj => iff_of_false (fun he => hj (Option.some.inj he).symm) nofun)
        nofun (.inl rfl) h.data⟩
    · rw [if_neg hfree, Option.some.injEq] at hgo
      subst hgo
      have hword : 1 = if p = none then 0 else 1 := by
        rw [if_neg fun hp => hfree (h.free_iff.mpr hp)]
      have hp : p ≠ some i := fun hp => hout ((h.inside i).mpr hp)
      refine ⟨p, h.move hword (iff_of_false id hp) (fun _ _ => Iff.rfl) nofun (.inl rfl) ?_⟩
      rw [replay, List.foldl_append]
      exact h.data
  | entered f =>
    have hp : p = some i := (h.inside i).mp (by rw [hs]; trivial)
    simp only [hs, Option.some.injEq] at hgo
    subst hgo
    exact ⟨p, h.move h.word (iff_of_true trivial hp) (fun _ _ => Iff.rfl)
      (fun _ _ he => by cases he; rfl) (.inl rfl) h.data⟩
  | loaded f v =>
    have hp : p = some i := (h.inside i).mp (by rw [hs]; trivial)
    simp only [hs, Option.some.injEq] at hgo
    subst hgo
    refine ⟨p, h.move h.word (iff_of_true trivial hp) (fun _ _ => Iff.rfl) nofun (.inr hp) ?_⟩
    rw [replay, List.foldl_append, h.fresh i f v hs, h.data]
    rfl
  | unlocking =>
    have hp : p = some i := (h.inside i).mp (by rw [hs]; trivial)
    simp only [hs, Option.some.injEq] at hgo
    subst hgo
    exact ⟨none, h.move rfl (iff_of_false id nofun)
      (fun j hj => iff_of_false nofun fun he => hj (Option.some.inj (hp.symm.trans he)).symm)
      nofun (.inl rfl) h.data⟩

theorem LockInv.step (h : LockInv d s p) (hstep : step s a = some t) : ∃ q, LockInv d t q := by
  have hcall : ∀ i g, ¬g.Inside → s.stage i = .outside → LockInv d (s.move i g) p := by
    intro i g hg hs
    exact h.stay (by rw [hs]; exact id) hg rfl
  cases a with
  | lock i f =>
    simp only [Spinlock.step] at hstep
    split at hstep
    · next hs =>
      cases hstep
      exact ⟨p, hcall i _ id hs⟩
    · cases hstep
  | trylock i f =>
    simp only [Spinlock.step] at hstep
    split at hstep
    · next hs =>
      cases hstep
      exact ⟨p, hcall i _ id hs⟩
    · cases hstep
  | go i => exact h.go hstep

/-! ### Calls and updates -/

def Action.calls (i : ι) : Action ι σ → List (σ → σ)
  | .lock j f => if j = i then [f] else []
  | .trylock j f => if j = i then [f] else []
  | .go _ => []

/-- The updates of processor `i` that are through, and the one it is at. -/
def State.made (s : State ι σ) (i : ι) : List (σ → σ) :=
  (s.log.filter fun e => e.caller = i).map Entry.f ++ (s.stage i).pending

theorem made_move (locked : ℕ) (data : σ) {log l : List (Entry ι σ)} {g : Stage σ}
    {new : List (σ → σ)} (hlog : log = s.log ++ l) (hl : ∀ e ∈ l, e.caller = j)
    (hnew : l.map Entry.f ++ g.pending = (s.stage j).pending ++ new) (i : ι) :
    ((⟨locked, data, s.stage, log⟩ : State ι σ).move j g).made i =
      s.made i ++ if j = i then new else [] := by
  have hmoved : ((⟨locked, data, s.stage, log⟩ : State ι σ).move j g).log = s.log ++ l := hlog
  unfold State.made
  rw [hmoved, List.filter_append, List.map_append, List.append_assoc, List.append_assoc]
  congr 1
  by_cases hj : j = i
  · subst hj
    have hall : l.filter (fun e => e.caller = j) = l :=
      List.filter_eq_self.mpr fun e he => decide_eq_true (hl e he)
    rw [hall, stage_move, if_pos rfl]
    exact hnew
  · have hnone : l.filter (fun e => e.caller = i) = [] :=
      List.filter_eq_nil_iff.mpr fun e he => by simp [hl e he, hj]
    rw [hnone, if_neg hj, List.append_nil, List.map_nil, List.nil_append]
    exact congrArg Stage.pending (stage_move_of_ne g (Ne.symm hj))

/-- An access turns what is pending into an entry of the log, or leaves it. -/
theorem made_go (hgo : go s j = some t) (i : ι) : t.made i = s.made i := by
  have hxchg : atomicXchg s.locked 1 = (s.locked, 1) := rfl
  have hkept : ∀ locked g, g.pending = (s.stage j).pending →
      ((⟨locked, s.data, s.stage, s.log⟩ : State ι σ).move j g).made i = s.made i := by
    intro locked g hg
    have hmade := made_move locked s.data (List.append_nil s.log).symm
      (fun _ he => nomatch he) (hg.trans (List.append_nil _).symm) i
    rwa [ite_self, List.append_nil] at hmade
  have hdone : ∀ locked data f taken g, g.pending = [] → (s.stage j).pending = [f] →
      ((⟨locked, data, s.stage, s.log ++ [⟨j, f, taken⟩]⟩ : State ι σ).move j g).made i =
        s.made i := by
    intro locked data f taken g hg hf
    have hl : ∀ e ∈ [Entry.mk j f taken], e.caller = j := fun e he => by
      rw [List.mem_singleton.mp he]
    have hnew : [Entry.mk j f taken].map Entry.f ++ g.pending = (s.stage j).pending ++ [] := by
      rw [hg, hf]
      rfl
    have hmade := made_move locked data rfl hl hnew i
    rwa [ite_self, List.append_nil] at hmade
  unfold go at hgo
  cases hs : s.stage j with
  | outside => simp only [hs, reduceCtorEq] at hgo
  | exchanging f =>
    simp only [hs, hxchg, Option.some.injEq] at hgo
    subst hgo
    split_ifs <;> exact hkept _ _ (congrArg Stage.pending hs).symm
  | spinning f =>
    simp only [hs, Option.some.injEq] at hgo
    subst hgo
    split_ifs <;> exact hkept _ _ (congrArg Stage.pending hs).symm
  | trying f =>
    simp only [hs, hxchg] at hgo
    split_ifs at hgo <;> cases hgo
    · exact hkept 1 _ (congrArg Stage.pending hs).symm
    · exact hdone _ _ _ _ _ rfl (congrArg Stage.pending hs)
  | entered f =>
    simp only [hs, Option.some.injEq] at hgo
    subst hgo
    exact hkept _ _ (congrArg Stage.pending hs).symm
  | loaded f v =>
    simp only [hs, Option.some.injEq] at hgo
    subst hgo
    exact hdone _ _ _ _ _ rfl (congrArg Stage.pending hs)
  | unlocking =>
    simp only [hs, Option.some.injEq] at hgo
    subst hgo
    exact hkept _ _ (congrArg Stage.pending hs).symm

theorem made_step (hstep : step s a = some t) (i : ι) : t.made i = s.made i ++ a.calls i := by
  have hcall : ∀ j g f, s.stage j = .outside → g.pending = [f] →
      (s.move j g).made i = s.made i ++ if j = i then [f] else [] := by
    intro j g f hs hg
    exact made_move s.locked s.data (List.append_nil s.log).symm (fun _ he => nomatch he)
      (by rw [hs, hg]; rfl) i
  cases a with
  | lock j f =>
    simp only [step] at hstep
    split at hstep <;> cases hstep
    next hs => exact hcall j _ f hs rfl
  | trylock j f =>
    simp only [step] at hstep
    split at hstep <;> cases hstep
    next hs => exact hcall j _ f hs rfl
  | go j => rw [made_go hstep, Action.calls, List.append_nil]

theorem made_run (h : Run step anyCall s as t) (i : ι) :
    t.made i = s.made i ++ as.flatMap (Action.calls i) := by
  induction h with
  | nil s => exact (List.append_nil _).symm
  | cons _ hstep _ ih => rw [ih, made_step hstep, List.flatMap_cons, List.append_assoc]

/-! ### Progress -/

/-- Processor `j` has left the section, and nobody else has moved. -/
def Leaves (s : State ι σ) (j : ι) : Prop :=
  ∃ as t, Run step anyCall s as t ∧ t.locked = 0 ∧ t.stage j = .outside ∧
    ∀ k, k ≠ j → t.stage k = s.stage k

theorem Leaves.of_go (hgo : go s j = some t) (hothers : ∀ k, k ≠ j → t.stage k = s.stage k)
    (h : Leaves t j) : Leaves s j := by
  obtain ⟨as, u, hrun, hfree, hout, hrest⟩ := h
  exact ⟨.go j :: as, u, .cons trivial hgo hrun, hfree, hout,
    fun k hk => (hrest k hk).trans (hothers k hk)⟩

/-- The holder gets out of the section by itself. -/
theorem leaves_of_inside (hin : (s.stage j).Inside) : Leaves s j := by
  have hunlocking : ∀ s : State ι σ, s.stage j = .unlocking → Leaves s j := by
    intro s hs
    have hgo : go s j = some (({ s with locked := 0 } : State ι σ).move j .outside) := by
      simp only [go, hs]
    exact ⟨[.go j], _, .cons trivial hgo (.nil _), rfl, stage_move _,
      fun k hk => stage_move_of_ne _ hk⟩
  have hloaded : ∀ (s : State ι σ) f v, s.stage j = .loaded f v → Leaves s j := by
    intro s f v hs
    have hgo : go s j = some (({ s with
        data := f v, log := s.log ++ [⟨j, f, true⟩] } : State ι σ).move j .unlocking) := by
      simp only [go, hs]
    exact .of_go hgo (fun k hk => stage_move_of_ne _ hk) (hunlocking _ (stage_move _))
  cases hs : s.stage j with
  | entered f =>
    have hgo : go s j = some (s.move j (.loaded f s.data)) := by simp only [go, hs]
    exact .of_go hgo (fun k hk => stage_move_of_ne _ hk) (hloaded _ _ _ (stage_move _))
  | loaded f v => exact hloaded s f v hs
  | unlocking => exact hunlocking s hs
  | outside => rw [hs] at hin; exact hin.elim
  | exchanging f => rw [hs] at hin; exact hin.elim
  | spinning f => rw [hs] at hin; exact hin.elim
  | trying f => rw [hs] at hin; exact hin.elim

/-- A processor that waits for the free lock takes it and gets out again. -/
theorem leaves_of_free (hfree : s.locked = 0) (hi : s.stage i ≠ .outside) : Leaves s i := by
  have hexchanging : ∀ (s : State ι σ) f, s.locked = 0 → s.stage i = .exchanging f →
      Leaves s i := by
    intro s f hfree hs
    have hgo : go s i = some (({ s with locked := 1 } : State ι σ).move i (.entered f)) := by
      simp only [go, hs, atomicXchg, hfree, if_true]
    refine .of_go hgo (fun k hk => stage_move_of_ne _ hk) (leaves_of_inside ?_)
    rw [stage_move]
    trivial
  cases hs : s.stage i with
  | outside => exact absurd hs hi
  | exchanging f => exact hexchanging s f hfree hs
  | spinning f =>
    have hgo : go s i = some (s.move i (.exchanging f)) := by
      simp only [go, hs, hfree, if_true]
    exact .of_go hgo (fun k hk => stage_move_of_ne _ hk) (hexchanging _ f hfree (stage_move _))
  | trying f =>
    have hgo : go s i = some (({ s with locked := 1 } : State ι σ).move i (.entered f)) := by
      simp only [go, hs, atomicXchg, hfree, if_true]
    refine .of_go hgo (fun k hk => stage_move_of_ne _ hk) (leaves_of_inside ?_)
    rw [stage_move]
    trivial
  | entered f => exact leaves_of_inside (by rw [hs]; trivial)
  | loaded f v => exact leaves_of_inside (by rw [hs]; trivial)
  | unlocking => exact leaves_of_inside (by rw [hs]; trivial)

theorem LockInv.exists_outside (h : LockInv d s p) (i : ι) :
    ∃ as t, Run Spinlock.step anyCall s as t ∧ t.stage i = .outside := by
  by_cases hi : s.stage i = .outside
  · exact ⟨[], s, .nil s, hi⟩
  cases p with
  | none =>
    obtain ⟨as, t, hrun, -, hout, -⟩ := leaves_of_free (h.free_iff.mpr rfl) hi
    exact ⟨as, t, hrun, hout⟩
  | some j =>
    -- The holder leaves first.
    obtain ⟨as, t, hrun, hfree, hout, hothers⟩ := leaves_of_inside ((h.inside j).mpr rfl)
    by_cases hij : i = j
    · exact ⟨as, t, hrun, hij ▸ hout⟩
    · obtain ⟨as', u, hrun', -, hout', -⟩ :=
        leaves_of_free hfree (by rw [hothers i hij]; exact hi)
      exact ⟨as ++ as', u, hrun.append hrun', hout'⟩

/-! ### Serial updates -/

/-- From `spinlock_init` on, for any number of processors and any order of their steps: at most
one is inside; the data is what the updates of the log make of it one after the other; every
processor's calls are in the log once each and in order, up to the one it is at; and every call
can still return. -/
theorem spinlock_serializes (h : Run step anyCall (spinlockInit d : State ι σ) as t) :
    (∀ i j, (t.stage i).Inside → (t.stage j).Inside → i = j) ∧
      t.data = replay d t.log ∧
      (∀ i, as.flatMap (Action.calls i) =
        (t.log.filter fun e => e.caller = i).map Entry.f ++ (t.stage i).pending) ∧
      ∀ i, ∃ more u, Run step anyCall t more u ∧ u.stage i = .outside := by
  obtain ⟨p, hinv⟩ : ∃ p, LockInv d t p :=
    h.invariant (fun s => ∃ p, LockInv d s p) (fun s a t ⟨p, hs⟩ _ hstep => hs.step hstep)
      ⟨none, lockInv_spinlockInit d⟩
  refine ⟨fun i j hi hj => ?_, hinv.data, fun i => (made_run h i).symm, hinv.exists_outside⟩
  have he := ((hinv.inside i).mp hi).symm.trans ((hinv.inside j).mp hj)
  exact Option.some.inj he

/-- Two processors add one each, the second asks while the first is inside, and a third one tries
in vain. -/
theorem spinlock_serializes_three :
    let add : ℕ → ℕ := (· + 1)
    let as : List (Action (Fin 3) ℕ) := [.lock 0 add, .lock 1 add, .go 0, .go 0, .go 1, .go 1,
      .trylock 2 add, .go 2, .go 0, .go 0, .go 1, .go 1, .go 1, .go 1, .go 1]
    ∃ t, Run step anyCall (spinlockInit 0) as t ∧ t.data = 2 ∧ t.data = replay 0 t.log ∧
      ∀ i, as.flatMap (Action.calls i) =
        (t.log.filter fun e => e.caller = i).map Entry.f ++ (t.stage i).pending := by
  intro add as
  obtain ⟨t, ht⟩ : ∃ t, as.foldlM step (spinlockInit 0) = some t := ⟨_, rfl⟩
  have hrun := Run.of_foldlM ht
  obtain ⟨-, hdata, hcalls, -⟩ := spinlock_serializes hrun
  refine ⟨t, hrun, ?_, hdata, hcalls⟩
  cases ht
  rfl

end Serial

end OpenKernel.Spinlock
