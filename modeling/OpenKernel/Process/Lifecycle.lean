import OpenKernel.Process.References
import Mathlib.Data.Fintype.Card

/-!
# Creation and termination

What `process_create` and `process_terminate` change, and the two facts about
`remove_from_ready_queue` that termination rests on: from any queue shape it
leads nowhere new, and from an intact ring it takes the process off unless the
process is the entry of a longer ring.
-/

namespace OpenKernel.Process

open Function Linked

section Create

variable {s : State} {entry priority stack : ℕ}

theorem processCreate_of_none (h : createdSlot s = none) :
    processCreate s entry priority stack = (s, 0) := by
  unfold createdSlot at h
  unfold processCreate
  split_ifs at h ⊢ with hm
  · rfl
  · rw [h]

theorem processCreate_of_some {i : Slot} (h : createdSlot s = some i) :
    processCreate s entry priority stack =
      ({ addToReadyQueue (pcbInit { s with nextPid := word (s.nextPid + 1) } i s.nextPid entry
          priority stack) i with processCount := word (s.processCount + 1) }, s.nextPid) := by
  unfold createdSlot at h
  unfold processCreate
  split_ifs at h with hm
  simp [hm, h, statics_pcbInit]

theorem createdSlot_eq_some {i : Slot} (h : createdSlot s = some i) :
    s.processCount < maxProcesses ∧ findFreePcb s = some i := by
  unfold createdSlot at h
  split_ifs at h with hm
  exact ⟨not_le.mp hm, h⟩

variable {i : Slot} (h : createdSlot s = some i)
include h

theorem status_processCreate :
    (processCreate s entry priority stack).1.pcbs.status = update s.pcbs.status i .ready := by
  simp [processCreate_of_some h, status_pcbInit]

theorem pidOf_processCreate :
    (processCreate s entry priority stack).1.pcbs.pidOf = update s.pcbs.pidOf i s.nextPid := by
  simp [processCreate_of_some h, pidOf_pcbInit]

theorem link_processCreate :
    (processCreate s entry priority stack).1.pcbs.link =
      addLinks (update s.pcbs.link i none) s.readyQueue i := by
  simp [processCreate_of_some h, link_pcbInit, statics_pcbInit]

theorem statics_processCreate (entry priority stack : ℕ) :
    (processCreate s entry priority stack).1.readyQueue = some (s.readyQueue.getD i) ∧
      (processCreate s entry priority stack).1.currentProcess = s.currentProcess ∧
      (processCreate s entry priority stack).1.nextPid = word (s.nextPid + 1) ∧
      (processCreate s entry priority stack).1.processCount = word (s.processCount + 1) ∧
      (processCreate s entry priority stack).1.waitQueues = s.waitQueues := by
  simp [processCreate_of_some h, statics_pcbInit]

theorem processCreate_frame {j : Slot} (hj : j ≠ i) :
    ∃ v, (processCreate s entry priority stack).1.pcbs j = { s.pcbs j with next := v } := by
  have hinit : (pcbInit { s with nextPid := word (s.nextPid + 1) } i s.nextPid entry
      priority stack).pcbs j = s.pcbs j := by
    unfold pcbInit
    split_ifs <;> simp [Table.modify_of_ne, hj]
  obtain ⟨v, hv⟩ := addToReadyQueue_frame (pcbInit { s with nextPid := word (s.nextPid + 1) } i
    s.nextPid entry priority stack) i hj
  rw [processCreate_of_some h]
  exact ⟨v, by rw [hv, hinit]⟩

/-- Creation refers to one more process than before, the created one. -/
theorem confined_processCreate {A : Set Slot} (hs : Confined A s) (hi : i ∈ A) :
    Confined A (processCreate s entry priority stack).1 := by
  obtain ⟨hrq, hcur, -, -, hwq⟩ :=
    statics_processCreate h entry priority stack
  refine ⟨hs.idle, fun c hc => hs.current c (hcur ▸ hc), ?_⟩
  intro p hp
  have hclosed : Closed (update s.pcbs.link i none) {p | Queued s p} :=
    (closed_queued s).update (by simp)
  have hin := hp.subset (R := insert i {p | Queued s p}) ?_ ?_ ?_
  · rcases hin with rfl | hq
    · exact hi
    · exact hs.queued p hq
  · rw [link_processCreate h]
    exact closed_addLinks hclosed (fun _ => Queued.of_readyQueue) i
  · intro a ha
    rw [hrq] at ha
    cases hq : s.readyQueue with
    | none =>
      rw [hq, Option.getD_none, Option.some.injEq] at ha
      exact Or.inl ha.symm
    | some b =>
      rw [hq, Option.getD_some, Option.some.injEq] at ha
      exact Or.inr (ha ▸ Queued.of_readyQueue hq)
  · intro k a ha
    rw [hwq] at ha
    exact Or.inr (Queued.of_head ha)

end Create

section RemoveLoop

variable {link : Slot → Option Slot} {pcb head : Slot}

theorem removeLoop_reach {p : Option Slot} {fuel : ℕ} {cur c : Slot} {found : Bool}
    (hp : Reach link p cur) (h : removeLoop link pcb head fuel cur = some (c, found)) :
    Reach link p c ∧ (found = true → link c = some pcb) := by
  induction fuel generalizing cur with
  | zero => simp [removeLoop] at h
  | succ fuel ih =>
    cases hl : link cur with
    | none => simp [removeLoop, hl] at h
    | some n =>
      simp only [removeLoop, hl] at h
      split_ifs at h with h₁ h₂
      · cases h
        exact ⟨hp, by simp⟩
      · cases h
        exact ⟨hp, fun _ => h₂ ▸ hl⟩
      · exact ih (.step hp hl) h

/-- The loop stops in front of `pcb`. -/
theorem removeLoop_found {b : Slot} (hph : pcb ≠ head) (l : List Slot) (cur : Slot) (fuel : ℕ)
    (hs : Seg link (some cur) (l ++ [b]) (some pcb)) (hfuel : l.length < fuel)
    (hl : ∀ y ∈ (l ++ [b]).tail, y ≠ head ∧ y ≠ pcb) :
    removeLoop link pcb head fuel cur = some (b, true) := by
  induction l generalizing cur fuel with
  | nil =>
    obtain ⟨fuel, rfl⟩ := Nat.exists_eq_succ_of_ne_zero (by omega : fuel ≠ 0)
    obtain ⟨hc, hn⟩ := hs
    cases hc
    simp [removeLoop, show link b = some pcb from hn, hph]
  | cons x l ih =>
    obtain ⟨fuel, rfl⟩ := Nat.exists_eq_succ_of_ne_zero (by omega : fuel ≠ 0)
    rw [List.cons_append] at hs
    obtain ⟨hc, hn⟩ := hs
    cases hc
    obtain ⟨y, k, hyk⟩ : ∃ y k, l ++ [b] = y :: k := by cases l <;> simp
    have hy : link x = some y := by
      rw [hyk] at hn
      exact hn.1
    have hne := hl y (by simp [hyk])
    simp only [removeLoop, hy, hne.1, hne.2, if_false]
    refine ih y fuel (hy ▸ hn) ?_ fun z hz => hl z ?_
    · simp only [List.length_cons] at hfuel
      omega
    · exact List.mem_of_mem_tail hz

theorem removeLoop_notFound (l : List Slot) (cur : Slot) (fuel : ℕ)
    (hs : Seg link (some cur) (cur :: l) (some head)) (hfuel : l.length < fuel)
    (hl : ∀ y ∈ l, y ≠ head ∧ y ≠ pcb) :
    ∃ c, removeLoop link pcb head fuel cur = some (c, false) := by
  induction l generalizing cur fuel with
  | nil =>
    obtain ⟨fuel, rfl⟩ := Nat.exists_eq_succ_of_ne_zero (by omega : fuel ≠ 0)
    exact ⟨cur, by simp [removeLoop, show link cur = some head from hs.2]⟩
  | cons y l ih =>
    obtain ⟨fuel, rfl⟩ := Nat.exists_eq_succ_of_ne_zero (by omega : fuel ≠ 0)
    obtain ⟨-, hy, hn⟩ := hs
    have hne := hl y (by simp)
    simp only [removeLoop, hy, hne.1, hne.2, if_false]
    refine ih y fuel ⟨rfl, hn⟩ ?_ fun z hz => hl z (by simp [hz])
    simp only [List.length_cons] at hfuel
    omega

theorem removeLoop_ring_found {e b : Slot} {rest l₁ l₂ : List Slot}
    (hring : Ring link (some e) (e :: rest)) (hl : e :: rest = l₁ ++ b :: pcb :: l₂)
    (hne : pcb ≠ e) : removeLoop link pcb e maxProcesses e = some (b, true) := by
  have hassoc : l₁ ++ b :: pcb :: l₂ = (l₁ ++ [b]) ++ pcb :: l₂ := by simp
  have hnodup : ((l₁ ++ [b]) ++ pcb :: l₂).Nodup := by
    rw [← hassoc, ← hl]
    exact hring.2
  have hseg : Seg link (some e) ((l₁ ++ [b]) ++ pcb :: l₂) (some e) := by
    rw [← hassoc, ← hl]
    exact hring.1
  obtain ⟨m, hm, hm', -⟩ := seg_append.mp hseg
  refine removeLoop_found hne l₁ e maxProcesses (hm' ▸ hm) ?_ ?_
  · have hlen := hring.length_le_card
    rw [Fintype.card_fin] at hlen
    rw [hl] at hlen
    simp only [List.length_append, List.length_cons] at hlen
    omega
  · intro y hy
    constructor
    · have hrest : y ∈ rest := by
        have : rest = (l₁ ++ [b]).tail ++ pcb :: l₂ := by
          rw [← List.tail_append_of_ne_nil (by simp), ← hassoc, ← hl, List.tail_cons]
        rw [this]
        exact List.mem_append_left _ hy
      rintro rfl
      exact (List.nodup_cons.mp hring.2).1 hrest
    · rintro rfl
      exact List.disjoint_of_nodup_append hnodup (List.mem_of_mem_tail hy) (by simp)

theorem removeLoop_ring_notFound {e : Slot} {rest : List Slot}
    (hring : Ring link (some e) (e :: rest)) (hp : pcb ∉ rest) :
    ∃ c, removeLoop link pcb e maxProcesses e = some (c, false) := by
  refine removeLoop_notFound rest e maxProcesses hring.1 ?_ ?_
  · have hlen := hring.length_le_card
    rw [Fintype.card_fin] at hlen
    simp only [List.length_cons] at hlen
    omega
  · intro y hy
    constructor
    · rintro rfl
      exact (List.nodup_cons.mp hring.2).1 hy
    · rintro rfl
      exact hp hy

end RemoveLoop

section Terminate

variable {A : Set Slot} {s t u : State} {p : Slot} {pid : ℕ}

/-- From any queue shape, removal leads nowhere the queues did not lead before. -/
theorem Routine.removeFromReadyQueue (h : Confined A s) (he : removeFromReadyQueue s p = some u) :
    Routine A s u := by
  unfold Process.removeFromReadyQueue at he
  cases hq : s.readyQueue with
  | none =>
    simp only [hq, Option.some.injEq] at he
    exact he ▸ refl h
  | some head =>
    simp only [hq] at he
    have hhead : ∀ q a, (s.waitQueues q).head = some a → Queued s a := fun _ _ => Queued.of_head
    by_cases hself : s.pcbs.link head = some head
    · rw [if_pos hself] at he
      cases he
      refine ⟨⟨h.idle, h.current, ?_⟩, by simp, by simp, by simp, rfl, rfl⟩
      intro a ha
      refine h.queued a (ha.subset (R := {p | Queued s p}) ?_ (by simp) hhead)
      simp only [Table.link_setNext]
      exact (closed_queued s).update (by simp)
    · rw [if_neg hself] at he
      obtain ⟨⟨c, found⟩, hloop, rfl⟩ := Option.map_eq_some_iff.mp he
      have hroot : Reach s.pcbs.link s.readyQueue head := .root hq
      obtain ⟨hc, hfound⟩ := removeLoop_reach hroot hloop
      have hclosed : Closed (if found then s.pcbs.setNext c (s.pcbs.link p) else s.pcbs).link
          {p | Queued s p} := by
        split_ifs with hf
        · rw [Table.link_setNext]
          apply (closed_queued s).update
          intro b hb
          exact Or.inl (.step (.step hc (hfound hf)) hb)
        · exact closed_queued s
      refine ⟨⟨h.idle, h.current, ?_⟩, ?_, ?_, ?_, rfl, rfl⟩
      · intro a ha
        refine h.queued a (ha.subset (R := {p | Queued s p}) ?_ ?_ hhead)
        · simp only [Table.link_setNext]
          exact hclosed.update (by simp)
        · intro b hb
          simp only at hb
          split_ifs at hb
          · exact Or.inl (Option.some.inj hb ▸ hc)
          · exact Or.inl (Option.some.inj hb ▸ hroot)
      · cases found <;> simp
      · cases found <;> simp
      · cases found <;> simp

theorem Routine.schedulerRemoveProcess (h : Confined A s)
    (he : schedulerRemoveProcess s p = some u) : Routine A s u := by
  unfold Process.schedulerRemoveProcess at he
  split_ifs at he
  · exact removeFromReadyQueue h he
  · cases he
    exact refl h

/-- Everything `process_terminate` can do when it returns. -/
theorem processTerminate_cases (he : processTerminate s pid = some t) :
    (t = s ∧ (pid = 0 ∨ s.nextPid ≤ pid ∨
      ∃ h : pid < maxProcesses, s.pcbs.status ⟨pid, h⟩ = .zombie)) ∨
    ∃ h : pid < maxProcesses, pid ≠ 0 ∧ pid < s.nextPid ∧ s.pcbs.status ⟨pid, h⟩ ≠ .zombie ∧
      ∃ u, schedulerRemoveProcess s ⟨pid, h⟩ = some u ∧ t = markTerminated u ⟨pid, h⟩ := by
  unfold processTerminate at he
  dsimp only at he
  split_ifs at he with h₁ h₂ h₃ h₄
  · exact Or.inl ⟨(Option.some.inj he).symm, Or.inl h₁⟩
  · exact Or.inl ⟨(Option.some.inj he).symm, Or.inr (Or.inl h₂)⟩
  · exact Or.inl ⟨(Option.some.inj he).symm, Or.inr (Or.inr ⟨h₃, h₄⟩)⟩
  · obtain ⟨u, hu, ht⟩ := Option.map_eq_some_iff.mp he
    exact Or.inr ⟨h₃, h₁, not_le.mp h₂, h₄, u, hu, ht.symm⟩

@[simp] theorem link_markTerminated : (markTerminated s p).pcbs.link = s.pcbs.link :=
  (Table.link_modify _ _ _).trans (update_eq_self p s.pcbs.link)

@[simp] theorem status_markTerminated :
    (markTerminated s p).pcbs.status = update s.pcbs.status p .zombie :=
  Table.status_modify _ _ _

@[simp] theorem pidOf_markTerminated : (markTerminated s p).pcbs.pidOf = s.pcbs.pidOf :=
  (Table.pidOf_modify _ _ _).trans (update_eq_self p s.pcbs.pidOf)

theorem confined_markTerminated (h : Confined A s) : Confined A (markTerminated s p) := by
  refine ⟨h.idle, h.current, fun q hq => h.queued q ?_⟩
  unfold Queued at hq
  rwa [link_markTerminated] at hq

/-- The ready queue is an intact ring, `p` is not the entry of a longer one, and no wait
queue leads to `p`. -/
def Removable (s : State) (p : Slot) : Prop :=
  (∃ l, Ring s.pcbs.link s.readyQueue l ∧ (s.readyQueue = some p → l = [p])) ∧
    ∀ q, ¬ Reach s.pcbs.link (s.waitQueues q).head p

/-- Relinking around `p` and clearing its link leaves no way to `p`, if there was only the
relinked one. -/
theorem not_queued_of_relink {b : Slot} {v : Option Slot} {R : Set Slot}
    (hw : ∀ q, ¬ Reach s.pcbs.link (s.waitQueues q).head p) (hb : s.pcbs.link b = some p ∨
      v = s.pcbs.link b)
    (hwq : u.waitQueues = s.waitQueues)
    (hlink : u.pcbs.link = update (update s.pcbs.link b v) p none)
    (hR : Closed u.pcbs.link R) (hrq : ∀ a, u.readyQueue = some a → a ∈ R) (hp : p ∉ R) :
    ¬ Queued u p := by
  -- the cells of the wait queues keep their links, since none of them is `b` or `p`
  have hW : Closed u.pcbs.link {a | ∃ q, Reach s.pcbs.link (s.waitQueues q).head a} := by
    rintro a ⟨q, ha⟩ c hc
    have hap : a ≠ p := fun e => hw q (e ▸ ha)
    rw [hlink, update_of_ne hap] at hc
    by_cases hab : a = b
    · subst hab
      rw [update_self] at hc
      rcases hb with hb | rfl
      · exact absurd (.step ha hb) (hw q)
      · exact ⟨q, .step ha hc⟩
    · rw [update_of_ne hab] at hc
      exact ⟨q, .step ha hc⟩
  rintro (hq | ⟨q, hq⟩)
  · exact hp (hR.reach_subset hrq hq)
  · obtain ⟨k, hk⟩ := hW.reach_subset (fun a ha => ⟨q, .root (hwq ▸ ha)⟩) hq
    exact hw k hk

/-- From an intact ring removal returns and the queues no longer lead to the process. -/
theorem removeFromReadyQueue_clean (h : Removable s p) :
    ∃ u, removeFromReadyQueue s p = some u ∧ ¬ Queued u p := by
  obtain ⟨⟨l, hring, hhead⟩, hw⟩ := h
  cases l with
  | nil =>
    have hq : s.readyQueue = none := hring.head_eq
    refine ⟨s, by simp [removeFromReadyQueue, hq], ?_⟩
    rintro (hp | ⟨q, hp⟩)
    · exact not_reach_none p (hq ▸ hp)
    · exact hw q hp
  | cons e rest =>
    have hq : s.readyQueue = some e := hring.head_eq
    rw [hq] at hring
    by_cases hself : s.pcbs.link e = some e
    · refine ⟨{ s with readyQueue := none, pcbs := s.pcbs.setNext p none },
        by simp [removeFromReadyQueue, hq, hself], ?_⟩
      refine not_queued_of_relink (b := p) (v := s.pcbs.link p) (R := ∅) hw (Or.inr rfl) rfl ?_
        (fun a ha => ha.elim) (by simp) (by simp)
      simp
    · have hne : p ≠ e := by
        rintro rfl
        have hsingle := hhead hq
        simp only [List.cons.injEq, true_and] at hsingle
        subst hsingle
        exact hself hring.1.2
      by_cases hp : p ∈ rest
      · obtain ⟨l₁, b, l₂, hl⟩ := exists_predecessor (h := e) hp
        have hloop := removeLoop_ring_found hring hl hne
        rw [hl] at hring
        refine ⟨{ s with readyQueue := some e, pcbs :=
            (s.pcbs.setNext b (s.pcbs.link p)).setNext p none },
          by simp [removeFromReadyQueue, hq, hself, hloop, hne.symm], ?_⟩
        have hring' := hring.unlink (v := none)
        refine not_queued_of_relink (b := b) (v := s.pcbs.link p) (R := {a | a ∈ l₁ ++ b :: l₂}) hw
          (Or.inl ?_) rfl (by simp) ?_ ?_ ?_
        · obtain ⟨m, -, -, hb, -⟩ := seg_append.mp hring.1
          exact hb
        · simpa using hring'.closed
        · intro a ha
          obtain rfl : e = a := Option.some.inj ha
          exact List.mem_of_head? hring'.head_eq.symm
        · have hn := hring.2
          rw [show l₁ ++ b :: p :: l₂ = (l₁ ++ [b]) ++ p :: l₂ by simp] at hn
          simpa using (List.nodup_cons.mp (List.nodup_middle.mp hn)).1
      · obtain ⟨c, hloop⟩ := removeLoop_ring_notFound hring hp
        refine ⟨{ s with readyQueue := some e, pcbs := s.pcbs.setNext p none },
          by simp [removeFromReadyQueue, hq, hself, hloop, hne.symm], ?_⟩
        refine not_queued_of_relink (b := p) (v := s.pcbs.link p) (R := {a | a ∈ e :: rest}) hw
          (Or.inr rfl) rfl (by simp) ?_ (by simp) (by simp [hne, hp])
        simp only [Table.link_setNext]
        exact hring.closed.update (by simp)

/-- Removal changes links and the entry of the ready queue only. -/
theorem schedulerRemoveProcess_shape (he : schedulerRemoveProcess s p = some u) :
    ∃ rq pcbs, u = { s with readyQueue := rq, pcbs := pcbs } ∧
      pcbs.status = s.pcbs.status ∧ pcbs.pidOf = s.pcbs.pidOf := by
  unfold schedulerRemoveProcess at he
  split_ifs at he
  · unfold removeFromReadyQueue at he
    cases hq : s.readyQueue with
    | none =>
      simp only [hq, Option.some.injEq] at he
      exact ⟨s.readyQueue, s.pcbs, he.symm, rfl, rfl⟩
    | some head =>
      simp only [hq] at he
      by_cases hself : s.pcbs.link head = some head
      · rw [if_pos hself] at he
        cases he
        exact ⟨_, _, rfl, by simp, by simp⟩
      · rw [if_neg hself] at he
        obtain ⟨⟨c, found⟩, -, rfl⟩ := Option.map_eq_some_iff.mp he
        refine ⟨_, _, rfl, ?_, ?_⟩
        · cases found <;> simp
        · cases found <;> simp
  · cases he
    exact ⟨s.readyQueue, s.pcbs, rfl, rfl, rfl⟩

theorem schedulerRemoveProcess_frame (he : schedulerRemoveProcess s p = some u) :
    u.pcbs.status = s.pcbs.status ∧ u.currentProcess = s.currentProcess := by
  obtain ⟨rq, pcbs, rfl, hst, -⟩ := schedulerRemoveProcess_shape he
  exact ⟨hst, rfl⟩

/-- `scheduler_remove_process` will leave no queue that leads to `p`: `p` is ready and can be
taken off the ready ring, or no queue leads to it anyway. -/
def Detachable (s : State) (p : Slot) : Prop :=
  (s.pcbs.status p = .ready ∧ Removable s p) ∨ (s.pcbs.status p ≠ .ready ∧ ¬ Queued s p)

theorem Detachable.removed (h : Detachable s p) :
    ∃ u, schedulerRemoveProcess s p = some u ∧ ¬ Queued u p := by
  rcases h with ⟨hr, h⟩ | ⟨hr, h⟩
  · obtain ⟨u, hu, hq⟩ := removeFromReadyQueue_clean h
    exact ⟨u, by simp [schedulerRemoveProcess, hr, hu], hq⟩
  · exact ⟨s, by simp [schedulerRemoveProcess, hr], h⟩

/-- Terminating a detachable process returns, and nothing refers to the process afterwards. -/
theorem processTerminate_detachable (hc : Confined A s) (h : pid < maxProcesses) (h0 : pid ≠ 0)
    (hn : pid < s.nextPid) (hz : s.pcbs.status ⟨pid, h⟩ ≠ .zombie)
    (hd : Detachable s ⟨pid, h⟩) (hcur : s.currentProcess ≠ some ⟨pid, h⟩) :
    ∃ t, processTerminate s pid = some t ∧ Confined (A \ {⟨pid, h⟩}) t ∧
      t.pcbs.status = update s.pcbs.status ⟨pid, h⟩ .zombie ∧ t.pcbs.pidOf = s.pcbs.pidOf ∧
      t.nextPid = s.nextPid ∧ t.processCount = word (s.processCount + 2 ^ 32 - 1) := by
  obtain ⟨u, hu, hq⟩ := hd.removed
  have hr := Routine.schedulerRemoveProcess hc hu
  obtain ⟨hst, hcu⟩ := schedulerRemoveProcess_frame hu
  refine ⟨markTerminated u ⟨pid, h⟩, ?_, ?_, ?_, ?_, ?_, ?_⟩
  · simp [processTerminate, h0, not_le.mpr hn, h, hz, hu]
  · apply confined_markTerminated
    refine ⟨⟨hc.idle, ?_⟩, fun c he => ⟨hr.confined.current c he, ?_⟩,
      fun q hq' => ⟨hr.confined.queued q hq', ?_⟩⟩
    · intro he
      exact h0 (congrArg Fin.val he).symm
    · rintro rfl
      exact hcur (hcu ▸ he)
    · rintro rfl
      exact hq hq'
  · rw [status_markTerminated, hst]
  · rw [pidOf_markTerminated, hr.pidOf_eq]
  · exact hr.nextPid_eq
  · exact congrArg (fun n => word (n + 2 ^ 32 - 1)) hr.processCount_eq

end Terminate

end OpenKernel.Process
