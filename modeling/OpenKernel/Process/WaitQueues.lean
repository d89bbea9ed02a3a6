import OpenKernel.Process.References

/-!
# Wait queues as lists

A wait queue in good order is a null-terminated list with a pointer to its last
cell. `Waiting s w` says that all wait queues of `s` are, with the waiters `w q`
of queue `q`, and that no process waits twice. Blocking appends the caller to
one of these lists, waking takes the first element off, and the scheduler leaves
them alone as long as it does not meet a waiter.
-/

namespace OpenKernel.Process

open Function Linked

section ReadyReach

variable {s : State} {a p prev cur head : Slot}

theorem reach_addToReadyQueue
    (h : Reach (addToReadyQueue s p).pcbs.link (addToReadyQueue s p).readyQueue a) :
    a = p ∨ Reach s.pcbs.link s.readyQueue a := by
  rw [link_addToReadyQueue, readyQueue_addToReadyQueue] at h
  have hR := closed_addLinks (closed_reach s.pcbs.link s.readyQueue) (fun _ => Reach.root) p
  refine hR.reach_subset ?_ h
  intro b hb
  cases hq : s.readyQueue with
  | none =>
    rw [hq, Option.getD_none, Option.some.injEq] at hb
    exact Or.inl hb.symm
  | some e =>
    rw [hq, Option.getD_some, Option.some.injEq] at hb
    exact Or.inr (hb ▸ .root rfl)

theorem reach_popped (hq : s.readyQueue = some head)
    (h : Reach (popped s head).pcbs.link (popped s head).readyQueue a) :
    Reach s.pcbs.link s.readyQueue a := by
  refine (closed_reach s.pcbs.link s.readyQueue).reach_subset ?_ h
  intro b hb
  simp only [popped] at hb
  split_ifs at hb
  exact Reach.step (.root hq) hb

theorem reach_dispatch
    (h : Reach (dispatch s prev cur).pcbs.link (dispatch s prev cur).readyQueue a) :
    (s.pcbs.status prev = .running ∧ a = prev) ∨ Reach s.pcbs.link s.readyQueue a := by
  rw [link_dispatch, readyQueue_dispatch] at h
  unfold requeueLinks requeueEntry at h
  split_ifs at h with hr
  · rw [← link_addToReadyQueue, ← readyQueue_addToReadyQueue] at h
    exact (reach_addToReadyQueue h).imp_left fun he => ⟨hr, he⟩
  · exact Or.inr h

theorem reach_schedulerSchedule
    (h : Reach (schedulerSchedule s).pcbs.link (schedulerSchedule s).readyQueue a) :
    (s.currentProcess = some a ∧ s.pcbs.status a = .running) ∨
      Reach s.pcbs.link s.readyQueue a := by
  rcases schedulerSchedule_cases s with ⟨he, -⟩ | ⟨prev, hc, -, -, -, he⟩ |
    ⟨prev, head, hc, -, hq, he⟩
  · exact Or.inr (he ▸ h)
  · rw [he] at h
    rcases reach_dispatch h with ⟨hr, rfl⟩ | h
    · exact Or.inl ⟨hc, hr⟩
    · exact Or.inr h
  · rw [he] at h
    rcases reach_dispatch h with ⟨hr, rfl⟩ | h
    · exact Or.inl ⟨hc, hr⟩
    · exact Or.inr (reach_popped hq h)

theorem currentProcess_schedulerSchedule (h : (schedulerSchedule s).currentProcess = some a) :
    (s.currentProcess = some a ∧ (s.processCount ≠ 0 → s.pcbs.pidOf a = 0)) ∨ a = 0 ∨
      Reach s.pcbs.link s.readyQueue a := by
  rcases schedulerSchedule_cases s with ⟨he, hstay⟩ | ⟨prev, hc, -, -, -, he⟩ |
    ⟨prev, head, hc, -, hq, he⟩
  · rw [he] at h
    exact Or.inl ⟨h, fun hn => (hstay a h hn).2⟩
  · rw [he, currentProcess_dispatch] at h
    exact Or.inr (Or.inl (Option.some.inj h).symm)
  · rw [he, currentProcess_dispatch] at h
    exact Or.inr (Or.inr (Option.some.inj h ▸ .root hq))

/-- The scheduler changes the states of a running process it leaves and of the one it enters. -/
theorem status_schedulerSchedule
    (hcur : s.currentProcess = some a → s.pcbs.status a ≠ .running)
    (hnew : (schedulerSchedule s).currentProcess ≠ some a) :
    (schedulerSchedule s).pcbs.status a = s.pcbs.status a := by
  have key : ∀ t : State, t.pcbs = s.pcbs → ∀ prev cur : Slot, s.currentProcess = some prev →
      schedulerSchedule s = dispatch t prev cur →
      (schedulerSchedule s).pcbs.status a = s.pcbs.status a := by
    intro t ht prev cur hc he
    have hacur : a ≠ cur := by
      rintro rfl
      exact hnew (by rw [he, currentProcess_dispatch])
    rw [he, status_dispatch, update_of_ne hacur, requeueStatus, ht]
    split_ifs with hr
    · refine update_of_ne ?_ _ _
      rintro rfl
      exact hcur hc hr
    · rfl
  rcases schedulerSchedule_cases s with ⟨he, -⟩ | ⟨prev, hc, -, -, -, he⟩ |
    ⟨prev, head, hc, -, -, he⟩
  · rw [he]
  · exact key s rfl prev 0 hc he
  · exact key (popped s head) rfl prev head hc he

end ReadyReach

/-- A null-terminated list of cells, each once, with a pointer to the last. -/
def WaitList (link : Slot → Option Slot) (wq : WaitQueue) (l : List Slot) : Prop :=
  Seg link wq.head l none ∧ l.Nodup ∧ wq.tail = l.getLast?

structure Waiting (s : State) (w : ℕ → List Slot) : Prop where
  list : ∀ q, WaitList s.pcbs.link (s.waitQueues q) (w q)
  disjoint : ∀ q r p, p ∈ w q → p ∈ w r → q = r

namespace Waiting

variable {s t : State} {w : ℕ → List Slot} {p prev cur : Slot} {q : ℕ}

theorem head_eq (h : Waiting s w) (q : ℕ) : (s.waitQueues q).head = (w q).head? := by
  have hs := (h.list q).1
  cases hw : w q with
  | nil =>
    rw [hw] at hs
    exact hs
  | cons a l =>
    rw [hw] at hs
    exact hs.1

theorem congr (h : Waiting s w) (hwq : t.waitQueues = s.waitQueues)
    (hlink : ∀ q, ∀ p ∈ w q, t.pcbs.link p = s.pcbs.link p) : Waiting t w := by
  refine ⟨fun q => ?_, h.disjoint⟩
  obtain ⟨hs, hn, ht⟩ := h.list q
  rw [hwq]
  exact ⟨hs.congr (hlink q), hn, ht⟩

theorem addToReadyQueue (h : Waiting s w) (hp : ∀ q, p ∉ w q)
    (hrq : ∀ e, s.readyQueue = some e → ∀ q, e ∉ w q) : Waiting (addToReadyQueue s p) w := by
  apply h.congr (by simp)
  intro q a ha
  have hap : a ≠ p := fun e => hp q (e ▸ ha)
  rw [link_addToReadyQueue]
  cases hq : s.readyQueue with
  | none => exact update_of_ne hap _ _
  | some e =>
    have hae : a ≠ e := fun e' => hrq e hq q (e' ▸ ha)
    rw [addLinks, update_of_ne hae, update_of_ne hap]

theorem dispatch (h : Waiting s w) (hp : s.pcbs.status prev = .running → ∀ q, prev ∉ w q)
    (hrq : ∀ e, s.readyQueue = some e → ∀ q, e ∉ w q) : Waiting (dispatch s prev cur) w := by
  by_cases hr : s.pcbs.status prev = .running
  · have hadd := h.addToReadyQueue (hp hr) hrq
    exact hadd.congr (by simp) fun q a _ => by simp [requeueLinks, hr]
  · exact h.congr (by simp) fun q a _ => by simp [requeueLinks, hr]

theorem schedulerSchedule (h : Waiting s w)
    (hcur : ∀ c, s.currentProcess = some c → s.pcbs.status c = .running → ∀ q, c ∉ w q)
    (hready : ∀ a, Reach s.pcbs.link s.readyQueue a → ∀ q, a ∉ w q) :
    Waiting (schedulerSchedule s) w := by
  rcases schedulerSchedule_cases s with ⟨he, -⟩ | ⟨prev, hc, -, hn, -, he⟩ |
    ⟨prev, head, hc, -, hq, he⟩
  · rw [he]
    exact h
  · rw [he]
    exact h.dispatch (hcur prev hc) (by simp [hn])
  · rw [he]
    have hpop : Waiting (popped s head) w := h.congr rfl fun _ _ _ => rfl
    exact hpop.dispatch (hcur prev hc) fun e he' => hready e (reach_popped hq (.root he'))

theorem mem_update_append {r : ℕ} {a : Slot} :
    a ∈ update w q (w q ++ [p]) r ↔ a ∈ w r ∨ r = q ∧ a = p := by
  by_cases hr : r = q
  · subst hr
    simp
  · rw [update_of_ne hr]
    simp [hr]

/-- Blocking puts the caller behind the other waiters. -/
theorem appendWaiter (h : Waiting s w) (hp : ∀ r, p ∉ w r) (hnull : s.pcbs.link p = none) :
    Waiting (appendWaiter s q p) (update w q (w q ++ [p])) := by
  obtain ⟨hs, hn, ht⟩ := h.list q
  have hdisj : ∀ r r' a, a ∈ update w q (w q ++ [p]) r → a ∈ update w q (w q ++ [p]) r' →
      r = r' := by
    intro r r' a ha ha'
    rw [mem_update_append] at ha ha'
    rcases ha with ha | ⟨rfl, rfl⟩
    · rcases ha' with ha' | ⟨-, rfl⟩
      · exact h.disjoint r r' a ha ha'
      · exact absurd ha (hp r)
    · rcases ha' with ha' | ⟨rfl, -⟩
      · exact absurd ha' (hp r')
      · rfl
  have hnodup : (w q ++ [p]).Nodup := by
    rw [List.nodup_append_comm]
    exact List.nodup_cons.mpr ⟨hp q, hn⟩
  refine ⟨fun r => ?_, hdisj⟩
  obtain hw | ⟨l, last, hw⟩ := List.eq_nil_or_concat (w q)
  · -- the queue was empty
    rw [hw] at hs ht
    by_cases hr : r = q
    · subst hr
      simp [Process.appendWaiter, ht, hw, WaitList, hnull]
    · simp only [Process.appendWaiter, ht, List.getLast?_nil, update_of_ne hr]
      exact h.list r
  · -- the last waiter's link, so far null, now leads to the caller
    rw [List.concat_eq_append] at hw
    have htail : (s.waitQueues q).tail = some last := by rw [ht, hw]; simp
    have hlast : last ∈ w q := by simp [hw]
    have hlp : last ≠ p := fun e => hp q (e ▸ hlast)
    by_cases hr : r = q
    · subst hr
      simp only [Process.appendWaiter, htail, update_self, WaitList, Table.link_setNext]
      refine ⟨?_, hnodup, by simp⟩
      rw [hw] at hs hn ⊢
      refine seg_append.mpr ⟨some p, hs.redirect ?_, rfl, ?_⟩
      · rw [List.nodup_append_comm] at hn
        exact (List.nodup_cons.mp hn).1
      · rw [update_of_ne hlp.symm]
        exact hnull
    · simp only [Process.appendWaiter, htail, update_of_ne hr, WaitList, Table.link_setNext]
      obtain ⟨hs', hn', ht'⟩ := h.list r
      exact ⟨hs'.update fun hm => hr (h.disjoint r q last hm hlast), hn', ht'⟩

theorem views_suspend (s : State) (q : ℕ) (p : Slot) :
    (suspend s q p).pcbs.status = update s.pcbs.status p .blocked ∧
      (suspend s q p).pcbs.pidOf = s.pcbs.pidOf ∧
      (suspend s q p).readyQueue = s.readyQueue ∧
      (suspend s q p).currentProcess = s.currentProcess ∧
      (suspend s q p).processCount = s.processCount := by
  unfold suspend Process.appendWaiter
  cases h : (s.waitQueues q).tail <;> simp [h]

theorem suspend (h : Waiting s w) (hp : ∀ r, p ∉ w r) :
    Waiting (suspend s q p) (update w q (w q ++ [p])) := by
  refine appendWaiter (h.congr rfl fun r a ha => ?_) hp (by simp)
  have hap : a ≠ p := fun e => hp r (e ▸ ha)
  simp [hap]

theorem link_suspend {a : Slot} (h : Waiting s w) (hap : a ≠ p) (ha : a ∉ w q) :
    (Process.suspend s q p).pcbs.link a = s.pcbs.link a := by
  have htail := (h.list q).2.2
  unfold Process.suspend Process.appendWaiter
  cases ht : (s.waitQueues q).tail with
  | none => simp [ht, hap]
  | some last =>
    have hal : a ≠ last := by
      rintro rfl
      exact ha (List.mem_of_getLast? (htail.symm.trans ht))
    simp [ht, hap, hal]

theorem reach_suspend {a : Slot} (h : Waiting s w) (hrq : ¬ Reach s.pcbs.link s.readyQueue p)
    (hready : ∀ a, Reach s.pcbs.link s.readyQueue a → ∀ r, a ∉ w r)
    (ha : Reach (Process.suspend s q p).pcbs.link (Process.suspend s q p).readyQueue a) :
    Reach s.pcbs.link s.readyQueue a := by
  have hR : Closed (Process.suspend s q p).pcbs.link
      {a | Reach s.pcbs.link s.readyQueue a} := by
    intro b hb c hc
    have hbp : b ≠ p := by
      rintro rfl
      exact hrq hb
    rw [h.link_suspend hbp (hready b hb q)] at hc
    exact Reach.step hb hc
  refine hR.reach_subset ?_ ha
  rw [(views_suspend s q p).2.2.1]
  exact fun _ hb => Reach.root hb

theorem mem_of_mem_dequeued {a x : Slot} {l : List Slot} {r : ℕ} (hw : w q = a :: l)
    (hx : x ∈ update w q l r) : x ∈ w r := by
  by_cases hr : r = q
  · subst hr
    rw [update_self] at hx
    simp [hw, hx]
  · rwa [update_of_ne hr] at hx

theorem dequeueWaiter {a : Slot} {l : List Slot} (h : Waiting s w) (hw : w q = a :: l) :
    Waiting (dequeueWaiter s q a) (update w q l) := by
  obtain ⟨hs, hn, ht⟩ := h.list q
  rw [hw] at hs hn ht
  refine ⟨fun r => ?_, ?_⟩
  · by_cases hr : r = q
    · subst hr
      simp only [Process.dequeueWaiter, update_self, WaitList, Table.link_setNext]
      refine ⟨hs.2.update (List.nodup_cons.mp hn).1, (List.nodup_cons.mp hn).2, ?_⟩
      cases l with
      | nil => simp [show s.pcbs.link a = none from hs.2]
      | cons b l => simp [show s.pcbs.link a = some b from hs.2.1, ht]
    · simp only [Process.dequeueWaiter, update_of_ne hr, WaitList, Table.link_setNext]
      obtain ⟨hs', hn', ht'⟩ := h.list r
      refine ⟨hs'.update fun hm => ?_, hn', ht'⟩
      exact hr (h.disjoint r q a hm (by simp [hw]))
  · exact fun r r' x hx hx' =>
      h.disjoint r r' x (mem_of_mem_dequeued hw hx) (mem_of_mem_dequeued hw hx')

theorem not_mem_of_dequeue {a : Slot} {l : List Slot} (h : Waiting s w) (hw : w q = a :: l)
    (r : ℕ) : a ∉ update w q l r := by
  by_cases hr : r = q
  · subst hr
    rw [update_self]
    have hn := (h.list r).2.1
    rw [hw] at hn
    exact (List.nodup_cons.mp hn).1
  · rw [update_of_ne hr]
    exact fun hm => hr (h.disjoint r q a hm (by simp [hw]))

end Waiting

end OpenKernel.Process
