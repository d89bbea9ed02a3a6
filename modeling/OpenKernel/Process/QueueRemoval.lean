import OpenKernel.Process.Lifecycle
import Mathlib.Data.List.Rotate

/-!
# Removal from the ready ring

`remove_from_ready_queue` looks for the predecessor of its argument behind the
entry of the ring. It finds every member but the entry itself: for the entry it
moves `ready_queue` back to the last cell, which still links to the removed one.
A ring of one process it empties without looking at its argument.
-/

namespace OpenKernel.Process

open Function Linked

/-- The ring `l` has lost `pcb` and nothing else. -/
structure Removed (t : State) (pcb : Slot) (l : List Slot) : Prop where
  ring : ∃ l', Ring t.pcbs.link t.readyQueue l' ∧ l'.IsRotated (l.erase pcb)
  empty_iff : t.readyQueue = none ↔ l.erase pcb = []
  unchanged : pcb ∉ l → Ring t.pcbs.link t.readyQueue l

/-- `remove_from_ready_queue` returns, and takes `pcb` out of the ring `l`. -/
def RemovesOnly (s : State) (pcb : Slot) (l : List Slot) : Prop :=
  ∃ t, removeFromReadyQueue s pcb = some t ∧ Removed t pcb l

section Removal

variable {s t : State} {pcb head c : Slot} {l : List Slot}

theorem removed_of_ring (h : Ring t.pcbs.link t.readyQueue (l.erase pcb)) : Removed t pcb l where
  ring := ⟨_, h, List.IsRotated.refl _⟩
  empty_iff := h.eq_none_iff
  unchanged hp := by rwa [List.erase_of_not_mem hp] at h

theorem Removed.link_ne (h : Removed t pcb l) (hl : l.Nodup) (hc : t.readyQueue = some c) :
    t.pcbs.link c ≠ some pcb := by
  intro hlink
  obtain ⟨l', hring, hrot⟩ := h.ring
  have hcl : c ∈ l' := by
    rw [hring.head_eq] at hc
    exact List.mem_of_head? hc
  have hpl : pcb ∈ l.erase pcb := hrot.mem_iff.mp (hring.closed c hcl pcb hlink)
  exact hl.not_mem_erase hpl

theorem link_of_removeLoop {link : Slot → Option Slot} {fuel : ℕ} {cur : Slot}
    (h : removeLoop link pcb head fuel cur = some (c, false)) : link c = some head := by
  induction fuel generalizing cur with
  | zero => cases h
  | succ fuel ih =>
    rw [removeLoop] at h
    cases hl : link cur with
    | none =>
      rw [hl] at h
      cases h
    | some n =>
      rw [hl] at h
      dsimp only at h
      split_ifs at h with hn hp
      · cases h
        rw [hl, hn]
      · cases h
      · exact ih h

theorem removeFromReadyQueue_of_singleton (hq : s.readyQueue = some head)
    (hself : s.pcbs.link head = some head) (pcb : Slot) : removeFromReadyQueue s pcb =
      some { s with readyQueue := none, pcbs := s.pcbs.setNext pcb none } := by
  unfold removeFromReadyQueue
  rw [hq]
  dsimp only
  rw [if_pos hself]

theorem removeFromReadyQueue_of_loop {b : Slot} {found : Bool}
    (hring : Ring s.pcbs.link (some head) (head :: b :: l)) (hq : s.readyQueue = some head)
    (hloop : removeLoop s.pcbs.link pcb head maxProcesses head = some (c, found)) :
    removeFromReadyQueue s pcb = some { s with
      readyQueue := if head = pcb then some c else some head
      pcbs := (if found then s.pcbs.setNext c (s.pcbs.link pcb)
        else s.pcbs).setNext pcb none } := by
  have hne : ¬ s.pcbs.link head = some head := by
    rw [show s.pcbs.link head = some b from hring.1.2.1]
    have hmem : head ∉ b :: l := (List.nodup_cons.mp hring.2).1
    intro he
    exact hmem (by simp [Option.some.inj he])
  unfold removeFromReadyQueue
  rw [hq]
  dsimp only
  rw [if_neg hne, hloop, Option.map_some]

theorem not_removesOnly_entry {b : Slot}
    (hring : Ring s.pcbs.link s.readyQueue (pcb :: b :: l)) :
    ¬ RemovesOnly s pcb (pcb :: b :: l) := by
  rintro ⟨t, ht, hremoved⟩
  have hq := hring.1.1
  have hp : pcb ∉ b :: l := (List.nodup_cons.mp hring.2).1
  rw [hq] at hring
  obtain ⟨c, hloop⟩ := removeLoop_ring_notFound hring hp
  have hlast := link_of_removeLoop hloop
  have hc : c ≠ pcb := by
    rintro rfl
    have hb : b = c := Option.some.inj (hring.1.2.1.symm.trans hlast)
    exact hp (by simp [hb])
  rw [removeFromReadyQueue_of_loop hring hq hloop] at ht
  obtain rfl := Option.some.inj ht
  refine hremoved.link_ne hring.2 (if_pos rfl) ?_
  simpa [update_of_ne hc] using hlast

theorem removesOnly_member {b : Slot} (hring : Ring s.pcbs.link s.readyQueue (head :: b :: l))
    (hp : pcb ∈ b :: l) : RemovesOnly s pcb (head :: b :: l) := by
  have hq := hring.1.1
  have hne : pcb ≠ head := by
    rintro rfl
    exact (List.nodup_cons.mp hring.2).1 hp
  obtain ⟨l₁, pre, l₂, hsplit⟩ := exists_predecessor (h := head) hp
  rw [hq] at hring
  have hloop := removeLoop_ring_found hring hsplit hne
  refine ⟨_, removeFromReadyQueue_of_loop hring hq hloop, removed_of_ring ?_⟩
  rw [hsplit] at hring ⊢
  have herase : (l₁ ++ pre :: pcb :: l₂).erase pcb = l₁ ++ pre :: l₂ := by
    have hassoc : l₁ ++ pre :: pcb :: l₂ = (l₁ ++ [pre]) ++ pcb :: l₂ := by simp
    have hnodup := hring.2
    rw [hassoc, List.nodup_middle, List.nodup_cons] at hnodup
    have hfront : pcb ∉ l₁ ++ [pre] := fun hm => hnodup.1 (List.mem_append_left _ hm)
    rw [hassoc, List.erase_append_right _ hfront, List.erase_cons_head]
    simp
  rw [herase]
  simpa [hne.symm] using hring.unlink (v := none)

theorem removesOnly_stranger {b : Slot} (hring : Ring s.pcbs.link s.readyQueue (head :: b :: l))
    (hp : pcb ∉ head :: b :: l) : RemovesOnly s pcb (head :: b :: l) := by
  have hq := hring.1.1
  have hne : head ≠ pcb := fun e => hp (by simp [e])
  rw [hq] at hring
  obtain ⟨c, hloop⟩ := removeLoop_ring_notFound hring fun hm => hp (List.mem_cons_of_mem _ hm)
  refine ⟨_, removeFromReadyQueue_of_loop hring hq hloop, removed_of_ring ?_⟩
  rw [List.erase_of_not_mem hp]
  simp only [if_neg hne, Bool.false_eq_true, if_false, Table.link_setNext]
  exact ⟨hring.1.update hp, hring.2⟩

/-- Removal takes `pcb`, and nothing else, out of a ring precisely when `pcb` is not the entry of
a longer ring and a ring of one process has `pcb` as its member. -/
theorem removesOnly_iff (hring : Ring s.pcbs.link s.readyQueue l) (pcb : Slot) :
    RemovesOnly s pcb l ↔
      ¬ (s.readyQueue = some pcb ∧ 2 ≤ l.length) ∧ ¬ (pcb ∉ l ∧ l.length = 1) := by
  match l, hring with
  | [], hring =>
    have hq : s.readyQueue = none := hring.1
    exact iff_of_true ⟨s, by simp [removeFromReadyQueue, hq], removed_of_ring hring⟩ (by simp)
  | [a], hring =>
    obtain ⟨hq, hself⟩ := hring.1
    have hremove := removeFromReadyQueue_of_singleton hq hself pcb
    by_cases hp : pcb = a
    · subst hp
      refine iff_of_true ⟨_, hremove, removed_of_ring ?_⟩ (by simp)
      rw [List.erase_cons_head]
      exact ring_nil
    · refine iff_of_false ?_ fun hr => hr.2 ⟨by simpa using hp, rfl⟩
      rintro ⟨t, ht, hremoved⟩
      obtain rfl := Option.some.inj (hremove.symm.trans ht)
      cases (hremoved.unchanged (by simpa using hp)).head_eq
  | a :: b :: l, hring =>
    have hq := hring.1.1
    have hlong : ¬ (pcb ∉ a :: b :: l ∧ (a :: b :: l).length = 1) := by simp
    by_cases hp : pcb = a
    · subst hp
      exact iff_of_false (not_removesOnly_entry hring) fun hr => hr.1 ⟨hq, by simp⟩
    · have hentry : ¬ (s.readyQueue = some pcb ∧ 2 ≤ (a :: b :: l).length) := by
        rintro ⟨he, -⟩
        exact hp (Option.some.inj (he.symm.trans hq))
      refine iff_of_true ?_ ⟨hentry, hlong⟩
      by_cases hm : pcb ∈ b :: l
      · exact removesOnly_member hring hm
      · exact removesOnly_stranger hring (by simp_all)

end Removal

/-- The second of two ready processes is taken out. -/
theorem removesOnly_iff_second :
    ∃ s, Run step anyCall (processInit boot 4096 0 0)
        [.create 1 1 8192, .schedule, .block 0, .create 1 1 16384, .schedule, .block 0,
          .wake 0, .wake 0] s ∧
      Ring s.pcbs.link s.readyQueue [1, 2] ∧ RemovesOnly s 2 [1, 2] := by
  obtain ⟨s, hs, hring⟩ : ∃ s, [.create 1 1 8192, .schedule, .block 0,
      .create 1 1 16384, .schedule, .block 0, .wake 0, .wake 0].foldlM step
        (processInit boot 4096 0 0) = some s ∧ Ring s.pcbs.link s.readyQueue [1, 2] :=
    ⟨_, rfl, ⟨by decide, by decide, seg_nil.mpr (by decide)⟩, by decide⟩
  have hq : s.readyQueue = some 1 := hring.1.1
  refine ⟨s, Run.of_foldlM hs, hring, (removesOnly_iff hring 2).mpr ⟨?_, by simp⟩⟩
  rw [hq]
  decide

/-- The first of them stays linked from the second, which becomes the entry. -/
theorem removed_entry_stays_linked :
    ∃ s t, Run step anyCall (processInit boot 4096 0 0)
        [.create 1 1 8192, .schedule, .block 0, .create 1 1 16384, .schedule, .block 0,
          .wake 0, .wake 0] s ∧
      Ring s.pcbs.link s.readyQueue [1, 2] ∧ removeFromReadyQueue s 1 = some t ∧
      t.readyQueue = some 2 ∧ t.pcbs.link 2 = some 1 ∧ t.pcbs.link 1 = none ∧
      ¬ RemovesOnly s 1 [1, 2] := by
  obtain ⟨s, t, hs, hring, hremove, hq, hlink, hnull⟩ : ∃ s t,
      [.create 1 1 8192, .schedule, .block 0, .create 1 1 16384, .schedule, .block 0,
        .wake 0, .wake 0].foldlM step
        (processInit boot 4096 0 0) = some s ∧ Ring s.pcbs.link s.readyQueue [1, 2] ∧
      removeFromReadyQueue s 1 = some t ∧ t.readyQueue = some 2 ∧ t.pcbs.link 2 = some 1 ∧
      t.pcbs.link 1 = none :=
    ⟨_, _, rfl, ⟨⟨by decide, by decide, seg_nil.mpr (by decide)⟩, by decide⟩, rfl, by decide,
      by decide, by decide⟩
  refine ⟨s, t, Run.of_foldlM hs, hring, hremove, hq, hlink, hnull, ?_⟩
  rintro ⟨u, hu, hremoved⟩
  obtain rfl := Option.some.inj (hremove.symm.trans hu)
  exact hremoved.link_ne hring.2 hq hlink

end OpenKernel.Process
