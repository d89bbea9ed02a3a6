import OpenKernel.Memory.AddressSpace

/-!
# The frames of the heap

`vmm_init` takes the directory, the tables and the frames of the heap from one
allocator, and may run out of pages in any of its loops. Each page is handed out
once: a frame of the heap is handed out after the directory, is no table, and
belongs to one page of the heap.
-/

namespace OpenKernel.Memory

/-- The virtual pages of the heap. -/
def InHeap (page : ℕ) : Prop := 0xE0000 ≤ page ∧ page < 0xE4000

/-- The heap pages of a layout that are mapped, among pages handed out behind `first`. -/
structure Private (limit first : ℕ) (A : Layout) : Prop where
  started : first < A.next ∨ limit ≤ A.next
  table : ∀ pd f, A.table pd = some f → f < A.next
  frame : ∀ page, InHeap page → A.entry page ≠ 0 → ∃ f, A.entry page = entryOf f ∧
    first < f ∧ f < A.next ∧ ∀ pd, A.table pd ≠ some f
  inj : ∀ page page', InHeap page → A.entry page ≠ 0 → InHeap page' →
    A.entry page = A.entry page' → page = page'

theorem entryOf_inj {f g : ℕ} (h : entryOf f = entryOf g) : f = g := by
  unfold entryOf pageSize at h
  omega

namespace Private

variable {limit first : ℕ} {A : Layout} {page frame : ℕ}

theorem next_succ (h : Private limit first A) : Private limit first { A with next := A.next + 1 } := by
  refine ⟨h.started.imp (fun h => Nat.lt_succ_of_lt h) (fun h => Nat.le_succ_of_le h), ?_, ?_, h.inj⟩
  · intro pd f hf
    exact Nat.lt_succ_of_lt (h.table pd f hf)
  · intro p hp hne
    obtain ⟨f, hf, hfirst, hlt, htable⟩ := h.frame p hp hne
    exact ⟨f, hf, hfirst, Nat.lt_succ_of_lt hlt, htable⟩

theorem addTable (h : Private limit first A) (pd : ℕ) : Private limit first
    { A with next := A.next + 1, table := Function.update A.table pd (some A.next) } := by
  have h' := h.next_succ
  refine ⟨h'.started, ?_, ?_, h.inj⟩
  · intro q f hf
    dsimp only at hf
    by_cases hq : q = pd
    · rw [hq, Function.update_self] at hf
      exact Option.some.inj hf ▸ Nat.lt_succ_self _
    · rw [Function.update_of_ne hq] at hf
      exact h'.table q f hf
  · intro p hp hne
    obtain ⟨f, hf, hfirst, hlt, htable⟩ := h.frame p hp hne
    refine ⟨f, hf, hfirst, Nat.lt_succ_of_lt hlt, fun q hq => ?_⟩
    dsimp only at hq
    by_cases hqd : q = pd
    · rw [hqd, Function.update_self] at hq
      exact absurd (Option.some.inj hq) hlt.ne'
    · rw [Function.update_of_ne hqd] at hq
      exact htable q hq

theorem setOther (h : Private limit first A) (hpage : ¬ InHeap page) (v : ℕ) :
    Private limit first { A with entry := Function.update A.entry page v } := by
  have hold : ∀ p, InHeap p → Function.update A.entry page v p = A.entry p := by
    intro p hp
    apply Function.update_of_ne
    rintro rfl
    exact hpage hp
  refine ⟨h.started, h.table, ?_, ?_⟩
  · intro p hp hne
    dsimp only at hne ⊢
    rw [hold p hp] at hne ⊢
    exact h.frame p hp hne
  · intro p q hp hne hq he
    dsimp only at hne he
    rw [hold p hp] at hne he
    rw [hold q hq] at he
    exact h.inj p q hp hne hq he

/-- A frame that is no table and that no heap page has yet goes to a page of the heap. -/
theorem setHeap (h : Private limit first A) (hfirst : first < frame) (hlt : frame < A.next)
    (htable : ∀ pd, A.table pd ≠ some frame)
    (hnew : ∀ p, InHeap p → A.entry p ≠ entryOf frame) :
    Private limit first { A with entry := Function.update A.entry page (entryOf frame) } := by
  refine ⟨h.started, h.table, ?_, ?_⟩
  · intro p hp hne
    by_cases heq : p = page
    · subst heq
      exact ⟨frame, Function.update_self _ _ _, hfirst, hlt, htable⟩
    · dsimp only at hne ⊢
      rw [Function.update_of_ne heq] at hne ⊢
      exact h.frame p hp hne
  · intro p q hp hne hq he
    dsimp only at hne he
    by_cases hpp : p = page <;> by_cases hqp : q = page
    · rw [hpp, hqp]
    · rw [hpp, Function.update_self, Function.update_of_ne hqp] at he
      exact absurd he.symm (hnew q hq)
    · rw [hqp, Function.update_self, Function.update_of_ne hpp] at he
      exact absurd he (hnew p hp)
    · rw [Function.update_of_ne hpp] at hne he
      rw [Function.update_of_ne hqp] at he
      exact h.inj p q hp hne hq he

theorem mapPage (h : Private limit first A) (page frame : ℕ) (hpage : ¬ InHeap page) :
    Private limit first (A.mapPage limit page frame) := by
  unfold Layout.mapPage
  cases htable : A.table (page / 1024) with
  | some f => exact h.setOther hpage _
  | none =>
    dsimp only
    split_ifs
    · exact (h.addTable _).setOther hpage _
    · exact h

theorem mapRange (h : Private limit first A) (page frame count : ℕ)
    (hrange : ∀ i < count, ¬ InHeap (page + i)) :
    Private limit first (A.mapRange limit page frame count) := by
  induction count with
  | zero => exact h
  | succ n ih =>
    rw [Layout.mapRange_succ]
    exact (ih fun i hi => hrange i (by omega)).mapPage _ _ (hrange n (by omega))

/-- One round of the heap loop: the page handed out goes to the heap, the one behind it may
become its table. -/
theorem mapNext (h : Private limit first A) (hlt : A.next < limit) :
    Private limit first (Layout.mapPage limit { A with next := A.next + 1 } page A.next) := by
  have hfirst : first < A.next := h.started.resolve_right (by omega)
  have hfresh : ∀ pd, A.table pd ≠ some A.next := by
    intro pd hpd
    exact absurd (h.table pd _ hpd) (lt_irrefl _)
  have hnew : ∀ p, InHeap p → A.entry p ≠ entryOf A.next := by
    intro p hp he
    have hne : A.entry p ≠ 0 := by
      rw [he]
      unfold entryOf
      omega
    obtain ⟨f, hf, -, hflt, -⟩ := h.frame p hp hne
    rw [entryOf_inj (hf.symm.trans he)] at hflt
    exact lt_irrefl _ hflt
  unfold Layout.mapPage
  cases htable : A.table (page / 1024) with
  | some f => exact h.next_succ.setHeap hfirst (Nat.lt_succ_self _) hfresh hnew
  | none =>
    dsimp only
    split_ifs
    · refine (h.next_succ.addTable _).setHeap hfirst (by dsimp only; omega) ?_ hnew
      intro pd hpd
      dsimp only at hpd
      by_cases hq : pd = page / 1024
      · rw [hq, Function.update_self] at hpd
        exact absurd (Option.some.inj hpd) (by omega)
      · rw [Function.update_of_ne hq] at hpd
        exact hfresh pd hpd
    · exact h.next_succ

theorem mapHeap (h : Private limit first A) {rounds i : ℕ} :
    Private limit first (A.mapHeap limit rounds i) := by
  induction rounds generalizing i A with
  | zero => exact h
  | succ rounds ih =>
    unfold Layout.mapHeap
    split_ifs with hlt
    · exact ih (h.mapNext hlt)
    · exact h

end Private

theorem private_layoutBeforeHeap (limit first : ℕ) :
    Private limit first (layoutBeforeHeap limit first) := by
  have h₀ : Private limit first
      ⟨if first < limit then first + 1 else first, fun _ => none, fun _ => 0⟩ := by
    refine ⟨?_, by simp, by simp, by simp⟩
    dsimp only
    split_ifs <;> omega
  have hout : ∀ p, p < 0xE0000 ∨ 0xE4000 ≤ p → ¬ InHeap p := by
    intro p hp hin
    unfold InHeap at hin
    omega
  have h₁ := h₀.mapRange 0 0 1024 fun i hi => hout _ (by omega)
  have h₂ := h₁.mapRange 0xC0000 0x100 256 fun i hi => hout _ (by omega)
  have h₃ := h₂.mapPage 0xB8 0xB8 (hout _ (by omega))
  have h₄ := h₃.mapRange 0xA0 0xA0 16 fun i hi => hout _ (by omega)
  exact h₄.mapRange 0xFD000 0xFD000 512 fun i hi => hout _ (by omega)

/-! ### The directory -/

theorem directory_vmmMapPage (s : Vmm) (phys virt flags : ℕ) :
    (vmmMapPage s phys virt flags).directory = s.directory := by
  unfold vmmMapPage
  dsimp only
  split_ifs <;> rfl

theorem directory_mapPages (s : Vmm) (phys virt count : ℕ) :
    (mapPages s phys virt count).directory = s.directory := by
  unfold mapPages
  induction count with
  | zero => rfl
  | succ n ih =>
    rw [List.range_succ, List.foldl_append, List.foldl_cons, List.foldl_nil, directory_vmmMapPage]
    exact ih

theorem directory_mapHeap (rounds i : ℕ) (s : Vmm) : (mapHeap rounds i s).directory = s.directory := by
  induction rounds generalizing i s with
  | zero => rfl
  | succ rounds ih =>
    unfold mapHeap
    dsimp only
    split_ifs
    · rfl
    · rw [ih, directory_vmmMapPage]

theorem directory_vmmInit_le {limit first : ℕ} {s : Vmm} (h : Untouched limit first s.pmm) :
    (vmmInit s).directory ≤ first * pageSize := by
  simp only [vmmInit, directory_mapHeap, directory_mapPages, directory_vmmMapPage,
    directory_initDirectory h]
  split_ifs
  · exact le_rfl
  · exact Nat.zero_le _

/-! ### The heap -/

/-- The heap pages that are present have frames of their own: each its own one, none of them the
directory, a table or below the page `first`. -/
structure HeapFramesPrivate (first : ℕ) (s : Vmm) : Prop where
  distinct : ∀ v w e e', heapStart ≤ v → v < heapStart + heapSize → heapStart ≤ w →
    w < heapStart + heapSize → walk s v = some e → e &&& pdePresent ≠ 0 →
    walk s w = some e' → e' &&& pdePresent ≠ 0 → v / pageSize ≠ w / pageSize →
    frameOf e ≠ frameOf e'
  apart : ∀ v e, heapStart ≤ v → v < heapStart + heapSize → walk s v = some e →
    e &&& pdePresent ≠ 0 → frameOf e ≠ frameOf s.directory ∧
      (∀ pd < 1024, HasTable s pd → frameOf e ≠ tableOf s pd) ∧ first * pageSize ≤ frameOf e

theorem heap_entry {limit : ℕ} {A : Layout} {s : Vmm} {v e : ℕ} (h : Follows limit A s)
    (hlo : heapStart ≤ v) (hhi : v < heapStart + heapSize) (hwalk : walk s v = some e)
    (hpresent : e &&& pdePresent ≠ 0) :
    InHeap (v / pageSize) ∧ A.entry (v / pageSize) = e ∧ A.entry (v / pageSize) ≠ 0 := by
  have hentry := h.entry v (by unfold heapStart heapSize at hhi; omega)
  rw [entryAt, hwalk, Option.getD_some] at hentry
  refine ⟨?_, hentry.symm, ?_⟩
  · unfold InHeap heapStart heapSize pageSize at *
    omega
  · rw [← hentry]
    rintro rfl
    exact hpresent rfl

theorem Private.heapFramesPrivate {limit first : ℕ} {A : Layout} {s : Vmm}
    (h : Private limit first A) (hfollows : Follows limit A s)
    (hdir : s.directory ≤ first * pageSize) : HeapFramesPrivate first s := by
  have hframeOf : ∀ f, frameOf (entryOf f) = f * pageSize := by
    intro f
    exact frameOf_add (Nat.mul_mod_left _ _) (by decide)
  constructor
  · intro v w e e' hv hv' hw hw' hwalk hpresent hwalk' hpresent' hne heq
    obtain ⟨hin, he, he0⟩ := heap_entry hfollows hv hv' hwalk hpresent
    obtain ⟨hin', he', he0'⟩ := heap_entry hfollows hw hw' hwalk' hpresent'
    obtain ⟨f, hf, -⟩ := h.frame _ hin he0
    obtain ⟨f', hf', -⟩ := h.frame _ hin' he0'
    rw [← he, ← he', hf, hf', hframeOf, hframeOf] at heq
    apply hne
    apply h.inj _ _ hin he0 hin'
    rw [hf, hf', pageSize_inj heq]
  · intro v e hv hv' hwalk hpresent
    obtain ⟨hin, he, he0⟩ := heap_entry hfollows hv hv' hwalk hpresent
    obtain ⟨f, hf, hfirst, -, htable⟩ := h.frame _ hin he0
    rw [← he, hf, hframeOf]
    refine ⟨?_, ?_, Nat.mul_le_mul_right _ hfirst.le⟩
    · intro heq
      have hle : frameOf s.directory ≤ first * pageSize := (Nat.div_mul_le_self _ _).trans hdir
      rw [← heq] at hle
      exact absurd (Nat.le_of_mul_le_mul_right hle (by decide)) (by omega)
    · intro pd hpd hhas heq
      obtain ⟨g, hg⟩ := Option.ne_none_iff_exists'.mp ((hfollows.hasTable pd hpd).mp hhas)
      rw [(hfollows.tableOf pd hpd g hg).1] at heq
      rw [← pageSize_inj heq] at hg
      exact htable pd hg

/-- For every memory size and every end of the kernel, the frames of the heap are private. -/
theorem heapFramesPrivate_bootVmm (kernelEnd memLower memUpper : ℕ) (mem : ByteMemory)
    (bitmap : Bitmap 32) :
    HeapFramesPrivate (startPageToFree kernelEnd)
      (bootVmm kernelEnd memLower memUpper mem bitmap) := by
  have huntouched := untouched_pmmInit kernelEnd memLower memUpper bitmap
  exact (private_layoutBeforeHeap _ _).mapHeap.heapFramesPrivate (follows_vmmInit huntouched)
    (directory_vmmInit_le huntouched)

end OpenKernel.Memory
