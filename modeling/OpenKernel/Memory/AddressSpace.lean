import OpenKernel.Memory.BootLayout

/-!
# The address space after boot

What `vmm_init` leaves behind, for every memory size and every end of the
kernel. The tables of the heap lie among its frames, far above the 4 MB that are
mapped to themselves.
-/

namespace OpenKernel.Memory

/-- The page tables after `pmm_init` and `vmm_init`, on any earlier memory and bitmap. -/
def bootVmm (kernelEnd memLower memUpper : ℕ) (mem : ByteMemory) (bitmap : Bitmap 32) : Vmm :=
  vmmInit ⟨mem, pmmInit kernelEnd memLower memUpper bitmap, 0⟩

theorem follows_vmmInit {limit first : ℕ} {s : Vmm} (h : Untouched limit first s.pmm) :
    Follows limit ((layoutBeforeHeap limit first).mapHeap limit vmmHeapPages 0) (vmmInit s) := by
  have h₁ := (follows_initDirectory h).mapRange 0 0 1024 (by decide) (by decide)
  have h₂ := h₁.mapRange 0xC0000 0x100 256 (by decide) (by decide)
  have h₃ := h₂.mapPage 0xB8 0xB8 (by decide) (by decide)
  have h₄ := h₃.mapRange 0xA0 0xA0 16 (by decide) (by decide)
  have h₅ := h₄.mapRange 0xFD000 0xFD000 512 (by decide) (by decide)
  exact h₅.mapHeap (by decide)

/-- The pages that the directory, the tables and the heap take. -/
def vmmPages : ℕ := 1 + 3 + vmmHeapPages + vmmHeapPages / 1024

theorem heapFrame_last (first : ℕ) : heapFrame first 0x4000 = first + vmmPages := by
  unfold heapFrame vmmPages vmmHeapPages heapSize pageSize
  omega

section Boot

variable {kernelEnd memLower memUpper : ℕ} {mem : ByteMemory} {bitmap : Bitmap 32}

theorem follows_bootVmm (mem : ByteMemory) (bitmap : Bitmap 32)
    (h : startPageToFree kernelEnd + vmmPages ≤ initialPages memLower memUpper) :
    Follows (initialPages memLower memUpper) (bootLayout (startPageToFree kernelEnd) 0x4000)
      (bootVmm kernelEnd memLower memUpper mem bitmap) := by
  have hpages : vmmPages = 16404 := by decide
  have hroom := heapFrame_last (startPageToFree kernelEnd)
  have hstart : heapFrame (startPageToFree kernelEnd) 0 = startPageToFree kernelEnd + 4 := rfl
  have hfollows := follows_vmmInit (s := ⟨mem, pmmInit kernelEnd memLower memUpper bitmap, 0⟩)
    (untouched_pmmInit kernelEnd memLower memUpper bitmap)
  rw [Layout.beforeHeap_eq (by omega),
    (mapHeap_bootLayout vmmHeapPages (by decide) (by omega)).1 (by omega)] at hfollows
  exact hfollows

theorem entryAt_bootVmm_last
    (h : initialPages memLower memUpper < startPageToFree kernelEnd + vmmPages) :
    entryAt (bootVmm kernelEnd memLower memUpper mem bitmap) 0xE3FFF000 = 0 := by
  have hfollows := follows_vmmInit (s := ⟨mem, pmmInit kernelEnd memLower memUpper bitmap, 0⟩)
    (untouched_pmmInit kernelEnd memLower memUpper bitmap)
  have hentry := hfollows.entry 0xE3FFF000 (by decide)
  have hpage : 0xE3FFF000 / pageSize = 0xE3FFF := by decide
  rw [hpage] at hentry
  refine hentry.trans ?_
  set first := startPageToFree kernelEnd
  set limit := initialPages memLower memUpper
  rcases Nat.lt_or_ge limit (first + 4) with hshort | hroom
  · have hs := Layout.short_beforeHeap hshort
    rw [hs.mapHeap]
    exact hs.last
  · have hlast := heapFrame_last first
    rw [Layout.beforeHeap_eq hroom]
    exact (mapHeap_bootLayout vmmHeapPages (by decide) hroom).2 (by omega)

end Boot

/-! ### Reaching the tables -/

/-- The address is in a page that is present. -/
def MappedAt (s : Vmm) (virt : ℕ) : Prop :=
  ∃ entry, walk s virt = some entry ∧ entry &&& pdePresent ≠ 0

def HeapMapped (s : Vmm) : Prop := ∀ i < vmmHeapPages, MappedAt s (heapStart + i * pageSize)

/-- The page at a physical address is mapped to itself. -/
def IdentityMapped (s : Vmm) (addr : ℕ) : Prop :=
  ∃ entry, walk s addr = some entry ∧ entry &&& pdePresent ≠ 0 ∧ frameOf entry = addr

/-- With paging on, the directory and the tables can be read and written at the addresses by
which `vmm_get_pte`, `vmm_map_page` and `vmm_unmap_page` refer to them. -/
def TablesReachable (s : Vmm) : Prop :=
  IdentityMapped s s.directory ∧
    ∀ pd < 1024, HasTable s pd → IdentityMapped s (tableOf s pd)

theorem mappedAt_of_entryAt {s : Vmm} {virt : ℕ} (h : entryAt s virt % 2 = 1) :
    MappedAt s virt := by
  unfold entryAt at h
  cases hwalk : walk s virt with
  | none => simp [hwalk] at h
  | some entry =>
    rw [hwalk, Option.getD_some] at h
    refine ⟨entry, hwalk, ?_⟩
    rw [and_pdePresent]
    omega

theorem not_mappedAt_of_entryAt {s : Vmm} {virt : ℕ} (h : entryAt s virt = 0) :
    ¬MappedAt s virt := by
  rintro ⟨entry, hwalk, hpresent⟩
  unfold entryAt at h
  rw [hwalk, Option.getD_some] at h
  exact hpresent (by rw [h]; rfl)

theorem entryOf_mod (frame : ℕ) : entryOf frame % 2 = 1 := by
  unfold entryOf pageSize
  omega

section Reach

variable {kernelEnd memLower memUpper : ℕ} {mem : ByteMemory} {bitmap : Bitmap 32}

/-- The heap is mapped exactly when there are enough pages. -/
theorem heapMapped_iff :
    HeapMapped (bootVmm kernelEnd memLower memUpper mem bitmap) ↔
      startPageToFree kernelEnd + vmmPages ≤ initialPages memLower memUpper := by
  constructor
  · intro h
    by_contra hshort
    have hlast : heapStart + 0x3FFF * pageSize = 0xE3FFF000 := by decide
    have hmapped := h 0x3FFF (by decide)
    rw [hlast] at hmapped
    exact not_mappedAt_of_entryAt (entryAt_bootVmm_last (by omega)) hmapped
  · intro h i hi
    have hpages : vmmHeapPages = 0x4000 := by decide
    have hvirt : heapStart + i * pageSize = (0xE0000 + i) * pageSize := by
      unfold heapStart pageSize
      omega
    have hentry := (follows_bootVmm mem bitmap h).entry
      ((0xE0000 + i) * pageSize) (virt_lt (by omega))
    apply mappedAt_of_entryAt
    rw [hvirt, hentry, page_virt]
    change bootEntry _ _ _ % 2 = 1
    unfold bootEntry
    rw [if_neg (by omega), if_neg (by omega), if_neg (by omega), if_pos (by omega)]
    exact entryOf_mod _

theorem identity_window {first page : ℕ} {entry : ℕ} (hentry : entry = bootEntry first 0x4000 page)
    (hpresent : entry &&& pdePresent ≠ 0) (hself : frameOf entry = page * pageSize)
    (hheap : ∀ i, heapFrame first i ≠ page) :
    page < 1024 ∨ 0xFD000 ≤ page ∧ page < 0xFD200 := by
  have hframe : ∀ f, entry = entryOf f → f = page := by
    intro f hf
    rw [hf, entryOf, frameOf_add (Nat.mul_mod_left _ _) (by decide)] at hself
    exact pageSize_inj hself
  unfold bootEntry at hentry
  split_ifs at hentry with h₁ h₂ h₃ h₄
  · exact Or.inl h₁
  · have := hframe _ hentry
    omega
  · exact Or.inr h₃
  · exact absurd (hframe _ hentry) (hheap _)
  · rw [hentry] at hpresent
    exact absurd rfl hpresent

theorem heapTable (mem : ByteMemory) (bitmap : Bitmap 32)
    (h : startPageToFree kernelEnd + vmmPages ≤ initialPages memLower memUpper) {k : ℕ}
    (hk : k < 16) :
    HasTable (bootVmm kernelEnd memLower memUpper mem bitmap) (0x380 + k) ∧
      tableOf (bootVmm kernelEnd memLower memUpper mem bitmap) (0x380 + k) =
        (startPageToFree kernelEnd + 5 + 1025 * k) * pageSize := by
  have hfollows := follows_bootVmm mem bitmap h
  have htable : (bootLayout (startPageToFree kernelEnd) 0x4000).table (0x380 + k) =
      some (startPageToFree kernelEnd + 5 + 1025 * k) := by
    change bootTable _ _ _ = _
    unfold bootTable
    rw [if_neg (by omega), if_neg (by omega), if_neg (by omega), if_pos (by omega),
      Nat.add_sub_cancel_left]
  constructor
  · rw [hfollows.hasTable _ (by omega), htable]
    exact fun h => by cases h
  · exact (hfollows.tableOf _ (by omega) _ htable).1

/-- A table of the heap is only reachable inside the two windows. -/
theorem heapTable_window
    (h : startPageToFree kernelEnd + vmmPages ≤ initialPages memLower memUpper)
    (hreach : TablesReachable (bootVmm kernelEnd memLower memUpper mem bitmap)) {k : ℕ}
    (hk : k < 16) :
    startPageToFree kernelEnd + 5 + 1025 * k < 1024 ∨
      0xFD000 ≤ startPageToFree kernelEnd + 5 + 1025 * k ∧
        startPageToFree kernelEnd + 5 + 1025 * k < 0xFD200 := by
  obtain ⟨hhas, htable⟩ := heapTable mem bitmap h hk
  obtain ⟨entry, hwalk, hpresent, hself⟩ := hreach.2 _ (by omega) hhas
  rw [htable] at hwalk hself
  have hlt := initialPages_lt memLower memUpper
  have hpages : vmmPages = 16404 := by decide
  have hmax : pmmMaxPages = 2 ^ 20 := by decide
  have hentry := (follows_bootVmm mem bitmap h).entry
    ((startPageToFree kernelEnd + 5 + 1025 * k) * pageSize) (virt_lt (by omega))
  rw [page_virt] at hentry
  unfold entryAt at hentry
  rw [hwalk, Option.getD_some] at hentry
  apply identity_window hentry hpresent hself
  intro i
  unfold heapFrame
  omega

theorem not_tablesReachable
    (h : startPageToFree kernelEnd + vmmPages ≤ initialPages memLower memUpper) :
    ¬TablesReachable (bootVmm kernelEnd memLower memUpper mem bitmap) := by
  intro hreach
  have h₁ := heapTable_window h hreach (k := 14) (by omega)
  have h₂ := heapTable_window h hreach (k := 15) (by omega)
  omega

end Reach

/-- Whenever `vmm_init` maps the whole heap, some page table is not mapped at its own physical
address. -/
theorem tables_unreachable (kernelEnd memLower memUpper : ℕ) (mem : ByteMemory)
    (bitmap : Bitmap 32) (h : HeapMapped (bootVmm kernelEnd memLower memUpper mem bitmap)) :
    ¬TablesReachable (bootVmm kernelEnd memLower memUpper mem bitmap) :=
  not_tablesReachable (heapMapped_iff.mp h)

/-- A machine with 128 MB and a kernel that ends at 2 MB. -/
theorem tables_unreachable_128MB :
    HeapMapped (bootVmm 0x200000 640 130048 ⟨fun _ => 0, []⟩ 0) ∧
      ¬TablesReachable (bootVmm 0x200000 640 130048 ⟨fun _ => 0, []⟩ 0) := by
  have h : HeapMapped (bootVmm 0x200000 640 130048 ⟨fun _ => 0, []⟩ 0) :=
    heapMapped_iff.mpr (by decide)
  exact ⟨h, tables_unreachable _ _ _ _ _ h⟩

/-- With 128 MB the table of the last heap pages is at 61 MB, outside what is mapped to itself. -/
theorem heap_table_not_identity_mapped :
    HeapMapped (bootVmm 0x150000 639 130048 ⟨fun _ => 0, []⟩ 0) ∧
      tableOf (bootVmm 0x150000 639 130048 ⟨fun _ => 0, []⟩ 0) 0x38F = 0x3D65000 ∧
      ¬TablesReachable (bootVmm 0x150000 639 130048 ⟨fun _ => 0, []⟩ 0) := by
  have h : startPageToFree 0x150000 + vmmPages ≤ initialPages 639 130048 := by decide
  exact ⟨heapMapped_iff.mpr h, (heapTable _ _ h (k := 15) (by decide)).2, not_tablesReachable h⟩

end OpenKernel.Memory
