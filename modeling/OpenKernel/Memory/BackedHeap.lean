import OpenKernel.Memory.AddressSpace
import OpenKernel.Memory.HeapSafety

/-!
# The memory behind the heap

`memory_init` sets up the pages, the address space and the heap one after the
other. `heap_init` takes all of `HEAP_SIZE`, whatever part of it `vmm_init`
could map.
-/

namespace OpenKernel.Memory

open ByteMemory Linked

/-- The page tables and the heap after `memory_init`; `virt` is what virtual memory held. -/
def memoryInit (kernelEnd memLower memUpper : ℕ) (mem virt : ByteMemory) (bitmap : Bitmap 32) :
    Vmm × Heap :=
  (bootVmm kernelEnd memLower memUpper mem bitmap, heapInit virt)

section MemoryInit

variable (kernelEnd memLower memUpper : ℕ) (mem virt : ByteMemory) (bitmap : Bitmap 32)

theorem memoryInit_vmm : (memoryInit kernelEnd memLower memUpper mem virt bitmap).1 =
    bootVmm kernelEnd memLower memUpper mem bitmap := by
  simp only [memoryInit]

theorem memoryInit_heap :
    (memoryInit kernelEnd memLower memUpper mem virt bitmap).2 = heapInit virt := by
  simp only [memoryInit]

end MemoryInit

/-- Requests of any size, and otherwise what `HeapOk` allows. -/
def AnySize (h : Heap) : Call → Prop
  | .kmalloc size => size < 2 ^ 32
  | .kfree ptr => ptr = 0 ∨ ∃ n, (ptr, n) ∈ h.live
  | .poke addr _ =>
      (∃ p n, (p, n) ∈ h.live ∧ n ≤ heapSize ∧ p ≤ addr ∧ addr < p + n) ∨
        addr < heapStart ∨ heapLimit ≤ addr

/-- A request that can wrap around promises no bytes. -/
def promised (n : ℕ) : ℕ := if n ≤ heapSize then n else 0

/-- The heap with what its allocations were really promised. -/
def Heap.promise (h : Heap) : Heap :=
  { h with live := h.live.map fun x => (x.1, promised x.2) }

theorem promised_le (n : ℕ) : promised n ≤ alignSize n := by
  unfold promised
  split_ifs with h
  · exact HeapInv.le_alignSize h
  · exact Nat.zero_le _

theorem mem_promise {h : Heap} {p n : ℕ} (hm : (p, n) ∈ h.live) :
    (p, promised n) ∈ h.promise.live :=
  List.mem_map.mpr ⟨(p, n), hm, rfl⟩

theorem promise_kfree (h : Heap) (p : ℕ) :
    step h.promise (.kfree p) = (step h (.kfree p)).map Heap.promise := by
  simp only [step, Heap.promise, Option.map_some, List.filter_map]
  rfl

/-- What a call with requests of any size can do to the blocks. -/
inductive BlockStep : List Block → Call → List Block → Prop
  | keep (l : List Block) (call : Call) (h : ∀ p, call = .kfree p → p = 0) : BlockStep l call l
  | take (b : Block) (l₁ l₂ : List Block) (n : ℕ) (hfree : b.free = true) :
      BlockStep (l₁ ++ b :: l₂) (.kmalloc n) (l₁ ++ carve b (alignSize n) ++ l₂)
  | free (b : Block) (l₁ l₂ : List Block) (hused : b.free = false) :
      BlockStep (l₁ ++ b :: l₂) (.kfree b.payload) (l₁ ++ merge b l₂)

/-- One call, with requests of any size, keeps the blocks in order. -/
theorem heapInv_promise_step {h t : Heap} {l : List Block} {call : Call}
    (hi : HeapInv h.promise l) (hok : AnySize h call) (hstep : step h call = some t) :
    ∃ l', BlockStep l call l' ∧ HeapInv t.promise l' := by
  cases call with
  | kmalloc n =>
    by_cases hn : n = 0
    · subst hn
      obtain rfl : { h with mem := h.mem.clearLog } = t := by
        simpa [step, kmalloc] using hstep
      exact ⟨l, .keep _ _ (by simp), hi.clearLog⟩
    · have hstart : h.start = heapStart := hi.start
      have hcall : kmalloc h.mem.clearLog heapStart n = _ := kmalloc_eq hi.laid.clearLog hn
      cases hb : bestFit (alignSize n) l with
      | none =>
        rw [hb] at hcall
        obtain rfl : { h with mem := h.mem.clearLog } = t := by
          simpa [step, hstart, hcall] using hstep
        exact ⟨l, .keep _ _ (by simp), hi.clearLog⟩
      | some b =>
        rw [hb] at hcall
        obtain ⟨hbl, hfree, hsize⟩ := bestFit_some hb
        obtain ⟨l₁, l₂, rfl⟩ := List.append_of_mem hbl
        have hne := hi.payload_ne_zero hbl
        obtain rfl : { h with mem := takeBlock h.mem.clearLog b.addr (alignSize n)
                              live := (b.payload, n) :: h.live } = t := by
          simpa [step, hstart, hcall, hne] using hstep
        exact ⟨_, .take b l₁ l₂ n hfree, hi.take hfree hsize (promised_le n)⟩
  | kfree p =>
    have hpromise : step h.promise (.kfree p) = some t.promise := by
      rw [promise_kfree, hstep, Option.map_some]
    by_cases hp : p = 0
    · have hok' : HeapOk h.promise (.kfree p) := Or.inl hp
      obtain ⟨t', ht', hi', -⟩ := hi.step hok'
      obtain rfl := Option.some.inj (hpromise.symm.trans ht')
      simp only [blocksAfter, if_pos hp] at hi'
      exact ⟨l, .keep _ _ (by simp [hp]), hi'⟩
    · obtain ⟨n, hm⟩ := hok.resolve_left hp
      obtain ⟨b, hb, rfl, hused, -⟩ := hi.live _ _ (mem_promise hm)
      obtain ⟨l₁, l₂, rfl⟩ := List.append_of_mem hb
      refine ⟨_, .free b l₁ l₂ hused, ?_⟩
      rw [← Option.some.inj hpromise]
      exact hi.free
  | poke a v =>
    have hok' : HeapOk h.promise (.poke a v) := by
      refine hok.imp ?_ id
      rintro ⟨p, n, hm, hn, hrange⟩
      refine ⟨p, promised n, mem_promise hm, ?_⟩
      rw [promised, if_pos hn]
      exact hrange
    obtain rfl := Option.some.inj hstep
    exact ⟨l, .keep _ _ (by simp), hi.poke hok'⟩

/-- After any calls the blocks are in order. -/
theorem heapInv_promise_run {virt : ByteMemory} {calls : List Call} {h : Heap}
    (hrun : Run step AnySize (heapInit virt) calls h) : ∃ l, HeapInv h.promise l := by
  apply hrun.invariant (fun h => ∃ l, HeapInv h.promise l)
  · rintro s call t ⟨l, hi⟩ hok hstep
    obtain ⟨l', -, hi'⟩ := heapInv_promise_step hi hok hstep
    exact ⟨l', hi'⟩
  · exact ⟨_, heapInv_heapInit virt⟩

/-- The list of blocks from `heap_start` on, with the sizes their headers hold. -/
structure BlockList (h : Heap) (l : List Block) : Prop where
  chain : Seg (fun b => pointer (nextOf h.mem b)) (pointer h.start) (l.map Block.addr) none
  sizes : ∀ b ∈ l, sizeOf h.mem b.addr = b.size

theorem blockList_bounds {virt : ByteMemory} {calls : List Call} {h : Heap} {l : List Block}
    (hrun : Run step AnySize (heapInit virt) calls h) (hl : BlockList h l) {b : Block}
    (hb : b ∈ l) : heapStart ≤ b.addr ∧ b.fin ≤ heapLimit := by
  obtain ⟨l₀, hi⟩ := heapInv_promise_run hrun
  have hsafe := hi.safe
  have haddr := hl.chain.unique hsafe.chain
  obtain ⟨c, hc, hcb⟩ : ∃ c ∈ l₀, c.addr = b.addr := by
    have hmem : b.addr ∈ l₀.map Block.addr := by
      rw [← haddr]
      exact List.mem_map_of_mem hb
    exact List.mem_map.mp hmem
  have hsize : c.size = b.size := by
    rw [← hl.sizes b hb, ← hcb]
    exact (hsafe.sizes c hc).symm
  have hbounds := hi.laid.tiles.bounds hc
  unfold Block.fin at *
  rw [hcb, hsize] at hbounds
  exact hbounds

theorem blockList_heapInit (virt : ByteMemory) :
    BlockList (heapInit virt) [⟨heapStart, heapSize - headerSize, true⟩] := by
  have hsafe := (heapInv_heapInit virt).safe
  exact ⟨hsafe.chain, hsafe.sizes⟩

/-! ### Backing -/

/-- The address is in a page that is mapped to a physical frame: one of those that `pmm_init`
made available. -/
def BackedAt (kernelEnd memLower memUpper : ℕ) (s : Vmm) (virt : ℕ) : Prop :=
  ∃ entry, walk s virt = some entry ∧ entry &&& pdePresent ≠ 0 ∧
    startPageToFree kernelEnd ≤ entry / pageSize ∧ entry / pageSize < initialPages memLower memUpper

/-- Every address of every block that the heap can come to have is backed. -/
def HeapBacked (kernelEnd memLower memUpper : ℕ) : Prop :=
  ∀ (mem virt : ByteMemory) (bitmap : Bitmap 32) (calls : List Call) (h : Heap) (l : List Block),
    Run step AnySize (memoryInit kernelEnd memLower memUpper mem virt bitmap).2 calls h →
    BlockList h l → ∀ b ∈ l, ∀ x, b.addr ≤ x → x < b.fin →
      BackedAt kernelEnd memLower memUpper (memoryInit kernelEnd memLower memUpper mem virt bitmap).1 x

theorem backedAt_bootVmm {kernelEnd memLower memUpper : ℕ} {mem : ByteMemory} {bitmap : Bitmap 32}
    (h : startPageToFree kernelEnd + vmmPages ≤ initialPages memLower memUpper) {x : ℕ}
    (hlo : heapStart ≤ x) (hhi : x < heapLimit) :
    BackedAt kernelEnd memLower memUpper (bootVmm kernelEnd memLower memUpper mem bitmap) x := by
  have hlimit : heapLimit = 0xE4000000 := by decide
  have hstart : heapStart = 0xE0000000 := rfl
  have hpages : vmmPages = 16404 := by decide
  have hentry := (follows_bootVmm mem bitmap h).entry x (by omega)
  obtain ⟨i, hi, hxi⟩ : ∃ i < 0x4000, x / pageSize = 0xE0000 + i :=
    ⟨x / pageSize - 0xE0000, by unfold pageSize; omega, by unfold pageSize; omega⟩
  have hframe : (bootLayout (startPageToFree kernelEnd) 0x4000).entry (x / pageSize) =
      entryOf (heapFrame (startPageToFree kernelEnd) i) := by
    change bootEntry _ _ _ = _
    rw [hxi]
    unfold bootEntry
    rw [if_neg (by omega), if_neg (by omega), if_neg (by omega), if_pos (by omega),
      Nat.add_sub_cancel_left]
  rw [hframe] at hentry
  obtain ⟨entry, hwalk, hpresent⟩ := mappedAt_of_entryAt (by rw [hentry]; exact entryOf_mod _)
  have heq : entry = entryOf (heapFrame (startPageToFree kernelEnd) i) := by
    rw [← hentry, entryAt, hwalk, Option.getD_some]
  refine ⟨entry, hwalk, hpresent, ?_⟩
  have hdiv : entry / pageSize = heapFrame (startPageToFree kernelEnd) i := by
    rw [heq]
    unfold entryOf pageSize
    omega
  rw [hdiv]
  unfold heapFrame
  omega

theorem not_heapBacked {kernelEnd memLower memUpper : ℕ}
    (h : initialPages memLower memUpper < startPageToFree kernelEnd + vmmPages) :
    ¬HeapBacked kernelEnd memLower memUpper := by
  intro hbacked
  have hblock := blockList_heapInit ⟨fun _ => 0, []⟩
  rw [← memoryInit_heap kernelEnd memLower memUpper ⟨fun _ => 0, []⟩ _ 0] at hblock
  have hlast := hbacked _ _ _ [] _ _ (.nil _) hblock _ (List.mem_singleton.mpr rfl) 0xE3FFF000
    (by decide) (by decide)
  rw [memoryInit_vmm] at hlast
  obtain ⟨entry, hwalk, hpresent, _⟩ := hlast
  exact not_mappedAt_of_entryAt (entryAt_bootVmm_last h) ⟨entry, hwalk, hpresent⟩

/-- The heap is backed exactly when the pages after the kernel hold the directory, the tables
and all frames of the heap. -/
theorem heapBacked_iff (kernelEnd memLower memUpper : ℕ) :
    HeapBacked kernelEnd memLower memUpper ↔
      startPageToFree kernelEnd + vmmPages ≤ initialPages memLower memUpper := by
  constructor
  · intro hbacked
    by_contra hshort
    exact not_heapBacked (by omega) hbacked
  · intro h mem virt bitmap calls heap l hrun hl b hb x hlo hhi
    rw [memoryInit_heap] at hrun
    rw [memoryInit_vmm]
    obtain ⟨hstart, hlimit⟩ := blockList_bounds hrun hl hb
    exact backedAt_bootVmm h (by omega) (by omega)

/-- With 32 MB of memory the heap is not backed. -/
theorem not_heapBacked_32MB : ¬HeapBacked 0x150000 639 31744 :=
  not_heapBacked (by decide)

end OpenKernel.Memory
