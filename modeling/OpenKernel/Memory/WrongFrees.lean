import OpenKernel.Memory.Pmm

/-!
# Freeing the wrong page

`pmm_free_page` ignores addresses behind the last page and believes all others:
a page that is free already is counted once more, and a page below the first
allocatable one becomes allocatable. As long as no such free is made, the counter
and the bitmap agree.
-/

namespace OpenKernel.Memory

/-- The free is of a page that is free already or below the first one that `pmm_init` frees. -/
def WrongFree (first : ℕ) (p : Pmm) (addr : ℕ) : Prop :=
  p.Free (addr / pageSize) ∨ addr / pageSize < first

/-- A free is ignored, or it is of a page in use from the first one on. -/
def FreesUsed (first : ℕ) (s : PmmState) : PmmCall → Prop
  | .alloc => True
  | .free addr => s.pmm.pageCount ≤ addr / pageSize ∨ ¬ WrongFree first s.pmm addr

/-- No page below the first one is free, and the counter counts the free ones. -/
structure CountInv (first count : ℕ) (p : Pmm) : Prop where
  range : p.InRange
  pages : p.pageCount = count
  reserved : ∀ i ∈ p.clearBits, first ≤ i
  counted : p.freePages = p.clearBits.card

section Frees

variable {p : Pmm} {addr : ℕ}

theorem pmmFreePage_page (p : Pmm) (addr : ℕ) :
    pmmFreePage p addr = pmmFreePage p (addr / pageSize * pageSize) := by
  unfold pmmFreePage
  rw [Nat.mul_div_cancel _ (by decide)]

theorem pmmFreePage_of_le (h : p.pageCount ≤ addr / pageSize) : pmmFreePage p addr = p :=
  if_pos h

theorem pmmFreePage_freePages (h : addr / pageSize < p.pageCount) :
    (pmmFreePage p addr).freePages = word (p.freePages + 1) := by
  unfold pmmFreePage
  rw [if_neg (by omega)]

theorem clearBits_pmmFreePage_addr (hp : p.InRange) (h : addr / pageSize < p.pageCount) :
    (pmmFreePage p addr).clearBits = insert (addr / pageSize) p.clearBits := by
  rw [pmmFreePage_page]
  exact clearBits_pmmFreePage hp h

theorem freePages_pmmFreePage_ne (h : addr / pageSize < p.pageCount) :
    (pmmFreePage p addr).freePages ≠ p.freePages := by
  rw [pmmFreePage_freePages h]
  unfold word
  omega

end Frees

namespace CountInv

variable {first count : ℕ} {p : Pmm}

theorem freePages_le (h : CountInv first count p) : p.freePages ≤ count - first := by
  have hsub : p.clearBits ⊆ Finset.Ico first count := by
    intro i hi
    have hlt := (mem_clearBits.mp hi).1
    rw [h.pages] at hlt
    exact Finset.mem_Ico.mpr ⟨h.reserved i hi, hlt⟩
  have hcard := Finset.card_le_card hsub
  rw [Nat.card_Ico] at hcard
  rw [h.counted]
  exact hcard

theorem count_lt (h : CountInv first count p) : count < 2 ^ 20 := by
  have := h.range.pages
  rw [h.pages] at this
  exact this

theorem take {i : ℕ} (h : CountInv first count p) (hi : i < p.pageCount) (hfree : p.Free i) :
    CountInv first count (p.take i) := by
  refine ⟨h.range.take hi, h.pages, ?_, counted_take h.range h.counted hi hfree⟩
  intro j hj
  rw [clearBits_take h.range hi] at hj
  exact h.reserved j (Finset.mem_of_mem_erase hj)

theorem free {addr : ℕ} (h : CountInv first count p)
    (hok : p.pageCount ≤ addr / pageSize ∨ ¬ WrongFree first p addr) :
    CountInv first count (pmmFreePage p addr) := by
  by_cases hout : p.pageCount ≤ addr / pageSize
  · rw [pmmFreePage_of_le hout]
    exact h
  · rw [not_le] at hout
    have hright := hok.resolve_left (by omega)
    unfold WrongFree at hright
    push Not at hright
    refine ⟨h.range.free, pmmFreePage_pageCount.trans h.pages, ?_, ?_⟩
    · intro i hi
      rw [clearBits_pmmFreePage_addr h.range hout] at hi
      rcases Finset.mem_insert.mp hi with rfl | hi
      · exact hright.2
      · exact h.reserved i hi
    · rw [pmmFreePage_page]
      exact counted_free h.range h.counted hout hright.1

theorem step {s t : PmmState} {call : PmmCall} (h : CountInv first count s.pmm)
    (hok : FreesUsed first s call) (hstep : pmmStep s call = some t) :
    CountInv first count t.pmm := by
  cases call with
  | alloc =>
    obtain rfl := Option.some.inj hstep
    dsimp only
    rcases pmmAllocPage_cases h.range with ⟨-, halloc⟩ | ⟨i, _, hi, hfree, -, -, halloc⟩
    · rw [halloc]
      exact h
    · rw [halloc]
      exact h.take hi hfree
  | free addr =>
    obtain rfl := Option.some.inj hstep
    exact h.free hok

end CountInv

theorem countInv_init (kernelEnd memLower memUpper : ℕ) (bitmap : Bitmap 32) :
    CountInv (startPageToFree kernelEnd) (initialPages memLower memUpper)
      (pmmInit kernelEnd memLower memUpper bitmap) := by
  have hinit := pmmInv_init kernelEnd memLower memUpper bitmap
  have hspec := pmmInit_spec kernelEnd memLower memUpper bitmap
  refine ⟨hinit.range, hspec.1, fun i hi => ?_, hinit.count⟩
  obtain ⟨hlt, hfree⟩ := mem_clearBits.mp hi
  exact ((hinit.free_iff i hlt).mp hfree).1

theorem lt_of_startPageToFree_le {kernelEnd i : ℕ} (hi : startPageToFree kernelEnd ≤ i)
    (hend : kernelEnd + pageSize < 2 ^ 32) : kernelEnd < i * pageSize := by
  have hword : word (kernelEnd + pageSize) = kernelEnd + pageSize := Nat.mod_eq_of_lt hend
  unfold startPageToFree at hi
  rw [hword] at hi
  unfold pageSize at *
  omega

/-- In every run whose frees are ignored or of used pages from the first one on: the counter is
the number of free pages and at most that of the allocatable ones; a page that is handed out is
allocatable, behind the kernel, and counted off; and a wrong free would change nothing exactly if
it were ignored. -/
theorem wrongFree_harmless {kernelEnd memLower memUpper : ℕ} {bitmap : Bitmap 32}
    {calls : List PmmCall} {s : PmmState}
    (hrun : Run pmmStep (FreesUsed (startPageToFree kernelEnd))
      ⟨pmmInit kernelEnd memLower memUpper bitmap, []⟩ calls s) :
    s.pmm.freePages = s.pmm.clearBits.card ∧
      s.pmm.freePages ≤ initialPages memLower memUpper - startPageToFree kernelEnd ∧
      (pmmAllocPage s.pmm = (s.pmm, 0) ∨
        ∃ i, (pmmAllocPage s.pmm).2 = i * pageSize ∧ startPageToFree kernelEnd ≤ i ∧
          i < s.pmm.pageCount ∧ (kernelEnd + pageSize < 2 ^ 32 → kernelEnd < i * pageSize) ∧
          (pmmAllocPage s.pmm).1.freePages + 1 = s.pmm.freePages) ∧
      ∀ addr, WrongFree (startPageToFree kernelEnd) s.pmm addr →
        ((pmmFreePage s.pmm addr).bitmap = s.pmm.bitmap ∧
          (pmmFreePage s.pmm addr).freePages = s.pmm.freePages ↔
            s.pmm.pageCount ≤ addr / pageSize) := by
  have h : CountInv (startPageToFree kernelEnd) (initialPages memLower memUpper) s.pmm := by
    apply hrun.invariant
      (fun s => CountInv (startPageToFree kernelEnd) (initialPages memLower memUpper) s.pmm)
    · exact fun s call t hs hok hstep => hs.step hok hstep
    · exact countInv_init kernelEnd memLower memUpper bitmap
  refine ⟨h.counted, h.freePages_le, ?_, ?_⟩
  · rcases pmmAllocPage_cases h.range with ⟨-, halloc⟩ | ⟨i, _, hi, hfree, -, -, halloc⟩
    · exact Or.inl halloc
    · have hmem : i ∈ s.pmm.clearBits := mem_clearBits.mpr ⟨hi, hfree⟩
      have hfirst := h.reserved i hmem
      have hpos := Finset.card_pos.mpr ⟨i, hmem⟩
      rw [← h.counted] at hpos
      have hle := h.freePages_le
      have hlt := h.count_lt
      rw [halloc]
      refine Or.inr ⟨i, rfl, hfirst, hi, lt_of_startPageToFree_le hfirst, ?_⟩
      simp only [Pmm.take, word]
      omega
  · intro addr _
    constructor
    · rintro ⟨-, hcount⟩
      by_contra hin
      exact freePages_pmmFreePage_ne (by omega) hcount
    · intro hout
      rw [pmmFreePage_of_le hout]
      exact ⟨rfl, rfl⟩

/-- A page is taken and given back, and an address behind the last page is freed. -/
theorem wrongFree_harmless_reuse :
    ∃ s : PmmState, Run pmmStep (FreesUsed (startPageToFree 0x100000))
        ⟨pmmInit 0x100000 640 400 0, []⟩ [.alloc, .free 0x101000, .free 0xFFFFF000] s ∧
      s.pmm.freePages = s.pmm.clearBits.card := by
  have hrun : Run pmmStep (FreesUsed (startPageToFree 0x100000))
      ⟨pmmInit 0x100000 640 400 0, []⟩ [.alloc, .free 0x101000, .free 0xFFFFF000] _ :=
    .cons trivial rfl (.cons (Or.inr (by unfold WrongFree; decide +kernel)) rfl
      (.cons (Or.inl (by decide +kernel)) rfl (.nil _)))
  exact ⟨_, hrun, (wrongFree_harmless hrun).1⟩

/-- With 1040 KB, of which three pages are allocatable: freeing the first of them at once makes
four, and after freeing page 1 that page is handed out. -/
theorem wrongFree_believed :
    (∃ s : PmmState, Run pmmStep anyCall ⟨pmmInit 0x100000 640 400 0, []⟩ [.free 0x101000] s ∧
      s.pmm.clearBits.card = 3 ∧ s.pmm.freePages = 4) ∧
      ∃ s : PmmState, Run pmmStep anyCall ⟨pmmInit 0x100000 640 400 0, []⟩
        [.free 0x1000, .alloc] s ∧ s.live = [0x1000] := by
  have h := countInv_init 0x100000 640 400 0
  have hspec := pmmInit_spec 0x100000 640 400 0
  have hpages : (pmmInit 0x100000 640 400 0).pageCount = 260 := by
    rw [hspec.1]
    decide
  have hfree : (pmmInit 0x100000 640 400 0).freePages = 3 := by
    rw [hspec.2.2.1]
    decide
  have hin : 0x101000 / pageSize < (pmmInit 0x100000 640 400 0).pageCount := by
    rw [hpages]
    decide
  refine ⟨⟨_, .cons trivial rfl (.nil _), ?_, ?_⟩,
    ⟨_, .cons trivial rfl (.cons trivial rfl (.nil _)), by decide +kernel⟩⟩
  · have hmem : 0x101000 / pageSize ∈ (pmmInit 0x100000 640 400 0).clearBits := by
      rw [mem_clearBits]
      refine ⟨hin, (hspec.2.2.2 _ (by decide)).mpr (by decide)⟩
    dsimp only
    rw [clearBits_pmmFreePage_addr h.range hin, Finset.insert_eq_of_mem hmem, ← h.counted, hfree]
  · dsimp only
    rw [pmmFreePage_freePages hin, hfree]
    rfl

end OpenKernel.Memory
