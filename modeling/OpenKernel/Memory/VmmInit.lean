import OpenKernel.Memory.Paging

/-!
# Building the kernel address space

`vmm_init` of `memory.c` maps the low 4 MB, the kernel, the frame buffers and
the heap, one page after the other. On the pages of a fresh `pmm_init` the
allocator hands out consecutive pages, so the whole loop nest is simulated by a
`Layout`: the next page to hand out, the page of each table, and the entry of
each virtual page.
-/

namespace OpenKernel.Memory

def kernelVirtualBase : ℕ := 0xC0000000

def vmmHeapPages : ℕ := heapSize / pageSize

def pageAlignUp (addr : ℕ) : ℕ := word (addr + pageSize - 1) / pageSize * pageSize

/-- The loops of `vmm_init` that map `count` pages from `phys` at `virt`. -/
def mapPages (s : Vmm) (phys virt count : ℕ) : Vmm :=
  (List.range count).foldl (fun s i => vmmMapPage s (phys + i * pageSize) (virt + i * pageSize)
    (pdeWritable ||| pdePresent)) s

/-- The loop over the heap pages from page `i` on. -/
def mapHeap : ℕ → ℕ → Vmm → Vmm
  | 0, _, s => s
  | rounds + 1, i, s =>
    let result := pmmAllocPage s.pmm
    let s := { s with pmm := result.1 }
    if result.2 = 0 then s
    else mapHeap rounds (i + 1)
      (vmmMapPage s result.2 (heapStart + i * pageSize) (pdeWritable ||| pdePresent))

/-- The directory is allocated, without a check, and cleared. -/
def initDirectory (s : Vmm) : Vmm :=
  let result := pmmAllocPage s.pmm
  let directory := pageAlignUp result.2
  { mem := clearPage s.mem directory, pmm := result.1, directory := directory }

def vmmInit (s : Vmm) : Vmm :=
  let s := initDirectory s
  let s := mapPages s 0 0 1024
  let s := mapPages s 0x100000 kernelVirtualBase 256
  let s := vmmMapPage s 0xB8000 0xB8000 (pdeWritable ||| pdePresent)
  let s := mapPages s 0xA0000 0xA0000 16
  let s := mapPages s 0xFD000000 0xFD000000 512
  mapHeap vmmHeapPages 0 s

/-! ### Consecutive pages -/

/-- Of `limit` pages exactly those from `next` on are free, and the search starts there. -/
structure Untouched (limit next : ℕ) (p : Pmm) : Prop where
  range : p.InRange
  pages : p.pageCount = limit
  free_iff : ∀ i < limit, p.Free i ↔ next ≤ i
  hint : next < limit → p.searchHint = next

theorem untouched_pmmInit (kernelEnd memLower memUpper : ℕ) (bitmap : Bitmap 32) :
    Untouched (initialPages memLower memUpper) (startPageToFree kernelEnd)
      (pmmInit kernelEnd memLower memUpper bitmap) := by
  obtain ⟨hpages, hhint, _, hfree⟩ := pmmInit_spec kernelEnd memLower memUpper bitmap
  exact ⟨(pmmInv_init kernelEnd memLower memUpper bitmap).range, hpages, hfree, fun _ => hhint⟩

namespace Untouched

variable {limit next : ℕ} {p : Pmm}

theorem alloc_none (h : Untouched limit next p) (hle : limit ≤ next) : pmmAllocPage p = (p, 0) := by
  rcases pmmAllocPage_cases h.range with ⟨_, halloc⟩ | ⟨i, _, hi, hfree, _⟩
  · exact halloc
  · rw [h.pages] at hi
    have := (h.free_iff i hi).mp hfree
    omega

theorem alloc_some (h : Untouched limit next p) (hlt : next < limit) :
    (pmmAllocPage p).2 = next * pageSize ∧ Untouched limit (next + 1) (pmmAllocPage p).1 := by
  have hpages := h.pages
  have hmod : (p.searchHint + 0) % p.pageCount = next := by
    rw [h.hint hlt, hpages, Nat.add_zero, Nat.mod_eq_of_lt hlt]
  have hnext : p.Free next := (h.free_iff next hlt).mpr le_rfl
  rcases pmmAllocPage_cases h.range with ⟨hnone, _⟩ | ⟨i, k, hi, _, hik, hbefore, halloc⟩
  · exact absurd hnext (hnone next (by omega))
  · have hk : k = 0 := by
      by_contra hk
      exact hbefore 0 (by omega) (by rw [hmod]; exact hnext)
    obtain rfl : i = next := by rw [hik, hk, hmod]
    rw [halloc]
    have hmax := h.range.pages
    refine ⟨rfl, ⟨⟨hmax, ?_⟩, hpages, ?_, ?_⟩⟩
    · have hmod := Nat.mod_lt (i + 1) (show p.pageCount > 0 by omega)
      change (i + 1) % p.pageCount ≤ pmmMaxPages
      omega
    · intro j hj
      rw [free_take h.range hi (by omega), h.free_iff j hj]
      omega
    · intro hlt'
      change (i + 1) % p.pageCount = i + 1
      rw [hpages, Nat.mod_eq_of_lt hlt']

end Untouched

/-! ### The layout -/

/-- The first page not handed out, the page of the table of each directory entry, and the entry
of each virtual page. -/
structure Layout where
  next : ℕ
  table : ℕ → Option ℕ
  entry : ℕ → ℕ

/-- An entry as `vmm_init` makes them. -/
def entryOf (frame : ℕ) : ℕ := frame * pageSize + 3

def Layout.mapPage (limit : ℕ) (A : Layout) (page frame : ℕ) : Layout :=
  match A.table (page / 1024) with
  | some _ => { A with entry := Function.update A.entry page (entryOf frame) }
  | none =>
    if A.next < limit then
      { next := A.next + 1
        table := Function.update A.table (page / 1024) (some A.next)
        entry := Function.update A.entry page (entryOf frame) }
    else A

def Layout.mapRange (limit : ℕ) (A : Layout) (page frame count : ℕ) : Layout :=
  (List.range count).foldl (fun A i => A.mapPage limit (page + i) (frame + i)) A

def Layout.mapHeap (limit : ℕ) : ℕ → ℕ → Layout → Layout
  | 0, _, A => A
  | rounds + 1, i, A =>
    if A.next < limit then
      Layout.mapHeap limit rounds (i + 1)
        (Layout.mapPage limit { A with next := A.next + 1 } (0xE0000 + i) A.next)
    else A

/-- The tables of `s` are as `A` says, and only pages before `A.next` are in use. -/
structure Follows (limit : ℕ) (A : Layout) (s : Vmm) : Prop where
  pmm : Untouched limit A.next s.pmm
  tables : Tables s
  directory : A.next < limit → s.directory < A.next * pageSize
  hasTable : ∀ pd < 1024, HasTable s pd ↔ A.table pd ≠ none
  tableOf : ∀ pd < 1024, ∀ f, A.table pd = some f → tableOf s pd = f * pageSize ∧ f < A.next
  entry : ∀ virt < 2 ^ 32, entryAt s virt = A.entry (virt / pageSize)

theorem mapFlags_eq (frame : ℕ) :
    frame * pageSize ||| (pdeWritable ||| pdePresent) ||| pdePresent = entryOf frame := by
  rw [Nat.or_assoc]
  exact or_flags (Nat.mul_mod_left _ _) (by decide)

theorem virt_lt {page : ℕ} (h : page < 2 ^ 20) : page * pageSize < 2 ^ 32 := by
  unfold pageSize
  omega

theorem page_virt (page : ℕ) : page * pageSize / pageSize = page :=
  Nat.mul_div_cancel page (by decide)

namespace Follows

variable {limit : ℕ} {A : Layout} {s : Vmm}

theorem freshFrame (h : Follows limit A s) (hlt : A.next < limit) :
    FreshFrame s (A.next * pageSize) := by
  have hdir := h.directory hlt
  have hpages := h.pmm.range.pages
  rw [h.pmm.pages] at hpages
  refine ⟨Nat.mul_mod_left _ _, ?_, by omega, ?_⟩
  · unfold pageSize pmmMaxPages at *
    omega
  · intro pd hpd htable heq
    obtain ⟨f, hf⟩ := Option.ne_none_iff_exists'.mp ((h.hasTable pd hpd).mp htable)
    obtain ⟨hf, hflt⟩ := h.tableOf pd hpd f hf
    rw [hf] at heq
    exact absurd (pageSize_inj heq) (by omega)

theorem next_ne_zero (h : Follows limit A s) (hlt : A.next < limit) : A.next * pageSize ≠ 0 := by
  have hdir := h.directory hlt
  omega

theorem allocatesFresh (h : Follows limit A s) (virt : ℕ) : AllocatesFresh s virt := by
  intro _ hne
  rcases Nat.lt_or_ge A.next limit with hlt | hge
  · rw [(h.pmm.alloc_some hlt).1]
    exact h.freshFrame hlt
  · rw [h.pmm.alloc_none hge] at hne
    exact absurd rfl hne

theorem mapSucceeds_iff (h : Follows limit A s) {virt : ℕ} (hvirt : virt < 2 ^ 32) :
    MapSucceeds s virt ↔ A.table (pdIndex virt) ≠ none ∨ A.next < limit := by
  unfold MapSucceeds
  rw [h.hasTable _ (pdIndex_lt hvirt)]
  rcases Nat.lt_or_ge A.next limit with hlt | hge
  · have hne := h.next_ne_zero hlt
    simp [(h.pmm.alloc_some hlt).1, hne, hlt]
  · have hnlt : ¬A.next < limit := by omega
    simp [h.pmm.alloc_none hge, hnlt]

theorem entry_map (h : Follows limit A s) {page frame : ℕ} (hpage : page < 2 ^ 20)
    (hframe : frame < 2 ^ 20) (hok : MapSucceeds s (page * pageSize)) {v : ℕ} (hv : v < 2 ^ 32) :
    entryAt (vmmMapPage s (frame * pageSize) (page * pageSize) (pdeWritable ||| pdePresent)) v =
      Function.update A.entry page (entryOf frame) (v / pageSize) := by
  have hflags : pdeWritable ||| pdePresent < 0x1000 := by decide
  obtain ⟨_, hself, hother⟩ := h.tables.map (h.allocatesFresh _) (virt_lt hframe) hflags
    (virt_lt hpage) hok
  rw [page_virt] at hother
  rw [mapFlags_eq] at hself
  by_cases heq : v / pageSize = page
  · unfold entryAt
    rw [walk_congr (heq.trans (page_virt page).symm), hself, heq, Function.update_self]
    rfl
  · rw [Function.update_of_ne heq, ← h.entry v hv]
    exact (hother v hv heq).getD

theorem mapPage_of_table (h : Follows limit A s) {page frame : ℕ} (hpage : page < 2 ^ 20)
    (hframe : frame < 2 ^ 20) (htable : A.table (page / 1024) ≠ none) :
    Follows limit { A with entry := Function.update A.entry page (entryOf frame) }
      (vmmMapPage s (frame * pageSize) (page * pageSize) (pdeWritable ||| pdePresent)) := by
  have hvirt := virt_lt hpage
  have hpd : pdIndex (page * pageSize) = page / 1024 := by rw [pdIndex_eq, page_virt]
  have hhas : HasTable s (pdIndex (page * pageSize)) := by
    rw [h.hasTable _ (pdIndex_lt hvirt), hpd]
    exact htable
  have hentry := fun v => h.entry_map hpage hframe (Or.inl hhas) (v := v)
  rw [vmmMapPage_of_hasTable hhas] at hentry ⊢
  refine ⟨h.pmm, h.tables.setEntry hvirt hhas, h.directory, ?_, ?_, hentry⟩
  · intro pd hlt
    unfold HasTable
    rw [h.tables.dirEntry_setEntry hvirt hhas hlt]
    exact h.hasTable pd hlt
  · intro pd hlt
    unfold Memory.tableOf
    rw [h.tables.dirEntry_setEntry hvirt hhas hlt]
    exact h.tableOf pd hlt

theorem mapPage_new (h : Follows limit A s) {page frame : ℕ} (hpage : page < 2 ^ 20)
    (hframe : frame < 2 ^ 20) (htable : A.table (page / 1024) = none) (hlt : A.next < limit) :
    Follows limit
      { next := A.next + 1
        table := Function.update A.table (page / 1024) (some A.next)
        entry := Function.update A.entry page (entryOf frame) }
      (vmmMapPage s (frame * pageSize) (page * pageSize) (pdeWritable ||| pdePresent)) := by
  have hvirt := virt_lt hpage
  have hpd : pdIndex (page * pageSize) = page / 1024 := by rw [pdIndex_eq, page_virt]
  have hpdlt := pdIndex_lt hvirt
  have hhas : ¬HasTable s (pdIndex (page * pageSize)) := by
    rw [h.hasTable _ hpdlt, hpd, htable]
    exact fun hne => hne rfl
  obtain ⟨hpage', hpmm⟩ := h.pmm.alloc_some hlt
  have halloc : (pmmAllocPage s.pmm).2 ≠ 0 := by
    rw [hpage']
    exact h.next_ne_zero hlt
  have hentry := fun v => h.entry_map hpage hframe (Or.inr halloc) (v := v)
  rw [vmmMapPage_of_alloc hhas halloc] at hentry ⊢
  -- The page allocator changes, then the table is added, then its entry is written.
  have hfresh : FreshFrame { s with pmm := (pmmAllocPage s.pmm).1 } (pmmAllocPage s.pmm).2 := by
    rw [hpage']
    exact (h.freshFrame hlt).withPmm _
  have h₁ := h.tables.withPmm (pmmAllocPage s.pmm).1
  have h₂ := h₁.addTable hpdlt hfresh halloc
  have hnew := (h₁.hasTable_addTable hpdlt hfresh hpdlt).mpr (Or.inl rfl)
  have hdirectory := h.directory hlt
  refine ⟨hpmm, h₂.setEntry hvirt hnew, ?_, ?_, ?_, hentry⟩
  · intro _
    change s.directory < (A.next + 1) * pageSize
    rw [Nat.add_mul]
    omega
  · intro pd hpd'
    unfold HasTable
    rw [h₂.dirEntry_setEntry hvirt hnew hpd']
    have hiff := h₁.hasTable_addTable hpdlt hfresh hpd'
    unfold HasTable at hiff
    rw [hiff, hpd]
    dsimp only
    by_cases heq : pd = page / 1024
    · simp [heq]
    · rw [Function.update_of_ne heq, or_iff_right heq]
      exact h.hasTable pd hpd'
  · intro pd hpd' f hf
    unfold Memory.tableOf
    rw [h₂.dirEntry_setEntry hvirt hnew hpd']
    have htab := h₁.tableOf_addTable hpdlt hfresh hpd'
    unfold Memory.tableOf at htab
    rw [htab, hpd]
    dsimp only at hf ⊢
    by_cases heq : pd = page / 1024
    · rw [heq, Function.update_self] at hf
      rw [if_pos heq, ← Option.some.inj hf]
      exact ⟨hpage', Nat.lt_succ_self _⟩
    · rw [Function.update_of_ne heq] at hf
      rw [if_neg heq]
      obtain ⟨hf, hflt⟩ := h.tableOf pd hpd' f hf
      exact ⟨hf, by omega⟩

theorem mapPage (h : Follows limit A s) (page frame : ℕ) (hpage : page < 2 ^ 20)
    (hframe : frame < 2 ^ 20) :
    Follows limit (A.mapPage limit page frame)
      (vmmMapPage s (frame * pageSize) (page * pageSize) (pdeWritable ||| pdePresent)) := by
  unfold Layout.mapPage
  cases htable : A.table (page / 1024) with
  | some f => exact h.mapPage_of_table hpage hframe (by simp [htable])
  | none =>
    dsimp only
    split_ifs with hlt
    · exact h.mapPage_new hpage hframe htable hlt
    · have hfail : ¬MapSucceeds s (page * pageSize) := by
        rw [h.mapSucceeds_iff (virt_lt hpage), pdIndex_eq, page_virt, htable]
        simpa using hlt
      rw [vmmMapPage_of_fails hfail, h.pmm.alloc_none (by omega)]
      exact h

theorem mapRange (h : Follows limit A s) (page frame count : ℕ) (hpage : page + count ≤ 2 ^ 20)
    (hframe : frame + count ≤ 2 ^ 20) :
    Follows limit (A.mapRange limit page frame count)
      (mapPages s (frame * pageSize) (page * pageSize) count) := by
  induction count with
  | zero => exact h
  | succ n ih =>
    unfold Layout.mapRange mapPages
    rw [List.range_succ, List.foldl_append, List.foldl_append, List.foldl_cons, List.foldl_nil,
      List.foldl_cons, List.foldl_nil, ← Nat.add_mul, ← Nat.add_mul]
    exact (ih (by omega) (by omega)).mapPage _ _ (by omega) (by omega)

theorem alloc (h : Follows limit A s) (hlt : A.next < limit) :
    Follows limit { A with next := A.next + 1 } { s with pmm := (pmmAllocPage s.pmm).1 } := by
  refine ⟨(h.pmm.alloc_some hlt).2, h.tables.withPmm _, ?_, h.hasTable, ?_, h.entry⟩
  · intro _
    have hdir := h.directory hlt
    change s.directory < (A.next + 1) * pageSize
    rw [Nat.add_mul]
    omega
  · intro pd hpd f hf
    obtain ⟨htable, hflt⟩ := h.tableOf pd hpd f hf
    exact ⟨htable, Nat.lt_succ_of_lt hflt⟩

theorem mapHeap (h : Follows limit A s) {rounds i : ℕ} (hi : i + rounds ≤ vmmHeapPages) :
    Follows limit (A.mapHeap limit rounds i) (mapHeap rounds i s) := by
  induction rounds generalizing i A s with
  | zero => exact h
  | succ rounds ih =>
    unfold Layout.mapHeap Memory.mapHeap
    dsimp only
    have hpages : vmmHeapPages = 0x4000 := by decide
    split_ifs with hzero hlt hlt
    · exact absurd ((h.pmm.alloc_some hzero).1.symm.trans hlt) (h.next_ne_zero hzero)
    · have hvirt : heapStart + i * pageSize = (0xE0000 + i) * pageSize := by
        unfold heapStart pageSize
        omega
      have hframe := h.pmm.range.pages
      rw [h.pmm.pages] at hframe
      have hmax : pmmMaxPages = 2 ^ 20 := by decide
      rw [(h.pmm.alloc_some hzero).1, hvirt]
      exact ih ((h.alloc hzero).mapPage _ _ (by omega) (by omega)) (by omega)
    · rw [h.pmm.alloc_none (by omega)]
      exact h
    · exact absurd (congrArg Prod.snd (h.pmm.alloc_none (by omega))) hlt

end Follows

theorem pageAlignUp_page {page : ℕ} (h : page < pmmMaxPages) :
    pageAlignUp (page * pageSize) = page * pageSize := by
  unfold pageAlignUp word pageSize pmmMaxPages at *
  omega

theorem entryAt_cleared {s : Vmm} (hclear : ∀ pd < 1024, dirEntry s pd = 0) {virt : ℕ}
    (hvirt : virt < 2 ^ 32) : entryAt s virt = 0 := by
  have h : walk s virt = none ∨ walk s virt = some 0 := represents_cleared hclear virt hvirt
  unfold entryAt
  rcases h with h | h
  · rw [h]
    rfl
  · rw [h]
    rfl

theorem directory_initDirectory {limit first : ℕ} {s : Vmm} (h : Untouched limit first s.pmm) :
    (initDirectory s).directory = if first < limit then first * pageSize else 0 := by
  unfold initDirectory
  dsimp only
  split_ifs with hlt
  · have hpages := h.range.pages
    rw [h.pages] at hpages
    rw [(h.alloc_some hlt).1, pageAlignUp_page (by omega)]
  · rw [h.alloc_none (by omega)]
    have hzero : 0 < pmmMaxPages := by decide
    simpa using pageAlignUp_page hzero

/-- After the directory is cleared no page is mapped. -/
theorem follows_initDirectory {limit first : ℕ} {s : Vmm} (h : Untouched limit first s.pmm) :
    Follows limit ⟨if first < limit then first + 1 else first, fun _ => none, fun _ => 0⟩
      (initDirectory s) := by
  have hdir := directory_initDirectory h
  have haligned : (initDirectory s).directory % pageSize = 0 := by
    rw [hdir]
    split_ifs
    · exact Nat.mul_mod_left _ _
    · rfl
  have hclear : ∀ pd < 1024, dirEntry (initDirectory s) pd = 0 := by
    intro pd hpd
    have hmem : (initDirectory s).mem = clearPage s.mem (initDirectory s).directory := by
      unfold initDirectory
      dsimp only
    unfold dirEntry pageSize at *
    rw [hmem, load_clearPage _ (by omega) (by omega), if_pos (by unfold pageSize; omega)]
  have htables := tables_cleared haligned hclear
  refine ⟨?_, htables, ?_, ?_, ?_, ?_⟩
  · dsimp only
    split_ifs with hlt
    · exact (h.alloc_some hlt).2
    · change Untouched limit first (pmmAllocPage s.pmm).1
      rw [h.alloc_none (by omega)]
      exact h
  · dsimp only
    rw [hdir]
    split_ifs with hlt
    · intro _
      unfold pageSize
      omega
    · intro hlt'
      exact absurd hlt' hlt
  · intro pd hpd
    unfold HasTable
    rw [hclear pd hpd]
    simp
  · intro pd hpd f hf
    cases hf
  · intro virt hvirt
    exact entryAt_cleared hclear hvirt

end OpenKernel.Memory
