import OpenKernel.Memory.VmmInit

/-!
# The boot layout in closed form

Where the directory, the tables and the frames of the heap end up: the directory
and the tables of the low 4 MB, the kernel and the frame buffer take the first
four pages, and every 1024 frames of the heap are interrupted by the page of
their table.
-/

namespace OpenKernel.Memory

namespace Layout

variable {limit : ℕ} {A : Layout} {page frame count : ℕ}

/-- The entries after mapping `count` pages. -/
def rangeEntry (entry : ℕ → ℕ) (page frame count p : ℕ) : ℕ :=
  if page ≤ p ∧ p < page + count then entryOf (frame + (p - page)) else entry p

theorem mapPage_of_some {f : ℕ} (h : A.table (page / 1024) = some f) :
    A.mapPage limit page frame =
      { A with entry := Function.update A.entry page (entryOf frame) } := by
  simp [mapPage, h]

theorem mapPage_of_none (h : A.table (page / 1024) = none) (hlt : A.next < limit) :
    A.mapPage limit page frame =
      { next := A.next + 1
        table := Function.update A.table (page / 1024) (some A.next)
        entry := Function.update A.entry page (entryOf frame) } := by
  simp [mapPage, h, hlt]

theorem mapPage_of_full (h : A.table (page / 1024) = none) (hle : limit ≤ A.next) :
    A.mapPage limit page frame = A := by
  have hnlt : ¬A.next < limit := by omega
  simp [mapPage, h, hnlt]

theorem mapRange_succ :
    A.mapRange limit page frame (count + 1) =
      (A.mapRange limit page frame count).mapPage limit (page + count) (frame + count) := by
  unfold mapRange
  rw [List.range_succ, List.foldl_append, List.foldl_cons, List.foldl_nil]

theorem update_rangeEntry (entry : ℕ → ℕ) (page frame count : ℕ) :
    Function.update (rangeEntry entry page frame count) (page + count) (entryOf (frame + count)) =
      rangeEntry entry page frame (count + 1) := by
  funext p
  unfold rangeEntry
  by_cases heq : p = page + count
  · rw [heq, Function.update_self, if_pos (by omega), Nat.add_sub_cancel_left]
  · rw [Function.update_of_ne heq]
    by_cases hin : page ≤ p ∧ p < page + count
    · rw [if_pos hin, if_pos (by omega)]
    · rw [if_neg hin, if_neg (by omega)]

theorem rangeEntry_zero (entry : ℕ → ℕ) : rangeEntry entry page frame 0 = entry := by
  funext p
  exact if_neg (by omega)

theorem mapRange_of_some (pd : ℕ) {f : ℕ} (h : A.table pd = some f)
    (hpd : ∀ i < count, (page + i) / 1024 = pd) :
    A.mapRange limit page frame count =
      { A with entry := rangeEntry A.entry page frame count } := by
  induction count with
  | zero =>
    rw [rangeEntry_zero]
    rfl
  | succ n ih =>
    rw [mapRange_succ, ih fun i hi => hpd i (by omega),
      mapPage_of_some (f := f) (by rw [hpd n (by omega)]; exact h), update_rangeEntry]

theorem mapRange_of_none (pd : ℕ) (h : A.table pd = none) (hlt : A.next < limit)
    (hcount : 1 ≤ count) (hpd : ∀ i < count, (page + i) / 1024 = pd) :
    A.mapRange limit page frame count =
      { next := A.next + 1
        table := Function.update A.table pd (some A.next)
        entry := rangeEntry A.entry page frame count } := by
  induction count, hcount using Nat.le_induction with
  | base =>
    have h₀ : A.mapRange limit page frame 1 = A.mapPage limit page frame := rfl
    have hpage : page / 1024 = pd := hpd 0 (by omega)
    have hentry := update_rangeEntry A.entry page frame 0
    rw [rangeEntry_zero] at hentry
    rw [h₀, mapPage_of_none (by rw [hpage]; exact h) hlt, hpage, ← hentry]
    rfl
  | succ n hn ih =>
    rw [mapRange_succ, ih fun i hi => hpd i (by omega),
      mapPage_of_some (f := A.next) (by rw [hpd n (by omega)]; exact Function.update_self _ _ _),
      update_rangeEntry]

/-- No page is left, and the last page of the heap is not mapped. -/
structure Short (limit : ℕ) (A : Layout) : Prop where
  next : limit ≤ A.next
  last : A.entry 0xE3FFF = 0

theorem Short.mapPage (h : Short limit A) (hne : page ≠ 0xE3FFF) :
    Short limit (A.mapPage limit page frame) := by
  cases htable : A.table (page / 1024) with
  | some f =>
    rw [mapPage_of_some htable]
    exact ⟨h.next, (Function.update_of_ne hne.symm _ _).trans h.last⟩
  | none =>
    rw [mapPage_of_full htable h.next]
    exact h

theorem Short.mapRange (h : Short limit A) (hne : page + count ≤ 0xE3FFF ∨ 0xE3FFF < page) :
    Short limit (A.mapRange limit page frame count) := by
  induction count with
  | zero => exact h
  | succ n ih =>
    rw [mapRange_succ]
    exact (ih (by omega)).mapPage (by omega)

theorem Short.mapHeap (h : Short limit A) {rounds i : ℕ} : A.mapHeap limit rounds i = A := by
  cases rounds with
  | zero => rfl
  | succ rounds =>
    have hle := h.next
    unfold Layout.mapHeap
    exact if_neg (by omega)

end Layout

/-- The page behind heap page `i`: each 1024 heap pages take one page more for their table. -/
def heapFrame (first i : ℕ) : ℕ := first + 4 + i + (i + 1023) / 1024

/-- The tables when `i` heap pages are mapped. -/
def bootTable (first i pd : ℕ) : Option ℕ :=
  if pd = 0 then some (first + 1)
  else if pd = 0x300 then some (first + 2)
  else if pd = 0x3F4 then some (first + 3)
  else if 0x380 ≤ pd ∧ (pd - 0x380) * 1024 < i then some (first + 5 + 1025 * (pd - 0x380))
  else none

/-- The entries when `i` heap pages are mapped. -/
def bootEntry (first i p : ℕ) : ℕ :=
  if p < 1024 then entryOf p
  else if 0xC0000 ≤ p ∧ p < 0xC0100 then entryOf (p - 0xC0000 + 0x100)
  else if 0xFD000 ≤ p ∧ p < 0xFD200 then entryOf p
  else if 0xE0000 ≤ p ∧ p < 0xE0000 + i then entryOf (heapFrame first (p - 0xE0000))
  else 0

def bootLayout (first i : ℕ) : Layout := ⟨heapFrame first i, bootTable first i, bootEntry first i⟩

/-- The layout when the heap loop starts. -/
def layoutBeforeHeap (limit first : ℕ) : Layout :=
  let A : Layout := ⟨if first < limit then first + 1 else first, fun _ => none, fun _ => 0⟩
  let A := A.mapRange limit 0 0 1024
  let A := A.mapRange limit 0xC0000 0x100 256
  let A := A.mapPage limit 0xB8 0xB8
  let A := A.mapRange limit 0xA0 0xA0 16
  A.mapRange limit 0xFD000 0xFD000 512

namespace Layout

variable {limit first : ℕ}

theorem mapLow (hlt : first + 1 < limit) :
    mapRange limit ⟨if first < limit then first + 1 else first, fun _ => none, fun _ => 0⟩
        0 0 1024 =
      ⟨first + 2, Function.update (fun _ => none) 0 (some (first + 1)),
        rangeEntry (fun _ => 0) 0 0 1024⟩ := by
  rw [if_pos (by omega)]
  exact mapRange_of_none 0 rfl hlt (by omega) fun i hi => by omega

theorem mapKernel {table : ℕ → Option ℕ} {entry : ℕ → ℕ} (hlow : table 0 = some (first + 1))
    (hnone : table 0x300 = none) (hlt : first + 2 < limit) :
    mapRange limit (mapPage limit
        (mapRange limit ⟨first + 2, table, entry⟩ 0xC0000 0x100 256) 0xB8 0xB8) 0xA0 0xA0 16 =
      ⟨first + 3, Function.update table 0x300 (some (first + 2)),
        rangeEntry (Function.update (rangeEntry entry 0xC0000 0x100 256) 0xB8 (entryOf 0xB8))
          0xA0 0xA0 16⟩ := by
  have hlow' : Function.update table 0x300 (some (first + 2)) 0 = some (first + 1) := by
    rw [Function.update_of_ne (by decide)]
    exact hlow
  have hpd : 0xB8 / 1024 = 0 := by decide
  rw [mapRange_of_none (A := ⟨first + 2, table, entry⟩) 0x300 hnone hlt (by omega)
      fun i hi => by omega,
    mapPage_of_some (f := first + 1) (by rw [hpd]; exact hlow'),
    mapRange_of_some 0 (f := first + 1) hlow' fun i hi => by omega]

/-- With room for the directory and three tables everything before the heap is mapped. -/
theorem beforeHeap_eq (h : first + 4 ≤ limit) :
    layoutBeforeHeap limit first = bootLayout first 0 := by
  unfold layoutBeforeHeap
  dsimp only
  rw [mapLow (by omega), mapKernel rfl rfl (by omega),
    mapRange_of_none 0x3F4 (by rfl) (by dsimp only; omega) (by omega)
      fun i hi => by omega]
  unfold bootLayout
  congr 1
  · funext pd
    unfold bootTable
    by_cases h₁ : pd = 0x3F4
    · subst h₁
      rfl
    · by_cases h₂ : pd = 0x300
      · subst h₂
        rfl
      · by_cases h₃ : pd = 0
        · subst h₃
          rfl
        · rw [if_neg h₃, if_neg h₂, if_neg h₁, if_neg (by omega), Function.update_of_ne h₁]
          dsimp only
          rw [Function.update_of_ne h₂, Function.update_of_ne h₃]
  · funext p
    unfold bootEntry rangeEntry
    simp only [Function.update_apply]
    split_ifs <;> first | omega | exact congrArg entryOf (by omega)

/-- Without it no page is left when the heap loop starts. -/
theorem short_beforeHeap (h : limit < first + 4) : Short limit (layoutBeforeHeap limit first) := by
  unfold layoutBeforeHeap
  dsimp only
  by_cases h₁ : first + 1 < limit
  · rw [mapLow h₁]
    by_cases h₂ : first + 2 < limit
    · rw [mapKernel rfl rfl h₂]
      apply Short.mapRange ⟨by dsimp only; omega, _⟩ (by omega)
      simp [rangeEntry]
    · apply Short.mapRange _ (by omega)
      apply Short.mapRange _ (by omega)
      apply Short.mapPage _ (by omega)
      apply Short.mapRange ⟨by dsimp only; omega, _⟩ (by omega)
      simp [rangeEntry]
  · apply Short.mapRange _ (by omega)
    apply Short.mapRange _ (by omega)
    apply Short.mapPage _ (by omega)
    apply Short.mapRange _ (by omega)
    apply Short.mapRange ⟨_, rfl⟩ (by omega)
    dsimp only
    split_ifs <;> omega

end Layout

section HeapLoop

variable {limit first i : ℕ}

theorem bootEntry_last (hi : i < 0x4000) : bootEntry first i 0xE3FFF = 0 := by
  unfold bootEntry
  rw [if_neg (by omega), if_neg (by omega), if_neg (by omega), if_neg (by omega)]

theorem bootEntry_succ (hi : i < 0x4000) :
    Function.update (bootEntry first i) (0xE0000 + i) (entryOf (heapFrame first i)) =
      bootEntry first (i + 1) := by
  funext p
  unfold bootEntry
  by_cases heq : p = 0xE0000 + i
  · rw [heq, Function.update_self, if_neg (by omega), if_neg (by omega), if_neg (by omega),
      if_pos (by omega), Nat.add_sub_cancel_left]
  · rw [Function.update_of_ne heq]
    split_ifs <;> first | rfl | omega

theorem bootTable_heap (first : ℕ) (hi : i < 0x4000) :
    bootTable first i ((0xE0000 + i) / 1024) =
      if i % 1024 = 0 then none else some (first + 5 + 1025 * (i / 1024)) := by
  have hpd : (0xE0000 + i) / 1024 = 0x380 + i / 1024 := by omega
  unfold bootTable
  rw [hpd, if_neg (by omega), if_neg (by omega), if_neg (by omega), Nat.add_sub_cancel_left]
  by_cases hmod : i % 1024 = 0
  · rw [if_pos hmod, if_neg (by omega)]
  · rw [if_neg hmod, if_pos (by omega)]

theorem bootTable_same (hmod : i % 1024 ≠ 0) : bootTable first i = bootTable first (i + 1) := by
  funext pd
  unfold bootTable
  split_ifs <;> first | rfl | omega

theorem bootTable_succ (hi : i < 0x4000) (hmod : i % 1024 = 0) :
    Function.update (bootTable first i) ((0xE0000 + i) / 1024) (some (heapFrame first i + 1)) =
      bootTable first (i + 1) := by
  have hpd : (0xE0000 + i) / 1024 = 0x380 + i / 1024 := by omega
  have hframe : heapFrame first i + 1 = first + 5 + 1025 * (i / 1024) := by
    unfold heapFrame
    omega
  funext pd
  unfold bootTable
  rw [hpd, hframe]
  by_cases heq : pd = 0x380 + i / 1024
  · rw [heq, Function.update_self, if_neg (by omega), if_neg (by omega), if_neg (by omega),
      if_pos (by omega), Nat.add_sub_cancel_left]
  · rw [Function.update_of_ne heq]
    split_ifs <;> first | rfl | omega

/-- One round of the heap loop that finds the pages it needs. -/
theorem bootLayout_step (hi : i < 0x4000) (hroom : heapFrame first (i + 1) ≤ limit) :
    Layout.mapPage limit { bootLayout first i with next := heapFrame first i + 1 } (0xE0000 + i)
      (heapFrame first i) = bootLayout first (i + 1) := by
  have htable := bootTable_heap first hi
  by_cases hmod : i % 1024 = 0
  · rw [if_pos hmod] at htable
    have hnext : heapFrame first i + 1 + 1 = heapFrame first (i + 1) := by
      unfold heapFrame
      omega
    rw [Layout.mapPage_of_none htable (by dsimp only; omega)]
    simp only [bootLayout, bootEntry_succ hi, bootTable_succ hi hmod, hnext]
  · rw [if_neg hmod] at htable
    have hnext : heapFrame first i + 1 = heapFrame first (i + 1) := by
      unfold heapFrame
      omega
    rw [Layout.mapPage_of_some htable]
    simp only [bootLayout, bootEntry_succ hi, bootTable_same hmod, hnext]

theorem bootLayout_short (hi : i < 0x4000) (hlt : heapFrame first i < limit)
    (hroom : limit < heapFrame first (i + 1)) :
    Layout.Short limit (Layout.mapPage limit
      { bootLayout first i with next := heapFrame first i + 1 } (0xE0000 + i)
      (heapFrame first i)) := by
  have hmod : i % 1024 = 0 := by
    unfold heapFrame at *
    omega
  have htable := bootTable_heap first hi
  rw [if_pos hmod] at htable
  have hle : limit ≤ heapFrame first i + 1 := by
    unfold heapFrame at *
    omega
  rw [Layout.mapPage_of_full htable hle]
  exact ⟨hle, bootEntry_last hi⟩

/-- The heap loop maps every page if there are enough, and else not the last one. -/
theorem mapHeap_bootLayout (rounds : ℕ) (hi : i + rounds = 0x4000)
    (hroom : heapFrame first i ≤ limit) :
    (heapFrame first 0x4000 ≤ limit →
        (bootLayout first i).mapHeap limit rounds i = bootLayout first 0x4000) ∧
      (limit < heapFrame first 0x4000 →
        ((bootLayout first i).mapHeap limit rounds i).entry 0xE3FFF = 0) := by
  induction rounds generalizing i with
  | zero =>
    obtain rfl : i = 0x4000 := by omega
    exact ⟨fun _ => rfl, fun h => absurd hroom (by omega)⟩
  | succ rounds ih =>
    have hlast : heapFrame first (i + 1) ≤ heapFrame first 0x4000 := by
      unfold heapFrame
      omega
    have hmono : heapFrame first i < heapFrame first (i + 1) := by
      unfold heapFrame
      omega
    unfold Layout.mapHeap
    rcases Nat.lt_or_ge (heapFrame first i) limit with hlt | hge
    · rw [if_pos (show (bootLayout first i).next < limit from hlt)]
      rcases Nat.lt_or_ge limit (heapFrame first (i + 1)) with hshort | hok
      · have h := bootLayout_short (by omega) hlt hshort
        constructor
        · intro hall
          omega
        · intro _
          exact (congrArg (fun A => Layout.entry A 0xE3FFF) h.mapHeap).trans h.last
      · have hstep := bootLayout_step (by omega) hok
        rw [show (bootLayout first i).next = heapFrame first i from rfl, hstep]
        exact ih (by omega) hok
    · have hnext : ¬(bootLayout first i).next < limit := by
        change ¬heapFrame first i < limit
        omega
      rw [if_neg hnext]
      constructor
      · intro hall
        omega
      · intro _
        exact bootEntry_last (by omega)

end HeapLoop

end OpenKernel.Memory
