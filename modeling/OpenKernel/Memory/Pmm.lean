import OpenKernel.Lib.Bitmap
import OpenKernel.Memory.Heap
import Mathlib.Data.Finset.Card
import Mathlib.Order.Interval.Finset.Nat

/-!
# The physical memory manager

`pmm_init`, `pmm_alloc_page` and `pmm_free_page` of `memory.c` over the packed
bitmap `pmm_bitmap`, the counters and the rotating search hint. A page is its
index; pointers are byte addresses. The loading animation is left out.
-/

namespace OpenKernel.Memory

def pageSize : ℕ := 4096

def pmmMaxPages : ℕ := 0x100000

structure Pmm where
  bitmap : Bitmap 32
  pageCount : ℕ
  freePages : ℕ
  searchHint : ℕ

def pmmSetBit (bitmap : Bitmap 32) (index : ℕ) (value : Bool) : Bitmap 32 :=
  if pmmMaxPages ≤ index then bitmap
  else
    let bits := bitmap (index / 32)
    let mask := 1#32 <<< (index % 32)
    Function.update bitmap (index / 32) (if value then bits ||| mask else bits &&& ~~~mask)

def pmmGetBit (bitmap : Bitmap 32) (index : ℕ) : BitVec 32 :=
  if pmmMaxPages ≤ index then 1#32 else (bitmap (index / 32) >>> (index % 32)) &&& 1#32

/-- The loop of `pmm_find_free_page` from its counter `n` on. -/
def findFreeLoop (p : Pmm) : ℕ → ℕ → Pmm × ℕ
  | 0, _ => (p, pmmMaxPages)
  | rounds + 1, n =>
    let i := word (p.searchHint + n) % p.pageCount
    if pmmGetBit p.bitmap i = 0 then ({ p with searchHint := word (i + 1) % p.pageCount }, i)
    else findFreeLoop p rounds (n + 1)

def pmmFindFreePage (p : Pmm) : Pmm × ℕ := findFreeLoop p p.pageCount 0

/-- The first page that `pmm_init` frees. -/
def startPageToFree (kernelEnd : ℕ) : ℕ := word (kernelEnd + pageSize) / pageSize

def releasePage (p : Pmm) (i : ℕ) : Pmm :=
  { p with bitmap := pmmSetBit p.bitmap i false, freePages := word (p.freePages + 1) }

/-- `pmm_init` with `kernelEnd` the address of the linker symbol, on any earlier bitmap. -/
def pmmInit (kernelEnd memLower memUpper : ℕ) (bitmap : Bitmap 32) : Pmm :=
  let totalMemKb := word (memLower + memUpper)
  let pageCount := word (totalMemKb * 1024) / pageSize
  let bitmap := (List.range pageCount).foldl (fun b i => pmmSetBit b i true) bitmap
  let start := startPageToFree kernelEnd
  let p := (List.range' start (pageCount - start)).foldl releasePage ⟨bitmap, pageCount, 0, 0⟩
  { p with searchHint := start }

/-- `pmm_alloc_page`: the new state and the pointer returned, 0 for `NULL`. -/
def pmmAllocPage (p : Pmm) : Pmm × ℕ :=
  let (p, index) := pmmFindFreePage p
  if p.pageCount ≤ index then (p, 0)
  else
    ({ p with bitmap := pmmSetBit p.bitmap index true,
              freePages := word (p.freePages + 2 ^ 32 - 1) }, word (index * pageSize))

def pmmFreePage (p : Pmm) (addr : ℕ) : Pmm :=
  let index := addr / pageSize
  if p.pageCount ≤ index then p
  else
    { p with bitmap := pmmSetBit p.bitmap index false, freePages := word (p.freePages + 1),
             searchHint := if index < p.searchHint then index else p.searchHint }

def Pmm.Free (p : Pmm) (i : ℕ) : Prop := pmmGetBit p.bitmap i = 0

instance (p : Pmm) : DecidablePred p.Free := fun _ => inferInstanceAs (Decidable (_ = _))

def Pmm.clearBits (p : Pmm) : Finset ℕ := {i ∈ Finset.range p.pageCount | p.Free i}

section Bits

variable (bitmap : Bitmap 32) {i j : ℕ}

theorem pmmGetBit_eq_zero (hi : i < pmmMaxPages) :
    pmmGetBit bitmap i = 0 ↔ bitmap.test i = false := by
  unfold pmmGetBit
  rw [if_neg (by omega)]
  exact Bitmap.shiftRight_and_one_eq_zero bitmap (by decide)

theorem free_setBit_true (hi : i < pmmMaxPages) (hj : j < pmmMaxPages) :
    pmmGetBit (pmmSetBit bitmap j true) i = 0 ↔ i ≠ j ∧ pmmGetBit bitmap i = 0 := by
  have hset := Bitmap.test_setOr bitmap (i := i) (j := j) (w := 32) (by decide)
  rw [pmmGetBit_eq_zero _ hi, pmmGetBit_eq_zero _ hi]
  unfold pmmSetBit
  rw [if_neg (by omega)]
  simp [hset]

theorem free_setBit_false (hi : i < pmmMaxPages) (hj : j < pmmMaxPages) :
    pmmGetBit (pmmSetBit bitmap j false) i = 0 ↔ i = j ∨ pmmGetBit bitmap i = 0 := by
  have hset := Bitmap.test_clearAnd bitmap (i := i) (j := j) (w := 32) (by decide)
  rw [pmmGetBit_eq_zero _ hi, pmmGetBit_eq_zero _ hi]
  unfold pmmSetBit
  rw [if_neg (by omega)]
  simp only [Bool.false_eq_true, ↓reduceIte, hset]
  by_cases h : i = j <;> simp [h]

theorem free_markUsed (pages : List ℕ) (hpages : ∀ j ∈ pages, j < pmmMaxPages)
    (hi : i < pmmMaxPages) :
    pmmGetBit (pages.foldl (fun b j => pmmSetBit b j true) bitmap) i = 0 ↔
      i ∉ pages ∧ pmmGetBit bitmap i = 0 := by
  induction pages generalizing bitmap with
  | nil => simp
  | cons j pages ih =>
    rw [List.foldl_cons, ih _ (fun k hk => hpages k (List.mem_cons_of_mem _ hk)),
      free_setBit_true _ hi (hpages j List.mem_cons_self), List.mem_cons]
    tauto

end Bits

theorem foldl_releasePage (p : Pmm) (pages : List ℕ) (hpages : ∀ j ∈ pages, j < pmmMaxPages)
    (hcount : p.freePages + pages.length < 2 ^ 32) :
    (pages.foldl releasePage p).pageCount = p.pageCount ∧
      (pages.foldl releasePage p).freePages = p.freePages + pages.length ∧
      ∀ i < pmmMaxPages, (pages.foldl releasePage p).Free i ↔ i ∈ pages ∨ p.Free i := by
  induction pages generalizing p with
  | nil => simp
  | cons j pages ih =>
    rw [List.length_cons] at hcount
    have hfree : (releasePage p j).freePages = p.freePages + 1 := Nat.mod_eq_of_lt (by omega)
    obtain ⟨h₁, h₂, h₃⟩ := ih (releasePage p j)
      (fun k hk => hpages k (List.mem_cons_of_mem _ hk)) (by omega)
    rw [List.foldl_cons]
    refine ⟨h₁, by rw [h₂, hfree, List.length_cons]; omega, ?_⟩
    intro i hi
    have hbit := free_setBit_false p.bitmap hi (hpages j List.mem_cons_self)
    rw [h₃ i hi, List.mem_cons]
    unfold Pmm.Free at *
    rw [releasePage, hbit]
    tauto

section Init

variable (kernelEnd memLower memUpper : ℕ) (bitmap : Bitmap 32)

def initialPages : ℕ := word (word (memLower + memUpper) * 1024) / pageSize

theorem initialPages_lt : initialPages memLower memUpper < pmmMaxPages := by
  unfold initialPages word pageSize pmmMaxPages
  omega

theorem startPageToFree_le : startPageToFree kernelEnd ≤ pmmMaxPages := by
  unfold startPageToFree word pageSize pmmMaxPages
  omega

/-- After `pmm_init` the free pages are those from the first one freed on. -/
theorem pmmInit_spec :
    (pmmInit kernelEnd memLower memUpper bitmap).pageCount = initialPages memLower memUpper ∧
      (pmmInit kernelEnd memLower memUpper bitmap).searchHint = startPageToFree kernelEnd ∧
      (pmmInit kernelEnd memLower memUpper bitmap).freePages =
        initialPages memLower memUpper - startPageToFree kernelEnd ∧
      ∀ i < initialPages memLower memUpper,
        (pmmInit kernelEnd memLower memUpper bitmap).Free i ↔ startPageToFree kernelEnd ≤ i := by
  have hlt := initialPages_lt memLower memUpper
  have hmax : pmmMaxPages < 2 ^ 32 := by decide
  set count := initialPages memLower memUpper with hcount
  set start := startPageToFree kernelEnd with hstart
  set used := (List.range count).foldl (fun b i => pmmSetBit b i true) bitmap with hused
  obtain ⟨h₁, h₂, h₃⟩ := foldl_releasePage ⟨used, count, 0, 0⟩ (List.range' start (count - start))
    (fun j hj => by rw [List.mem_range'_1] at hj; omega)
    (by rw [List.length_range']; dsimp only; omega)
  refine ⟨h₁, rfl, ?_, ?_⟩
  · exact h₂.trans (by rw [List.length_range', Nat.zero_add])
  · intro i hi
    have hbit := free_markUsed bitmap (List.range count) (i := i)
      (fun j hj => by rw [List.mem_range] at hj; omega) (by omega)
    have hnot : ¬(⟨used, count, 0, 0⟩ : Pmm).Free i := by
      intro hfree
      exact (hbit.mp hfree).1 (List.mem_range.mpr hi)
    refine (h₃ i (by omega)).trans ?_
    rw [List.mem_range'_1, or_iff_left hnot]
    omega

end Init

/-- The bitmap covers all pages, and neither the search nor the counters wrap around. -/
structure Pmm.InRange (p : Pmm) : Prop where
  pages : p.pageCount < pmmMaxPages
  hint : p.searchHint ≤ pmmMaxPages

section Alloc

variable {p : Pmm}

theorem findFreeLoop_eq (hp : p.InRange) {rounds n : ℕ} (hn : n + rounds ≤ p.pageCount) :
    findFreeLoop p rounds n =
      match cyclicFind p.Free p.pageCount p.searchHint rounds n with
      | none => (p, pmmMaxPages)
      | some i => ({ p with searchHint := (i + 1) % p.pageCount }, i) := by
  have hmax : pmmMaxPages = 2 ^ 20 := by decide
  have hpages := hp.pages
  have hhint := hp.hint
  induction rounds generalizing n with
  | zero => rfl
  | succ rounds ih =>
    have hword : word (p.searchHint + n) = p.searchHint + n := Nat.mod_eq_of_lt (by omega)
    have hmod := Nat.mod_lt (p.searchHint + n) (show p.pageCount > 0 by omega)
    unfold findFreeLoop cyclicFind
    dsimp only
    rw [hword]
    by_cases hfree : p.Free ((p.searchHint + n) % p.pageCount)
    · have hbit : pmmGetBit p.bitmap ((p.searchHint + n) % p.pageCount) = 0 := hfree
      have hnext : word ((p.searchHint + n) % p.pageCount + 1) =
          (p.searchHint + n) % p.pageCount + 1 := Nat.mod_eq_of_lt (by omega)
      rw [if_pos hfree, if_pos hbit, hnext]
    · have hbit : ¬pmmGetBit p.bitmap ((p.searchHint + n) % p.pageCount) = 0 := hfree
      rw [if_neg hfree, if_neg hbit]
      exact ih (by omega)

/-- Taking page `i`. -/
def Pmm.take (p : Pmm) (i : ℕ) : Pmm :=
  { p with bitmap := pmmSetBit p.bitmap i true, freePages := word (p.freePages + 2 ^ 32 - 1),
           searchHint := (i + 1) % p.pageCount }

/-- `pmm_alloc_page` fails when no page is free, or takes the first free page in cyclic order
from the hint. -/
theorem pmmAllocPage_cases (hp : p.InRange) :
    ((∀ i < p.pageCount, ¬p.Free i) ∧ pmmAllocPage p = (p, 0)) ∨
      ∃ i k, i < p.pageCount ∧ p.Free i ∧ i = (p.searchHint + k) % p.pageCount ∧
        (∀ m < k, ¬p.Free ((p.searchHint + m) % p.pageCount)) ∧
        pmmAllocPage p = (p.take i, i * pageSize) := by
  have hfind : pmmFindFreePage p = _ := findFreeLoop_eq hp (n := 0) (by omega)
  have hpages := hp.pages
  cases hcyc : cyclicFind p.Free p.pageCount p.searchHint p.pageCount 0 with
  | none =>
    rw [hcyc] at hfind
    left
    refine ⟨cyclicFind_turn_eq_none.mp hcyc, ?_⟩
    rw [pmmAllocPage, hfind]
    exact if_pos hpages.le
  | some i =>
    rw [hcyc] at hfind
    obtain ⟨k, _, hk, hi, hfree, hbefore⟩ := cyclicFind_some hcyc
    have hlt : i < p.pageCount := by
      rw [hi]
      exact Nat.mod_lt _ (by omega)
    have haddr : word (i * pageSize) = i * pageSize :=
      Nat.mod_eq_of_lt (by unfold pageSize pmmMaxPages at *; omega)
    right
    refine ⟨i, k, hlt, hfree, hi, fun m hm => hbefore m (by omega) hm, ?_⟩
    rw [pmmAllocPage, hfind]
    dsimp only
    rw [if_neg (by omega), haddr]
    rfl

theorem free_take (hp : p.InRange) {i j : ℕ} (hi : i < p.pageCount) (hj : j < p.pageCount) :
    (p.take i).Free j ↔ j ≠ i ∧ p.Free j := by
  have hpages := hp.pages
  exact free_setBit_true _ (by omega) (by omega)

theorem clearBits_take (hp : p.InRange) {i : ℕ} (hi : i < p.pageCount) :
    (p.take i).clearBits = p.clearBits.erase i := by
  ext j
  simp only [Pmm.clearBits, Finset.mem_filter, Finset.mem_range, Finset.mem_erase]
  constructor
  · rintro ⟨hj, hfree⟩
    obtain ⟨hne, hfree⟩ := (free_take hp hi hj).mp hfree
    exact ⟨hne, hj, hfree⟩
  · rintro ⟨hne, hj, hfree⟩
    exact ⟨hj, (free_take hp hi hj).mpr ⟨hne, hfree⟩⟩

theorem free_pmmFreePage (hp : p.InRange) {i j : ℕ} (hi : i < p.pageCount)
    (hj : j < p.pageCount) : (pmmFreePage p (i * pageSize)).Free j ↔ j = i ∨ p.Free j := by
  have hpages := hp.pages
  have hindex : i * pageSize / pageSize = i := Nat.mul_div_cancel i (by decide)
  unfold pmmFreePage
  rw [hindex, if_neg (by omega)]
  exact free_setBit_false _ (by omega) (by omega)

theorem pmmFreePage_pageCount {addr : ℕ} : (pmmFreePage p addr).pageCount = p.pageCount := by
  unfold pmmFreePage
  dsimp only
  split_ifs <;> rfl

theorem clearBits_pmmFreePage (hp : p.InRange) {i : ℕ} (hi : i < p.pageCount) :
    (pmmFreePage p (i * pageSize)).clearBits = insert i p.clearBits := by
  ext j
  simp only [Pmm.clearBits, Finset.mem_filter, Finset.mem_range, Finset.mem_insert,
    pmmFreePage_pageCount]
  constructor
  · rintro ⟨hj, hfree⟩
    exact ((free_pmmFreePage hp hi hj).mp hfree).imp id fun h => ⟨hj, h⟩
  · rintro (rfl | ⟨hj, hfree⟩)
    · exact ⟨hi, (free_pmmFreePage hp hi hi).mpr (Or.inl rfl)⟩
    · exact ⟨hj, (free_pmmFreePage hp hi hj).mpr (Or.inr hfree)⟩

theorem mem_clearBits {i : ℕ} : i ∈ p.clearBits ↔ i < p.pageCount ∧ p.Free i := by
  simp [Pmm.clearBits]

theorem card_clearBits_le (p : Pmm) : p.clearBits.card ≤ p.pageCount := by
  have h := Finset.card_filter_le (Finset.range p.pageCount) p.Free
  rwa [Finset.card_range] at h

theorem Pmm.InRange.take (hp : p.InRange) {i : ℕ} (hi : i < p.pageCount) : (p.take i).InRange := by
  have hmod := Nat.mod_lt (i + 1) (show p.pageCount > 0 by omega)
  have hpages := hp.pages
  refine ⟨hpages, ?_⟩
  change (i + 1) % p.pageCount ≤ pmmMaxPages
  omega

theorem Pmm.InRange.free (hp : p.InRange) {addr : ℕ} : (pmmFreePage p addr).InRange := by
  have hpages := hp.pages
  have hhint := hp.hint
  unfold pmmFreePage
  dsimp only
  split_ifs
  · exact hp
  · exact ⟨hpages, by dsimp only; omega⟩
  · exact ⟨hpages, hhint⟩

theorem counted_take (hp : p.InRange) (hcount : p.freePages = p.clearBits.card) {i : ℕ}
    (hi : i < p.pageCount) (hfree : p.Free i) :
    (p.take i).freePages = (p.take i).clearBits.card := by
  have hmem : i ∈ p.clearBits := mem_clearBits.mpr ⟨hi, hfree⟩
  have hpos := Finset.card_pos.mpr ⟨i, hmem⟩
  have hle := card_clearBits_le p
  have hpages := hp.pages
  have hmax : pmmMaxPages = 2 ^ 20 := by decide
  rw [clearBits_take hp hi, Finset.card_erase_of_mem hmem, ← hcount]
  simp only [Pmm.take, word]
  omega

theorem counted_free (hp : p.InRange) (hcount : p.freePages = p.clearBits.card) {i : ℕ}
    (hi : i < p.pageCount) (hused : ¬p.Free i) :
    (pmmFreePage p (i * pageSize)).freePages = (pmmFreePage p (i * pageSize)).clearBits.card := by
  have hnot : i ∉ p.clearBits := fun hmem => hused (mem_clearBits.mp hmem).2
  have hindex : i * pageSize / pageSize = i := Nat.mul_div_cancel i (by decide)
  have hle := card_clearBits_le p
  have hpages := hp.pages
  have hmax : pmmMaxPages = 2 ^ 20 := by decide
  rw [clearBits_pmmFreePage hp hi, Finset.card_insert_of_notMem hnot, ← hcount]
  simp only [pmmFreePage, hindex]
  rw [if_neg (by omega)]
  exact Nat.mod_eq_of_lt (by omega)

end Alloc

/-! ### Runs -/

/-- `live` records the pointers handed out and not freed since. -/
structure PmmState where
  pmm : Pmm
  live : List ℕ

inductive PmmCall
  | alloc
  | free (addr : ℕ)

def pmmStep (s : PmmState) : PmmCall → Option PmmState
  | .alloc =>
    let result := pmmAllocPage s.pmm
    some ⟨result.1, if result.2 = 0 then s.live else result.2 :: s.live⟩
  | .free addr => some ⟨pmmFreePage s.pmm addr, s.live.erase addr⟩

def FreesAllocated (s : PmmState) : PmmCall → Prop
  | .alloc => True
  | .free addr => addr ∈ s.live

instance (s : PmmState) : (call : PmmCall) → Decidable (FreesAllocated s call)
  | .alloc => isTrue trivial
  | .free addr => inferInstanceAs (Decidable (addr ∈ s.live))

/-- What holds after any calls, with `first` the first page ever freed. -/
structure PmmInv (first : ℕ) (s : PmmState) : Prop where
  range : s.pmm.InRange
  free_iff : ∀ i < s.pmm.pageCount, s.pmm.Free i ↔ first ≤ i ∧ i * pageSize ∉ s.live
  live : ∀ a ∈ s.live, ∃ i, a = i * pageSize ∧ first ≤ i ∧ i < s.pmm.pageCount
  nodup : s.live.Nodup
  count : s.pmm.freePages = s.pmm.clearBits.card

/-- The free pages are counted by the interval from the first one. -/
theorem pmmInv_init (kernelEnd memLower memUpper : ℕ) (bitmap : Bitmap 32) :
    PmmInv (startPageToFree kernelEnd) ⟨pmmInit kernelEnd memLower memUpper bitmap, []⟩ := by
  obtain ⟨hpages, hhint, hcount, hfree⟩ := pmmInit_spec kernelEnd memLower memUpper bitmap
  have hlt := initialPages_lt memLower memUpper
  have hle := startPageToFree_le kernelEnd
  refine ⟨⟨?_, ?_⟩, ?_, ?_, List.nodup_nil, ?_⟩
  · rw [hpages]
    exact hlt
  · rw [hhint]
    exact hle
  · intro i hi
    rw [hpages] at hi
    simpa using hfree i hi
  · intro a ha
    exact absurd ha List.not_mem_nil
  · have hset : (pmmInit kernelEnd memLower memUpper bitmap).clearBits =
        Finset.Ico (startPageToFree kernelEnd) (initialPages memLower memUpper) := by
      ext i
      simp only [Pmm.clearBits, Finset.mem_filter, Finset.mem_range, Finset.mem_Ico, hpages]
      constructor
      · rintro ⟨hi, h⟩
        exact ⟨(hfree i hi).mp h, hi⟩
      · rintro ⟨h, hi⟩
        exact ⟨hi, (hfree i hi).mpr h⟩
    dsimp only
    rw [hset, Nat.card_Ico, hcount]

theorem pageSize_inj {i j : ℕ} (h : i * pageSize = j * pageSize) : i = j :=
  Nat.eq_of_mul_eq_mul_right (by decide) h

namespace PmmInv

variable {first : ℕ} {s t : PmmState}

theorem take (h : PmmInv first s) {i : ℕ} (hi : i < s.pmm.pageCount) (hfree : s.pmm.Free i) :
    PmmInv first ⟨s.pmm.take i, i * pageSize :: s.live⟩ := by
  obtain ⟨hfirst, hnot⟩ := (h.free_iff i hi).mp hfree
  refine ⟨h.range.take hi, ?_, ?_, List.nodup_cons.mpr ⟨hnot, h.nodup⟩,
    counted_take h.range h.count hi hfree⟩
  · intro j hj
    rw [free_take h.range hi hj, h.free_iff j hj, List.mem_cons, not_or]
    constructor
    · rintro ⟨hne, hfirst, hj⟩
      exact ⟨hfirst, fun heq => hne (pageSize_inj heq), hj⟩
    · rintro ⟨hfirst, hne, hj⟩
      exact ⟨fun heq => hne (by rw [heq]), hfirst, hj⟩
  · intro a ha
    rcases List.mem_cons.mp ha with rfl | ha
    · exact ⟨i, rfl, hfirst, hi⟩
    · exact h.live a ha

theorem free (h : PmmInv first s) {i : ℕ} (hmem : i * pageSize ∈ s.live) :
    PmmInv first ⟨pmmFreePage s.pmm (i * pageSize), s.live.erase (i * pageSize)⟩ := by
  obtain ⟨j, hij, hfirst, hi⟩ := h.live _ hmem
  obtain rfl := pageSize_inj hij
  have hused : ¬s.pmm.Free i := fun hfree => ((h.free_iff i hi).mp hfree).2 hmem
  refine ⟨h.range.free, ?_, ?_, h.nodup.erase _, counted_free h.range h.count hi hused⟩
  · intro k hk
    rw [pmmFreePage_pageCount] at hk
    dsimp only
    rw [free_pmmFreePage h.range hi hk, h.free_iff k hk, h.nodup.mem_erase_iff]
    constructor
    · rintro (rfl | ⟨hk, hlive⟩)
      · exact ⟨hfirst, fun hmem => hmem.1 rfl⟩
      · exact ⟨hk, fun hmem => hlive hmem.2⟩
    · rintro ⟨hk, hlive⟩
      by_cases hki : k = i
      · exact Or.inl hki
      · exact Or.inr ⟨hk, fun hmem => hlive ⟨fun heq => hki (pageSize_inj heq), hmem⟩⟩
  · intro a ha
    rw [pmmFreePage_pageCount]
    exact h.live a (List.mem_of_mem_erase ha)

theorem step {call : PmmCall} (hfirst : 0 < first) (h : PmmInv first s)
    (hok : FreesAllocated s call) (hstep : pmmStep s call = some t) : PmmInv first t := by
  cases call with
  | alloc =>
    rcases pmmAllocPage_cases h.range with ⟨_, halloc⟩ | ⟨i, _, hi, hfree, _, _, halloc⟩
    · have ht : t = s := by simpa [pmmStep, halloc] using hstep.symm
      rw [ht]
      exact h
    · have hpos : i * pageSize ≠ 0 := by
        have := ((h.free_iff i hi).mp hfree).1
        unfold pageSize
        omega
      have ht : t = ⟨s.pmm.take i, i * pageSize :: s.live⟩ := by
        simpa [pmmStep, halloc, hpos] using hstep.symm
      rw [ht]
      exact h.take hi hfree
  | free addr =>
    obtain ⟨i, rfl, _, _⟩ := h.live addr hok
    have ht : t = ⟨pmmFreePage s.pmm (i * pageSize), s.live.erase (i * pageSize)⟩ := by
      simpa [pmmStep] using hstep.symm
    rw [ht]
    exact h.free hok

end PmmInv

theorem pmmAllocPage_pageCount {p : Pmm} (hp : p.InRange) :
    (pmmAllocPage p).1.pageCount = p.pageCount := by
  rcases pmmAllocPage_cases hp with ⟨_, halloc⟩ | ⟨_, _, _, _, _, _, halloc⟩
  · rw [halloc]
  · rw [halloc]
    rfl

theorem pmmStep_pageCount {s t : PmmState} {call : PmmCall} (hs : s.pmm.InRange)
    (hstep : pmmStep s call = some t) : t.pmm.pageCount = s.pmm.pageCount := by
  cases call with
  | alloc =>
    obtain rfl := Option.some.inj hstep
    exact pmmAllocPage_pageCount hs
  | free addr =>
    obtain rfl := Option.some.inj hstep
    exact pmmFreePage_pageCount

/-- After any allocations and frees of allocated pages: the pages handed out are distinct pages
after the kernel, the next one handed out is none of them, `pmm_alloc_page` fails only when no
page is free, and `pmm_free_pages` counts the clear bits. -/
theorem pmm_correct {kernelEnd memLower memUpper : ℕ} {bitmap : Bitmap 32}
    {calls : List PmmCall} {s : PmmState}
    (hlow : 0x100000 ≤ kernelEnd) (hhigh : kernelEnd ≤ 0x80000000)
    (hmem : memLower + memUpper < 4194304)
    (hrun : Run pmmStep FreesAllocated ⟨pmmInit kernelEnd memLower memUpper bitmap, []⟩ calls s) :
    s.pmm.pageCount = (memLower + memUpper) / 4 ∧
      s.live.Nodup ∧
      (∀ addr ∈ s.live, ∃ i, addr = i * 4096 ∧ (kernelEnd + 4096) / 4096 ≤ i ∧
        i < s.pmm.pageCount) ∧
      ((pmmAllocPage s.pmm).2 ≠ 0 → (pmmAllocPage s.pmm).2 ∉ s.live ∧
        ∃ i, (pmmAllocPage s.pmm).2 = i * 4096 ∧ (kernelEnd + 4096) / 4096 ≤ i ∧
          i < s.pmm.pageCount) ∧
      ((pmmAllocPage s.pmm).2 = 0 ↔ ∀ i < s.pmm.pageCount, pmmGetBit s.pmm.bitmap i ≠ 0) ∧
      (∀ i < s.pmm.pageCount, pmmGetBit s.pmm.bitmap i = 0 ↔
        (kernelEnd + 4096) / 4096 ≤ i ∧ i * 4096 ∉ s.live) ∧
      s.pmm.freePages =
        {i ∈ Finset.range s.pmm.pageCount | pmmGetBit s.pmm.bitmap i = 0}.card := by
  have hfirst : startPageToFree kernelEnd = (kernelEnd + 4096) / 4096 := by
    unfold startPageToFree word pageSize
    omega
  have hpos : 0 < startPageToFree kernelEnd := by omega
  have hinit : (pmmInit kernelEnd memLower memUpper bitmap).pageCount =
      (memLower + memUpper) / 4 := by
    rw [(pmmInit_spec kernelEnd memLower memUpper bitmap).1]
    unfold initialPages word pageSize
    omega
  obtain ⟨h, hpages⟩ : PmmInv (startPageToFree kernelEnd) s ∧
      s.pmm.pageCount = (memLower + memUpper) / 4 := by
    apply hrun.invariant (fun s => PmmInv (startPageToFree kernelEnd) s ∧
      s.pmm.pageCount = (memLower + memUpper) / 4)
    · intro s call t ⟨hinv, hpages⟩ hok hstep
      exact ⟨hinv.step hpos hok hstep, (pmmStep_pageCount hinv.range hstep).trans hpages⟩
    · exact ⟨pmmInv_init kernelEnd memLower memUpper bitmap, hinit⟩
  rw [← hfirst]
  have hcount : s.pmm.freePages =
      {i ∈ Finset.range s.pmm.pageCount | pmmGetBit s.pmm.bitmap i = 0}.card := by
    rw [h.count]
    congr 1
  rcases pmmAllocPage_cases h.range with ⟨hnone, halloc⟩ | ⟨i, _, hi, hfree, _, _, halloc⟩
  · refine ⟨hpages, h.nodup, h.live, ?_, ?_, h.free_iff, hcount⟩
    · intro hne
      rw [halloc] at hne
      exact absurd rfl hne
    · rw [halloc]
      exact ⟨fun _ => hnone, fun _ => rfl⟩
  · obtain ⟨hge, hnot⟩ := (h.free_iff i hi).mp hfree
    have hne : i * pageSize ≠ 0 := by
      unfold pageSize
      omega
    refine ⟨hpages, h.nodup, h.live, ?_, ?_, h.free_iff, hcount⟩
    · intro _
      rw [halloc]
      exact ⟨hnot, i, rfl, hge, hi⟩
    · rw [halloc]
      exact ⟨fun hzero => absurd hzero hne, fun hall => absurd hfree (hall i hi)⟩

/-- A page is taken, given back, and taken again. -/
theorem pmm_correct_reuse :
    ∃ s : PmmState, Run pmmStep FreesAllocated ⟨pmmInit 0x100000 640 400 0, []⟩
        [.alloc, .free 0x101000, .alloc] s ∧
      s.pmm.pageCount = 260 ∧ s.live.Nodup := by
  have hrun : Run pmmStep FreesAllocated ⟨pmmInit 0x100000 640 400 0, []⟩
      [.alloc, .free 0x101000, .alloc] _ :=
    .cons trivial rfl (.cons (by decide +kernel) rfl (.cons trivial rfl (.nil _)))
  obtain ⟨hpages, hnodup, _⟩ := pmm_correct (by decide) (by decide) (by decide) hrun
  exact ⟨_, hrun, hpages, hnodup⟩

end OpenKernel.Memory
