import OpenKernel.Memory.Pmm

/-!
# The page count

`pmm_init` with its progress bar: an index outside the bitmap and a division by
zero make it fail, which never happens. The number of pages is computed in 32
bits, though, and is right below 4 GB only.
-/

namespace OpenKernel.Memory

/-- `pmm_set_bit`, which fails for an index that the bitmap does not have. -/
def setBitChecked (bitmap : Bitmap 32) (index : ℕ) (value : Bool) : Option (Bitmap 32) :=
  if index < pmmMaxPages then some (pmmSetBit bitmap index value) else none

def divChecked (a b : ℕ) : Option ℕ := if b = 0 then none else some (a / b)

def pmmStatusTickInterval : ℕ := 1024

/-- The state of `pmm_init` and the percentages it has shown, the latest one first. -/
structure PmmBoot where
  pmm : Pmm
  percents : List ℕ

/-- The status line is started in the first round of all. -/
def statusStart (percents : List ℕ) : List ℕ := if percents = [] then [0] else percents

/-- One round of the loop that marks all pages used. -/
def markRound (s : PmmBoot) (i : ℕ) : Option PmmBoot := do
  let started := statusStart s.percents
  let bitmap ← setBitChecked s.pmm.bitmap i true
  let pmm := { s.pmm with bitmap := bitmap }
  if i % pmmStatusTickInterval = 0 then
    let percent ← divChecked (word (i * 50)) pmm.pageCount
    some ⟨pmm, percent :: started⟩
  else some ⟨pmm, started⟩

/-- One round of the loop that frees the pages from `start` on. -/
def freeRound (start : ℕ) (s : PmmBoot) (i : ℕ) : Option PmmBoot := do
  let bitmap ← setBitChecked s.pmm.bitmap i false
  let pmm := { s.pmm with bitmap := bitmap, freePages := word (s.pmm.freePages + 1) }
  if i % pmmStatusTickInterval = 0 then
    let percent ← divChecked (word ((i - start) * 50)) (word (pmm.pageCount + 2 ^ 32 - start))
    some ⟨pmm, (50 + percent) :: s.percents⟩
  else some ⟨pmm, s.percents⟩

def pmmInitChecked (kernelEnd memLower memUpper : ℕ) (bitmap : Bitmap 32) : Option PmmBoot := do
  let totalMemKb := word (memLower + memUpper)
  let pageCount := word (totalMemKb * 1024) / pageSize
  let s ← (List.range pageCount).foldlM markRound ⟨⟨bitmap, pageCount, 0, 0⟩, []⟩
  let start := startPageToFree kernelEnd
  let s ← (List.range' start (pageCount - start)).foldlM (freeRound start)
    { s with pmm := { s.pmm with freePages := 0 } }
  some { s with pmm := { s.pmm with searchHint := start } }

def memoryGetTotal (p : Pmm) : ℕ := word (p.pageCount * pageSize) / 1024

section Rounds

variable {s : PmmBoot} {i : ℕ}

theorem setBitChecked_of_lt (hi : i < pmmMaxPages) (bitmap : Bitmap 32) (value : Bool) :
    setBitChecked bitmap i value = some (pmmSetBit bitmap i value) :=
  if_pos hi

theorem percent_le {a b : ℕ} (hab : a < b) : a * 50 / b ≤ 50 := by
  apply Nat.div_le_of_le_mul
  exact Nat.mul_le_mul_right 50 hab.le

theorem markRound_eq (hcount : s.pmm.pageCount < pmmMaxPages) (hi : i < s.pmm.pageCount)
    (hs : ∀ q ∈ s.percents, q ≤ 50) :
    ∃ percents, markRound s i =
        some ⟨{ s.pmm with bitmap := pmmSetBit s.pmm.bitmap i true }, percents⟩ ∧
      ∀ q ∈ percents, q ≤ 50 := by
  have hstarted : ∀ q ∈ statusStart s.percents, q ≤ 50 := by
    unfold statusStart
    split_ifs
    · simp
    · exact hs
  have hset := setBitChecked_of_lt (i := i) (by omega) s.pmm.bitmap true
  simp only [markRound, hset, Option.bind_eq_bind, Option.bind_some]
  split_ifs with htick
  · have hword : word (i * 50) = i * 50 := Nat.mod_eq_of_lt (by unfold pmmMaxPages at hcount; omega)
    have hdiv : divChecked (word (i * 50)) s.pmm.pageCount = some (i * 50 / s.pmm.pageCount) := by
      rw [hword]
      exact if_neg (by omega)
    refine ⟨_, by rw [hdiv]; rfl, ?_⟩
    intro q hq
    rcases List.mem_cons.mp hq with rfl | hq
    · exact percent_le hi
    · exact hstarted q hq
  · exact ⟨_, rfl, hstarted⟩

theorem freeRound_eq {start : ℕ} (hcount : s.pmm.pageCount < pmmMaxPages) (hstart : start ≤ i)
    (hi : i < s.pmm.pageCount) (hs : ∀ q ∈ s.percents, q ≤ 100) :
    ∃ percents, freeRound start s i = some ⟨releasePage s.pmm i, percents⟩ ∧
      ∀ q ∈ percents, q ≤ 100 := by
  have hset := setBitChecked_of_lt (i := i) (by omega) s.pmm.bitmap false
  simp only [freeRound, hset, Option.bind_eq_bind, Option.bind_some]
  split_ifs with htick
  · have hword : word ((i - start) * 50) = (i - start) * 50 :=
      Nat.mod_eq_of_lt (by unfold pmmMaxPages at hcount; omega)
    have hrest : word (s.pmm.pageCount + 2 ^ 32 - start) = s.pmm.pageCount - start := by
      unfold word pmmMaxPages at *
      omega
    have hdiv : divChecked (word ((i - start) * 50)) (word (s.pmm.pageCount + 2 ^ 32 - start)) =
        some ((i - start) * 50 / (s.pmm.pageCount - start)) := by
      rw [hword, hrest]
      exact if_neg (by omega)
    refine ⟨_, by rw [hdiv]; rfl, ?_⟩
    intro q hq
    rcases List.mem_cons.mp hq with rfl | hq
    · have := percent_le (show i - start < s.pmm.pageCount - start by omega)
      omega
    · exact hs q hq
  · exact ⟨_, rfl, hs⟩

end Rounds

/-- `pmm_init` does not fail, does what it does without a progress bar, and shows percentages. -/
theorem pmmInitChecked_eq (kernelEnd memLower memUpper : ℕ) (bitmap : Bitmap 32) :
    ∃ percents, pmmInitChecked kernelEnd memLower memUpper bitmap =
        some ⟨pmmInit kernelEnd memLower memUpper bitmap, percents⟩ ∧
      ∀ q ∈ percents, q ≤ 100 := by
  have hlt := initialPages_lt memLower memUpper
  set count := initialPages memLower memUpper with hcount
  set start := startPageToFree kernelEnd with hstart
  obtain ⟨s₁, hloop₁, hpmm₁, hle₁⟩ := foldlM_follows (f := markRound)
    (g := fun b i => pmmSetBit b i true) (l := List.range count)
    (fun s b => s.pmm = ⟨b, count, 0, 0⟩ ∧ ∀ q ∈ s.percents, q ≤ 50)
    (by
      rintro ⟨pmm, percents⟩ b i hi ⟨rfl, hle⟩
      obtain ⟨percents', heq, hle'⟩ := markRound_eq (s := ⟨⟨b, count, 0, 0⟩, percents⟩) hlt
        (List.mem_range.mp hi) hle
      exact ⟨_, heq, rfl, hle'⟩)
    (b := ⟨⟨bitmap, count, 0, 0⟩, []⟩) (c := bitmap) ⟨rfl, by simp⟩
  obtain ⟨s₂, hloop₂, ⟨hpmm₂, -⟩, hle₂⟩ := foldlM_follows (f := freeRound start)
    (g := releasePage) (l := List.range' start (count - start))
    (fun s p => (s.pmm = p ∧ p.pageCount = count) ∧ ∀ q ∈ s.percents, q ≤ 100)
    (by
      rintro ⟨pmm, percents⟩ p i hi ⟨⟨rfl, hpages⟩, hle⟩
      rw [List.mem_range'_1] at hi
      dsimp only at hpages
      obtain ⟨percents', heq, hle'⟩ := freeRound_eq (s := ⟨pmm, percents⟩)
        (show pmm.pageCount < pmmMaxPages by omega) hi.1
        (show i < pmm.pageCount by omega) hle
      exact ⟨_, heq, ⟨rfl, hpages⟩, hle'⟩)
    (b := { s₁ with pmm := { s₁.pmm with freePages := 0 } }) (c := { s₁.pmm with freePages := 0 })
    ⟨⟨rfl, by rw [hpmm₁]⟩, fun q hq => (hle₁ q hq).trans (by decide)⟩
  refine ⟨s₂.percents, ?_, hle₂⟩
  have hpages : word (word (memLower + memUpper) * 1024) / pageSize = count := rfl
  simp only [pmmInitChecked, hpages, ← hstart, hloop₁, hloop₂, Option.bind_eq_bind,
    Option.bind_some]
  rw [hpmm₂, hpmm₁]
  rfl

/-! ### Below 4 GB -/

/-- `pmm_init` stays inside the bitmap and divides by nothing, the page count is that of the
memory as far as the bitmap reaches, and `memory_get_total` agrees with it. -/
def PageCountExact (kernelEnd memLower memUpper : ℕ) (bitmap : Bitmap 32) : Prop :=
  ∃ s, pmmInitChecked kernelEnd memLower memUpper bitmap = some s ∧
    s.pmm.pageCount = min pmmMaxPages ((memLower + memUpper) / 4) ∧
    memoryGetTotal s.pmm = 4 * s.pmm.pageCount

theorem initialPages_eq (memLower memUpper : ℕ) :
    initialPages memLower memUpper = (memLower + memUpper) % 4194304 / 4 := by
  unfold initialPages word pageSize
  omega

theorem memoryGetTotal_eq {p : Pmm} (hp : p.pageCount < pmmMaxPages) :
    memoryGetTotal p = 4 * p.pageCount := by
  unfold memoryGetTotal word pageSize pmmMaxPages at *
  omega

/-- The page count is right exactly below 4 GB; the rest holds for every memory size. -/
theorem pageCountExact_iff (kernelEnd memLower memUpper : ℕ) (bitmap : Bitmap 32) :
    (∃ s, pmmInitChecked kernelEnd memLower memUpper bitmap = some s ∧
      memoryGetTotal s.pmm = 4 * s.pmm.pageCount) ∧
      (PageCountExact kernelEnd memLower memUpper bitmap ↔ memLower + memUpper < 4194304) := by
  obtain ⟨percents, hinit, -⟩ := pmmInitChecked_eq kernelEnd memLower memUpper bitmap
  have hpages := (pmmInit_spec kernelEnd memLower memUpper bitmap).1
  have htotal : memoryGetTotal (pmmInit kernelEnd memLower memUpper bitmap) =
      4 * (pmmInit kernelEnd memLower memUpper bitmap).pageCount := by
    apply memoryGetTotal_eq
    rw [hpages]
    exact initialPages_lt memLower memUpper
  rw [initialPages_eq] at hpages
  refine ⟨⟨_, hinit, htotal⟩, ?_⟩
  constructor
  · rintro ⟨s, hs, hcount, -⟩
    obtain rfl := Option.some.inj (hinit.symm.trans hs)
    dsimp only at hcount
    rw [hpages] at hcount
    unfold pmmMaxPages at hcount
    omega
  · intro hlt
    refine ⟨_, hinit, ?_, htotal⟩
    dsimp only
    rw [hpages]
    unfold pmmMaxPages
    omega

/-- With 4 GB there are no pages at all. -/
theorem not_pageCountExact_4GB :
    (pmmInit 0x150000 640 4193664 0).pageCount = 0 ∧ ¬ PageCountExact 0x150000 640 4193664 0 := by
  have hpages : (pmmInit 0x150000 640 4193664 0).pageCount = 0 := by
    rw [(pmmInit_spec 0x150000 640 4193664 0).1]
    decide
  refine ⟨hpages, ?_⟩
  rintro ⟨s, hs, hcount, -⟩
  obtain ⟨percents, hinit, -⟩ := pmmInitChecked_eq 0x150000 640 4193664 0
  obtain rfl := Option.some.inj (hinit.symm.trans hs)
  dsimp only at hcount
  rw [hpages] at hcount
  exact absurd hcount (by decide)

end OpenKernel.Memory
