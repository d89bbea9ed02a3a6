import OpenKernel.Memory.BackedHeap

/-!
# Which block `kmalloc` takes

The search loop keeps the best block so far and gives it up only for a smaller
one, so that it ends with the first of the smallest sufficient free blocks. The
size it looks for is the request rounded up to 16 in 32 bits: the topmost 15
requests wrap around to 0, and any free block is then good enough.
-/

namespace OpenKernel.Memory

open Linked

/-- `b`, between `l₁` and `l₂`, is the first of the smallest free blocks with room for `size`
bytes. -/
structure FirstBest (size : ℕ) (l₁ : List Block) (b : Block) (l₂ : List Block) : Prop where
  free : b.free = true
  fits : size ≤ b.size
  before : ∀ c ∈ l₁, c.free = true → size ≤ c.size → b.size < c.size
  behind : ∀ c ∈ l₂, c.free = true → size ≤ c.size → b.size ≤ c.size

section Search

variable {size : ℕ} {l l₁ l₂ : List Block} {b c : Block}

theorem bestFit_append_singleton :
    bestFit size (l ++ [c]) = better size (bestFit size l) c := by
  simp [bestFit, List.foldl_append]

theorem FirstBest.keep (h : FirstBest size l₁ b l₂)
    (hc : c.free = true → size ≤ c.size → b.size ≤ c.size) : FirstBest size l₁ b (l₂ ++ [c]) := by
  refine ⟨h.free, h.fits, h.before, ?_⟩
  intro d hd
  rcases List.mem_append.mp hd with hd | hd
  · exact h.behind d hd
  · obtain rfl := List.mem_singleton.mp hd
    exact hc

theorem FirstBest.replace (h : FirstBest size l₁ b l₂) (hfree : c.free = true)
    (hfits : size ≤ c.size) (hlt : c.size < b.size) : FirstBest size (l₁ ++ b :: l₂) c [] := by
  refine ⟨hfree, hfits, ?_, by simp⟩
  intro d hd hdf hds
  rcases List.mem_append.mp hd with hd | hd
  · exact hlt.trans (h.before d hd hdf hds)
  · rcases List.mem_cons.mp hd with rfl | hd
    · exact hlt
    · exact lt_of_lt_of_le hlt (h.behind d hd hdf hds)

/-- The search ends with the first of the smallest sufficient free blocks, or there is none. -/
theorem bestFit_cases (size : ℕ) (l : List Block) :
    (bestFit size l = none ∧ ∀ c ∈ l, c.free = true → c.size < size) ∨
      ∃ l₁ b l₂, l = l₁ ++ b :: l₂ ∧ bestFit size l = some b ∧ FirstBest size l₁ b l₂ := by
  induction l using List.reverseRecOn with
  | nil => exact Or.inl ⟨rfl, by simp⟩
  | append_singleton l c ih =>
    rw [bestFit_append_singleton]
    by_cases hc : c.free = true ∧ size ≤ c.size
    · obtain ⟨hfree, hfits⟩ := hc
      rcases ih with ⟨hnone, hsmall⟩ | ⟨l₁, b, l₂, rfl, hsome, hbest⟩
      · refine Or.inr ⟨l, c, [], rfl, ?_, hfree, hfits, ?_, by simp⟩
        · simp [better, hnone, hfree, hfits]
        · intro d hd hdf hds
          have := hsmall d hd hdf
          omega
      · by_cases hlt : c.size < b.size
        · refine Or.inr ⟨_, c, [], rfl, ?_, hbest.replace hfree hfits hlt⟩
          simp [better, hsome, hfree, hfits, hlt]
        · refine Or.inr ⟨l₁, b, l₂ ++ [c], by simp, ?_, hbest.keep fun _ _ => by omega⟩
          simp [better, hsome, hlt]
    · have hkeep : better size (bestFit size l) c = bestFit size l :=
        if_neg fun h => hc ⟨h.1, h.2.1⟩
      rw [hkeep]
      rcases ih with ⟨hnone, hsmall⟩ | ⟨l₁, b, l₂, rfl, hsome, hbest⟩
      · refine Or.inl ⟨hnone, fun d hd hdf => ?_⟩
        rcases List.mem_append.mp hd with hd | hd
        · exact hsmall d hd hdf
        · obtain rfl := List.mem_singleton.mp hd
          exact lt_of_not_ge fun hds => hc ⟨hdf, hds⟩
      · exact Or.inr ⟨l₁, b, l₂ ++ [c], by simp, hsome, hbest.keep fun hf hs => absurd ⟨hf, hs⟩ hc⟩

end Search

/-- The blocks from `heap_start` on, as the headers in memory describe them. -/
structure BlockTable (m : ByteMemory) (start : ℕ) (l : List Block) : Prop where
  chain : Seg (fun b => pointer (nextOf m b)) (pointer start) (l.map Block.addr) none
  sizes : ∀ b ∈ l, sizeOf m b.addr = b.size
  flags : ∀ b ∈ l, freeOf m b.addr ≠ 0 ↔ b.free = true

section Tables

variable {m : ByteMemory} {l : List Block} {n : ℕ}

theorem Laid.blockTable (h : Laid m l) : BlockTable m heapStart l :=
  ⟨seg_of_tiles h.tiles le_rfl h.header, fun b hb => (h.header b hb).size,
    fun b hb => (h.header b hb).free⟩

/-- What `kmalloc` does to the blocks: nothing, and it returns null, or it takes the best one. -/
theorem kmalloc_cases (h : Laid m l) (hn : n ≠ 0) :
    (kmalloc m heapStart n = some (m, 0) ∧ ∀ b ∈ l, b.free = true → b.size < alignSize n) ∨
      ∃ l₁ b l₂, l = l₁ ++ b :: l₂ ∧ FirstBest (alignSize n) l₁ b l₂ ∧
        kmalloc m heapStart n = some (takeBlock m b.addr (alignSize n), b.payload) ∧
        Laid (takeBlock m b.addr (alignSize n)) (l₁ ++ carve b (alignSize n) ++ l₂) := by
  rw [kmalloc_eq h hn]
  rcases bestFit_cases (alignSize n) l with ⟨hnone, hsmall⟩ | ⟨l₁, b, l₂, rfl, hsome, hbest⟩
  · exact Or.inl ⟨by rw [hnone], hsmall⟩
  · exact Or.inr ⟨l₁, b, l₂, rfl, hbest, by rw [hsome], laid_takeBlock h hbest.fits⟩

end Tables

/-! ### Best fit -/

theorem alignSize_of_le {n : ℕ} (hn : n ≤ 0xFFFFFFF0) : alignSize n = (n + 15) / 16 * 16 := by
  unfold alignSize word
  rw [Nat.mod_eq_of_lt (by omega)]

/-- After any calls, `kmalloc` of up to the size of the heap fails exactly if no free block has
room for the size rounded up to 16. Otherwise it takes the first of the smallest that have, splits
it exactly if more than 28 bytes would remain, and leaves the other blocks as they are. -/
theorem kmalloc_firstBest {mem : ByteMemory} {calls : List Call} {t : Heap}
    (hrun : Run step AnySize (heapInit mem) calls t) :
    ∃ l, BlockTable t.mem t.start l ∧ ∀ n size, 0 < n → n ≤ heapSize →
      size = (n + 15) / 16 * 16 →
      ∃ m p, kmalloc t.mem t.start n = some (m, p) ∧
        (p = 0 ↔ ∀ b ∈ l, b.free = true → b.size < size) ∧
        (p = 0 → BlockTable m t.start l) ∧
        (p ≠ 0 → ∃ l₁ b l₂, l = l₁ ++ b :: l₂ ∧ FirstBest size l₁ b l₂ ∧ p = b.addr + 12 ∧
          BlockTable m t.start (l₁ ++ (if 28 < b.size - size then
            [⟨b.addr, size, false⟩, ⟨b.addr + 12 + size, b.size - size - 12, true⟩]
          else [⟨b.addr, b.size, false⟩]) ++ l₂)) := by
  obtain ⟨l, hi⟩ := heapInv_promise_run hrun
  have hlaid : Laid t.mem l := hi.laid
  have hstart : t.start = heapStart := hi.start
  rw [hstart]
  refine ⟨l, hlaid.blockTable, fun n size hpos hle hsize => ?_⟩
  have halign : alignSize n = size := by
    rw [hsize]
    exact alignSize_of_le (by unfold heapSize at hle; omega)
  rcases kmalloc_cases hlaid (Nat.pos_iff_ne_zero.mp hpos) with
    ⟨hnull, hsmall⟩ | ⟨l₁, b, l₂, rfl, hbest, htake, hlaid'⟩
  · rw [halign] at hsmall
    exact ⟨_, _, hnull, ⟨fun _ => hsmall, fun _ => rfl⟩, fun _ => hlaid.blockTable,
      fun hne => absurd rfl hne⟩
  · rw [halign] at hbest htake hlaid'
    have hne : b.payload ≠ 0 := hi.payload_ne_zero (by simp)
    have hcarve : carve b size = if 28 < b.size - size then
        [⟨b.addr, size, false⟩, ⟨b.addr + 12 + size, b.size - size - 12, true⟩]
        else [⟨b.addr, b.size, false⟩] := by
      have hiff : size + headerSize + 16 < b.size ↔ 28 < b.size - size := by
        unfold headerSize
        omega
      simp only [carve, hiff]
      rfl
    refine ⟨_, _, htake, ⟨fun h => absurd h hne, fun hsmall => ?_⟩, fun h => absurd h hne,
      fun _ => ⟨l₁, b, l₂, rfl, hbest, rfl, ?_⟩⟩
    · have := hsmall b (by simp) hbest.free
      have := hbest.fits
      omega
    · rw [← hcarve]
      exact hlaid'.blockTable

/-- With 16 bytes allocated, the next request takes what is left behind them. -/
theorem kmalloc_firstBest_second :
    ∃ t, Run step AnySize (heapInit ⟨fun _ => 0, []⟩) [.kmalloc 16] t ∧
      ∃ l, BlockTable t.mem t.start l ∧ ∀ n size, 0 < n → n ≤ heapSize →
        size = (n + 15) / 16 * 16 →
        ∃ m p, kmalloc t.mem t.start n = some (m, p) ∧
          (p = 0 ↔ ∀ b ∈ l, b.free = true → b.size < size) ∧
          (p = 0 → BlockTable m t.start l) ∧
          (p ≠ 0 → ∃ l₁ b l₂, l = l₁ ++ b :: l₂ ∧ FirstBest size l₁ b l₂ ∧ p = b.addr + 12 ∧
            BlockTable m t.start (l₁ ++ (if 28 < b.size - size then
              [⟨b.addr, size, false⟩, ⟨b.addr + 12 + size, b.size - size - 12, true⟩]
            else [⟨b.addr, b.size, false⟩]) ++ l₂)) := by
  obtain ⟨t, ht, -⟩ := (heapInv_heapInit ⟨fun _ => 0, []⟩).step
    (show HeapOk _ (.kmalloc 16) from ⟨by decide, by decide⟩)
  have hrun : Run step AnySize (heapInit ⟨fun _ => 0, []⟩) [.kmalloc 16] t :=
    .cons (show 16 < 2 ^ 32 by decide) ht (.nil t)
  exact ⟨t, hrun, kmalloc_firstBest hrun⟩

/-! ### Room for the request -/

/-- `kmalloc(n)` returns, and what it returns other than null is the payload of a block of the
heap with at least `n` bytes. -/
def HonoursSize (h : Heap) (n : ℕ) : Prop :=
  ∃ m p, kmalloc h.mem h.start n = some (m, p) ∧
    (p ≠ 0 → ∃ a, Reach (fun b => pointer (nextOf m b)) (pointer h.start) a ∧
      p = a + headerSize ∧ n ≤ sizeOf m a)

def HasFreeBlock (h : Heap) : Prop :=
  ∃ a, Reach (fun b => pointer (nextOf h.mem b)) (pointer h.start) a ∧ freeOf h.mem a ≠ 0

theorem alignSize_of_gt {n : ℕ} (hn : 0xFFFFFFF0 < n) (hlt : n < 2 ^ 32) : alignSize n = 0 := by
  unfold alignSize word
  omega

theorem BlockTable.hasFreeBlock_iff {h : Heap} {l : List Block}
    (ht : BlockTable h.mem h.start l) : HasFreeBlock h ↔ ∃ b ∈ l, b.free = true := by
  constructor
  · rintro ⟨a, hreach, hfree⟩
    obtain ⟨b, hb, rfl⟩ := List.mem_map.mp (ht.chain.mem_of_reach hreach)
    exact ⟨b, hb, (ht.flags b hb).mp hfree⟩
  · rintro ⟨b, hb, hfree⟩
    exact ⟨b.addr, ht.chain.reach (List.mem_map_of_mem hb), (ht.flags b hb).mpr hfree⟩

theorem mem_carve {b : Block} {size : ℕ} (hfits : size ≤ b.size) :
    ∃ c ∈ carve b size, c.addr = b.addr ∧ size ≤ c.size ∧ c.size ≤ size + 28 := by
  unfold carve headerSize
  split_ifs with h
  · exact ⟨⟨b.addr, size, false⟩, by simp, rfl, le_rfl, Nat.le_add_right _ _⟩
  · exact ⟨⟨b.addr, b.size, false⟩, by simp, rfl, hfits, show b.size ≤ size + 28 by omega⟩

theorem kmalloc_room {m : ByteMemory} {l₁ l₂ : List Block} {b : Block} {n : ℕ}
    (hfits : alignSize n ≤ b.size)
    (hlaid : Laid (takeBlock m b.addr (alignSize n)) (l₁ ++ carve b (alignSize n) ++ l₂)) :
    ∃ a, Reach (fun b' => pointer (nextOf (takeBlock m b.addr (alignSize n)) b'))
        (pointer heapStart) a ∧ b.payload = a + headerSize ∧
      alignSize n ≤ sizeOf (takeBlock m b.addr (alignSize n)) a ∧
      sizeOf (takeBlock m b.addr (alignSize n)) a ≤ alignSize n + 28 := by
  obtain ⟨c, hc, haddr, hle, hge⟩ := mem_carve hfits
  have hmem : c ∈ l₁ ++ carve b (alignSize n) ++ l₂ := by simp [hc]
  have hpayload : b.payload = c.payload := payload_inj.mpr haddr.symm
  refine ⟨c.addr, hlaid.blockTable.chain.reach (List.mem_map_of_mem hmem), hpayload, ?_⟩
  rw [hlaid.blockTable.sizes c hmem]
  exact ⟨hle, hge⟩

/-- After any calls, a request is honoured exactly if it does not wrap around when it is rounded
up, or the heap is full. -/
theorem honoursSize_iff {mem : ByteMemory} {calls : List Call} {t : Heap}
    (hrun : Run step AnySize (heapInit mem) calls t) {n : ℕ} (hpos : 0 < n) (hlt : n < 2 ^ 32) :
    HonoursSize t n ↔ n ≤ 0xFFFFFFF0 ∨ ¬ HasFreeBlock t := by
  obtain ⟨l, hi⟩ := heapInv_promise_run hrun
  have hlaid : Laid t.mem l := hi.laid
  have hstart : t.start = heapStart := hi.start
  have htable : BlockTable t.mem t.start l := by
    rw [hstart]
    exact hlaid.blockTable
  unfold HonoursSize
  rw [htable.hasFreeBlock_iff, hstart]
  rcases kmalloc_cases hlaid (Nat.pos_iff_ne_zero.mp hpos) with
    ⟨hnull, hsmall⟩ | ⟨l₁, b, l₂, rfl, hbest, htake, hlaid'⟩
  · refine ⟨fun _ => ?_, fun _ => ⟨_, _, hnull, fun hne => absurd rfl hne⟩⟩
    -- a free block of any size has room for a request that wraps around
    by_contra hnot
    push Not at hnot
    obtain ⟨hn, b, hb, hfree⟩ := hnot
    have := hsmall b hb hfree
    rw [alignSize_of_gt hn hlt] at this
    omega
  · obtain ⟨c, hreach, hpayload, hle, hge⟩ := kmalloc_room hbest.fits hlaid'
    constructor
    · rintro ⟨m, p, hcall, hroom⟩
      rw [htake] at hcall
      obtain ⟨rfl, rfl⟩ := Prod.mk.inj (Option.some.inj hcall)
      obtain ⟨a, -, ha, hn⟩ := hroom (hi.payload_ne_zero (by simp))
      obtain rfl : a = c := Nat.add_right_cancel (ha.symm.trans hpayload)
      by_contra hnot
      push Not at hnot
      have halign := alignSize_of_gt hnot.1 hlt
      omega
    · intro hor
      have hn : n ≤ 0xFFFFFFF0 := hor.resolve_right fun hnone =>
        hnone ⟨b, by simp, hbest.free⟩
      have halign := alignSize_of_le hn
      exact ⟨_, _, htake, fun _ => ⟨c, hreach, hpayload, by omega⟩⟩

/-- After 100 bytes have been allocated, a request for 200 gets room behind them. -/
theorem honoursSize_iff_first : ∃ t,
    Run step AnySize (heapInit ⟨fun _ => 0, []⟩) [.kmalloc 100] t ∧
      (∃ m, kmalloc t.mem t.start 200 = some (m, 0xE0000088)) ∧ HonoursSize t 200 := by
  obtain ⟨t, ht, hstart, -, hlaid⟩ := step_kmalloc [] [] (n := 100)
    (heapInv_heapInit ⟨fun _ => 0, []⟩).laid rfl (by decide) (by decide)
  have hrun : Run step AnySize (heapInit ⟨fun _ => 0, []⟩) [.kmalloc 100] t :=
    .cons (show 100 < 2 ^ 32 by decide) ht (.nil t)
  refine ⟨t, hrun, ?_, (honoursSize_iff hrun (by decide) (by decide)).mpr (Or.inl (by decide))⟩
  have hcall := kmalloc_eq hlaid (show 200 ≠ 0 by decide)
  have hfit : bestFit (alignSize 200) ([] ++ carve ⟨heapStart, heapSize - headerSize, true⟩
      (alignSize 100) ++ []) = some ⟨0xE000007C, heapSize - headerSize - 124, true⟩ := by decide
  rw [hfit] at hcall
  exact ⟨_, by rw [hstart, hcall]; rfl⟩

/-- On the fresh heap `kmalloc(0xFFFFFFFF)` returns a block without any room. -/
theorem not_honoursSize_top :
    (∃ m, kmalloc (heapInit ⟨fun _ => 0, []⟩).mem heapStart 0xFFFFFFFF = some (m, 0xE000000C) ∧
      sizeOf m 0xE0000000 = 0) ∧
      ¬ HonoursSize (heapInit ⟨fun _ => 0, []⟩) 0xFFFFFFFF := by
  have hlaid : Laid _ ([] ++ ⟨heapStart, heapSize - headerSize, true⟩ :: []) :=
    (heapInv_heapInit ⟨fun _ => 0, []⟩).laid
  have hcall := kmalloc_eq hlaid (show 0xFFFFFFFF ≠ 0 by decide)
  have hfit : bestFit (alignSize 0xFFFFFFFF) [⟨heapStart, heapSize - headerSize, true⟩] =
      some ⟨heapStart, heapSize - headerSize, true⟩ := by decide
  rw [List.nil_append, hfit] at hcall
  have hlaid' := laid_takeBlock hlaid (show alignSize 0xFFFFFFFF ≤ heapSize - headerSize by decide)
  have hsize := hlaid'.blockTable.sizes ⟨heapStart, 0, false⟩ (by decide)
  refine ⟨⟨_, hcall, hsize⟩, ?_⟩
  rintro ⟨m, p, hcall', hroom⟩
  obtain ⟨rfl, rfl⟩ := Prod.mk.inj (Option.some.inj (hcall.symm.trans hcall'))
  obtain ⟨a, -, ha, hn⟩ := hroom (by decide)
  obtain rfl : a = heapStart := Nat.add_right_cancel ha.symm
  rw [hsize] at hn
  exact absurd hn (by decide)

end OpenKernel.Memory
