import OpenKernel.Memory.BackedHeap
import Mathlib.Data.List.Chain

/-!
# Fragmentation

`kfree` joins a block with the free block behind it and never with the one before
it. Blocks freed from the lower address up therefore stay apart. As long as no
block is freed behind a free one, no two free blocks stand side by side, and once
everything has been freed the heap is the single block that `heap_init` made.
-/

namespace OpenKernel.Memory

open Linked

def Satisfiable (h : Heap) (size : ℕ) : Prop :=
  ∃ m p, kmalloc h.mem h.start size = some (m, p) ∧ p ≠ 0

/-- The block whose link leads to the block of `ptr`, if there is one, is not free. -/
def UsedBefore (h : Heap) (ptr : ℕ) : Prop :=
  ∀ a, Reach (fun b => pointer (nextOf h.mem b)) (pointer h.start) a →
    nextOf h.mem a = ptr - headerSize → freeOf h.mem a = 0

/-- Calls with sizes of any kind that free no block behind a free one. -/
def Coalescing (h : Heap) (call : Call) : Prop :=
  AnySize h call ∧ ∀ ptr, call = .kfree ptr → ptr ≠ 0 → UsedBefore h ptr

/-- No two free blocks stand side by side. -/
def NoFreePair (l : List Block) : Prop := l.IsChain fun b c => ¬ (b.free = true ∧ c.free = true)

section Blocks

variable {b : Block} {l l₁ l₂ : List Block} {size : ℕ}

theorem noFreePair_take (h : NoFreePair (l₁ ++ b :: l₂)) (hfree : b.free = true) :
    NoFreePair (l₁ ++ carve b size ++ l₂) := by
  unfold NoFreePair at *
  obtain ⟨h₁, h₂, -⟩ := List.isChain_append.mp h
  obtain ⟨hb, h₂⟩ := List.isChain_cons.mp h₂
  have hnext : ∀ c ∈ l₂.head?, c.free = false := by
    intro c hc
    have := hb c hc
    simpa [hfree] using this
  rw [List.append_assoc]
  refine List.isChain_append.mpr ⟨h₁, ?_, ?_⟩
  · unfold carve
    split_ifs
    · refine .cons_cons (by simp) (List.isChain_cons.mpr ⟨?_, h₂⟩)
      intro c hc
      simp [hnext c hc]
    · exact List.isChain_cons.mpr ⟨by simp, h₂⟩
  · -- the first piece is used
    unfold carve
    split_ifs <;> simp

theorem noFreePair_free (h : NoFreePair (l₁ ++ b :: l₂))
    (hbefore : ∀ c ∈ l₁.getLast?, c.free = false) : NoFreePair (l₁ ++ merge b l₂) := by
  unfold NoFreePair at *
  obtain ⟨h₁, h₂, -⟩ := List.isChain_append.mp h
  have h₂ := (List.isChain_cons.mp h₂).2
  refine List.isChain_append.mpr ⟨h₁, ?_, ?_⟩
  · cases l₂ with
    | nil => exact List.isChain_singleton _
    | cons c l₂ =>
      simp only [merge]
      split_ifs with hc
      · -- what stands behind the block merged away is not free
        obtain ⟨hnext, h₂⟩ := List.isChain_cons.mp h₂
        refine List.isChain_cons.mpr ⟨fun d hd => ?_, h₂⟩
        simpa [hc] using hnext d hd
      · exact List.isChain_cons.mpr ⟨by simp [hc], h₂⟩
  · intro c hc d _
    simp [hbefore c hc]

theorem eq_singleton_of_free (h : NoFreePair l) (hfree : ∀ b ∈ l, b.free = true)
    (ht : Tiles heapStart heapLimit l) : l = [⟨heapStart, heapSize - headerSize, true⟩] := by
  cases l with
  | nil =>
    have : heapStart = heapLimit := ht
    revert this
    decide
  | cons b l =>
    cases l with
    | nil =>
      obtain ⟨haddr, hfin⟩ := ht
      have hb := hfree b (by simp)
      obtain ⟨a, n, f⟩ := b
      have hfin : a + headerSize + n = heapLimit := hfin
      simp only at haddr hb
      subst haddr hb
      unfold heapLimit heapSize at *
      simp only [List.cons.injEq, Block.mk.injEq, true_and, and_true]
      omega
    | cons c l => exact absurd ⟨hfree b (by simp), hfree c (by simp)⟩ (List.isChain_cons_cons.mp h).1

end Blocks

section Heaps

variable {h t : Heap} {l l₁ l₂ : List Block} {b : Block}

/-- The code's predecessor of a block is its predecessor in the list. -/
theorem usedBefore_iff (hi : HeapInv h (l₁ ++ b :: l₂)) :
    UsedBefore h b.payload ↔ ∀ c ∈ l₁.getLast?, c.free = false := by
  have htiles := hi.laid.tiles
  have hchain := hi.safe.chain
  have haddr : b.payload - headerSize = b.addr := Nat.add_sub_cancel _ _
  have hb := hi.laid.bounds (b := b) (by simp)
  constructor
  · intro hu c hc
    obtain ⟨k, rfl⟩ := List.getLast?_eq_some_iff.mp hc
    have hcl : c ∈ k ++ [c] ++ b :: l₂ := by simp
    have hfin : c.fin = b.addr := (tiles_append.mp htiles.split.1).elim fun _ h => h.2.2
    have hentry : entry c.fin = b.addr := by
      rw [hfin]
      exact if_neg (by unfold heapLimit heapStart heapSize; omega)
    have hreach := hchain.reach (List.mem_map_of_mem hcl)
    have hzero := hu c.addr hreach (by rw [(hi.laid.header c hcl).next, hentry, haddr])
    exact Bool.eq_false_iff.mpr fun hfree => (hi.laid.header c hcl).free.mpr hfree hzero
  · intro hused a ha hnext
    obtain ⟨c, hc, rfl⟩ := List.mem_map.mp (hchain.mem_of_reach ha)
    have hentry : entry c.fin = b.addr := by rw [← (hi.laid.header c hc).next, hnext, haddr]
    have hfin : c.fin = b.addr := by
      unfold entry at hentry
      split_ifs at hentry with hlimit
      · omega
      · exact hentry
    -- only a block in front of `b` can end where `b` starts, and only the last of them
    have hl₁ : c ∈ l₁ := by
      rcases List.mem_append.mp hc with hc | hc
      · exact hc
      · have hle : b.addr ≤ c.addr := by
          rcases List.mem_cons.mp hc with rfl | hc
          · exact le_rfl
          · have := (htiles.split.2.bounds hc).1
            unfold Block.fin at this
            omega
        unfold Block.fin headerSize at hfin
        omega
    obtain ⟨k₁, k₂, rfl⟩ := List.append_of_mem hl₁
    have hk₂ := htiles.split.1.split.2.le
    rw [hfin] at hk₂
    have hnil : k₂ = [] := List.eq_nil_of_length_eq_zero (by unfold headerSize at hk₂; omega)
    subst hnil
    by_contra hne
    have := hused c (by simp)
    rw [(hi.laid.header c hc).free.mp hne] at this
    cases this

theorem satisfiable_iff (hi : HeapInv h l) {size : ℕ} :
    Satisfiable h size ↔ size ≠ 0 ∧ bestFit (alignSize size) l ≠ none := by
  unfold Satisfiable
  rw [hi.start]
  by_cases hn : size = 0
  · simp [hn, kmalloc]
  · rw [kmalloc_eq hi.laid hn]
    cases hb : bestFit (alignSize size) l with
    | none => simp
    | some b => simp [hn, hi.payload_ne_zero (bestFit_some hb).1]

theorem NoFreePair.step {call : Call} {l' : List Block} (hp : NoFreePair l)
    (hi : HeapInv h.promise l) (hok : Coalescing h call) (hl : BlockStep l call l') :
    NoFreePair l' := by
  cases hl with
  | keep _ _ _ => exact hp
  | take b l₁ l₂ n hfree => exact noFreePair_take hp hfree
  | free b l₁ l₂ hused =>
    have hbefore : UsedBefore h b.payload :=
      hok.2 b.payload rfl (hi.payload_ne_zero (by simp))
    exact noFreePair_free hp ((usedBefore_iff hi).mp hbefore)

/-- In every run that frees no block behind a free one, once nothing is allocated any more every
request can be met that could be met after `heap_init`. -/
theorem satisfiable_again {mem : ByteMemory} {calls : List Call}
    (hrun : Run step Coalescing (heapInit mem) calls t) (hlive : t.live = []) {size : ℕ}
    (hsize : Satisfiable (heapInit mem) size) : Satisfiable t size := by
  obtain ⟨l, hi, hp⟩ : ∃ l, HeapInv t.promise l ∧ NoFreePair l := by
    refine hrun.invariant (fun h => ∃ l, HeapInv h.promise l ∧ NoFreePair l) ?_ ?_
    · rintro h call u ⟨l, hi, hp⟩ hok he
      obtain ⟨l', hl', hi'⟩ := heapInv_promise_step hi hok.1 he
      exact ⟨l', hi', hp.step hi hok hl'⟩
    · exact ⟨_, heapInv_heapInit mem, List.isChain_singleton _⟩
  have hfree : ∀ b ∈ l, b.free = true := by
    intro b hb
    by_contra hused
    obtain ⟨n, hn⟩ := hi.used b hb (Bool.eq_false_iff.mpr hused)
    simp [Heap.promise, hlive] at hn
  have hl := eq_singleton_of_free hp hfree hi.laid.tiles
  rw [hl] at hi
  exact (satisfiable_iff hi).mpr ((satisfiable_iff (heapInv_heapInit mem)).mp hsize)

theorem HeapInv.live_eq_nil (hi : HeapInv h l) (hfree : ∀ b ∈ l, b.free = true) : h.live = [] := by
  rw [List.eq_nil_iff_forall_not_mem]
  rintro ⟨p, n⟩ hm
  obtain ⟨b, hb, -, hused, -⟩ := hi.live p n hm
  rw [hfree b hb] at hused
  cases hused

end Heaps

/-- One allocation, freed: the whole heap can be had again. -/
theorem satisfiable_again_one :
    ∃ t, Run step Coalescing (heapInit ⟨fun _ => 0, []⟩) [.kmalloc 16, .kfree 0xE000000C] t ∧
      t.live = [] ∧ Satisfiable t 0x3FFFFF0 := by
  have hi₀ := heapInv_heapInit ⟨fun _ => 0, []⟩
  obtain ⟨s, hs, hi₁, -⟩ := hi₀.step (show HeapOk _ (.kmalloc 16) from ⟨by decide, by decide⟩)
  obtain ⟨t, ht, hi₂, -⟩ := hi₁.step (show HeapOk _ (.kfree 0xE000000C) from
    Or.inr (hi₁.used ⟨heapStart, 16, false⟩ (by decide) rfl))
  have hsplit : HeapInv s ([] ++ ⟨heapStart, 16, false⟩ ::
      [⟨heapStart + 28, heapSize - 40, true⟩]) := hi₁
  have hbefore : UsedBefore s 0xE000000C := (usedBefore_iff hsplit).mpr (by simp)
  have hrun : Run step Coalescing (heapInit ⟨fun _ => 0, []⟩) [.kmalloc 16, .kfree 0xE000000C] t :=
    .cons ⟨show 16 < 2 ^ 32 by decide, by simp⟩ hs
      (.cons ⟨Or.inr (hi₁.used ⟨heapStart, 16, false⟩ (by decide) rfl), by
        rintro _ ⟨⟩ -
        exact hbefore⟩ ht (.nil t))
  have hlive := hi₂.live_eq_nil (by decide)
  exact ⟨t, hrun, hlive,
    satisfiable_again hrun hlive ((satisfiable_iff hi₀).mpr ⟨by decide, by decide⟩)⟩

/-- Two neighbours freed in the order of their addresses stay two blocks, and a request for the
whole heap fails. -/
theorem fragmented_after_frees :
    ∃ t, Run step AnySize (heapInit ⟨fun _ => 0, []⟩)
        [.kmalloc 16, .kmalloc 16, .kfree 0xE000000C, .kfree 0xE0000028] t ∧
      t.live = [] ∧ Satisfiable (heapInit ⟨fun _ => 0, []⟩) 0x3FFFFF0 ∧
      ¬ Satisfiable t 0x3FFFFF0 := by
  have hi₀ := heapInv_heapInit ⟨fun _ => 0, []⟩
  obtain ⟨r, hr, hi₁, -⟩ := hi₀.step (show HeapOk _ (.kmalloc 16) from ⟨by decide, by decide⟩)
  obtain ⟨s, hs, hi₂, -⟩ := hi₁.step (show HeapOk _ (.kmalloc 16) from ⟨by decide, by decide⟩)
  have hfirst : HeapOk s (.kfree 0xE000000C) :=
    Or.inr (hi₂.used ⟨heapStart, 16, false⟩ (by decide) rfl)
  obtain ⟨t, ht, hi₃, -⟩ := hi₂.step hfirst
  have hsecond : HeapOk t (.kfree 0xE0000028) :=
    Or.inr (hi₃.used ⟨heapStart + 28, 16, false⟩ (by decide) rfl)
  obtain ⟨u, hu, hi₄, -⟩ := hi₃.step hsecond
  have hsize : (16 : ℕ) < 2 ^ 32 := by decide
  refine ⟨u, .cons hsize hr (.cons hsize hs (.cons hfirst ht (.cons hsecond hu (.nil u)))),
    hi₄.live_eq_nil (by decide), (satisfiable_iff hi₀).mpr ⟨by decide, by decide⟩, ?_⟩
  rw [satisfiable_iff hi₄]
  decide

end OpenKernel.Memory
