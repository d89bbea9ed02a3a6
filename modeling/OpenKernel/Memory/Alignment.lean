import OpenKernel.Memory.BestFit

/-!
# Alignment of what `kmalloc` returns

Sizes are rounded up to 16, but the heap starts at a multiple of 16 and a payload
stands 12 bytes behind its block. The first pointer that `kmalloc` returns is
therefore no multiple of 16. What holds throughout is that every pointer is a
multiple of 4.
-/

namespace OpenKernel.Memory

/-- The pointer that a call of `kmalloc` returns. -/
def result (h : Heap) : Call → Option ℕ
  | .kmalloc size => (kmalloc h.mem.clearLog h.start size).map Prod.snd
  | _ => none

/-- All pointers that `kmalloc` returns in the course of the calls. -/
def returned (h : Heap) : List Call → List ℕ
  | [] => []
  | call :: calls =>
    match step h call with
    | none => []
    | some t => (result h call).toList ++ returned t calls

theorem returned_cons {h t : Heap} {call : Call} {calls : List Call}
    (hstep : step h call = some t) :
    returned h (call :: calls) = (result h call).toList ++ returned t calls := by
  simp only [returned, hstep]

/-- What is returned is null or the payload of one of the blocks. -/
theorem result_cases {h : Heap} {l : List Block} {n p : ℕ} (hi : HeapInv h.promise l)
    (hp : result h (.kmalloc n) = some p) : p = 0 ∨ ∃ b ∈ l, p = b.payload := by
  have hstart : h.start = heapStart := hi.start
  have hlaid : Laid h.mem.clearLog l := hi.laid.clearLog
  obtain ⟨⟨m, q⟩, hcall, rfl⟩ := Option.map_eq_some_iff.mp hp
  rw [hstart] at hcall
  by_cases hn : n = 0
  · subst hn
    rw [kmalloc, if_pos rfl] at hcall
    cases hcall
    exact Or.inl rfl
  · rcases kmalloc_cases hlaid hn with ⟨hnull, -⟩ | ⟨l₁, b, l₂, rfl, -, htake, -⟩
    · cases hnull.symm.trans hcall
      exact Or.inl rfl
    · cases htake.symm.trans hcall
      exact Or.inr ⟨b, by simp, rfl⟩

/-! ### Multiples of 4 -/

def WordBlocks (l : List Block) : Prop := ∀ b ∈ l, b.addr % 4 = 0 ∧ b.size % 4 = 0

theorem WordBlocks.step {l l' : List Block} {call : Call} (hw : WordBlocks l)
    (hl : BlockStep l call l') : WordBlocks l' := by
  cases hl with
  | keep => exact hw
  | take b l₁ l₂ n hfree =>
    have hb := hw b (by simp)
    have hcarve : WordBlocks (carve b (alignSize n)) := by
      unfold carve alignSize headerSize
      split_ifs with hlt
      · intro c hc
        rcases List.mem_pair.mp hc with rfl | rfl <;> dsimp only <;> omega
      · intro c hc
        obtain rfl := List.mem_singleton.mp hc
        exact hb
    intro c hc
    simp only [List.mem_append] at hc
    rcases hc with (hc | hc) | hc
    · exact hw c (by simp [hc])
    · exact hcarve c hc
    · exact hw c (by simp [hc])
  | free b l₁ l₂ hused =>
    have hb := hw b (by simp)
    intro c hc
    rcases List.mem_append.mp hc with hc | hc
    · exact hw c (by simp [hc])
    · cases l₂ with
      | nil =>
        obtain rfl := List.mem_singleton.mp hc
        exact hb
      | cons d l₂ =>
        have hd := hw d (by simp)
        simp only [merge] at hc
        split_ifs at hc
        · rcases List.mem_cons.mp hc with rfl | hc
          · unfold headerSize
            dsimp only
            omega
          · exact hw c (by simp [hc])
        · rcases List.mem_cons.mp hc with rfl | hc
          · exact hb
          · exact hw c (List.mem_append_right _ (List.mem_cons_of_mem _ hc))

theorem returned_mod_four_of_inv {h t : Heap} {l : List Block} {calls : List Call}
    (hrun : Run step AnySize h calls t) (hi : HeapInv h.promise l) (hw : WordBlocks l) :
    ∀ p ∈ returned h calls, p % 4 = 0 := by
  induction hrun generalizing l with
  | nil => simp [returned]
  | @cons h u t call calls hok hstep hrun ih =>
    obtain ⟨l', hl', hi'⟩ := heapInv_promise_step hi hok hstep
    intro p hp
    rw [returned_cons hstep, List.mem_append, Option.mem_toList] at hp
    rcases hp with hp | hp
    · cases call with
      | kmalloc n =>
        rcases result_cases hi hp with rfl | ⟨b, hb, rfl⟩
        · rfl
        · have := hw b hb
          unfold Block.payload headerSize
          omega
      | kfree _ => cases hp
      | poke _ _ => cases hp
    · exact ih hi' (hw.step hl') p hp

theorem returned_mod_four {mem : ByteMemory} {calls : List Call} {t : Heap}
    (hrun : Run step AnySize (heapInit mem) calls t) :
    ∀ p ∈ returned (heapInit mem) calls, p % 4 = 0 := by
  refine returned_mod_four_of_inv hrun (heapInv_heapInit mem) ?_
  intro b hb
  obtain rfl := List.mem_singleton.mp hb
  decide

/-! ### Multiples of 16 -/

def firstBlock : Block := ⟨heapStart, heapSize - headerSize, true⟩

/-- Requests that the whole heap cannot meet, and that of nothing. -/
def Unmet (n : ℕ) : Prop := n = 0 ∨ 0x3FFFFF0 < n ∧ n ≤ 0xFFFFFFF0

theorem kmalloc_of_unmet {m : ByteMemory} {n : ℕ} (hlaid : Laid m [firstBlock]) (hn : Unmet n) :
    kmalloc m heapStart n = some (m, 0) := by
  rcases hn with rfl | ⟨hlo, hhi⟩
  · exact if_pos rfl
  · have hne : n ≠ 0 := by omega
    rcases kmalloc_cases hlaid hne with ⟨hnull, -⟩ | ⟨l₁, b, l₂, hl, hbest, -⟩
    · exact hnull
    · have hb : b = firstBlock := List.mem_singleton.mp (by simp [hl])
      have hfits := hbest.fits
      rw [hb, alignSize_of_le hhi] at hfits
      unfold firstBlock heapSize headerSize at hfits
      dsimp only at hfits
      omega

theorem kmalloc_of_not_unmet {m : ByteMemory} {n : ℕ} (hlaid : Laid m [firstBlock])
    (hn : ¬ Unmet n) (hlt : n < 2 ^ 32) : ∃ m', kmalloc m heapStart n = some (m', 0xE000000C) := by
  unfold Unmet at hn
  rcases kmalloc_cases hlaid (show n ≠ 0 by omega) with ⟨-, hsmall⟩ | ⟨l₁, b, l₂, hl, -, htake, -⟩
  · have hsize := hsmall firstBlock (by simp) rfl
    unfold firstBlock heapSize headerSize alignSize word at hsize
    dsimp only at hsize
    omega
  · have hb : b = firstBlock := List.mem_singleton.mp (by simp [hl])
    subst hb
    exact ⟨_, htake⟩

theorem BlockStep.eq_of_free {l l' : List Block} {call : Call} (hl : BlockStep l call l')
    (hfree : ∀ b ∈ l, b.free = true) (hcall : ∀ n, call ≠ .kmalloc n) : l' = l := by
  cases hl with
  | keep => rfl
  | take b l₁ l₂ n => exact absurd rfl (hcall n)
  | free b l₁ l₂ hused =>
    have := hfree b (by simp)
    rw [hused] at this
    cases this

/-- While nothing can be met, the heap stays one block. -/
theorem heapInv_firstBlock_step {h t : Heap} {call : Call} (hi : HeapInv h.promise [firstBlock])
    (hok : AnySize h call) (hstep : step h call = some t)
    (hunmet : ∀ n, call = .kmalloc n → Unmet n) : HeapInv t.promise [firstBlock] := by
  cases call with
  | kmalloc n =>
    have hstart : h.start = heapStart := hi.start
    have hcall := kmalloc_of_unmet (m := h.mem.clearLog) hi.laid.clearLog (hunmet n rfl)
    obtain rfl : { h with mem := h.mem.clearLog } = t := by
      simpa [step, hstart, hcall] using hstep
    exact hi.clearLog
  | kfree p =>
    obtain ⟨l', hl', hi'⟩ := heapInv_promise_step hi hok hstep
    exact hl'.eq_of_free (by simp [firstBlock]) (by simp) ▸ hi'
  | poke a v =>
    obtain ⟨l', hl', hi'⟩ := heapInv_promise_step hi hok hstep
    exact hl'.eq_of_free (by simp [firstBlock]) (by simp) ▸ hi'

theorem returned_aligned_of_inv {h t : Heap} {calls : List Call}
    (hrun : Run step AnySize h calls t) (hi : HeapInv h.promise [firstBlock]) :
    (∀ p ∈ returned h calls, p ≠ 0 → p % 16 = 0) ↔ ∀ n, .kmalloc n ∈ calls → Unmet n := by
  induction hrun with
  | nil => simp [returned]
  | @cons h u t call calls hok hstep hrun ih =>
    rw [returned_cons hstep]
    by_cases hunmet : ∀ n, call = .kmalloc n → Unmet n
    · -- the call returns null or nothing, and the heap stays as it was
      have hnull : ∀ p ∈ (result h call).toList, p = 0 := by
        intro p hp
        rw [Option.mem_toList] at hp
        cases call with
        | kmalloc n =>
          have hcall := kmalloc_of_unmet (m := h.mem.clearLog) hi.laid.clearLog (hunmet n rfl)
          have hstart : h.start = heapStart := hi.start
          simpa [result, hstart, hcall, eq_comm] using hp
        | kfree _ => cases hp
        | poke _ _ => cases hp
      have htail := ih (heapInv_firstBlock_step hi hok hstep hunmet)
      constructor
      · intro hall n hn
        rcases List.mem_cons.mp hn with hn | hn
        · exact hunmet n hn.symm
        · exact htail.mp (fun p hp => hall p (List.mem_append_right _ hp)) n hn
      · intro hall p hp hne
        rcases List.mem_append.mp hp with hp | hp
        · exact absurd (hnull p hp) hne
        · exact htail.mpr (fun n hn => hall n (List.mem_cons_of_mem _ hn)) p hp hne
    · push Not at hunmet
      obtain ⟨n, rfl, hn⟩ := hunmet
      obtain ⟨m, hcall⟩ := kmalloc_of_not_unmet (m := h.mem.clearLog) hi.laid.clearLog hn hok
      have hstart : h.start = heapStart := hi.start
      have hres : result h (.kmalloc n) = some 0xE000000C := by simp [result, hstart, hcall]
      constructor
      · intro hall
        have := hall 0xE000000C (by simp [hres]) (by decide)
        exact absurd this (by decide)
      · intro hall
        exact absurd (hall n (by simp)) hn

/-- In a run after boot all pointers returned are multiples of 16 exactly if none is returned:
if no request of the run could be met by the whole heap. -/
theorem returned_aligned_iff {mem : ByteMemory} {calls : List Call} {t : Heap}
    (hrun : Run step AnySize (heapInit mem) calls t) :
    (∀ p ∈ returned (heapInit mem) calls, p ≠ 0 → p % 16 = 0) ↔
      ∀ n, .kmalloc n ∈ calls → n = 0 ∨ 0x3FFFFF0 < n ∧ n ≤ 0xFFFFFFF0 :=
  returned_aligned_of_inv hrun (heapInv_heapInit mem)

/-- A request for more than the heap. -/
theorem returned_aligned_iff_huge :
    ∃ t, Run step AnySize (heapInit ⟨fun _ => 0, []⟩) [.kmalloc 0x4000000] t ∧
      ∀ p ∈ returned (heapInit ⟨fun _ => 0, []⟩) [.kmalloc 0x4000000], p ≠ 0 → p % 16 = 0 := by
  obtain ⟨t, ht, -⟩ := (heapInv_heapInit ⟨fun _ => 0, []⟩).step
    (show HeapOk _ (.kmalloc 0x4000000) from ⟨by decide, by decide⟩)
  have hrun : Run step AnySize (heapInit ⟨fun _ => 0, []⟩) [.kmalloc 0x4000000] t :=
    .cons (show 0x4000000 < 2 ^ 32 by decide) ht (.nil t)
  refine ⟨t, hrun, (returned_aligned_iff hrun).mpr fun n hn => Or.inr ?_⟩
  obtain ⟨rfl⟩ : Call.kmalloc n = .kmalloc 0x4000000 := List.mem_singleton.mp hn
  decide

/-- The first byte allocated is at 0xE000000C. -/
theorem not_aligned_first :
    ∃ t, Run step AnySize (heapInit ⟨fun _ => 0, []⟩) [.kmalloc 1] t ∧
      returned (heapInit ⟨fun _ => 0, []⟩) [.kmalloc 1] = [0xE000000C] ∧
      ¬ ∀ p ∈ returned (heapInit ⟨fun _ => 0, []⟩) [.kmalloc 1], p ≠ 0 → p % 16 = 0 := by
  have hi := heapInv_heapInit ⟨fun _ => 0, []⟩
  obtain ⟨t, ht, -⟩ := hi.step (show HeapOk _ (.kmalloc 1) from ⟨by decide, by decide⟩)
  obtain ⟨m, hcall⟩ := kmalloc_of_not_unmet hi.laid.clearLog
    (show ¬ Unmet 1 by unfold Unmet; omega) (by decide)
  have hres : result (heapInit ⟨fun _ => 0, []⟩) (.kmalloc 1) = some 0xE000000C := by
    have hstart : (heapInit ⟨fun _ => 0, []⟩).start = heapStart := rfl
    simp [result, hstart, hcall]
  have hret : returned (heapInit ⟨fun _ => 0, []⟩) [.kmalloc 1] = [0xE000000C] := by
    rw [returned_cons ht, hres]
    rfl
  refine ⟨t, .cons (show 1 < 2 ^ 32 by decide) ht (.nil t), hret, ?_⟩
  rw [hret]
  intro hall
  exact absurd (hall 0xE000000C (by simp) (by decide)) (by decide)

end OpenKernel.Memory
