import OpenKernel.Memory.HeapRefinement
import OpenKernel.Lib.Linked
import Mathlib.Data.Set.BooleanAlgebra
import Mathlib.Order.CompletePartialOrder
import Mathlib.Order.Interval.Set.Basic

/-!
# Safety of the heap

In every run of `kmalloc` and `kfree` on live pointers the blocks tile the heap,
and the live allocations are used blocks of that tiling. All else follows from
the tiling: allocations are disjoint from each other and from all headers, and
no call writes into the payload of another allocation.
-/

namespace OpenKernel.Memory

open ByteMemory Linked

/-- Sizes up to that of the heap, pointers that are null or live, and writes that stay inside
what was allocated or outside the heap. -/
def HeapOk (h : Heap) : Call → Prop
  | .kmalloc size => 0 < size ∧ size ≤ heapSize
  | .kfree ptr => ptr = 0 ∨ ∃ n, (ptr, n) ∈ h.live
  | .poke addr _ =>
      (∃ p n, (p, n) ∈ h.live ∧ p ≤ addr ∧ addr < p + n) ∨ addr < heapStart ∨ heapLimit ≤ addr

def Block.bytes (b : Block) : Set ℕ := Set.Ico b.payload b.fin

def Block.headerBytes (b : Block) : Set ℕ := Set.Ico b.addr b.payload

/-- The live allocations are the used blocks. -/
structure HeapInv (h : Heap) (l : List Block) : Prop where
  start : h.start = heapStart
  laid : Laid h.mem l
  nodup : (h.live.map Prod.fst).Nodup
  live : ∀ p n, (p, n) ∈ h.live → ∃ b ∈ l, b.payload = p ∧ b.free = false ∧ n ≤ b.size
  used : ∀ b ∈ l, b.free = false → ∃ n, (b.payload, n) ∈ h.live

theorem payload_inj {b c : Block} : b.payload = c.payload ↔ b.addr = c.addr := by
  unfold Block.payload
  omega

theorem heapInv_heapInit (mem : ByteMemory) :
    HeapInv (heapInit mem) [⟨heapStart, heapSize - headerSize, true⟩] := by
  refine ⟨rfl, ⟨⟨rfl, rfl⟩, ?_⟩, List.nodup_nil, by simp [heapInit], by simp⟩
  intro b hb
  obtain rfl := List.mem_singleton.mp hb
  have hfin : entry (Block.mk heapStart (heapSize - headerSize) true).fin = 0 := by decide
  constructor
  · rw [hfin, heapInit, nextOf_setNext _ _ (by decide)]
  · rw [heapInit, sizeOf_setNext, sizeOf_setFree, sizeOf_setSize _ _ (by decide)]
  · simp [heapInit]

namespace HeapInv

variable {h : Heap} {l : List Block}

theorem not_live {b : Block} (hi : HeapInv h l) (hb : b ∈ l) (hfree : b.free = true) (n : ℕ) :
    (b.payload, n) ∉ h.live := by
  intro hm
  obtain ⟨c, hc, hp, hused, -⟩ := hi.live _ _ hm
  obtain rfl := hi.laid.tiles.eq_of_addr hc hb (payload_inj.mp hp)
  rw [hfree] at hused
  cases hused

theorem le_alignSize {n : ℕ} (hn : n ≤ heapSize) : n ≤ alignSize n := by
  unfold alignSize word heapSize at *
  omega

/-- Taking the free block `b`: the other blocks stay, and the first piece is the allocation. -/
theorem take {b : Block} {l₁ l₂ : List Block} {size n : ℕ} (hi : HeapInv h (l₁ ++ b :: l₂))
    (hfree : b.free = true) (hsize : size ≤ b.size) (hn : n ≤ size) :
    HeapInv { h with
      mem := takeBlock h.mem.clearLog b.addr size
      live := (b.payload, n) :: h.live } (l₁ ++ carve b size ++ l₂) := by
  have hb : b ∈ l₁ ++ b :: l₂ := by simp
  have hnot := hi.not_live hb hfree
  obtain ⟨c, k, hk, hc⟩ : ∃ c k, carve b size = ⟨b.addr, c, false⟩ :: k ∧ size ≤ c ∧
      ∀ d ∈ k, d.free = true := by
    unfold carve
    split_ifs
    · exact ⟨_, _, rfl, le_rfl, by simp⟩
    · exact ⟨_, _, rfl, hsize, by simp⟩
  refine ⟨hi.start, laid_takeBlock hi.laid.clearLog hsize, ?_, ?_, ?_⟩
  · refine List.nodup_cons.mpr ⟨?_, hi.nodup⟩
    intro hm
    obtain ⟨⟨p, k⟩, hm, rfl⟩ := List.mem_map.mp hm
    exact hnot k hm
  · intro p k hm
    rcases List.mem_cons.mp hm with he | hm
    · cases he
      refine ⟨⟨b.addr, c, false⟩, by simp [hk], rfl, rfl, hn.trans hc.1⟩
    · obtain ⟨d, hd, hp, hused, hkd⟩ := hi.live p k hm
      refine ⟨d, ?_, hp, hused, hkd⟩
      have hdb : d ≠ b := by
        rintro rfl
        rw [hfree] at hused
        cases hused
      simp only [List.mem_append, List.mem_cons] at hd ⊢
      tauto
  · intro d hd hused
    simp only [hk, List.mem_append, List.mem_cons] at hd
    have hold : d ∈ l₁ ++ b :: l₂ → ∃ n', (d.payload, n') ∈ (b.payload, n) :: h.live := by
      intro hd
      obtain ⟨k, hm⟩ := hi.used d hd hused
      exact ⟨k, List.mem_cons_of_mem _ hm⟩
    rcases hd with (hd | hd | hd) | hd
    · exact hold (by simp [hd])
    · exact ⟨n, by simp [hd, Block.payload]⟩
    · have hf := hc.2 d hd
      rw [hused] at hf
      cases hf
    · exact hold (by simp [hd])

/-- Freeing the used block `b`: a used block other than `b` is not merged away. -/
theorem free {b : Block} {l₁ l₂ : List Block} (hi : HeapInv h (l₁ ++ b :: l₂)) :
    HeapInv { h with
      mem := kfree h.mem.clearLog b.payload
      live := h.live.filter (·.1 ≠ b.payload) } (l₁ ++ merge b l₂) := by
  have hb : b ∈ l₁ ++ b :: l₂ := by simp
  have hmem : ∀ d : Block, d.free = false → (d ∈ merge b l₂ ↔ d ∈ l₂) := by
    intro d hd
    have hne : ∀ n, d ≠ ⟨b.addr, n, true⟩ := by
      rintro n rfl
      cases hd
    cases l₂ with
    | nil => simp [merge, hne]
    | cons c l₂ =>
      simp only [merge]
      split_ifs with hc
      · have hdc : d ≠ c := by
          rintro rfl
          rw [hc] at hd
          cases hd
        simp [hne, hdc]
      · simp [hne]
  have hlaid : Laid (kfree h.mem.clearLog b.payload) (l₁ ++ merge b l₂) :=
    laid_kfree hi.laid.clearLog
  refine ⟨hi.start, ?_, ?_, ?_, ?_⟩
  · dsimp only
    exact hlaid
  · exact hi.nodup.sublist (List.filter_sublist.map _)
  · intro p n hm
    obtain ⟨hm, hp⟩ := List.mem_filter.mp hm
    obtain ⟨d, hd, hdp, hused, hn⟩ := hi.live p n hm
    refine ⟨d, ?_, hdp, hused, hn⟩
    have hdb : d ≠ b := by
      rintro rfl
      simp [hdp] at hp
    rw [List.mem_append, hmem d hused]
    simp only [List.mem_append, List.mem_cons] at hd
    tauto
  · intro d hd hused
    rw [List.mem_append, hmem d hused, ← List.mem_append] at hd
    have hd' : d ∈ l₁ ++ b :: l₂ := by
      simp only [List.mem_append, List.mem_cons] at hd ⊢
      tauto
    obtain ⟨n, hm⟩ := hi.used d hd' hused
    refine ⟨n, List.mem_filter.mpr ⟨hm, ?_⟩⟩
    have hbeside := hi.laid.tiles.beside hd
    have hne : d.payload ≠ b.payload := by
      unfold Block.fin Block.payload headerSize at *
      omega
    simpa using hne

theorem poke {a : ℕ} {v : UInt8} (hi : HeapInv h l) (hok : HeapOk h (.poke a v)) :
    HeapInv { h with mem := h.mem.clearLog.storeByte a v } l := by
  refine ⟨hi.start, ⟨hi.laid.tiles, ?_⟩, hi.nodup, hi.live, hi.used⟩
  intro b hb
  apply (hi.laid.header b hb).clearLog.within (within_storeByte _ v)
  obtain ⟨hlo, hhi⟩ := hi.laid.tiles.bounds hb
  rcases hok with ⟨p, n, hm, hp, ha⟩ | ha | ha
  · obtain ⟨c, hc, rfl, -, hn⟩ := hi.live p n hm
    by_cases hcb : c = b
    · subst hcb
      exact Or.inl hp
    · have hd := hi.laid.tiles.disjoint hc hb hcb
      unfold Block.fin Block.payload headerSize at *
      omega
  · exact Or.inr (by omega)
  · unfold Block.fin Block.payload at *
    exact Or.inl (by omega)

theorem not_written {b c : Block} {m : ByteMemory} {x : ℕ} (hi : HeapInv h l) (hb : b ∈ l)
    (hc : c ∈ l) (hne : c ≠ b) (hm : Within b.addr b.fin h.mem.clearLog m) (hx : x ∈ c.bytes) :
    x ∉ m.written := by
  intro hw
  have hd := hi.laid.tiles.disjoint hc hb hne
  obtain ⟨hlo, hhi⟩ := hx
  have hout : x < b.addr ∨ b.fin ≤ x := by
    unfold Block.payload at hlo
    omega
  have hlog := (hm x hout).2 hw
  simp [clearLog] at hlog

theorem clearLog (hi : HeapInv h l) : HeapInv { h with mem := h.mem.clearLog } l :=
  ⟨hi.start, hi.laid.clearLog, hi.nodup, hi.live, hi.used⟩

theorem payload_ne_zero {b : Block} (hi : HeapInv h l) (hb : b ∈ l) : b.payload ≠ 0 := by
  obtain ⟨hlo, -⟩ := hi.laid.bounds hb
  unfold Block.payload
  omega

/-- Every allowed call returns and does to the blocks what it should; allocation and release
write no byte of another allocation. -/
theorem step {call : Call} (hi : HeapInv h l) (hok : HeapOk h call) :
    ∃ t, step h call = some t ∧ HeapInv t (blocksAfter l call) ∧
      ((∀ a v, call ≠ .poke a v) → ∀ c ∈ l, c.free = false → call ≠ .kfree c.payload →
        ∀ x ∈ c.bytes, x ∉ t.mem.written) := by
  cases call with
  | kmalloc n =>
    have hn : n ≠ 0 := Nat.pos_iff_ne_zero.mp hok.1
    have hlaid := hi.laid.clearLog
    have hcall := kmalloc_eq hlaid hn
    cases hb : bestFit (alignSize n) l with
    | none =>
      rw [hb] at hcall
      refine ⟨{ h with mem := h.mem.clearLog }, ?_, ?_, ?_⟩
      · simp [Memory.step, hi.start, hcall]
      · simp only [blocksAfter, hb]
        exact hi.clearLog
      · intro _ c _ _ _ x _
        simp [ByteMemory.clearLog]
    | some b =>
      rw [hb] at hcall
      obtain ⟨hbl, hfree, hsize⟩ := bestFit_some hb
      obtain ⟨l₁, l₂, rfl⟩ := List.append_of_mem hbl
      have hne := hi.payload_ne_zero hbl
      have hblocks : blocksAfter (l₁ ++ b :: l₂) (.kmalloc n) =
          l₁ ++ carve b (alignSize n) ++ l₂ := by
        simp only [blocksAfter, hb, allocate_split hi.laid.tiles]
      rw [hblocks]
      refine ⟨_, ?_, hi.take hfree hsize (le_alignSize hok.2), ?_⟩
      · simp [Memory.step, hi.start, hcall, hne]
      · intro _ c hc hused _ x hx
        have hcb : c ≠ b := by
          rintro rfl
          rw [hfree] at hused
          cases hused
        exact hi.not_written hbl hc hcb (within_takeBlock hlaid hsize) hx
  | kfree p =>
    by_cases hp : p = 0
    · subst hp
      refine ⟨{ h with mem := h.mem.clearLog }, ?_, ?_, ?_⟩
      · have hnull : h.live.filter (·.1 ≠ 0) = h.live := by
          rw [List.filter_eq_self]
          rintro ⟨p, n⟩ hm
          obtain ⟨b, hb, rfl, -⟩ := hi.live p n hm
          simpa using hi.payload_ne_zero hb
        simp only [Memory.step, kfree, if_pos, hnull]
      · exact hi.clearLog
      · intro _ c _ _ _ x _
        simp [ByteMemory.clearLog]
    · obtain ⟨n, hm⟩ := hok.resolve_left hp
      obtain ⟨b, hb, rfl, -⟩ := hi.live p n hm
      obtain ⟨l₁, l₂, rfl⟩ := List.append_of_mem hb
      have hm : Within b.addr b.fin h.mem.clearLog (Memory.kfree h.mem.clearLog b.payload) :=
        (within_kfree hi.laid.clearLog).mono (Nat.le_add_right _ b.size)
      have haddr : b.payload - headerSize = b.addr := Nat.add_sub_cancel _ _
      have hblocks : blocksAfter (l₁ ++ b :: l₂) (.kfree b.payload) = l₁ ++ merge b l₂ := by
        simp only [blocksAfter, if_neg hp, haddr, release_split hi.laid.tiles]
      rw [hblocks]
      refine ⟨_, rfl, hi.free, ?_⟩
      intro _ c hc _ hcall x hx
      have hcb : c ≠ b := by
        rintro rfl
        exact hcall rfl
      dsimp only
      exact hi.not_written hb hc hcb hm hx
  | poke a v => exact ⟨_, rfl, hi.poke hok, fun hcall => absurd rfl (hcall a v)⟩

end HeapInv

/-- A `heap_block *` as the list of blocks sees it. -/
def pointer (p : ℕ) : Option ℕ := if p = 0 then none else some p

theorem seg_of_tiles {m : ByteMemory} {l : List Block} {a : ℕ} (ht : Tiles a heapLimit l)
    (ha : heapStart ≤ a) (hl : ∀ b ∈ l, Header m b) :
    Seg (fun b => pointer (nextOf m b)) (pointer (entry a)) (l.map Block.addr) none := by
  induction l generalizing a with
  | nil =>
    have hend : entry a = 0 := if_pos ht
    simp [hend, pointer]
  | cons b l ih =>
    obtain ⟨rfl, ht'⟩ := ht
    have hle := ht'.le
    unfold Block.fin headerSize at hle
    have hentry : entry b.addr = b.addr := if_neg (by omega)
    have hne : b.addr ≠ 0 := by
      unfold heapStart at ha
      omega
    refine ⟨by simp [hentry, pointer, hne], ?_⟩
    have hnext := ih ht' (by unfold Block.fin; omega) fun c hc => hl c (by simp [hc])
    simpa [(hl b (by simp)).next] using hnext

/-- The heap is in good order, with the blocks `l`. -/
structure SafeHeap (h : Heap) (l : List Block) : Prop where
  chain : Seg (fun b => pointer (nextOf h.mem b)) (pointer h.start) (l.map Block.addr) none
  sizes : ∀ b ∈ l, sizeOf h.mem b.addr = b.size
  ordered : l.Pairwise fun b c => b.addr < c.addr
  tiles : Tiles heapStart (heapStart + heapSize) l
  distinct : (h.live.map Prod.fst).Nodup
  allocated : ∀ p n, (p, n) ∈ h.live → ∃ b ∈ l, b.payload = p ∧ n ≤ b.size ∧
    b.bytes ⊆ Set.Ico heapStart (heapStart + heapSize) ∧
    (∀ c ∈ l, Disjoint b.bytes c.headerBytes) ∧
    ∀ c ∈ l, ∀ k, (c.payload, k) ∈ h.live → c.payload ≠ p → Disjoint b.bytes c.bytes

theorem HeapInv.safe {h : Heap} {l : List Block} (hi : HeapInv h l) : SafeHeap h l := by
  have ht := hi.laid.tiles
  refine ⟨?_, fun b hb => (hi.laid.header b hb).size, ?_, ht, hi.nodup, ?_⟩
  · rw [hi.start]
    exact seg_of_tiles ht le_rfl hi.laid.header
  · apply ht.pairwise.imp
    intro b c hbc
    unfold Block.fin headerSize at hbc
    omega
  · intro p n hm
    obtain ⟨b, hb, rfl, -, hn⟩ := hi.live p n hm
    obtain ⟨hlo, hhi⟩ := ht.bounds hb
    refine ⟨b, hb, rfl, hn, ?_, ?_, ?_⟩
    · rintro x ⟨h₁, h₂⟩
      unfold Block.payload at h₁
      exact ⟨by omega, lt_of_lt_of_le h₂ hhi⟩
    · intro c hc
      rw [Set.disjoint_left]
      rintro x ⟨h₁, h₂⟩ ⟨h₃, h₄⟩
      by_cases hcb : c = b
      · subst hcb
        omega
      · have hd := ht.disjoint hc hb hcb
        unfold Block.fin Block.payload at *
        omega
    · intro c hc k _ hne
      rw [Set.disjoint_left]
      rintro x ⟨h₁, h₂⟩ ⟨h₃, h₄⟩
      have hcb : c ≠ b := by
        rintro rfl
        exact hne rfl
      have hd := ht.disjoint hc hb hcb
      unfold Block.fin Block.payload at *
      omega

/-- After every run the heap is in good order, and every further call returns and writes no byte
of an allocation other than the one it frees. -/
theorem heap_safe {mem : ByteMemory} {calls : List Call} {t : Heap}
    (hrun : Run step HeapOk (heapInit mem) calls t) :
    ∃ l, SafeHeap t l ∧ ∀ call, HeapOk t call → ∃ u, step t call = some u ∧
      ((∀ a v, call ≠ .poke a v) → ∀ b ∈ l, ∀ n, (b.payload, n) ∈ t.live →
        call ≠ .kfree b.payload → ∀ x ∈ b.bytes, x ∉ u.mem.written) := by
  have hinv : ∃ l, HeapInv t l := by
    refine hrun.invariant (fun h => ∃ l, HeapInv h l) ?_ ⟨_, heapInv_heapInit mem⟩
    rintro h call u ⟨l, hi⟩ hok he
    obtain ⟨v, hv, hi', -⟩ := hi.step hok
    rw [hv, Option.some.injEq] at he
    exact ⟨_, he ▸ hi'⟩
  obtain ⟨l, hi⟩ := hinv
  refine ⟨l, hi.safe, fun call hok => ?_⟩
  obtain ⟨u, hu, -, hwrites⟩ := hi.step hok
  refine ⟨u, hu, fun hcall b hb n hm => ?_⟩
  obtain ⟨c, hc, hp, hused, -⟩ := hi.live _ _ hm
  obtain rfl := hi.laid.tiles.eq_of_addr hc hb (payload_inj.mp hp)
  exact hwrites hcall c hb hused

theorem step_kmalloc {h : Heap} (l₁ l₂ : List Block) {b : Block} {n : ℕ}
    (hlaid : Laid h.mem (l₁ ++ b :: l₂)) (hstart : h.start = heapStart) (hn : n ≠ 0)
    (hfit : bestFit (alignSize n) (l₁ ++ b :: l₂) = some b) :
    ∃ t, step h (.kmalloc n) = some t ∧ t.start = heapStart ∧
      t.live = (b.payload, n) :: h.live ∧ Laid t.mem (l₁ ++ carve b (alignSize n) ++ l₂) := by
  have hcall := kmalloc_eq hlaid.clearLog hn
  rw [hfit] at hcall
  have hne : b.payload ≠ 0 := by
    have hlo := (hlaid.bounds (List.mem_append_right l₁ (List.mem_cons_self ..))).1
    unfold Block.payload headerSize
    omega
  have hlive : (if b.payload = 0 then h.live else (b.payload, n) :: h.live) =
      (b.payload, n) :: h.live := if_neg hne
  rw [step, hstart, hcall, Option.map_some]
  exact ⟨_, rfl, rfl, hlive, laid_takeBlock hlaid.clearLog (bestFit_some hfit).2.2⟩

/-- The first 100 bytes allocated after boot, and 50 bytes behind them. -/
theorem heap_safe_first : ∃ u,
    Run step HeapOk (heapInit ⟨fun _ => 0, []⟩) [.kmalloc 100, .kmalloc 50] u ∧
    u.live = [(0xE0000088, 50), (0xE000000C, 100)] ∧
    ∃ l, SafeHeap u l ∧ ∀ call, HeapOk u call → ∃ v, step u call = some v ∧
      ((∀ a c, call ≠ .poke a c) → ∀ b ∈ l, ∀ n, (b.payload, n) ∈ u.live →
        call ≠ .kfree b.payload → ∀ x ∈ b.bytes, x ∉ v.mem.written) := by
  obtain ⟨t, ht, hstart, hlive, hlaid⟩ := step_kmalloc [] [] (n := 100)
    (heapInv_heapInit ⟨fun _ => 0, []⟩).laid rfl (by decide) (by decide)
  obtain ⟨u, hu, -, hlive', -⟩ := step_kmalloc [⟨heapStart, 112, false⟩] []
    (b := ⟨0xE000007C, heapSize - headerSize - 124, true⟩) (n := 50) hlaid hstart (by decide)
    (by decide)
  have hrun : Run step HeapOk (heapInit ⟨fun _ => 0, []⟩) [.kmalloc 100, .kmalloc 50] u :=
    .cons ⟨by decide, by decide⟩ ht (.cons ⟨by decide, by decide⟩ hu (.nil u))
  exact ⟨u, hrun, by rw [hlive', hlive]; rfl, heap_safe hrun⟩

end OpenKernel.Memory
