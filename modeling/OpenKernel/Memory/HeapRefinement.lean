import OpenKernel.Memory.Blocks

/-!
# The heap in memory refines the list of blocks

`Laid m l` says that the headers in memory describe the blocks `l`, which tile
the heap. Every header's link is then determined by where its block ends, so
that the relation is local to the headers. `kmalloc` and `kfree` change the
list as `allocate` and `release` do and write inside one block only.
-/

namespace OpenKernel.Memory

open ByteMemory

def heapLimit : ℕ := heapStart + heapSize

/-- The pointer to the block at `a`, null behind the last block. -/
def entry (a : ℕ) : ℕ := if a = heapLimit then 0 else a

structure Header (m : ByteMemory) (b : Block) : Prop where
  next : nextOf m b.addr = entry b.fin
  size : sizeOf m b.addr = b.size
  free : freeOf m b.addr ≠ 0 ↔ b.free = true

structure Laid (m : ByteMemory) (l : List Block) : Prop where
  tiles : Tiles heapStart heapLimit l
  header : ∀ b ∈ l, Header m b

section Frame

variable {m m' : ByteMemory} {b : Block} {lo hi : ℕ}

theorem Header.within (h : Header m b) (hm : Within lo hi m m')
    (hb : b.payload ≤ lo ∨ hi ≤ b.addr) : Header m' b := by
  unfold Block.payload headerSize at hb
  have hn : m'.load b.addr = m.load b.addr := hm.load_eq (by omega)
  have hs : m'.load (b.addr + 4) = m.load (b.addr + 4) := hm.load_eq (by omega)
  have hf : m'.load (b.addr + 8) = m.load (b.addr + 8) := hm.load_eq (by omega)
  exact ⟨hn.trans h.next, hs.trans h.size, by rw [freeOf, hf]; exact h.free⟩

theorem Header.clearLog (h : Header m b) : Header m.clearLog b := ⟨h.next, h.size, h.free⟩

theorem Laid.clearLog {l : List Block} (h : Laid m l) : Laid m.clearLog l :=
  ⟨h.tiles, fun b hb => (h.header b hb).clearLog⟩

theorem laid_of_within {l₁ l₂ k : List Block} (h₁ : Tiles heapStart lo l₁)
    (h₂ : Tiles hi heapLimit l₂) (hold : ∀ c ∈ l₁ ++ l₂, Header m c) (hm : Within lo hi m m')
    (hk : Tiles lo hi k) (hheader : ∀ c ∈ k, Header m' c) : Laid m' (l₁ ++ k ++ l₂) := by
  constructor
  · exact tiles_append.mpr ⟨hi, tiles_append.mpr ⟨lo, h₁, hk⟩, h₂⟩
  · intro c hc
    rcases List.mem_append.mp hc with hc | hc
    · rcases List.mem_append.mp hc with hc | hc
      · have hle : c.payload ≤ c.fin := Nat.le_add_right _ _
        exact (hold c (List.mem_append_left _ hc)).within hm (Or.inl (hle.trans (h₁.bounds hc).2))
      · exact hheader c hc
    · exact (hold c (List.mem_append_right _ hc)).within hm (Or.inr (h₂.bounds hc).1)

theorem Laid.bounds {l : List Block} (h : Laid m l) (hb : b ∈ l) :
    0xE0000000 ≤ b.addr ∧ b.addr + 12 + b.size ≤ 0xE4000000 :=
  h.tiles.bounds hb

end Frame

section Search

variable {m : ByteMemory} {size : ℕ}

def address : Option Block → ℕ
  | none => 0
  | some b => b.addr

theorem address_better {b : Block} {best : Option Block} (hb : Header m b)
    (hbest : ∀ c, best = some c → Header m c ∧ c.addr ≠ 0) :
    (if freeOf m b.addr ≠ 0 ∧ size ≤ sizeOf m b.addr then
      if address best = 0 ∨ sizeOf m b.addr < sizeOf m (address best) then b.addr
      else address best
    else address best) = address (better size best b) := by
  rw [hb.size]
  by_cases hfit : b.free = true ∧ size ≤ b.size
  · rw [if_pos ⟨hb.free.mpr hfit.1, hfit.2⟩]
    cases best with
    | none => simp [better, address, hfit]
    | some c =>
      obtain ⟨hc, hc0⟩ := hbest c rfl
      by_cases hlt : b.size < c.size
      · simp [better, address, hfit, hc.size, hlt]
      · simp [better, address, hfit, hc.size, hlt, hc0]
  · rw [if_neg fun h => hfit ⟨hb.free.mp h.1, h.2⟩]
    have hbet : better size best b = best := by
      unfold better
      rw [if_neg fun h => hfit ⟨h.1, h.2.1⟩]
    rw [hbet]

/-- The search loop computes the best fit among the blocks ahead of it and the one it has. -/
theorem findBestFit_eq {l : List Block} {a rounds : ℕ} (best : Option Block)
    (ht : Tiles a heapLimit l) (ha : heapStart ≤ a) (hl : ∀ b ∈ l, Header m b)
    (hbest : ∀ c, best = some c → Header m c ∧ c.addr ≠ 0) (hr : l.length < rounds) :
    findBestFit m size rounds (entry a) (address best) =
      some (address (l.foldl (better size) best)) := by
  induction l generalizing a rounds best with
  | nil =>
    obtain ⟨n, rfl⟩ := Nat.exists_eq_add_of_lt hr
    have hend : entry a = 0 := if_pos ht
    simp [findBestFit, hend]
  | cons b l ih =>
    obtain ⟨n, rfl⟩ : ∃ n, rounds = n + 1 := ⟨rounds - 1, by simp at hr; omega⟩
    obtain ⟨rfl, ht'⟩ := ht
    have hb := hl b (by simp)
    have hlt := ht'.le
    have hne : b.addr ≠ 0 := by
      unfold heapStart at ha
      omega
    have hentry : entry b.addr = b.addr := by
      apply if_neg
      unfold Block.fin headerSize at hlt
      omega
    rw [hentry, findBestFit, if_neg hne]
    dsimp only
    rw [address_better hb hbest, hb.next, List.foldl_cons]
    refine ih _ ht' ?_ (fun c hc => hl c (by simp [hc])) ?_ (by simpa using hr)
    · unfold Block.fin
      omega
    · intro c hc
      unfold better at hc
      split_ifs at hc
      · cases hc
        exact ⟨hb, hne⟩
      · exact hbest c hc

end Search

section Fields

variable (m : ByteMemory) (a v : ℕ)

@[simp] theorem nextOf_setNext {v : ℕ} (hv : v < 2 ^ 32) : nextOf (setNext m a v) a = v :=
  m.load_store_self hv

@[simp] theorem nextOf_setSize : nextOf (setSize m a v) a = nextOf m a :=
  m.load_store_of_disjoint (by omega)

@[simp] theorem nextOf_setFree : nextOf (setFree m a v) a = nextOf m a :=
  m.load_store_of_disjoint (by omega)

@[simp] theorem sizeOf_setNext : sizeOf (setNext m a v) a = sizeOf m a :=
  m.load_store_of_disjoint (by omega)

@[simp] theorem sizeOf_setSize {v : ℕ} (hv : v < 2 ^ 32) : sizeOf (setSize m a v) a = v :=
  m.load_store_self hv

@[simp] theorem sizeOf_setFree : sizeOf (setFree m a v) a = sizeOf m a :=
  m.load_store_of_disjoint (by omega)

@[simp] theorem freeOf_setNext : freeOf (setNext m a v) a = freeOf m a :=
  m.load_store_of_disjoint (by omega)

@[simp] theorem freeOf_setSize : freeOf (setSize m a v) a = freeOf m a :=
  m.load_store_of_disjoint (by omega)

@[simp] theorem freeOf_setFree {v : ℕ} (hv : v < 2 ^ 32) : freeOf (setFree m a v) a = v :=
  m.load_store_self hv

theorem within_header (size next free : ℕ) :
    Within a (a + headerSize) m (setFree (setNext (setSize m a size) a next) a free) := by
  unfold setFree setNext setSize headerSize
  exact ((Within.refl.store (by omega) (by omega)).store (by omega) (by omega)).store
    (by omega) (by omega)

end Fields

section TakeBlock

variable {m : ByteMemory} {b : Block} {l₁ l₂ : List Block} {size : ℕ}

theorem word_of_lt {n : ℕ} (h : n < 2 ^ 32) : word n = n := Nat.mod_eq_of_lt h

/-- The stores of a split. -/
theorem takeBlock_split (h : Laid m (l₁ ++ b :: l₂)) (hlt : size + headerSize + 16 < b.size) :
    takeBlock m b.addr size =
      setFree (setNext (setSize (setNext (setFree (setSize m (b.addr + headerSize + size)
        (b.size - size - headerSize)) (b.addr + headerSize + size) 1)
        (b.addr + headerSize + size) (entry b.fin)) b.addr size) b.addr
        (b.addr + headerSize + size)) b.addr 0 := by
  have hb : b ∈ l₁ ++ b :: l₂ := by simp
  obtain ⟨hlo, hhi⟩ := h.bounds hb
  have hsize := (h.header b hb).size
  have hnext := (h.header b hb).next
  unfold headerSize at hlt
  have hw₁ : word (size + headerSize + 16) = size + headerSize + 16 :=
    word_of_lt (by unfold headerSize; omega)
  have hw₂ : word (b.addr + headerSize + size) = b.addr + headerSize + size :=
    word_of_lt (by unfold headerSize; omega)
  have hw₃ : word (b.size + 2 ^ 33 - size - headerSize) = b.size - size - headerSize := by
    unfold word headerSize
    omega
  have hkeep : nextOf (setFree (setSize m (b.addr + headerSize + size)
      (b.size - size - headerSize)) (b.addr + headerSize + size) 1) b.addr = entry b.fin := by
    rw [← hnext]
    simp only [nextOf, setFree, setSize]
    rw [load_store_of_disjoint _ (by unfold headerSize; omega),
      load_store_of_disjoint _ (by unfold headerSize; omega)]
  simp only [takeBlock, hsize, hw₁, hw₂, hw₃]
  rw [if_pos (by unfold headerSize; omega), hkeep]

theorem takeBlock_whole (h : Laid m (l₁ ++ b :: l₂)) (hsize : size ≤ b.size)
    (hle : b.size ≤ size + headerSize + 16) : takeBlock m b.addr size = setFree m b.addr 0 := by
  have hb : b ∈ l₁ ++ b :: l₂ := by simp
  obtain ⟨hlo, hhi⟩ := h.bounds hb
  have hs := (h.header b hb).size
  have hw : word (size + headerSize + 16) = size + headerSize + 16 :=
    word_of_lt (by unfold headerSize; omega)
  simp only [takeBlock, hs, hw]
  rw [if_neg (by omega)]

theorem within_takeBlock (h : Laid m (l₁ ++ b :: l₂)) (hsize : size ≤ b.size) :
    Within b.addr b.fin m (takeBlock m b.addr size) := by
  by_cases hlt : size + headerSize + 16 < b.size
  · rw [takeBlock_split h hlt]
    unfold setFree setNext setSize Block.fin headerSize at *
    exact (((((Within.refl.store (by omega) (by omega)).store (by omega) (by omega)).store
      (by omega) (by omega)).store (by omega) (by omega)).store (by omega) (by omega)).store
      (by omega) (by omega)
  · rw [takeBlock_whole h hsize (by omega)]
    unfold setFree Block.fin headerSize
    exact Within.refl.store (by omega) (by omega)

/-- Taking a block in memory is taking it in the list. -/
theorem laid_takeBlock (h : Laid m (l₁ ++ b :: l₂)) (hsize : size ≤ b.size) :
    Laid (takeBlock m b.addr size) (l₁ ++ carve b size ++ l₂) := by
  have hb : b ∈ l₁ ++ b :: l₂ := by simp
  obtain ⟨hlo, hhi⟩ := h.bounds hb
  have hheader := h.header b hb
  obtain ⟨h₁, h₂⟩ := h.tiles.split
  have hold : ∀ c ∈ l₁ ++ l₂, Header m c := fun c hc => h.header c (by simp at hc ⊢; tauto)
  apply laid_of_within h₁ h₂ hold (within_takeBlock h hsize) (tiles_carve b size)
  by_cases hlt : size + headerSize + 16 < b.size
  · have hentry : entry b.fin < 2 ^ 32 := by
      rw [← hheader.next]
      exact load_lt m
    have hfirst : entry (Block.mk b.addr size false).fin = b.addr + headerSize + size := by
      apply if_neg
      unfold Block.fin heapLimit heapStart heapSize headerSize at *
      dsimp only
      omega
    have hsecond : (Block.mk (b.addr + headerSize + size) (b.size - size - headerSize) true).fin =
        b.fin := by
      unfold Block.fin headerSize at *
      dsimp only
      omega
    have hnew : b.addr + headerSize + size < 2 ^ 32 := by
      unfold headerSize at *
      omega
    have hrest : b.size - size - headerSize < 2 ^ 32 := by omega
    have hgiven : size < 2 ^ 32 := by omega
    rw [takeBlock_split h hlt, carve, if_pos hlt]
    intro c hc
    rcases List.mem_pair.mp hc with rfl | rfl
    · constructor
      · rw [nextOf_setFree, nextOf_setNext _ _ hnew, hfirst]
      · rw [sizeOf_setFree, sizeOf_setNext, sizeOf_setSize _ _ hgiven]
      · simp
    · -- the new header is written first, and the stores behind it stay in the old header
      have hsplit : Header (setNext (setFree (setSize m (b.addr + headerSize + size)
          (b.size - size - headerSize)) (b.addr + headerSize + size) 1)
          (b.addr + headerSize + size) (entry b.fin))
          ⟨b.addr + headerSize + size, b.size - size - headerSize, true⟩ := by
        constructor
        · rw [nextOf_setNext _ _ hentry, hsecond]
        · rw [sizeOf_setNext, sizeOf_setFree, sizeOf_setSize _ _ hrest]
        · simp
      exact hsplit.within (within_header _ _ _ _ _) (Or.inr (Nat.le_add_right _ _))
  · rw [takeBlock_whole h hsize (by omega), carve, if_neg hlt]
    intro c hc
    obtain rfl := List.mem_singleton.mp hc
    constructor
    · exact (nextOf_setFree m _ 0).trans hheader.next
    · exact (sizeOf_setFree m _ 0).trans hheader.size
    · simp

theorem findBestFit_start {l : List Block} (h : Laid m l) :
    findBestFit m size (2 ^ 32) heapStart 0 = some (address (bestFit size l)) := by
  have hlen : 0xE0000000 + 12 * l.length ≤ 0xE4000000 := h.tiles.le
  exact findBestFit_eq none h.tiles le_rfl h.header (by simp) (by omega)

theorem kmalloc_eq {l : List Block} (h : Laid m l) (hn : size ≠ 0) :
    kmalloc m heapStart size = some (match bestFit (alignSize size) l with
      | none => (m, 0)
      | some b => (takeBlock m b.addr (alignSize size), b.payload)) := by
  rw [kmalloc, if_neg hn]
  dsimp only
  rw [findBestFit_start h, Option.map_some]
  cases hb : bestFit (alignSize size) l with
  | none => rfl
  | some b =>
    obtain ⟨hlo, hhi⟩ := h.bounds (bestFit_some hb).1
    have hne : address (some b) ≠ 0 := by
      simp only [address]
      omega
    have hw : word (b.addr + headerSize) = b.payload := word_of_lt (by unfold headerSize; omega)
    rw [if_neg hne, address, hw]

end TakeBlock

section Free

variable {m : ByteMemory} {b c : Block} {l₁ l₂ : List Block}

theorem kfree_payload (hlo : 0xE0000000 ≤ b.addr) (hhi : b.addr + 12 ≤ 0xE4000000) :
    kfree m b.payload =
      if nextOf (setFree m b.addr 1) b.addr ≠ 0 ∧
          freeOf (setFree m b.addr 1) (nextOf (setFree m b.addr 1) b.addr) ≠ 0 then
        let m := setSize (setFree m b.addr 1) b.addr (word (sizeOf (setFree m b.addr 1) b.addr +
          (headerSize + sizeOf (setFree m b.addr 1) (nextOf (setFree m b.addr 1) b.addr))))
        setNext m b.addr (nextOf m (nextOf m b.addr))
      else setFree m b.addr 1 := by
  have hblock : word (b.payload + 2 ^ 32 - headerSize) = b.addr := by
    unfold word Block.payload headerSize
    omega
  have hne : b.payload ≠ 0 := by
    unfold Block.payload
    omega
  rw [kfree, if_neg hne]
  dsimp only
  rw [hblock]

/-- Freeing a block whose successor is used, or the last block. -/
theorem kfree_alone (h : Laid m (l₁ ++ b :: l₂)) (hl : ∀ c ∈ l₂.head?, c.free = false) :
    kfree m b.payload = setFree m b.addr 1 := by
  have hb : b ∈ l₁ ++ b :: l₂ := by simp
  obtain ⟨hlo, hhi⟩ := h.bounds hb
  have hheader := h.header b hb
  rw [kfree_payload hlo (by omega), if_neg]
  rintro ⟨hnext, hfree⟩
  rw [nextOf_setFree, hheader.next] at hnext hfree
  cases l₂ with
  | nil =>
    have hend : b.fin = heapLimit := h.tiles.split.2
    exact hnext (if_pos hend)
  | cons c l₂ =>
    have hcb : c.addr = b.fin := h.tiles.split.2.1
    have hc := h.header c (by simp)
    have hentry : entry b.fin = b.fin := if_neg fun he => hnext (if_pos he)
    have hcf : freeOf (setFree m b.addr 1) c.addr = freeOf m c.addr := by
      apply load_store_of_disjoint m
      rw [hcb]
      unfold Block.fin headerSize
      omega
    rw [hentry, ← hcb, hcf] at hfree
    have hused := hl c (by simp)
    have := hc.free.mp hfree
    rw [hused] at this
    cases this

/-- Freeing a block whose successor is free. -/
theorem kfree_merge (h : Laid m (l₁ ++ b :: c :: l₂)) (hc : c.free = true) :
    kfree m b.payload = setNext (setSize (setFree m b.addr 1) b.addr
      (b.size + headerSize + c.size)) b.addr (entry c.fin) := by
  obtain ⟨hlo, hhi⟩ := h.bounds (b := b) (by simp)
  obtain ⟨hclo, hchi⟩ := h.bounds (b := c) (by simp)
  have hb := h.header b (by simp)
  have hheader := h.header c (by simp)
  have hcb : c.addr = b.fin := h.tiles.split.2.1
  have haddr : c.addr = b.addr + 12 + b.size := hcb
  have hnext : nextOf m b.addr = c.addr := by
    rw [hb.next, hcb]
    apply if_neg
    rw [← hcb]
    unfold heapLimit heapStart heapSize
    omega
  have hw : word (b.size + (headerSize + c.size)) = b.size + headerSize + c.size := by
    unfold word headerSize
    omega
  have hsb : sizeOf (setFree m b.addr 1) b.addr = b.size := (sizeOf_setFree m _ 1).trans hb.size
  have hsc : sizeOf (setFree m b.addr 1) c.addr = c.size := by
    rw [← hheader.size]
    exact load_store_of_disjoint m (by omega)
  have hfc : freeOf (setFree m b.addr 1) c.addr = freeOf m c.addr :=
    load_store_of_disjoint m (by omega)
  have hnb : nextOf (setSize (setFree m b.addr 1) b.addr (b.size + headerSize + c.size)) b.addr =
      c.addr := by
    rw [nextOf_setSize, nextOf_setFree, hnext]
  have hnc : nextOf (setSize (setFree m b.addr 1) b.addr (b.size + headerSize + c.size)) c.addr =
      entry c.fin := by
    rw [← hheader.next]
    simp only [nextOf, setSize, setFree]
    rw [load_store_of_disjoint _ (by omega), load_store_of_disjoint _ (by omega)]
  rw [kfree_payload hlo (by omega), nextOf_setFree, hnext, hfc, hsb, hsc, hw, if_pos]
  · dsimp only
    rw [hnb, hnc]
  · exact ⟨by omega, hheader.free.mpr hc⟩

theorem within_kfree (h : Laid m (l₁ ++ b :: l₂)) :
    Within b.addr (b.addr + headerSize) m (kfree m b.payload) := by
  by_cases hl : ∀ c ∈ l₂.head?, c.free = false
  · rw [kfree_alone h hl]
    unfold setFree headerSize
    exact Within.refl.store (by omega) (by omega)
  · cases l₂ with
    | nil => simp at hl
    | cons c l₂ =>
      rw [kfree_merge h (by simpa using hl)]
      unfold setFree setSize setNext headerSize
      exact ((Within.refl.store (by omega) (by omega)).store (by omega) (by omega)).store
        (by omega) (by omega)

/-- Freeing a block in memory is freeing it in the list. -/
theorem laid_kfree (h : Laid m (l₁ ++ b :: l₂)) :
    Laid (kfree m b.payload) (l₁ ++ merge b l₂) := by
  obtain ⟨hlo, hhi⟩ := h.bounds (b := b) (by simp)
  have hb := h.header b (by simp)
  obtain ⟨h₁, h₂⟩ := h.tiles.split
  by_cases hl : ∀ c ∈ l₂.head?, c.free = false
  · have hmerge : merge b l₂ = [⟨b.addr, b.size, true⟩] ++ l₂ := by
      cases l₂ with
      | nil => rfl
      | cons c l₂ => simp [merge, hl c (by simp)]
    have hold : ∀ c ∈ l₁ ++ l₂, Header m c := fun c hc => h.header c (by simp at hc ⊢; tauto)
    rw [hmerge, ← List.append_assoc]
    refine laid_of_within h₁ h₂ hold ((within_kfree h).mono (by simp [Block.fin])) ⟨rfl, rfl⟩ ?_
    rw [kfree_alone h hl]
    intro c hc
    obtain rfl := List.mem_singleton.mp hc
    constructor
    · exact (nextOf_setFree m _ 1).trans hb.next
    · exact (sizeOf_setFree m _ 1).trans hb.size
    · simp
  · cases l₂ with
    | nil => simp at hl
    | cons c l₂ =>
      have hc : c.free = true := by simpa using hl
      obtain ⟨hclo, hchi⟩ := h.bounds (b := c) (by simp)
      have hcb : c.addr = b.addr + 12 + b.size := h₂.1
      have hentry : entry c.fin < 2 ^ 32 := by
        rw [← (h.header c (by simp)).next]
        exact load_lt m
      have hfin : (Block.mk b.addr (b.size + headerSize + c.size) true).fin = c.fin := by
        unfold Block.fin headerSize
        dsimp only
        omega
      have hold : ∀ d ∈ l₁ ++ l₂, Header m d := fun d hd => h.header d (by simp at hd ⊢; tauto)
      have hm : Within b.addr c.fin m (kfree m b.payload) := by
        apply (within_kfree h).mono
        unfold Block.fin headerSize
        omega
      have hmerge : merge b (c :: l₂) = [⟨b.addr, b.size + headerSize + c.size, true⟩] ++ l₂ := by
        simp [merge, hc]
      rw [hmerge, ← List.append_assoc]
      refine laid_of_within h₁ h₂.2 hold hm ⟨rfl, hfin⟩ ?_
      rw [kfree_merge h hc]
      intro d hd
      obtain rfl := List.mem_singleton.mp hd
      have hsize : b.size + headerSize + c.size < 2 ^ 32 := by
        unfold headerSize
        omega
      constructor
      · rw [nextOf_setNext _ _ hentry, hfin]
      · rw [sizeOf_setNext, sizeOf_setSize _ _ hsize]
      · simp

end Free

end OpenKernel.Memory
