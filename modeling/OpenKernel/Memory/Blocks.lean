import OpenKernel.Memory.Heap

/-!
# The heap as a list of blocks

What the heap is for, without memory: a list of blocks that tile an address
range. Allocation takes the first of the smallest sufficient free blocks and
splits it when more than a header and 16 bytes are left over; release frees a
block and joins it with a free successor.
-/

namespace OpenKernel.Memory

structure Block where
  addr : ℕ
  size : ℕ
  free : Bool
  deriving DecidableEq, Repr

namespace Block

/-- The first address behind the block. -/
def fin (b : Block) : ℕ := b.addr + headerSize + b.size

/-- The address handed out for the block. -/
def payload (b : Block) : ℕ := b.addr + headerSize

end Block

/-- The blocks cover `[a, e)`, each starting where the one before it ends. -/
def Tiles : ℕ → ℕ → List Block → Prop
  | a, e, [] => a = e
  | a, e, b :: l => b.addr = a ∧ Tiles b.fin e l

def better (size : ℕ) (best : Option Block) (b : Block) : Option Block :=
  if b.free ∧ size ≤ b.size ∧ ∀ c, best = some c → b.size < c.size then some b else best

/-- The first of the smallest free blocks with room for `size` bytes. -/
def bestFit (size : ℕ) (l : List Block) : Option Block := l.foldl (better size) none

/-- A used block of `size` bytes and what is left over of `b`, if that is enough. -/
def carve (b : Block) (size : ℕ) : List Block :=
  if size + headerSize + 16 < b.size then
    [⟨b.addr, size, false⟩,
      ⟨b.addr + headerSize + size, b.size - size - headerSize, true⟩]
  else [⟨b.addr, b.size, false⟩]

def allocate (a size : ℕ) : List Block → List Block
  | [] => []
  | b :: l => if b.addr = a then carve b size ++ l else b :: allocate a size l

/-- `b` freed in front of the blocks `l`. -/
def merge (b : Block) : List Block → List Block
  | [] => [⟨b.addr, b.size, true⟩]
  | c :: l =>
    if c.free then ⟨b.addr, b.size + headerSize + c.size, true⟩ :: l
    else ⟨b.addr, b.size, true⟩ :: c :: l

def release (a : ℕ) : List Block → List Block
  | [] => []
  | b :: l => if b.addr = a then merge b l else b :: release a l

def blocksAfter (l : List Block) : Call → List Block
  | .kmalloc size =>
    match bestFit (alignSize size) l with
    | none => l
    | some b => allocate b.addr (alignSize size) l
  | .kfree ptr => if ptr = 0 then l else release (ptr - headerSize) l
  | .poke _ _ => l

section Tiling

variable {a e x : ℕ} {b c : Block} {l l₁ l₂ : List Block}

theorem tiles_append : Tiles a e (l₁ ++ l₂) ↔ ∃ x, Tiles a x l₁ ∧ Tiles x e l₂ := by
  induction l₁ generalizing a with
  | nil => simp [Tiles]
  | cons b l₁ ih => simp [Tiles, ih, and_assoc]

theorem Tiles.le (h : Tiles a e l) : a + headerSize * l.length ≤ e := by
  induction l generalizing a with
  | nil => exact Nat.le_of_eq (by simpa [Tiles] using h)
  | cons b l ih =>
    have hb := ih h.2
    have ha := h.1
    unfold Block.fin at hb
    simp only [List.length_cons]
    unfold headerSize at *
    omega

theorem Tiles.bounds (h : Tiles a e l) (hb : b ∈ l) : a ≤ b.addr ∧ b.fin ≤ e := by
  induction l generalizing a with
  | nil => cases hb
  | cons c l ih =>
    obtain ⟨hc, ht⟩ := h
    rcases List.mem_cons.mp hb with rfl | hb
    · exact ⟨hc.symm.le, Nat.le_trans (Nat.le_add_right _ _) ht.le⟩
    · obtain ⟨h₁, h₂⟩ := ih ht hb
      unfold Block.fin at h₁
      exact ⟨by omega, h₂⟩

theorem Tiles.split (h : Tiles a e (l₁ ++ b :: l₂)) : Tiles a b.addr l₁ ∧ Tiles b.fin e l₂ := by
  obtain ⟨x, h₁, hx, h₂⟩ := tiles_append.mp h
  exact ⟨hx ▸ h₁, h₂⟩

theorem Tiles.beside (h : Tiles a e (l₁ ++ b :: l₂)) (hc : c ∈ l₁ ++ l₂) :
    c.fin ≤ b.addr ∨ b.fin ≤ c.addr := by
  obtain ⟨h₁, h₂⟩ := h.split
  rcases List.mem_append.mp hc with hc | hc
  · exact Or.inl (h₁.bounds hc).2
  · exact Or.inr (h₂.bounds hc).1

theorem Tiles.pairwise (h : Tiles a e l) : l.Pairwise fun b c => b.fin ≤ c.addr := by
  induction l generalizing a with
  | nil => exact List.Pairwise.nil
  | cons b l ih => exact List.pairwise_cons.mpr ⟨fun c hc => (h.2.bounds hc).1, ih h.2⟩

theorem Tiles.disjoint (h : Tiles a e l) (hb : b ∈ l) (hc : c ∈ l) (hne : b ≠ c) :
    b.fin ≤ c.addr ∨ c.fin ≤ b.addr := by
  obtain ⟨l₁, l₂, rfl⟩ := List.append_of_mem hb
  have hc' : c ∈ l₁ ++ l₂ := by
    rcases List.mem_append.mp hc with hc | hc
    · exact List.mem_append_left _ hc
    · exact List.mem_append_right _ ((List.mem_cons.mp hc).resolve_left hne.symm)
  exact (h.beside hc').symm

theorem Tiles.eq_of_addr (h : Tiles a e l) (hb : b ∈ l) (hc : c ∈ l) (haddr : b.addr = c.addr) :
    b = c := by
  by_contra hne
  have hd := h.disjoint hb hc hne
  unfold Block.fin headerSize at hd
  omega

theorem tiles_carve (b : Block) (size : ℕ) : Tiles b.addr b.fin (carve b size) := by
  unfold carve
  split_ifs with h
  · refine ⟨rfl, rfl, ?_⟩
    simp only [Tiles, Block.fin]
    unfold headerSize at *
    omega
  · exact ⟨rfl, rfl⟩

theorem Tiles.addr_ne_of_mem {c : Block} (h : Tiles a e (l₁ ++ b :: l₂)) (hc : c ∈ l₁) :
    c.addr ≠ b.addr := by
  intro hcb
  have hd := (h.split.1.bounds hc).2
  unfold Block.fin headerSize at hd
  omega

theorem allocate_split {size : ℕ} (h : Tiles a e (l₁ ++ b :: l₂)) :
    allocate b.addr size (l₁ ++ b :: l₂) = l₁ ++ carve b size ++ l₂ := by
  have hne : ∀ c ∈ l₁, c.addr ≠ b.addr := fun c => h.addr_ne_of_mem
  clear h
  induction l₁ with
  | nil => simp [allocate]
  | cons c l₁ ih =>
    have hc := hne c (by simp)
    simpa [allocate, hc] using ih fun d hd => hne d (by simp [hd])

theorem release_split (h : Tiles a e (l₁ ++ b :: l₂)) :
    release b.addr (l₁ ++ b :: l₂) = l₁ ++ merge b l₂ := by
  have hne : ∀ c ∈ l₁, c.addr ≠ b.addr := fun c => h.addr_ne_of_mem
  clear h
  induction l₁ with
  | nil => simp [release]
  | cons c l₁ ih =>
    have hc := hne c (by simp)
    simpa [release, hc] using ih fun d hd => hne d (by simp [hd])

end Tiling

section BestFit

variable {size : ℕ} {b : Block} {l : List Block} {best : Option Block}

theorem foldl_better (h : l.foldl (better size) best = some b) :
    best = some b ∨ (b ∈ l ∧ b.free = true ∧ size ≤ b.size) := by
  induction l generalizing best with
  | nil => exact Or.inl h
  | cons c l ih =>
    rcases ih h with hc | hc
    · unfold better at hc
      split_ifs at hc with hif
      · cases hc
        exact Or.inr ⟨by simp, hif.1, hif.2.1⟩
      · exact Or.inl hc
    · exact Or.inr ⟨by simp [hc.1], hc.2⟩

theorem bestFit_some (h : bestFit size l = some b) : b ∈ l ∧ b.free = true ∧ size ≤ b.size :=
  (foldl_better h).resolve_left (by simp)

end BestFit

end OpenKernel.Memory
