import OpenKernel.Memory.Pmm

/-!
# The two-level page tables

`vmm_get_pte`, `vmm_map_page` and `vmm_unmap_page` of `memory.c`. The directory
and the tables are pages of 1024 words, read and written at their physical
address; a directory entry holds the address of its table. Virtual page `page`
has its entry in slot `page % 1024` of table `page / 1024`.
-/

namespace OpenKernel.Memory

def pdePresent : ℕ := 0x001

def pdeWritable : ℕ := 0x002

/-- Physical memory, the page allocator and `kernel_page_directory`. -/
structure Vmm where
  mem : ByteMemory
  pmm : Pmm
  directory : ℕ

/-- `virt >> 22`. -/
def pdIndex (virt : ℕ) : ℕ := virt / 2 ^ 22

/-- `(virt >> 12) & 0x3FF`. -/
def ptIndex (virt : ℕ) : ℕ := virt / 2 ^ 12 % 2 ^ 10

/-- `entry & ~0xFFF`. -/
def frameOf (entry : ℕ) : ℕ := entry / pageSize * pageSize

def dirEntry (s : Vmm) (pd : ℕ) : ℕ := s.mem.load (s.directory + 4 * pd)

/-- `vmm_get_pte`: the address of the entry, 0 for `NULL`. -/
def vmmGetPte (s : Vmm) (virt : ℕ) : ℕ :=
  let pdEntry := dirEntry s (pdIndex virt)
  if pdEntry &&& pdePresent = 0 then 0 else frameOf pdEntry + 4 * ptIndex virt

def clearPage (m : ByteMemory) (base : ℕ) : ByteMemory :=
  (List.range 1024).foldl (fun m i => m.store (base + 4 * i) 0) m

/-- The end of `vmm_map_page`, once the table is there. -/
def setEntry (s : Vmm) (virt entry : ℕ) : Vmm :=
  { s with mem := s.mem.store (frameOf (dirEntry s (pdIndex virt)) + 4 * ptIndex virt) entry }

/-- Clear the page `newPt` and enter it in the directory. -/
def addTable (s : Vmm) (pd newPt : ℕ) : Vmm :=
  { s with mem := (clearPage s.mem newPt).store (s.directory + 4 * pd)
                    (newPt ||| pdePresent ||| pdeWritable) }

def vmmMapPage (s : Vmm) (phys virt flags : ℕ) : Vmm :=
  if dirEntry s (pdIndex virt) &&& pdePresent = 0 then
    let result := pmmAllocPage s.pmm
    let s := { s with pmm := result.1 }
    if result.2 = 0 then s
    else setEntry (addTable s (pdIndex virt) result.2) virt (phys ||| flags ||| pdePresent)
  else setEntry s virt (phys ||| flags ||| pdePresent)

def vmmUnmapPage (s : Vmm) (virt : ℕ) : Vmm :=
  let pte := vmmGetPte s virt
  if pte = 0 then s else { s with mem := s.mem.store pte 0 }

/-- What the processor finds walking directory and table for an address. -/
def walk (s : Vmm) (virt : ℕ) : Option ℕ :=
  let pdEntry := dirEntry s (pdIndex virt)
  if pdEntry &&& pdePresent = 0 then none
  else some (s.mem.load (frameOf pdEntry + 4 * ptIndex virt))

/-! ### Entries -/

theorem and_pdePresent (n : ℕ) : n &&& pdePresent = n % 2 := Nat.and_one_is_mod n

theorem or_flags {frame flags : ℕ} (hframe : frame % pageSize = 0) (hflags : flags < pageSize) :
    frame ||| flags = frame + flags := by
  have hmul : 2 ^ 12 * (frame / pageSize) = frame := by
    unfold pageSize at *
    omega
  have h := Nat.two_pow_add_eq_or_of_lt (i := 12) hflags (frame / pageSize)
  rw [hmul] at h
  exact h.symm

theorem tableEntry_eq {frame : ℕ} (hframe : frame % pageSize = 0) :
    frame ||| pdePresent ||| pdeWritable = frame + 3 := by
  rw [Nat.or_assoc]
  exact or_flags hframe (by decide)

theorem frameOf_add {frame flags : ℕ} (hframe : frame % pageSize = 0) (hflags : flags < pageSize) :
    frameOf (frame + flags) = frame := by
  unfold frameOf pageSize at *
  omega

theorem frameOf_mod (entry : ℕ) : frameOf entry % pageSize = 0 := Nat.mul_mod_left _ _

theorem pageEntry_lt {phys flags : ℕ} (hphys : phys < 2 ^ 32) (hflags : flags < 0x1000) :
    phys ||| flags ||| pdePresent < 2 ^ 32 :=
  Nat.or_lt_two_pow (Nat.or_lt_two_pow hphys (by omega)) (by decide)

theorem pdIndex_eq (virt : ℕ) : pdIndex virt = virt / pageSize / 1024 := by
  unfold pdIndex pageSize
  omega

theorem ptIndex_eq (virt : ℕ) : ptIndex virt = virt / pageSize % 1024 := rfl

theorem pdIndex_lt {virt : ℕ} (h : virt < 2 ^ 32) : pdIndex virt < 1024 := by
  unfold pdIndex
  omega

theorem ptIndex_lt (virt : ℕ) : ptIndex virt < 1024 := Nat.mod_lt _ (by decide)

/-! ### Memory -/

theorem load_store_of_ne (m : ByteMemory) {a b v : ℕ} (ha : a % 4 = 0) (hb : b % 4 = 0)
    (hne : a ≠ b) : (m.store a v).load b = m.load b :=
  m.load_store_of_disjoint (by omega)

theorem load_clear (m : ByteMemory) {base a : ℕ} (n : ℕ) (hbase : base % 4 = 0) (ha : a % 4 = 0) :
    ((List.range n).foldl (fun m i => m.store (base + 4 * i) 0) m).load a =
      if base ≤ a ∧ a < base + 4 * n then 0 else m.load a := by
  induction n with
  | zero =>
    rw [if_neg (by omega)]
    rfl
  | succ n ih =>
    rw [List.range_succ, List.foldl_append, List.foldl_cons, List.foldl_nil]
    by_cases heq : base + 4 * n = a
    · rw [heq, ByteMemory.load_store_self _ (by decide), if_pos (by omega)]
    · rw [load_store_of_ne _ (by omega) ha heq, ih]
      by_cases hin : base ≤ a ∧ a < base + 4 * n
      · rw [if_pos hin, if_pos (by omega)]
      · rw [if_neg hin, if_neg (by omega)]

theorem load_clearPage (m : ByteMemory) {base a : ℕ} (hbase : base % 4 = 0) (ha : a % 4 = 0) :
    (clearPage m base).load a = if base ≤ a ∧ a < base + pageSize then 0 else m.load a :=
  load_clear m 1024 hbase ha

/-! ### The tables -/

def HasTable (s : Vmm) (pd : ℕ) : Prop := dirEntry s pd &&& pdePresent ≠ 0

def tableOf (s : Vmm) (pd : ℕ) : ℕ := frameOf (dirEntry s pd)

/-- The directory and the tables are pairwise distinct pages. -/
structure Tables (s : Vmm) : Prop where
  aligned : s.directory % pageSize = 0
  nonzero : ∀ pd < 1024, HasTable s pd → tableOf s pd ≠ 0
  apart : ∀ pd < 1024, HasTable s pd → tableOf s pd ≠ s.directory
  distinct : ∀ pd < 1024, ∀ pd' < 1024, HasTable s pd → HasTable s pd' →
    tableOf s pd = tableOf s pd' → pd = pd'

/-- A frame of which nothing is in use by the tables. -/
structure FreshFrame (s : Vmm) (frame : ℕ) : Prop where
  aligned : frame % pageSize = 0
  lt : frame < 2 ^ 32
  notDirectory : frame ≠ s.directory
  notTable : ∀ pd < 1024, HasTable s pd → tableOf s pd ≠ frame

theorem walk_of_not_hasTable {s : Vmm} {virt : ℕ} (h : ¬HasTable s (pdIndex virt)) :
    walk s virt = none := if_pos (not_not.mp h)

theorem walk_of_hasTable {s : Vmm} {virt : ℕ} (h : HasTable s (pdIndex virt)) :
    walk s virt = some (s.mem.load (tableOf s (pdIndex virt) + 4 * ptIndex virt)) := if_neg h

theorem ptIndex_ne {virt virt' : ℕ} (hne : virt / pageSize ≠ virt' / pageSize)
    (hpd : pdIndex virt = pdIndex virt') : ptIndex virt ≠ ptIndex virt' := by
  rw [pdIndex_eq, pdIndex_eq] at hpd
  rw [ptIndex_eq, ptIndex_eq]
  omega

namespace Tables

variable {s : Vmm}

theorem dirEntry_setEntry (h : Tables s) {virt entry pd : ℕ} (hvirt : virt < 2 ^ 32)
    (htable : HasTable s (pdIndex virt)) (hpd : pd < 1024) :
    dirEntry (setEntry s virt entry) pd = dirEntry s pd := by
  have hmod := frameOf_mod (dirEntry s (pdIndex virt))
  have hdir := h.aligned
  have happart := h.apart _ (pdIndex_lt hvirt) htable
  have hpt := ptIndex_lt virt
  have hdisjoint : frameOf (dirEntry s (pdIndex virt)) + 4 * ptIndex virt + 4 ≤
        s.directory + 4 * pd ∨
      s.directory + 4 * pd + 4 ≤ frameOf (dirEntry s (pdIndex virt)) + 4 * ptIndex virt := by
    unfold tableOf pageSize at *
    omega
  exact s.mem.load_store_of_disjoint hdisjoint

theorem setEntry (h : Tables s) {virt entry : ℕ} (hvirt : virt < 2 ^ 32)
    (htable : HasTable s (pdIndex virt)) : Tables (setEntry s virt entry) := by
  have hdir : ∀ pd < 1024, dirEntry (Memory.setEntry s virt entry) pd = dirEntry s pd :=
    fun pd hpd => h.dirEntry_setEntry hvirt htable hpd
  refine ⟨h.aligned, ?_, ?_, ?_⟩
  · intro pd hpd
    unfold HasTable tableOf
    rw [hdir pd hpd]
    exact h.nonzero pd hpd
  · intro pd hpd
    unfold HasTable tableOf
    rw [hdir pd hpd]
    exact h.apart pd hpd
  · intro pd hpd pd' hpd'
    unfold HasTable tableOf
    rw [hdir pd hpd, hdir pd' hpd']
    exact h.distinct pd hpd pd' hpd'

/-- Writing the entry of one page leaves those of the others. -/
theorem walk_setEntry (h : Tables s) {virt entry virt' : ℕ} (hvirt : virt < 2 ^ 32)
    (htable : HasTable s (pdIndex virt)) (hentry : entry < 2 ^ 32) (hvirt' : virt' < 2 ^ 32) :
    walk (Memory.setEntry s virt entry) virt' =
      if virt' / pageSize = virt / pageSize then some entry else walk s virt' := by
  have hdir : dirEntry (Memory.setEntry s virt entry) (pdIndex virt') = dirEntry s (pdIndex virt') :=
    h.dirEntry_setEntry hvirt htable (pdIndex_lt hvirt')
  by_cases hpage : virt' / pageSize = virt / pageSize
  · have hpd : pdIndex virt' = pdIndex virt := by rw [pdIndex_eq, pdIndex_eq, hpage]
    have hpt : ptIndex virt' = ptIndex virt := by rw [ptIndex_eq, ptIndex_eq, hpage]
    rw [if_pos hpage, walk_of_hasTable (by unfold HasTable; rw [hdir, hpd]; exact htable)]
    unfold tableOf
    rw [hdir, hpd, hpt]
    exact congrArg some (ByteMemory.load_store_self _ hentry)
  · rw [if_neg hpage]
    by_cases htable' : HasTable s (pdIndex virt')
    · rw [walk_of_hasTable htable', walk_of_hasTable (by unfold HasTable; rw [hdir]; exact htable')]
      unfold tableOf
      rw [hdir]
      apply congrArg some
      apply ByteMemory.load_store_of_disjoint
      have hmod := frameOf_mod (dirEntry s (pdIndex virt))
      have hmod' := frameOf_mod (dirEntry s (pdIndex virt'))
      have hpt := ptIndex_lt virt
      have hpt' := ptIndex_lt virt'
      by_cases hpd : pdIndex virt' = pdIndex virt
      · have hne := ptIndex_ne hpage hpd
        rw [hpd]
        omega
      · have hne : frameOf (dirEntry s (pdIndex virt')) ≠ frameOf (dirEntry s (pdIndex virt)) :=
          fun heq => hpd (h.distinct _ (pdIndex_lt hvirt') _ (pdIndex_lt hvirt) htable' htable heq)
        unfold pageSize at *
        omega
    · rw [walk_of_not_hasTable htable',
        walk_of_not_hasTable (by unfold HasTable; rw [hdir]; exact htable')]

theorem dirEntry_addTable (h : Tables s) {pd frame pd' : ℕ} (hpd : pd < 1024)
    (hframe : FreshFrame s frame) (hpd' : pd' < 1024) :
    dirEntry (addTable s pd frame) pd' = if pd' = pd then frame + 3 else dirEntry s pd' := by
  have hdir := h.aligned
  have hmod := hframe.aligned
  have hlt := hframe.lt
  have hne := hframe.notDirectory
  unfold pageSize at *
  change ((clearPage s.mem frame).store (s.directory + 4 * pd) _).load (s.directory + 4 * pd') = _
  rw [tableEntry_eq hframe.aligned]
  by_cases heq : pd' = pd
  · rw [if_pos heq, heq, ByteMemory.load_store_self _ (by omega)]
  · rw [if_neg heq, load_store_of_ne _ (by omega) (by omega) (by omega),
      load_clearPage _ (by omega) (by omega), if_neg (by unfold pageSize; omega)]
    rfl

theorem hasTable_addTable (h : Tables s) {pd frame pd' : ℕ} (hpd : pd < 1024)
    (hframe : FreshFrame s frame) (hpd' : pd' < 1024) :
    HasTable (addTable s pd frame) pd' ↔ pd' = pd ∨ HasTable s pd' := by
  have hmod := hframe.aligned
  unfold HasTable
  rw [h.dirEntry_addTable hpd hframe hpd', and_pdePresent, and_pdePresent]
  by_cases heq : pd' = pd
  · rw [if_pos heq]
    unfold pageSize at hmod
    have hodd : (frame + 3) % 2 ≠ 0 := by omega
    simp [heq, hodd]
  · simp [heq]

theorem tableOf_addTable (h : Tables s) {pd frame pd' : ℕ} (hpd : pd < 1024)
    (hframe : FreshFrame s frame) (hpd' : pd' < 1024) :
    tableOf (addTable s pd frame) pd' = if pd' = pd then frame else tableOf s pd' := by
  unfold tableOf
  rw [h.dirEntry_addTable hpd hframe hpd']
  by_cases heq : pd' = pd
  · rw [if_pos heq, if_pos heq, frameOf_add hframe.aligned (by decide)]
  · rw [if_neg heq, if_neg heq]

/-- A new table is a page of its own. -/
theorem addTable (h : Tables s) {pd frame : ℕ} (hpd : pd < 1024) (hframe : FreshFrame s frame)
    (hzero : frame ≠ 0) : Tables (addTable s pd frame) := by
  refine ⟨h.aligned, ?_, ?_, ?_⟩
  · intro pd' hpd' htable
    rw [h.tableOf_addTable hpd hframe hpd']
    split_ifs with heq
    · exact hzero
    · exact h.nonzero pd' hpd' (((h.hasTable_addTable hpd hframe hpd').mp htable).resolve_left heq)
  · intro pd' hpd' htable
    rw [h.tableOf_addTable hpd hframe hpd']
    split_ifs with heq
    · exact hframe.notDirectory
    · exact h.apart pd' hpd' (((h.hasTable_addTable hpd hframe hpd').mp htable).resolve_left heq)
  · intro pd₁ hpd₁ pd₂ hpd₂ htable₁ htable₂
    rw [h.hasTable_addTable hpd hframe hpd₁] at htable₁
    rw [h.hasTable_addTable hpd hframe hpd₂] at htable₂
    rw [h.tableOf_addTable hpd hframe hpd₁, h.tableOf_addTable hpd hframe hpd₂]
    split_ifs with h₁ h₂ h₂
    · exact fun _ => h₁.trans h₂.symm
    · exact fun heq => absurd heq.symm (hframe.notTable pd₂ hpd₂ (htable₂.resolve_left h₂))
    · exact fun heq => absurd heq (hframe.notTable pd₁ hpd₁ (htable₁.resolve_left h₁))
    · exact h.distinct pd₁ hpd₁ pd₂ hpd₂ (htable₁.resolve_left h₁) (htable₂.resolve_left h₂)

/-- The entries of a new table are zero. -/
theorem walk_addTable (h : Tables s) {pd frame virt : ℕ} (hpd : pd < 1024)
    (hframe : FreshFrame s frame) (hvirt : virt < 2 ^ 32) :
    walk (Memory.addTable s pd frame) virt =
      if pdIndex virt = pd then some 0 else walk s virt := by
  have hlt := pdIndex_lt hvirt
  have hpt := ptIndex_lt virt
  have hdir := h.aligned
  have hmod := hframe.aligned
  have hnotDir := hframe.notDirectory
  have hiff := h.hasTable_addTable hpd hframe hlt
  have htab := h.tableOf_addTable hpd hframe hlt
  have hload : ∀ a, a % 4 = 0 → a ≠ s.directory + 4 * pd →
      (Memory.addTable s pd frame).mem.load a =
        if frame ≤ a ∧ a < frame + pageSize then 0 else s.mem.load a := by
    intro a ha hne
    unfold pageSize at hdir hmod
    exact (load_store_of_ne _ (by omega) ha hne.symm).trans
      (load_clearPage _ (by omega) ha)
  by_cases heq : pdIndex virt = pd
  · rw [if_pos heq, walk_of_hasTable (hiff.mpr (Or.inl heq)), htab, if_pos heq]
    unfold pageSize at *
    rw [hload _ (by omega) (by omega), if_pos (by omega)]
  · rw [if_neg heq]
    by_cases htable : HasTable s (pdIndex virt)
    · have hmod' : tableOf s (pdIndex virt) % pageSize = 0 := frameOf_mod _
      have hne := hframe.notTable _ hlt htable
      have happart := h.apart _ hlt htable
      rw [walk_of_hasTable (hiff.mpr (Or.inr htable)), walk_of_hasTable htable, htab, if_neg heq]
      unfold pageSize at *
      rw [hload _ (by omega) (by omega), if_neg (by omega)]
    · have hnone : ¬HasTable (Memory.addTable s pd frame) (pdIndex virt) := by
        rw [hiff]
        exact fun h => h.elim heq htable
      rw [walk_of_not_hasTable hnone, walk_of_not_hasTable htable]

end Tables

/-! ### Mapping and unmapping -/

/-- The entry of the page of an address; a page without a table has entry 0. -/
def entryAt (s : Vmm) (virt : ℕ) : ℕ := (walk s virt).getD 0

/-- The entry is the same, where a missing table counts as one that is all zero. -/
def SameEntry (old new : Option ℕ) : Prop := new = old ∨ old = none ∧ new = some 0

theorem SameEntry.getD {old new : Option ℕ} (h : SameEntry old new) : new.getD 0 = old.getD 0 := by
  rcases h with rfl | ⟨rfl, rfl⟩
  · rfl
  · rfl

/-- The table of the address exists, or a page can be allocated for it. -/
def MapSucceeds (s : Vmm) (virt : ℕ) : Prop :=
  HasTable s (pdIndex virt) ∨ (pmmAllocPage s.pmm).2 ≠ 0

instance (s : Vmm) (pd : ℕ) : Decidable (HasTable s pd) := inferInstanceAs (Decidable (_ ≠ _))

instance (s : Vmm) (virt : ℕ) : Decidable (MapSucceeds s virt) :=
  inferInstanceAs (Decidable (_ ∨ _))

/-- If `vmm_map_page` needs a table, `pmm_alloc_page` returns a fresh frame or nothing. -/
def AllocatesFresh (s : Vmm) (virt : ℕ) : Prop :=
  ¬HasTable s (pdIndex virt) → (pmmAllocPage s.pmm).2 ≠ 0 →
    FreshFrame s (pmmAllocPage s.pmm).2

section MapUnmap

variable {s : Vmm} {phys virt flags : ℕ}

theorem vmmMapPage_of_hasTable (h : HasTable s (pdIndex virt)) :
    vmmMapPage s phys virt flags = setEntry s virt (phys ||| flags ||| pdePresent) := if_neg h

theorem vmmMapPage_of_fails (h : ¬MapSucceeds s virt) :
    vmmMapPage s phys virt flags = { s with pmm := (pmmAllocPage s.pmm).1 } := by
  obtain ⟨htable, halloc⟩ := not_or.mp h
  unfold vmmMapPage
  rw [if_pos (not_not.mp htable)]
  exact if_pos (not_not.mp halloc)

theorem vmmMapPage_of_alloc (htable : ¬HasTable s (pdIndex virt))
    (halloc : (pmmAllocPage s.pmm).2 ≠ 0) :
    vmmMapPage s phys virt flags =
      setEntry (addTable { s with pmm := (pmmAllocPage s.pmm).1 } (pdIndex virt)
        (pmmAllocPage s.pmm).2) virt (phys ||| flags ||| pdePresent) := by
  unfold vmmMapPage
  rw [if_pos (not_not.mp htable)]
  exact if_neg halloc

theorem Tables.withPmm (h : Tables s) (pmm : Pmm) : Tables { s with pmm := pmm } :=
  ⟨h.aligned, h.nonzero, h.apart, h.distinct⟩

theorem FreshFrame.withPmm {frame : ℕ} (h : FreshFrame s frame) (pmm : Pmm) :
    FreshFrame { s with pmm := pmm } frame :=
  ⟨h.aligned, h.lt, h.notDirectory, h.notTable⟩

/-- A successful map sets the entry of its page and no other. -/
theorem Tables.map (h : Tables s) (hfresh : AllocatesFresh s virt) (hphys : phys < 2 ^ 32)
    (hflags : flags < 0x1000) (hvirt : virt < 2 ^ 32) (hok : MapSucceeds s virt) :
    Tables (vmmMapPage s phys virt flags) ∧
      walk (vmmMapPage s phys virt flags) virt = some (phys ||| flags ||| pdePresent) ∧
      ∀ v < 2 ^ 32, v / pageSize ≠ virt / pageSize →
        SameEntry (walk s v) (walk (vmmMapPage s phys virt flags) v) := by
  have hentry := pageEntry_lt hphys hflags
  have hpd := pdIndex_lt hvirt
  by_cases htable : HasTable s (pdIndex virt)
  · rw [vmmMapPage_of_hasTable htable]
    refine ⟨h.setEntry hvirt htable, ?_, ?_⟩
    · rw [h.walk_setEntry hvirt htable hentry hvirt, if_pos rfl]
    · intro v hv hne
      rw [h.walk_setEntry hvirt htable hentry hv, if_neg hne]
      exact Or.inl rfl
  · have halloc := hok.resolve_left htable
    have hframe := (hfresh htable halloc).withPmm (pmmAllocPage s.pmm).1
    have h₁ := h.withPmm (pmmAllocPage s.pmm).1
    have h₂ := h₁.addTable hpd hframe halloc
    have hnew := (h₁.hasTable_addTable hpd hframe hpd).mpr (Or.inl rfl)
    rw [vmmMapPage_of_alloc htable halloc]
    refine ⟨h₂.setEntry hvirt hnew, ?_, ?_⟩
    · rw [h₂.walk_setEntry hvirt hnew hentry hvirt, if_pos rfl]
    · intro v hv hne
      rw [h₂.walk_setEntry hvirt hnew hentry hv, if_neg hne, h₁.walk_addTable hpd hframe hv]
      split_ifs with heq
      · exact Or.inr ⟨walk_of_not_hasTable (by rw [heq]; exact htable), rfl⟩
      · exact Or.inl rfl

theorem vmmGetPte_of_hasTable (h : HasTable s (pdIndex virt)) :
    vmmGetPte s virt = tableOf s (pdIndex virt) + 4 * ptIndex virt := if_neg h

theorem vmmUnmapPage_of_hasTable (h : Tables s) (hvirt : virt < 2 ^ 32)
    (htable : HasTable s (pdIndex virt)) : vmmUnmapPage s virt = setEntry s virt 0 := by
  have hne : vmmGetPte s virt ≠ 0 := by
    have hzero := h.nonzero _ (pdIndex_lt hvirt) htable
    rw [vmmGetPte_of_hasTable htable]
    omega
  unfold vmmUnmapPage
  dsimp only
  rw [if_neg hne, vmmGetPte_of_hasTable htable]
  rfl

theorem vmmUnmapPage_of_not_hasTable (h : ¬HasTable s (pdIndex virt)) :
    vmmUnmapPage s virt = s := if_pos (if_pos (not_not.mp h))

theorem Tables.unmap (h : Tables s) (hvirt : virt < 2 ^ 32) :
    Tables (vmmUnmapPage s virt) ∧
      (walk (vmmUnmapPage s virt) virt = none ∨ walk (vmmUnmapPage s virt) virt = some 0) ∧
      ∀ v < 2 ^ 32, v / pageSize ≠ virt / pageSize →
        walk (vmmUnmapPage s virt) v = walk s v := by
  by_cases htable : HasTable s (pdIndex virt)
  · rw [vmmUnmapPage_of_hasTable h hvirt htable]
    refine ⟨h.setEntry hvirt htable, Or.inr ?_, ?_⟩
    · rw [h.walk_setEntry hvirt htable (by decide) hvirt, if_pos rfl]
    · intro v hv hne
      rw [h.walk_setEntry hvirt htable (by decide) hv, if_neg hne]
  · rw [vmmUnmapPage_of_not_hasTable htable]
    exact ⟨h, Or.inl (walk_of_not_hasTable htable), fun v _ _ => rfl⟩

end MapUnmap

/-! ### Refinement of a finite map -/

/-- Calls of the page table functions; `pages` stands for anything the rest of the kernel does
with physical pages in between. -/
inductive VmmCall
  | map (phys virt flags : ℕ)
  | unmap (virt : ℕ)
  | pages (pmm : Pmm)

def vmmStep (s : Vmm) : VmmCall → Vmm
  | .map phys virt flags => vmmMapPage s phys virt flags
  | .unmap virt => vmmUnmapPage s virt
  | .pages pmm => { s with pmm := pmm }

/-- Page-aligned physical addresses, flags below `0x1000`, and fresh frames for the tables. -/
def VmmCall.Allowed (s : Vmm) : VmmCall → Prop
  | .map phys virt flags => phys % pageSize = 0 ∧ phys < 2 ^ 32 ∧ flags < 0x1000 ∧
      virt < 2 ^ 32 ∧ AllocatesFresh s virt
  | .unmap virt => virt < 2 ^ 32
  | .pages _ => True

def VmmCall.page : VmmCall → Option ℕ
  | .map _ virt _ => some (virt / pageSize)
  | .unmap virt => some (virt / pageSize)
  | .pages _ => none

/-- A finite map from virtual pages to their entries. -/
abbrev PageMap := ℕ → Option ℕ

/-- What a call made in state `s` does to the map. -/
def pageMapStep (s : Vmm) (m : PageMap) : VmmCall → PageMap
  | .map phys virt flags =>
    if MapSucceeds s virt then
      Function.update m (virt / pageSize) (some (phys ||| flags ||| pdePresent))
    else m
  | .unmap virt => Function.update m (virt / pageSize) none
  | .pages _ => m

def pageMapAfter (s : Vmm) (m : PageMap) : List VmmCall → PageMap
  | [] => m
  | call :: calls => pageMapAfter (vmmStep s call) (pageMapStep s m call) calls

/-- The tables hold the entries of the map, and 0 or nothing for the other pages. -/
def Represents (s : Vmm) (m : PageMap) : Prop :=
  ∀ virt < 2 ^ 32,
    match m (virt / pageSize) with
    | some entry => walk s virt = some entry
    | none => walk s virt = none ∨ walk s virt = some 0

theorem Represents.walk_eq_some {s : Vmm} {m : PageMap} (h : Represents s m) {virt entry : ℕ}
    (hvirt : virt < 2 ^ 32) (hm : m (virt / pageSize) = some entry) :
    walk s virt = some entry := by
  have hwalk := h virt hvirt
  rwa [hm] at hwalk

theorem walk_congr {s : Vmm} {v v' : ℕ} (h : v / pageSize = v' / pageSize) :
    walk s v = walk s v' := by
  unfold walk
  rw [pdIndex_eq, pdIndex_eq, ptIndex_eq, ptIndex_eq, h]

/-- Changing one entry of the map, where the entries of the other pages stay. -/
theorem Represents.update {s t : Vmm} {m : PageMap} (h : Represents s m) {virt : ℕ}
    {entry : Option ℕ}
    (hself : match entry with
      | some e => walk t virt = some e
      | none => walk t virt = none ∨ walk t virt = some 0)
    (hother : ∀ v < 2 ^ 32, v / pageSize ≠ virt / pageSize → SameEntry (walk s v) (walk t v)) :
    Represents t (Function.update m (virt / pageSize) entry) := by
  intro v hv
  by_cases hpage : v / pageSize = virt / pageSize
  · rw [hpage, Function.update_self, walk_congr hpage]
    exact hself
  · rw [Function.update_of_ne hpage]
    have hold := h v hv
    cases hm : m (v / pageSize) with
    | some e =>
      rw [hm] at hold
      rcases hother v hv hpage with hsame | ⟨hnone, _⟩
      · exact hsame.trans hold
      · rw [hnone] at hold
        cases hold
    | none =>
      rw [hm] at hold
      rcases hother v hv hpage with hsame | ⟨_, hzero⟩
      · dsimp only at hold ⊢
        rw [hsame]
        exact hold
      · exact Or.inr hzero

/-- One call keeps the tables and the map in step. -/
theorem represents_step {s : Vmm} {m : PageMap} {call : VmmCall} (htables : Tables s)
    (h : Represents s m) (hok : call.Allowed s) :
    Tables (vmmStep s call) ∧ Represents (vmmStep s call) (pageMapStep s m call) := by
  cases call with
  | map phys virt flags =>
    obtain ⟨_, hphys, hflags, hvirt, hfresh⟩ := hok
    by_cases hsucc : MapSucceeds s virt
    · obtain ⟨htables', hself, hother⟩ := htables.map hfresh hphys hflags hvirt hsucc
      refine ⟨htables', ?_⟩
      unfold pageMapStep
      dsimp only
      rw [if_pos hsucc]
      exact h.update hself hother
    · unfold vmmStep pageMapStep
      dsimp only
      rw [if_neg hsucc, vmmMapPage_of_fails hsucc]
      exact ⟨htables.withPmm _, h⟩
  | unmap virt =>
    obtain ⟨htables', hself, hother⟩ := htables.unmap hok
    exact ⟨htables', h.update hself fun v hv hne => Or.inl (hother v hv hne)⟩
  | pages pmm => exact ⟨htables.withPmm pmm, h⟩

theorem represents_run {s t : Vmm} {m : PageMap} {calls : List VmmCall}
    (hrun : Run (fun s call => some (vmmStep s call)) (fun s call => call.Allowed s) s calls t)
    (htables : Tables s) (h : Represents s m) :
    Tables t ∧ Represents t (pageMapAfter s m calls) := by
  induction hrun generalizing m with
  | nil s => exact ⟨htables, h⟩
  | cons hok hstep _ ih =>
    obtain rfl := Option.some.inj hstep
    obtain ⟨htables', h'⟩ := represents_step htables h hok
    exact ih htables' h'

theorem tables_cleared {s : Vmm} (hdir : s.directory % pageSize = 0)
    (hclear : ∀ pd < 1024, dirEntry s pd = 0) : Tables s := by
  have hnone : ∀ pd < 1024, ¬HasTable s pd := by
    intro pd hpd
    unfold HasTable
    rw [hclear pd hpd]
    decide
  exact ⟨hdir, fun pd hpd h => absurd h (hnone pd hpd), fun pd hpd h => absurd h (hnone pd hpd),
    fun pd hpd _ _ h => absurd h (hnone pd hpd)⟩

theorem represents_cleared {s : Vmm} (hclear : ∀ pd < 1024, dirEntry s pd = 0) :
    Represents s fun _ => none := by
  intro virt hvirt
  left
  apply walk_of_not_hasTable
  unfold HasTable
  rw [hclear _ (pdIndex_lt hvirt)]
  decide

/-- The page tables refine a finite map from pages to entries, and no call changes the entry
of a page that it is not about. -/
theorem page_tables_refine_map {s t : Vmm} {calls : List VmmCall}
    (hdir : s.directory % pageSize = 0) (hclear : ∀ pd < 1024, dirEntry s pd = 0)
    (hrun : Run (fun s call => some (vmmStep s call)) (fun s call => call.Allowed s) s calls t) :
    Represents t (pageMapAfter s (fun _ => none) calls) ∧
      (∀ call : VmmCall, call.Allowed t → ∀ virt < 2 ^ 32,
        call.page ≠ some (virt / pageSize) → entryAt (vmmStep t call) virt = entryAt t virt) ∧
      ∀ phys virt flags, ¬MapSucceeds t virt → ∀ v,
        walk (vmmMapPage t phys virt flags) v = walk t v := by
  obtain ⟨htables, hrep⟩ := represents_run hrun (tables_cleared hdir hclear)
    (represents_cleared hclear)
  refine ⟨hrep, ?_, ?_⟩
  · intro call hok v hv hpage
    cases call with
    | map phys virt flags =>
      obtain ⟨_, hphys, hflags, hvirt, hfresh⟩ := hok
      have hne : v / pageSize ≠ virt / pageSize := fun heq => hpage (congrArg some heq.symm)
      by_cases hsucc : MapSucceeds t virt
      · exact ((htables.map hfresh hphys hflags hvirt hsucc).2.2 v hv hne).getD
      · unfold vmmStep
        dsimp only
        rw [vmmMapPage_of_fails hsucc]
        rfl
    | unmap virt =>
      have hne : v / pageSize ≠ virt / pageSize := fun heq => hpage (congrArg some heq.symm)
      exact congrArg (·.getD 0) ((htables.unmap hok).2.2 v hv hne)
    | pages pmm => rfl
  · intro phys virt flags hfail v
    rw [vmmMapPage_of_fails hfail]
    rfl

/-- A cleared directory at 2 MB and the pages of a machine with 1040 KB. -/
def smallVmm : Vmm := ⟨⟨fun _ => 0, []⟩, pmmInit 0x100000 640 400 0, 0x200000⟩

theorem smallVmm_alloc : (pmmAllocPage smallVmm.pmm).2 = 0x101000 := by decide +kernel

/-- A page is mapped through a new table and found by walking the tables. -/
theorem page_tables_refine_map_one :
    walk (vmmMapPage smallVmm 0x5000 0x40000000 pdeWritable) 0x40000123 = some 0x5003 := by
  have hclear : ∀ pd < 1024, dirEntry smallVmm pd = 0 := fun _ _ => rfl
  have hfresh : AllocatesFresh smallVmm 0x40000000 := by
    intro _ _
    rw [smallVmm_alloc]
    refine ⟨by decide, by decide, by decide, ?_⟩
    intro pd hpd htable
    unfold HasTable at htable
    rw [hclear pd hpd] at htable
    exact absurd rfl htable
  have hsucc : MapSucceeds smallVmm 0x40000000 := by
    right
    rw [smallVmm_alloc]
    decide
  have hrun : Run (fun s call => some (vmmStep s call)) (fun s call => call.Allowed s) smallVmm
      [.map 0x5000 0x40000000 pdeWritable]
      (vmmMapPage smallVmm 0x5000 0x40000000 pdeWritable) :=
    .cons ⟨by decide, by decide, by decide, by decide, hfresh⟩ rfl (.nil _)
  have hdir : smallVmm.directory % pageSize = 0 := by decide
  obtain ⟨hrep, _⟩ := page_tables_refine_map hdir hclear hrun
  have hmap : pageMapAfter smallVmm (fun _ => none) [.map 0x5000 0x40000000 pdeWritable]
      (0x40000123 / pageSize) = some 0x5003 := by
    unfold pageMapAfter pageMapAfter pageMapStep
    dsimp only
    rw [if_pos hsucc]
    rfl
  exact hrep.walk_eq_some (by decide) hmap

end OpenKernel.Memory
