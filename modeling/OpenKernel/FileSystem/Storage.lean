import OpenKernel.FileSystem.Effects

/-!
# File buffers

Every used node with data has a live buffer of `cap` bytes to itself, and the file
is the first `size` bytes of it. Storing into one file therefore leaves the bytes
of all others alone.
-/

namespace OpenKernel.FileSystem

open Function

/-- The node has the room it claims to have. -/
structure Backed (h : Buffers) (n : Node) : Prop where
  size_le : n.size ≤ n.cap
  cap_le : n.cap ≤ fsMaxFileSize
  null : n.data = none → n.cap = 0
  live : ∀ p, n.data = some p → p < h.calls ∧ ∃ buf, h.live p = some buf ∧ buf.length = n.cap

structure StorageInv (s : Okfs) : Prop where
  backed : ∀ i, (s.nodes i).used = true → Backed s.heap (s.nodes i)
  distinct : ∀ i j p, (s.nodes i).used = true → (s.nodes j).used = true →
    (s.nodes i).data = some p → (s.nodes j).data = some p → i = j

/-- All used nodes but `id` have the bytes they had. -/
def OthersKept (s t : Okfs) (id : Slot) : Prop :=
  ∀ j, j ≠ id → (s.nodes j).used = true → fileBytes t j = fileBytes s j

section Capacity

variable {newSize rounds newCap cap : ℕ}

theorem newSize_le_doubleCap (h : newSize ≤ newCap * 2 ^ rounds) :
    newSize ≤ doubleCap newSize rounds newCap := by
  induction rounds generalizing newCap with
  | zero => simpa [doubleCap] using h
  | succ rounds ih =>
    unfold doubleCap
    split_ifs with hlt
    · apply ih
      rw [Nat.pow_succ'] at h
      rw [Nat.mul_assoc]
      exact h
    · omega

theorem newSize_le_nextCap (h : newSize ≤ fsMaxFileSize) : newSize ≤ nextCap cap newSize := by
  refine le_min (newSize_le_doubleCap ?_) h
  have hpow : newSize < 2 ^ newSize := Nat.lt_two_pow_self
  split_ifs with hc
  · calc newSize ≤ 1 * 2 ^ newSize := by omega
      _ ≤ cap * 2 ^ newSize := Nat.mul_le_mul_right _ (by omega)
  · omega

end Capacity

section Buffers

variable {h h' : Buffers} {n : Node} {buf src : Bytes} {off : ℕ}

theorem Backed.length_read (hn : Backed h n) : (h.read n.data).length = n.cap := by
  cases hd : n.data with
  | none => simp [Buffers.read, hn.null hd]
  | some p =>
    obtain ⟨-, buf, hlive, hlen⟩ := hn.live p hd
    simp [Buffers.read, hlive, hlen]

theorem StorageInv.length_fileBytes {s : Okfs} {i : Slot} (hs : StorageInv s)
    (hu : (s.nodes i).used = true) : (fileBytes s i).length = (s.nodes i).size := by
  have hi := hs.backed i hu
  rw [fileBytes, List.length_take, hi.length_read]
  exact min_eq_left hi.size_le

theorem Backed.congr (hn : Backed h n) (hcalls : h.calls ≤ h'.calls)
    (hlive : ∀ p, n.data = some p → h'.live p = h.live p) : Backed h' n := by
  refine ⟨hn.size_le, hn.cap_le, hn.null, fun p hp => ?_⟩
  obtain ⟨hlt, buf, hbuf, hlen⟩ := hn.live p hp
  exact ⟨by omega, buf, (hlive p hp).trans hbuf, hlen⟩

end Buffers

namespace StorageInv

variable {s t : Okfs} {id : Slot} {n : Node}

/-- A node may change if its buffer, now or before, is no other node's. -/
theorem update_node (h : StorageInv s) (hn : t.nodes = update s.nodes id n)
    (hcalls : s.heap.calls ≤ t.heap.calls)
    (hkeep : ∀ j q, j ≠ id → (s.nodes j).used = true → (s.nodes j).data = some q →
      t.heap.live q = s.heap.live q ∧ n.data ≠ some q)
    (hself : n.used = true → Backed t.heap n) : StorageInv t ∧ OthersKept s t id := by
  have hid : t.nodes id = n := by rw [hn, update_self]
  have hother : ∀ j, j ≠ id → t.nodes j = s.nodes j := by
    intro j hj
    rw [hn, update_of_ne hj]
  refine ⟨⟨fun i hi => ?_, fun i j p hi hj hp hq => ?_⟩, fun j hj hu => ?_⟩
  · by_cases hii : i = id
    · subst hii
      rw [hid] at hi ⊢
      exact hself hi
    · rw [hother i hii] at hi ⊢
      exact (h.backed i hi).congr hcalls fun p hp => (hkeep i p hii hi hp).1
  · by_cases hii : i = id <;> by_cases hjj : j = id
    · rw [hii, hjj]
    · rw [hother j hjj] at hj hq
      rw [hii, hid] at hp
      exact absurd hp (hkeep j p hjj hj hq).2
    · rw [hother i hii] at hi hp
      rw [hjj, hid] at hq
      exact absurd hq (hkeep i p hii hi hp).2
    · rw [hother i hii] at hi hp
      rw [hother j hjj] at hj hq
      exact h.distinct i j p hi hj hp hq
  · unfold fileBytes Buffers.read
    rw [hother j hj]
    cases hd : (s.nodes j).data with
    | none => rfl
    | some q =>
      rw [Option.bind_some, Option.bind_some, (hkeep j q hj hu hd).1]

end StorageInv

section FileData

variable {alloc : Allocator} {s t : Okfs} {id : Slot} {newSize : ℕ} {append : Bool}

/-- Making room keeps the sizes, and the bytes where they are wanted. -/
theorem StorageInv.growFile (h : StorageInv s) (hu : (s.nodes id).used = true)
    (hmax : newSize ≤ fsMaxFileSize) (hg : growFile alloc s id newSize append = (t, true)) :
    (StorageInv t ∧ OthersKept s t id) ∧ SameTree s t ∧ newSize ≤ (t.nodes id).cap ∧
      (t.nodes id).size = (s.nodes id).size ∧
      (append = true → fileBytes t id = fileBytes s id) := by
  have hid := h.backed id hu
  have htree : SameTree s (FileSystem.growFile alloc s id newSize append).1 :=
    sameTree_growFile newSize append
  rw [hg] at htree
  by_cases hfit : newSize ≤ (s.nodes id).cap
  · rw [growFile_of_fits hfit] at hg
    cases hg
    exact ⟨⟨h, fun _ _ _ => rfl⟩, htree, hfit, rfl, fun _ => rfl⟩
  have hcap : newSize ≤ nextCap (s.nodes id).cap newSize := newSize_le_nextCap hmax
  cases ha : alloc s.heap.calls (nextCap (s.nodes id).cap newSize) with
  | none =>
    rw [growFile_of_null (not_le.mp hfit) ha] at hg
    cases congrArg Prod.snd hg
  | some fill =>
    have hsize := hid.size_le
    have hfresh : ∀ j, (s.nodes j).used = true → (s.nodes j).data ≠ some s.heap.calls := by
      intro j hj hd
      exact lt_irrefl _ ((h.backed j hj).live _ hd).1
    obtain ⟨heap, he, hheap⟩ := growFile_of_some append (not_le.mp hfit) ha
      (by rw [hid.length_read]; exact hsize) (by omega) (hfresh id hu)
    rw [he] at hg
    obtain rfl := (congrArg Prod.fst hg).symm
    obtain ⟨buf, hbuf, hlen, hcopy⟩ := hheap.fresh
    refine ⟨h.update_node rfl ?_ ?_ fun _ => ⟨?_, ?_, ?_, ?_⟩, htree, ?_, ?_, ?_⟩
    · simp only [hheap.calls]
      omega
    · intro j q hj hju hjq
      have hq : q ≠ s.heap.calls := by
        rintro rfl
        exact hfresh j hju hjq
      refine ⟨hheap.other q ?_ hq, ?_⟩
      · intro hd
        exact hj (h.distinct j id q hju hu hjq hd)
      · simpa using hq.symm
    · simp only
      omega
    · exact min_le_right _ _
    · simp
    · rintro p hp
      obtain rfl : s.heap.calls = p := by simpa using hp
      exact ⟨by simp [hheap.calls], buf, hbuf, hlen⟩
    · simpa using hcap
    · simp
    · intro happ
      simp only [fileBytes, update_self, Buffers.read, Option.bind_some, hbuf, Option.getD_some]
      exact hcopy happ

/-- Storing `bytes` behind the first `off` bytes of a file with enough room. -/
theorem StorageInv.storeFile {bytes : Bytes} (h : StorageInv s) (hu : (s.nodes id).used = true)
    (hsize : newSize = (if append then (s.nodes id).size else 0) + bytes.length)
    (hfit : newSize ≤ (s.nodes id).cap) :
    (StorageInv (storeFile s id bytes newSize append) ∧
      OthersKept s (storeFile s id bytes newSize append) id) ∧
      fileBytes (storeFile s id bytes newSize append) id =
        (if append then fileBytes s id else []) ++ bytes := by
  have hid := h.backed id hu
  have hold := hid.size_le
  generalize hoff : (if append then (s.nodes id).size else 0) = off at hsize
  have hfront : (if append then fileBytes s id else []) =
      (s.heap.read (s.nodes id).data).take off := by
    rw [← hoff]
    cases append <;> simp [fileBytes]
  rw [hfront]
  unfold FileSystem.storeFile
  simp only [hoff]
  rcases Option.eq_none_or_eq_some (s.nodes id).data with hd | ⟨p, hd⟩
  · have hcap := hid.null hd
    have hb : bytes = [] := List.eq_nil_of_length_eq_zero (by omega)
    refine ⟨h.update_node rfl (by simp) ?_ fun _ => ⟨hfit, hid.cap_le, hid.null, ?_⟩, ?_⟩
    · intro j q _ _ _
      exact ⟨by simp [hd, Buffers.write], by simp [hd]⟩
    · intro q hq
      rw [show (s.nodes id).data = some q from hq] at hd
      cases hd
    · simp [fileBytes, Buffers.write, Buffers.read, hd, hb]
  · obtain ⟨hlt, buf, hbuf, hlen⟩ := hid.live p hd
    have hroom : off + bytes.length ≤ buf.length := by omega
    have hstored := Buffers.live_write_self off bytes hbuf
    refine ⟨h.update_node rfl (by simp) ?_ fun _ => ⟨hfit, hid.cap_le, hid.null, ?_⟩, ?_⟩
    · intro j q hj hju hjq
      have hqp : q ≠ p := by
        rintro rfl
        exact hj (h.distinct j id q hju hu hjq hd)
      rw [hd]
      exact ⟨Buffers.live_write_of_ne hqp, by simpa using hqp.symm⟩
    · intro q hq
      obtain rfl : p = q := Option.some.inj (hd.symm.trans hq)
      rw [← hd] at hstored
      exact ⟨by simpa using hlt, _, hstored, (length_overwrite hroom).trans hlen⟩
    · have htake := take_overwrite hroom
      simpa [fileBytes, Buffers.write, Buffers.read, hd, hbuf, hsize] using htake

theorem length_readBytes (data : Bytes) (len : ℕ) : (readBytes data len).length = len := by
  simp [readBytes]

theorem readBytes_of_le {data : Bytes} {len : ℕ} (h : len ≤ data.length) :
    readBytes data len = data.take len := by
  apply List.ext_getElem (by simp [readBytes, h])
  intro k hk _
  have hlt : k < data.length := by
    rw [length_readBytes] at hk
    omega
  simp [readBytes, hlt]

theorem StorageInv.fsSetFileData {len : ℕ} (h : StorageInv s) (hu : (s.nodes id).used = true)
    (hfits : Fits alloc s id len append) (data : Bytes) :
    ∃ t, fsSetFileData alloc s id data len append = (t, .ok ()) ∧
      (StorageInv t ∧ OthersKept s t id) ∧ SameTree s t ∧
      fileBytes t id = (if append then fileBytes s id else []) ++ readBytes data len := by
  obtain ⟨t, hg, he⟩ := fsSetFileData_of_fits hfits data
  obtain ⟨⟨ht, hothers⟩, htree, hcap, hsize, hbytes⟩ := h.growFile hu hfits.2.1 hg
  have hused : ∀ j, (t.nodes j).used = (s.nodes j).used :=
    fun j => congrArg Shape.used (congrFun htree.1 j)
  have hnew : sizeAfter s id len append =
      (if append then (t.nodes id).size else 0) + (readBytes data len).length := by
    rw [hsize, length_readBytes]
    cases append <;> simp [sizeAfter]
  obtain ⟨⟨hu', hothers'⟩, hstored⟩ := ht.storeFile ((hused id).trans hu) hnew hcap
  refine ⟨_, he, ⟨hu', fun j hj hju => ?_⟩, htree.trans (sameTree_storeFile _ _ _), ?_⟩
  · rw [hothers' j hj ((hused j).trans hju), hothers j hj hju]
  · rw [hstored]
    cases append with
    | false => rfl
    | true => rw [if_pos rfl, if_pos rfl, hbytes rfl]

end FileData

section Nodes

variable {s t : Okfs} {id : Slot}

theorem StorageInv.congr (h : StorageInv s) (hn : t.nodes = s.nodes) (hh : t.heap = s.heap) :
    StorageInv t ∧ ∀ i, fileBytes t i = fileBytes s i := by
  refine ⟨⟨?_, ?_⟩, fun i => ?_⟩
  · rw [hn, hh]
    exact h.backed
  · rw [hn]
    exact h.distinct
  · unfold fileBytes
    rw [hn, hh]

theorem StorageInv.withEntry (h : StorageInv s) (id parent : Slot) (name : Bytes)
    (type : FsType) :
    StorageInv (withEntry s id parent name type) ∧
      OthersKept s (withEntry s id parent name type) id := by
  refine h.update_node rfl le_rfl (fun _ _ _ _ _ => ⟨rfl, by simp⟩) fun _ => ?_
  exact ⟨le_rfl, Nat.zero_le _, fun _ => rfl, fun _ hp => by cases hp⟩

theorem StorageInv.removeNode {n : Node} (h : StorageInv s) (hu : (s.nodes id).used = true)
    (hn : t.nodes = update s.nodes id n) (hh : t.heap = s.heap.without (s.nodes id).data)
    (hfree : n.used = false) (hdata : n.data = none) : StorageInv t ∧ OthersKept s t id := by
  have hcalls : t.heap.calls = s.heap.calls := by rw [hh, Buffers.calls_without]
  refine h.update_node hn hcalls.ge (fun j q hj hju hjq => ⟨?_, by simp [hdata]⟩) fun hun => ?_
  · rw [hh]
    exact Buffers.live_without_of_ne fun hd => hj (h.distinct j id q hju hu hjq hd)
  · rw [hfree] at hun
    cases hun

theorem storageInv_clearNodes (s : Okfs) : StorageInv (clearNodes s) := by
  have hdata : ∀ i, ((clearNodes s).nodes i).data = none ∧ ((clearNodes s).nodes i).cap = 0 ∧
      ((clearNodes s).nodes i).size = 0 := by
    intro i
    unfold clearNodes
    by_cases hi : i = 0 <;> simp [hi]
  refine ⟨fun i _ => ⟨?_, ?_, fun _ => (hdata i).2.1, fun p hp => ?_⟩, fun i j p _ _ hp _ => ?_⟩
  · rw [(hdata i).2.2]
    exact Nat.zero_le _
  · rw [(hdata i).2.1]
    exact Nat.zero_le _
  · rw [(hdata i).1] at hp
    cases hp
  · rw [(hdata i).1] at hp
    cases hp

end Nodes

end OpenKernel.FileSystem
