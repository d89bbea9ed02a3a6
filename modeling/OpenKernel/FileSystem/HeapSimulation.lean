import OpenKernel.FileSystem.HeapStorage

/-!
# OKFS does the same in the heap

Each node holds the same bytes in the heap as under the name that the table of OKFS gives
its buffer, and every operation keeps it so. What `kmalloc` answers over the heap is what
it is taken to answer under names.
-/

namespace OpenKernel.FileSystem

open Function BufferMap
open Memory (stored)

/-- `c` is `s` in the heap: the statics differ in the pointers only, and each node holds the same
bytes. -/
structure Mirrors (c : MemFs) (s : Okfs) : Prop where
  sound : c.heap.Sound
  statics : c.statics = s.relabel c.statics.data c.statics.heap
  holders : Holders (stored c.heap) c.statics.data
  names : Holders s.heap.live s.data
  holding : held (stored c.heap) c.statics.data = held s.heap.live s.data
  idle : ∀ i, (s.nodes i).used = false → s.data i = none

/-- From `c`, memory gets to `d`, which is `t` in the heap, and leaves alone what no node holds. -/
structure Advances (c d : MemFs) (t : Okfs) : Prop where
  mirrors : Mirrors d t
  spares : Spares (stored c.heap) (stored d.heap) c.statics.data d.statics.data

def Node.grown (n : Node) (p newCap : ℕ) : Node := { n with data := some p, cap := newCap }

/-- What `fs_set_file_data` copies of the old buffer when it makes room. -/
def carried (append : Bool) (size : ℕ) (old : Bytes) : Bytes :=
  if append = true ∧ 0 < size then old.take size else []

section Named

variable {s : Okfs} {id : Slot} {newSize q : ℕ} {append : Bool} {fill : ℕ → UInt8}
  {buf old : Bytes}

theorem growFile_first (hdata : (s.nodes id).data = none) (hlt : (s.nodes id).cap < newSize)
    (hfill : (List.range (nextCap (s.nodes id).cap newSize)).map fill = buf) :
    growFile (fun _ _ => some fill) s id newSize append =
      ({ s with
        heap := ⟨update s.heap.live s.heap.calls (some buf), s.heap.calls + 1, s.heap.clean⟩
        nodes := update s.nodes id
          ((s.nodes id).grown s.heap.calls (nextCap (s.nodes id).cap newSize)) }, true) := by
  simp [growFile, not_le.mpr hlt, Buffers.kmalloc, hdata, hfill, Node.grown]

/-- Making room for a file with the bytes `old`. -/
theorem growFile_again (hdata : (s.nodes id).data = some q) (hold : s.heap.live q = some old)
    (hfresh : q ≠ s.heap.calls) (hlt : (s.nodes id).cap < newSize)
    (hfill : (List.range (nextCap (s.nodes id).cap newSize)).map fill = buf) :
    growFile (fun _ _ => some fill) s id newSize append =
      ({ s with
        heap := ⟨update (BufferMap.write (update s.heap.live s.heap.calls (some buf)) s.heap.calls 0
          (carried append (s.nodes id).size old)) q none, s.heap.calls + 1, s.heap.clean⟩
        nodes := update s.nodes id
          ((s.nodes id).grown s.heap.calls (nextCap (s.nodes id).cap newSize)) }, true) := by
  have hread : Buffers.read ⟨update s.heap.live s.heap.calls (some buf), s.heap.calls + 1,
      s.heap.clean⟩
      (some q) = old := by
    simp [Buffers.read, hfresh, hold]
  have hnew : update s.heap.live s.heap.calls (some buf) s.heap.calls = some buf := update_self ..
  simp only [growFile, not_le.mpr hlt, if_false, Buffers.kmalloc, hdata, hfill, hread, carried]
  by_cases hcopy : append = true ∧ 0 < (s.nodes id).size
  · rw [if_pos hcopy, if_pos ⟨hcopy.1, by simp, hcopy.2⟩, Buffers.kfree_of_live]
    · rfl
    · simp [Buffers.write, hfresh, hold]
  · rw [if_neg hcopy, if_neg fun h => hcopy ⟨h.1, h.2.2⟩, BufferMap.write_nil hnew,
      Buffers.kfree_of_live]
    · rfl
    · simp [hfresh, hold]

end Named

namespace Mirrors

variable {c : MemFs} {s t : Okfs} {id : Slot} {i : Slot} {newSize : ℕ} {append : Bool}

theorem data_eq_none_iff (h : Mirrors c s) : c.statics.data i = none ↔ s.data i = none := by
  rw [← h.holders.held_eq_none_iff, ← h.names.held_eq_none_iff, h.holding]

theorem idle_heap (h : Mirrors c s) (hu : (s.nodes i).used = false) : c.statics.data i = none :=
  h.data_eq_none_iff.mpr (h.idle i hu)

theorem buffer (h : Mirrors c s) {q : ℕ} (hq : s.data i = some q) :
    ∃ p buf, c.statics.data i = some p ∧ stored c.heap p = some buf ∧
      s.heap.live q = some buf := by
  cases hp : c.statics.data i with
  | none =>
    rw [h.data_eq_none_iff.mp hp] at hq
    cases hq
  | some p =>
    obtain ⟨buf, hbuf⟩ := Option.ne_none_iff_exists'.mp (h.holders.live i p hp)
    have hsame := congrFun h.holding i
    rw [held_of_some hp, held_of_some hq, hbuf] at hsame
    exact ⟨p, buf, rfl, hbuf, hsame.symm⟩

/-- The bytes of a file in memory are those of the file. -/
theorem bytesOf_eq (h : Mirrors c s) (hs : StorageInv s) (hu : (s.nodes i).used = true) :
    c.bytesOf i = fileBytes s i := by
  have hback := hs.backed i hu
  have hsize : (c.statics.nodes i).size = (s.nodes i).size := by rw [h.statics]; rfl
  unfold MemFs.bytesOf fileBytes
  rw [hsize]
  cases hq : s.data i with
  | none =>
    have hcap := hback.null hq
    have hzero : (s.nodes i).size = 0 := by have := hback.size_le; omega
    rw [hzero]
    rfl
  | some q =>
    obtain ⟨p, buf, hp, hbuf, hlive⟩ := h.buffer hq
    obtain ⟨-, buf', hlive', hlen⟩ := hback.live q hq
    obtain rfl : buf = buf' := Option.some.inj (hlive.symm.trans hlive')
    obtain ⟨l, hl⟩ := h.sound
    obtain ⟨n, hm, rfl⟩ := (Memory.stored_eq_some_iff hl).mp hbuf
    rw [Memory.length_contents] at hlen
    have hread : s.heap.read (s.nodes i).data = Memory.contents c.heap.mem p n := by
      unfold Buffers.read
      rw [show (s.nodes i).data = some q from hq, Option.bind_some, hlive, Option.getD_some]
    rw [hread, show (c.statics.nodes i).data = some p from hp, Option.getD_some]
    have hle := hback.size_le
    unfold Memory.contents
    rw [← List.map_take, List.take_range, min_eq_left (by omega)]

theorem advances (h : Mirrors c s) : Advances c c s := ⟨h, .refl _ _⟩

theorem withStatics (h : Mirrors c s) (hdata : t.data = s.data) (hheap : t.heap = s.heap)
    (hidle : ∀ i, (t.nodes i).used = false → t.data i = none) (heap : Buffers) :
    Advances c { c with statics := t.relabel c.statics.data heap } t :=
  ⟨⟨h.sound, rfl, h.holders, by rw [hdata, hheap]; exact h.names,
    by rw [hdata, hheap]; exact h.holding, hidle⟩, .refl _ _⟩

theorem foreign (h : Mirrors c s) {call : Memory.Call} (hok : Memory.HeapOk c.heap call)
    (hforeign : Foreign (stored c.heap) c.statics.data call.access) :
    ∃ heap, Memory.step c.heap call = some heap ∧ Mirrors { c with heap := heap } s := by
  obtain ⟨heap, he, hsound, hstep⟩ := h.sound.step hok
  obtain ⟨hholders, hheld⟩ := h.holders.foreign hstep hforeign
  exact ⟨heap, he, hsound, h.statics, hholders, h.names, hheld.trans h.holding, h.idle⟩

/-- One node and its buffer change on both sides. -/
theorem node (h : Mirrors c s) {u : Okfs} {heap : Memory.Heap} {n : Node} {p : Option ℕ}
    (content : Option Bytes) (hsound : heap.Sound)
    (hnodes : t.nodes = update s.nodes id n) (hidle : n.used = false → n.data = none)
    (hmem : Holders (stored heap) (update c.statics.data id p) ∧
      held (stored heap) (update c.statics.data id p) =
        update (held (stored c.heap) c.statics.data) id content)
    (hnames : Holders t.heap.live (update s.data id n.data) ∧
      held t.heap.live (update s.data id n.data) = update (held s.heap.live s.data) id content)
    (hspares : Spares (stored c.heap) (stored heap) c.statics.data (update c.statics.data id p))
    (hu : u = t.relabel (update c.statics.data id p) u.heap) : Advances c ⟨u, heap⟩ t := by
  have hdata : t.data = update s.data id n.data := by
    funext i
    unfold Okfs.data
    rw [hnodes]
    by_cases hi : i = id
    · rw [hi, update_self, update_self]
    · rw [update_of_ne hi, update_of_ne hi]
  have hu' : u.data = update c.statics.data id p := by rw [hu]; rfl
  refine ⟨⟨hsound, ?_, ?_, ?_, ?_, ?_⟩, by rw [hu']; exact hspares⟩
  · rw [hu']
    exact hu
  · rw [hu']
    exact hmem.1
  · rw [hdata]
    exact hnames.1
  · rw [hu', hdata, hmem.2, hnames.2, h.holding]
  · intro i hi
    rw [hdata]
    rw [hnodes] at hi
    by_cases hii : i = id
    · rw [hii, update_self] at hi ⊢
      exact hidle hi
    · rw [update_of_ne hii] at hi ⊢
      exact h.idle i hi

/-- `fs_rm` frees the buffer on both sides. -/
theorem removeNode (h : Mirrors c s) {parent : Slot} (hp : (s.nodes id).parent = some parent) :
    ∃ t d, FileSystem.removeNode s id = (t, .ok ()) ∧ c.removeNode id = (d, .ok ()) ∧
      Advances c d t := by
  obtain ⟨t, ht, hnodes, -, hheap⟩ := removeNode_eq hp
  obtain ⟨heap', hrelabel⟩ := removeNode_relabel s c.statics.data c.statics.heap id
  rw [← h.statics, ht] at hrelabel
  refine ⟨t, _, ht, by rw [MemFs.removeNode, hrelabel], ?_⟩
  cases hq : s.data id with
  | none =>
    have hnull : c.statics.data id = none := h.data_eq_none_iff.mpr hq
    have hmem : update c.statics.data id none = c.statics.data := by
      rw [← hnull, update_eq_self]
    have hname : update s.data id none = s.data := by rw [← hq, update_eq_self]
    have hsame : t.heap = s.heap := by
      rw [hheap, show (s.nodes id).data = none from hq]
      rfl
    rw [show (c.statics.nodes id).data = none from hnull]
    refine h.node none h.sound hnodes (fun _ => rfl) ?_ ?_
      (.owner id (by simp) fun _ _ _ => rfl) rfl
    · rw [hmem]
      refine ⟨h.holders, ?_⟩
      rw [← h.holders.held_eq_none_iff.mpr hnull, update_eq_self]
    · rw [hname, hsame]
      refine ⟨h.names, ?_⟩
      rw [← h.names.held_eq_none_iff.mpr hq, update_eq_self]
  | some q =>
    obtain ⟨p, buf, hpm, hbuf, -⟩ := h.buffer hq
    obtain ⟨hsound, hstored⟩ := h.sound.kfree (p := p) (by rw [hbuf]; simp)
    have hfreed : t.heap.live = update s.heap.live q none := by
      rw [hheap, show (s.nodes id).data = some q from hq]
      rfl
    rw [show (c.statics.nodes id).data = some p from hpm]
    refine h.node none hsound hnodes (fun _ => rfl) ?_ ?_ (.owner id (by simp) fun r _ hr => ?_) rfl
    · rw [hstored]
      exact h.holders.release hpm
    · rw [hfreed]
      exact h.names.release hq
    · rw [hstored, update_of_ne]
      rintro rfl
      exact hr hpm

theorem node_eq (h : Mirrors c s) (id : Slot) :
    c.statics.nodes id = { s.nodes id with data := c.statics.data id } := by
  rw [h.statics]
  rfl

theorem update_statics (h : Mirrors c s) (id : Slot) (n : Node) (p : Option ℕ)
    (ht : t = { s with nodes := update s.nodes id n, heap := t.heap }) :
    ({ c.statics with
      nodes := update c.statics.nodes id { n with data := p } } : Okfs) =
      t.relabel (update c.statics.data id p) c.statics.heap := by
  have hnodes := update_relabel s c.statics.data c.statics.heap id n p
  rw [← h.statics] at hnodes
  rw [hnodes, ht, h.statics]
  rfl

/-- The copy at the end of `fs_set_file_data`, where there is room for it. -/
theorem storeFile (h : Mirrors c s) (hback : Backed s.heap (s.nodes id)) {bytes : Bytes}
    (hu : (s.nodes id).used = true)
    (hfit : (if append then (s.nodes id).size else 0) + bytes.length ≤ (s.nodes id).cap) :
    Advances c (c.storeFile id bytes newSize append)
      (FileSystem.storeFile s id bytes newSize append) := by
  have hstatics := h.update_statics id { s.nodes id with size := newSize }
    (c.statics.data id) (t := FileSystem.storeFile s id bytes newSize append) rfl
  unfold MemFs.storeFile
  rw [h.node_eq id]
  dsimp only
  have hused : (s.nodes id).used = false → (s.nodes id).data = none := fun hf => by
    rw [hu] at hf
    cases hf
  generalize hoff : (if append then (s.nodes id).size else 0) = off at hfit
  have hmem : update c.statics.data id (c.statics.data id) = c.statics.data := update_eq_self ..
  have hname : update s.data id (s.nodes id).data = s.data := update_eq_self ..
  cases hq : s.data id with
  | none =>
    have hcap := hback.null hq
    obtain rfl : bytes = [] := List.eq_nil_of_length_eq_zero (by omega)
    have hlive : (FileSystem.storeFile s id [] newSize append).heap.live = s.heap.live := by
      simp only [FileSystem.storeFile, show (s.nodes id).data = none from hq]
      rfl
    refine h.node none h.sound rfl hused ?_ ?_ (.owner id (fun _ _ => .inr rfl) fun _ _ _ => rfl)
      hstatics
    · rw [hmem]
      refine ⟨h.holders, ?_⟩
      rw [← h.holders.held_eq_none_iff.mpr (h.data_eq_none_iff.mpr hq), update_eq_self]
      rfl
    · dsimp only
      rw [hname, hlive]
      exact ⟨h.names, by rw [← h.names.held_eq_none_iff.mpr hq, update_eq_self]⟩
  | some q =>
    obtain ⟨p, buf, hpm, hbuf, hlive⟩ := h.buffer hq
    obtain ⟨-, buf', hlive', hlen⟩ := hback.live q hq
    obtain rfl : buf = buf' := Option.some.inj (hlive.symm.trans hlive')
    obtain ⟨hsound, hstored⟩ := h.sound.copyIn hbuf off bytes (by omega)
    have hwrite : (FileSystem.storeFile s id bytes newSize append).heap.live =
        BufferMap.write s.heap.live q off bytes := by
      simp only [FileSystem.storeFile, show (s.nodes id).data = some q from hq, hoff]
      rfl
    have haddr : (c.statics.data id).getD 0 + off = p + off := by rw [hpm, Option.getD_some]
    rw [haddr]
    refine h.node (some (overwrite off bytes buf)) hsound rfl hused ?_ ?_
      (.owner id (fun _ _ => .inr rfl) fun r _ hr => ?_) hstatics
    · rw [hmem, hstored]
      have hput := h.holders.write hpm off bytes
      rwa [hbuf] at hput
    · dsimp only
      rw [hname, hwrite]
      have hput := h.names.write hq off bytes
      rwa [hlive] at hput
    · rw [hstored, BufferMap.write, update_of_ne]
      rintro rfl
      exact hr hpm

/-- Making room on both sides, with one answer of `kmalloc`. -/
def Grows (c : MemFs) (s : Okfs) (id : Slot) (newSize : ℕ) (append : Bool) : Prop :=
  ∃ answer t d ok, FileSystem.growFile (fun _ _ => answer) s id newSize append = (t, ok) ∧
    c.growFile id newSize append = some (d, ok) ∧ Advances c d t ∧ (answer = none → ok = false)

theorem grows_of_fits (h : Mirrors c s) (hfit : newSize ≤ (s.nodes id).cap) :
    Grows c s id newSize append := by
  refine ⟨some fun _ => 0, s, c, true, growFile_of_fits hfit, ?_, h.advances, by simp⟩
  simp only [MemFs.growFile, h.node_eq id, if_pos hfit]

theorem grows_of_refused (h : Mirrors c s) (hlt : (s.nodes id).cap < newSize)
    {heap : Memory.Heap} (hsound : heap.Sound)
    (hcall : c.heap.kmalloc (nextCap (s.nodes id).cap newSize) = some (none, heap))
    (hsame : stored heap = stored c.heap) : Grows c s id newSize append := by
  refine ⟨none, _, { c with heap := heap }, false, growFile_of_null hlt rfl, ?_,
    ⟨⟨hsound, h.statics, ?_, h.names, ?_, h.idle⟩, ?_⟩, fun _ => rfl⟩
  · simp only [MemFs.growFile, h.node_eq id, if_neg (not_le.mpr hlt), hcall]
  · rw [hsame]
    exact h.holders
  · rw [hsame]
    exact h.holding
  · dsimp only
    rw [hsame]
    exact .refl _ _

theorem name_fresh (h : Mirrors c s) (hs : StorageInv s) (j : Slot) :
    s.data j ≠ some s.heap.calls := by
  intro hj
  cases hju : (s.nodes j).used with
  | false =>
    rw [h.idle j hju] at hj
    cases hj
  | true => exact lt_irrefl _ ((hs.backed j hju).live _ hj).1

theorem map_getD_range {buf : Bytes} {n : ℕ} (hlen : buf.length = n) :
    (List.range n).map (fun i => buf.getD i 0) = buf := by
  subst hlen
  apply List.ext_getElem (by simp)
  intro i _ hi
  simp [hi]

section Granted

variable {heap : Memory.Heap} {p newCap : ℕ} {buf : Bytes}

/-- `kmalloc` gives a file its first buffer. -/
theorem grows_first (h : Mirrors c s) (hs : StorageInv s) (hu : (s.nodes id).used = true)
    (hlt : (s.nodes id).cap < newSize) (hsound : heap.Sound)
    (hcall : c.heap.kmalloc (nextCap (s.nodes id).cap newSize) = some (some p, heap))
    (hp : stored c.heap p = none) (hlen : buf.length = nextCap (s.nodes id).cap newSize)
    (hstored : stored heap = update (stored c.heap) p (some buf)) (hq : s.data id = none) :
    Grows c s id newSize append := by
  have hnull : c.statics.data id = none := h.data_eq_none_iff.mpr hq
  have hstatics := fun (t : Okfs) => h.update_statics (t := t) id
    ((s.nodes id).grown s.heap.calls (nextCap (s.nodes id).cap newSize)) (some p)
  refine ⟨some fun i => buf.getD i 0, _, ⟨{ c.statics with
      nodes := update c.statics.nodes id
        ((s.nodes id).grown p (nextCap (s.nodes id).cap newSize)) }, heap⟩, true,
    growFile_first hq hlt (map_getD_range hlen), ?_, ?_, by simp⟩
  · simp only [MemFs.growFile, h.node_eq id, if_neg (not_le.mpr hlt), hcall, hnull, Node.grown]
  · refine h.node (some buf) hsound rfl (fun hf => ?_) ?_
      (h.names.acquire id (h.name_fresh hs) buf) (.owner id ?_ fun q hq _ => ?_)
      (hstatics _ rfl)
    · cases hu.symm.trans hf
    · rw [hstored]
      exact h.holders.acquire id (fun j hj => h.holders.live j p hj hp) buf
    · rintro q hq
      obtain rfl := Option.some.inj hq
      exact .inl hp
    · rw [hstored, update_of_ne]
      rintro rfl
      exact hq rfl

theorem exists_replaced (append : Bool) (hsound : heap.Sound) {old : ℕ} {obuf : Bytes}
    (hp : stored heap p = some buf) (hold : stored heap old = some obuf) (hne : p ≠ old) (size : ℕ)
    (hsize : size ≤ obuf.length) (hroom : size ≤ buf.length) :
    ∃ heap', (if append = true ∧ 0 < size then heap.copyFrom p old size else heap).kfree old =
        heap' ∧ heap'.Sound ∧ stored heap' =
      update (BufferMap.write (stored heap) p 0 (carried append size obuf)) old none := by
  refine ⟨_, rfl, ?_⟩
  unfold carried
  split_ifs
  · exact hsound.replace hp hold hne hroom hsize
  · rw [BufferMap.write_nil hp]
    exact hsound.kfree (by rw [hold]; simp)

/-- `kmalloc` gives a file a larger buffer. -/
theorem grows_again (h : Mirrors c s) (hs : StorageInv s) (hu : (s.nodes id).used = true)
    (hlt : (s.nodes id).cap < newSize) (hsound : heap.Sound)
    (hcall : c.heap.kmalloc (nextCap (s.nodes id).cap newSize) = some (some p, heap))
    (hp : stored c.heap p = none) (hlen : buf.length = nextCap (s.nodes id).cap newSize)
    (hcap : newSize ≤ nextCap (s.nodes id).cap newSize)
    (hstored : stored heap = update (stored c.heap) p (some buf)) {q : ℕ}
    (hq : s.data id = some q) : Grows c s id newSize append := by
  have hback := hs.backed id hu
  obtain ⟨old, obuf, hold, hobuf, hlive⟩ := h.buffer hq
  obtain ⟨hqlt, obuf', hlive', hsize⟩ := hback.live q hq
  obtain rfl : obuf = obuf' := Option.some.inj (hlive.symm.trans hlive')
  have hsizes := hback.size_le
  have hstatics := fun (t : Okfs) => h.update_statics (t := t) id
    ((s.nodes id).grown s.heap.calls (nextCap (s.nodes id).cap newSize)) (some p)
  have hfresh : ∀ j, c.statics.data j ≠ some p := fun j hj => h.holders.live j p hj hp
  have hne : p ≠ old := by
    rintro rfl
    exact hfresh id hold
  have hp' : stored heap p = some buf := by rw [hstored, update_self]
  have hold' : stored heap old = some obuf := by rw [hstored, update_of_ne hne.symm, hobuf]
  obtain ⟨heap', hheap', hsound', hstored'⟩ :=
    exists_replaced append hsound hp' hold' hne (s.nodes id).size (by omega) (by omega)
  refine ⟨some fun i => buf.getD i 0, _, ⟨{ c.statics with
      nodes := update c.statics.nodes id
        ((s.nodes id).grown p (nextCap (s.nodes id).cap newSize)) }, heap'⟩, true,
    growFile_again hq hlive hqlt.ne hlt (map_getD_range hlen), ?_, ?_, by simp⟩
  · simp only [MemFs.growFile, h.node_eq id, if_neg (not_le.mpr hlt), hcall, hold, hheap',
      Node.grown]
  · refine h.node (some (overwrite 0 (carried append (s.nodes id).size obuf) buf)) hsound' rfl
      (fun hf => ?_) ?_ (h.names.replace hq (h.name_fresh hs) buf _)
      (.owner id ?_ fun r hr hri => ?_)
      (hstatics _ rfl)
    · cases hu.symm.trans hf
    · rw [hstored', hstored]
      exact h.holders.replace hold hfresh buf _
    · rintro q hq
      obtain rfl := Option.some.inj hq
      exact .inl hp
    · have hrp : r ≠ p := by
        rintro rfl
        exact hr rfl
      have hrold : r ≠ old := by
        rintro rfl
        exact hri hold
      rw [hstored', update_of_ne hrold, BufferMap.write, update_of_ne hrp, hstored,
        update_of_ne hrp]

end Granted

theorem growFile (h : Mirrors c s) (append : Bool) (hs : StorageInv s)
    (hu : (s.nodes id).used = true) (hmax : newSize ≤ fsMaxFileSize) :
    Grows c s id newSize append := by
  by_cases hfit : newSize ≤ (s.nodes id).cap
  · exact h.grows_of_fits hfit
  have hlt := not_le.mp hfit
  have hcap : newSize ≤ nextCap (s.nodes id).cap newSize := newSize_le_nextCap hmax
  have hle : nextCap (s.nodes id).cap newSize ≤ fsMaxFileSize := min_le_right _ _
  obtain ⟨r, heap, hcall, hsound, hstep⟩ :=
    h.sound.kmalloc (n := nextCap (s.nodes id).cap newSize) (by omega) (hle.trans (by decide))
  rcases hstep.alloc_cases with ⟨rfl, hsame⟩ | ⟨p, buf, rfl, hp, hlen, hstored⟩
  · exact h.grows_of_refused hlt hsound hcall hsame
  cases hq : s.data id with
  | none => exact h.grows_first hs hu hlt hsound hcall hp hlen hstored hq
  | some q => exact h.grows_again hs hu hlt hsound hcall hp hlen hcap hstored hq

end Mirrors

/-- The call does the same over the heap as under `kmalloc`s that give one answer throughout;
a refusal is reported. -/
def Agrees (c : MemFs) (run : Allocator → Okfs × Except FsError Unit)
    (call : Option (MemFs × Except FsError Unit)) : Prop :=
  ∃ answer t d r, run (fun _ _ => answer) = (t, r) ∧ call = some (d, r) ∧ Advances c d t ∧
    (answer = none → r = .error .noSpace)

section Calls

variable {c : MemFs} {s t : Okfs} {id : Slot} {append : Bool}

theorem agrees_of_eq {d : MemFs} {r : Except FsError Unit} (h : Advances c d t)
    {run : Allocator → Okfs × Except FsError Unit} (hrun : ∀ alloc, run alloc = (t, r)) :
    Agrees c run (some (d, r)) :=
  ⟨some fun _ => 0, t, d, r, hrun _, rfl, h, by simp⟩

theorem Advances.trans {d e : MemFs} (h : Advances c d s) (h' : Advances d e t) : Advances c e t :=
  ⟨h'.mirrors, h.spares.trans h'.spares⟩

theorem Advances.agrees {d : MemFs} {run : Allocator → Okfs × Except FsError Unit}
    {call : Option (MemFs × Except FsError Unit)} (h : Advances c d s) (h' : Agrees d run call) :
    Agrees c run call := by
  obtain ⟨answer, t, e, r, hrun, hcall, hnext, hnone⟩ := h'
  exact ⟨answer, t, e, r, hrun, hcall, h.trans hnext, hnone⟩

namespace Mirrors

theorem fsSetFileData (h : Mirrors c s) (hs : StorageInv s) (hu : (s.nodes id).used = true)
    (data : Bytes) (len : ℕ) (append : Bool) :
    Agrees c (fun alloc => FileSystem.fsSetFileData alloc s id data len append)
      (c.fsSetFileData id data len append) := by
  have hsize : (c.statics.nodes id).size = (s.nodes id).size := by rw [h.node_eq]
  unfold MemFs.fsSetFileData FileSystem.fsSetFileData
  rw [hsize]
  by_cases hlen : fsMaxFileSize < len
  · simp only [if_pos hlen]
    exact agrees_of_eq h.advances fun _ => rfl
  simp only [if_neg hlen]
  by_cases hmax : fsMaxFileSize < (if append then (s.nodes id).size + len else len)
  · simp only [if_pos hmax]
    exact agrees_of_eq h.advances fun _ => rfl
  simp only [if_neg hmax]
  have hle := not_lt.mp hmax
  obtain ⟨answer, t, d, ok, hg, hd, hm, hnone⟩ := h.growFile append hs hu hle
  rw [hd]
  cases ok with
  | false => exact ⟨answer, t, d, .error .noSpace, by simp only [hg], rfl, hm, fun _ => rfl⟩
  | true =>
    obtain ⟨⟨hstorage, -⟩, htree, hcap, hkept, -⟩ := hs.growFile hu hle hg
    have hused : (t.nodes id).used = true :=
      (congrArg Shape.used (congrFun htree.1 id)).trans hu
    refine ⟨answer, _, _, .ok (), by simp only [hg], rfl,
      hm.trans (hm.mirrors.storeFile (hstorage.backed id hused) hused ?_),
      fun hn => by simpa using hnone hn⟩
    rw [length_readBytes, hkept]
    cases append with
    | false => simpa using hcap
    | true => simpa using hcap

theorem unbuffered (h : Mirrors c s) {run : Allocator → Okfs × Except FsError Unit}
    {r : Except FsError Unit} (hrun : ∀ alloc, run alloc = (t, r)) (hdata : t.data = s.data)
    (hheap : t.heap = s.heap) (hidle : ∀ i, (t.nodes i).used = false → t.data i = none)
    (heap : Buffers) :
    Agrees c run (some ({ c with statics := t.relabel c.statics.data heap }, r)) :=
  agrees_of_eq (h.withStatics hdata hheap hidle heap) hrun

theorem nodes_withEntry_of_ne {i parent : Slot} {name : Bytes} {type : FsType} (hi : i ≠ id) :
    (FileSystem.withEntry s id parent name type).nodes i = s.nodes i :=
  update_of_ne hi _ _

theorem nodes_withEntry_self {parent : Slot} {name : Bytes} {type : FsType} :
    (FileSystem.withEntry s id parent name type).nodes id =
      ⟨true, some parent, type, fsStrcpy name fsMaxName, none, 0, 0⟩ :=
  update_self ..

theorem data_withEntry (h : Mirrors c s) (hid : fsAllocNode s = some id) (parent : Slot)
    (name : Bytes) (type : FsType) :
    (FileSystem.withEntry s id parent name type).data = s.data := by
  have hfree : (s.nodes id).used = false := by simpa using List.find?_some hid
  funext i
  unfold Okfs.data
  by_cases hi : i = id
  · subst hi
    rw [nodes_withEntry_self]
    exact (h.idle i hfree).symm
  · rw [nodes_withEntry_of_ne hi]

theorem idle_withEntry (h : Mirrors c s) (hid : fsAllocNode s = some id) (parent : Slot)
    (name : Bytes) (type : FsType) (i : Slot)
    (hi : ((FileSystem.withEntry s id parent name type).nodes i).used = false) :
    (FileSystem.withEntry s id parent name type).data i = none := by
  rw [h.data_withEntry hid]
  by_cases hii : i = id
  · subst hii
    rw [nodes_withEntry_self] at hi
    cases hi
  · rw [nodes_withEntry_of_ne hii] at hi
    exact h.idle i hi

theorem withEntry (h : Mirrors c s) (hid : fsAllocNode s = some id) (parent : Slot)
    (name : Bytes) (type : FsType) : Advances c { c with statics :=
      (FileSystem.withEntry s id parent name type).relabel c.statics.data c.statics.heap }
      (FileSystem.withEntry s id parent name type) :=
  h.withStatics (h.data_withEntry hid parent name type) rfl
    (h.idle_withEntry hid parent name type) _

theorem fsWriteFile (h : Mirrors c s) (hs : StorageInv s) (path : Bytes)
    (data : Option Bytes) (len : ℕ) :
    Agrees c (fun alloc => FileSystem.fsWriteFile alloc s path data len)
      (c.fsWriteFile path data len) := by
  unfold MemFs.fsWriteFile FileSystem.fsWriteFile
  cases data with
  | none => exact agrees_of_eq h.advances fun _ => rfl
  | some data =>
    dsimp only
    have hresolve : fsResolveParent c.statics path = fsResolveParent s path := by
      rw [h.statics, fsResolveParent_relabel]
    rw [hresolve]
    cases fsResolveParent s path with
    | error err => exact agrees_of_eq h.advances fun _ => rfl
    | ok target =>
      obtain ⟨parent, name⟩ := target
      dsimp only
      have hfind : fsFindChild c.statics parent name = fsFindChild s parent name := by
        rw [h.statics, fsFindChild_relabel]
      rw [hfind]
      cases hf : fsFindChild s parent name with
      | some id =>
        have htype : (c.statics.nodes id).type = (s.nodes id).type := by rw [h.node_eq]
        have hused : (s.nodes id).used = true := (fsFindChild_some hf).2.1
        dsimp only
        rw [htype]
        by_cases hfile : (s.nodes id).type = .file
        · simp only [if_neg (not_not.mpr hfile)]
          exact h.fsSetFileData hs hused _ _ _
        · simp only [if_pos hfile]
          exact agrees_of_eq h.advances fun _ => rfl
      | none =>
        have hcreate := fsCreateEntry_relabel c.statics.heap
          (fun i => h.idle_heap (i := i)) parent name .file
        rw [← h.statics] at hcreate
        dsimp only
        rw [hcreate]
        rcases fsCreateEntry_cases s parent name .file with ⟨err, he⟩ | ⟨id, -, -, -, hid, he⟩
        · simp only [he]
          exact h.unbuffered (fun _ => rfl) rfl rfl h.idle _
        · simp only [he]
          have hnew := h.withEntry hid parent name .file
          refine hnew.agrees (hnew.mirrors.fsSetFileData
            (hs.withEntry id parent name .file).1 ?_ _ _ _)
          exact used_of_withEntry (SameTree.refl _)

theorem fsAppendFile (h : Mirrors c s) (hs : StorageInv s) (htree : TreeInv s) (path : Bytes)
    (data : Option Bytes) (len : ℕ) :
    Agrees c (fun alloc => FileSystem.fsAppendFile alloc s path data len)
      (c.fsAppendFile path data len) := by
  unfold MemFs.fsAppendFile FileSystem.fsAppendFile
  cases data with
  | none => exact agrees_of_eq h.advances fun _ => rfl
  | some data =>
    dsimp only
    have hresolve : fsResolve c.statics c.statics.cwd path false =
        fsResolve s s.cwd path false := by
      rw [h.statics, fsResolve_relabel, relabel_cwd]
    rw [hresolve]
    cases hr : fsResolve s s.cwd path false with
    | error err => exact agrees_of_eq h.advances fun _ => rfl
    | ok id =>
      have htype : (c.statics.nodes id).type = (s.nodes id).type := by rw [h.node_eq]
      have hname : (c.statics.nodes id).name = (s.nodes id).name := by rw [h.node_eq]
      have hused : (s.nodes id).used = true := (htree.fsResolve htree.cwd_used hr).1
      dsimp only
      rw [htype, hname]
      by_cases hfile : (s.nodes id).type = .file
      · simp only [if_neg (not_not.mpr hfile)]
        by_cases htxt : (!fsEndsWithTxt (s.nodes id).name) = true
        · simp only [if_pos htxt]
          exact agrees_of_eq h.advances fun _ => rfl
        · simp only [if_neg htxt]
          exact h.fsSetFileData hs hused _ _ _
      · simp only [if_pos hfile]
        exact agrees_of_eq h.advances fun _ => rfl

theorem fsRm (h : Mirrors c s) (htree : TreeInv s) (path : Bytes) :
    Agrees c (fun _ => FileSystem.fsRm s path) (some (c.fsRm path)) := by
  unfold MemFs.fsRm FileSystem.fsRm
  have hresolve : fsResolve c.statics c.statics.cwd path false =
      fsResolve s s.cwd path false := by
    rw [h.statics, fsResolve_relabel, relabel_cwd]
  rw [hresolve]
  cases hr : fsResolve s s.cwd path false with
  | error err => exact agrees_of_eq h.advances fun _ => rfl
  | ok id =>
    have hused : (s.nodes id).used = true := (htree.fsResolve htree.cwd_used hr).1
    have hchild : ((c.statics.nodes id).type = .dir ∧ (entrySlots.any fun i =>
        (c.statics.nodes i).used && (c.statics.nodes i).parent = some id) = true) ↔
        ((s.nodes id).type = .dir ∧ (entrySlots.any fun i =>
          (s.nodes i).used && (s.nodes i).parent = some id) = true) := by
      simp only [h.node_eq]
    dsimp only
    by_cases hzero : id = 0
    · simp only [if_pos hzero]
      exact agrees_of_eq h.advances fun _ => rfl
    simp only [if_neg hzero, hchild]
    by_cases hempty : (s.nodes id).type = .dir ∧ (entrySlots.any fun i =>
        (s.nodes i).used && (s.nodes i).parent = some id) = true
    · simp only [if_pos hempty]
      exact agrees_of_eq h.advances fun _ => rfl
    · obtain ⟨parent, hp, -⟩ := htree.parent id hzero hused
      obtain ⟨t, d, ht, hd, hm⟩ := h.removeNode hp
      simp only [if_neg hempty, hd]
      exact agrees_of_eq hm fun _ => ht

/-- An operation does the same over the heap. -/
theorem run (h : Mirrors c s) (hs : StorageInv s) (htree : TreeInv s) (op : Op) :
    Agrees c (fun alloc => op.run alloc s) (c.run op) := by
  cases op with
  | cd path =>
    have hcd := fsCd_relabel s c.statics.data c.statics.heap path
    rw [← h.statics] at hcd
    have hkept : (FileSystem.fsCd s path).1.nodes = s.nodes ∧
        (FileSystem.fsCd s path).1.heap = s.heap := by
      unfold FileSystem.fsCd
      cases fsResolve s s.cwd path true with
      | error err => exact ⟨rfl, rfl⟩
      | ok target =>
        dsimp only
        split_ifs <;> exact ⟨rfl, rfl⟩
    have hdata : (FileSystem.fsCd s path).1.data = s.data := by
      unfold Okfs.data
      rw [hkept.1]
    simp only [MemFs.run, hcd]
    refine h.unbuffered (fun _ => rfl) hdata hkept.2 (fun i hi => ?_) _
    rw [hdata]
    rw [hkept.1] at hi
    exact h.idle i hi
  | mkdir path =>
    have hmkdir := fsMkdir_relabel c.statics.heap (fun i => h.idle_heap (i := i)) path
    rw [← h.statics] at hmkdir
    simp only [MemFs.run, hmkdir]
    rcases fsMkdir_cases s path with ⟨err, he⟩ | ⟨id, parent, name, hnew, he⟩
    · rw [he]
      exact h.unbuffered (fun _ => he) rfl rfl h.idle _
    · rw [he]
      exact agrees_of_eq (h.withEntry hnew.slot parent name .dir) fun _ => he
  | touch path =>
    have htouch := fsTouch_relabel c.statics.heap (fun i => h.idle_heap (i := i)) path
    rw [← h.statics] at htouch
    simp only [MemFs.run, htouch]
    rcases fsTouch_cases s path with ⟨err, he⟩ | ⟨id, parent, name, -, -, he⟩ |
      ⟨id, parent, name, hnew, he⟩
    · rw [he]
      exact h.unbuffered (fun _ => he) rfl rfl h.idle _
    · rw [he]
      exact h.unbuffered (fun _ => he) rfl rfl h.idle _
    · rw [he]
      exact agrees_of_eq (h.withEntry hnew.slot parent name .file) fun _ => he
  | rm path => exact h.fsRm htree path
  | writeFile path data len => exact h.fsWriteFile hs path data len
  | appendFile path data len => exact h.fsAppendFile hs htree path data len

end Mirrors

end Calls

end OpenKernel.FileSystem
