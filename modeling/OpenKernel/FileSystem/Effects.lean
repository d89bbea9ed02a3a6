import OpenKernel.FileSystem.Paths
import OpenKernel.FileSystem.Editor

/-!
# What the file system primitives change

The lookups of `fs.c` by what they find, and the primitives by what they leave
as it was. The tree of a state is its current directory and, for each node, the
fields that place and name it; the data of files and the editor are beside it.
-/

namespace OpenKernel.FileSystem

open Function

section Lookup

variable {s : Okfs} {parent i : Slot} {name : Bytes}

theorem mem_entrySlots : i ∈ entrySlots ↔ i ≠ 0 := by
  have hcons : List.finRange fsMaxNodes = 0 :: entrySlots := by
    change List.finRange (127 + 1) = 0 :: (List.finRange (127 + 1)).tail
    rw [List.finRange_succ]
    rfl
  have hnodup := List.nodup_finRange fsMaxNodes
  have hmem := List.mem_finRange i
  rw [hcons] at hnodup hmem
  constructor
  · rintro hi rfl
    exact (List.nodup_cons.mp hnodup).1 hi
  · exact (List.mem_cons.mp hmem).resolve_left

theorem fsFindChild_some (h : fsFindChild s parent name = some i) :
    i ≠ 0 ∧ (s.nodes i).used = true ∧ (s.nodes i).parent = some parent ∧
      (s.nodes i).name = name := by
  have hmem := mem_entrySlots.mp (List.mem_of_find?_eq_some h)
  have hp := List.find?_some h
  simp only [Bool.and_eq_true, decide_eq_true_eq] at hp
  exact ⟨hmem, hp.1.1, hp.1.2, hp.2⟩

theorem fsFindChild_none (h : fsFindChild s parent name = none) (hi : i ≠ 0)
    (hused : (s.nodes i).used = true) (hparent : (s.nodes i).parent = some parent) :
    (s.nodes i).name ≠ name := by
  intro hname
  have hp := List.find?_eq_none.mp h i (mem_entrySlots.mpr hi)
  simp [hused, hparent, hname] at hp

theorem fsAllocNode_some (h : fsAllocNode s = some i) : i ≠ 0 ∧ (s.nodes i).used = false := by
  have hmem := mem_entrySlots.mp (List.mem_of_find?_eq_some h)
  have hp := List.find?_some h
  exact ⟨hmem, by simpa using hp⟩

theorem fsAllocNode_none (h : fsAllocNode s = none) (hi : i ≠ 0) : (s.nodes i).used = true := by
  have hp := List.find?_eq_none.mp h i (mem_entrySlots.mpr hi)
  simpa using hp

/-- `fs_resolve_parent` gives the current directory or a resolved directory, and a name that
fits. -/
theorem fsResolveParent_ok {path : Bytes} (h : fsResolveParent s path = .ok (parent, name)) :
    name.length < fsMaxName ∧ (parent = s.cwd ∨
      ∃ start parentPath, (start = 0 ∨ start = s.cwd) ∧
        fsResolve s start parentPath true = .ok parent) := by
  have hlen : ∀ l : Bytes, (fsStrcpy l fsMaxName).length < fsMaxName := by
    intro l
    have hle := List.length_take_le (fsMaxName - 1) l
    unfold fsStrcpy
    unfold fsMaxName at *
    omega
  unfold fsResolveParent at h
  by_cases hp : fsMaxPath ≤ path.length
  · rw [if_pos hp] at h
    cases h
  rw [if_neg hp] at h
  dsimp only at h
  split at h
  · cases h
    exact ⟨hlen _, Or.inl rfl⟩
  · next front _ =>
    cases hr : fsResolve s (if path.head? = some slash then 0 else s.cwd)
        (if front = [] then [slash] else front.reverse) true with
    | error err =>
      rw [hr] at h
      cases h
    | ok id =>
      rw [hr] at h
      cases h
      refine ⟨hlen _, Or.inr ⟨_, _, ?_, hr⟩⟩
      by_cases hs : path.head? = some slash
      · exact Or.inl (if_pos hs)
      · exact Or.inr (if_neg hs)

end Lookup

/-- The fields of a node that place and name it. -/
structure Shape where
  used : Bool
  parent : Option Slot
  type : FsType
  name : Bytes

def Node.shape (n : Node) : Shape := ⟨n.used, n.parent, n.type, n.name⟩

def Okfs.shape (s : Okfs) (i : Slot) : Shape := (s.nodes i).shape

def fileBytes (s : Okfs) (i : Slot) : Bytes :=
  (s.heap.read (s.nodes i).data).take (s.nodes i).size

def SameTree (s t : Okfs) : Prop := t.shape = s.shape ∧ t.cwd = s.cwd

section Same

variable {s t u : Okfs} {alloc : Allocator} {id : Slot}

theorem SameTree.refl (s : Okfs) : SameTree s s := ⟨rfl, rfl⟩

theorem SameTree.trans (h : SameTree s t) (h' : SameTree t u) : SameTree s u :=
  ⟨h'.1.trans h.1, h'.2.trans h.2⟩

theorem sameTree_update {n : Node} (hn : t.nodes = update s.nodes id n)
    (hshape : n.shape = (s.nodes id).shape) (hcwd : t.cwd = s.cwd) : SameTree s t := by
  refine ⟨?_, hcwd⟩
  funext i
  unfold Okfs.shape
  rw [hn]
  by_cases hi : i = id
  · subst hi
    simpa using hshape
  · simp [hi]

end Same

def Buffers.without (h : Buffers) (data : Option ℕ) : Buffers :=
  match data with
  | none => h
  | some p => h.kfree p

section Buffers

variable {h : Buffers} {buf src : Bytes} {data : Option ℕ} {p q off : ℕ}

@[simp] theorem Buffers.calls_without : (h.without data).calls = h.calls := by
  cases data <;> rfl

theorem Buffers.kfree_of_live (hp : h.live p ≠ none) :
    h.kfree p = { h with live := update h.live p none } := by
  simp [kfree, Option.isSome_iff_ne_none.mpr hp]

theorem Buffers.clean_without (hdata : ∀ p, data = some p → h.live p ≠ none) :
    (h.without data).clean = h.clean := by
  cases data with
  | none => rfl
  | some p => rw [without, kfree_of_live (hdata p rfl)]

theorem Buffers.live_without_self (hp : data = some p) : (h.without data).live p = none := by
  subst hp
  exact update_self p none h.live

theorem Buffers.live_without_of_ne (hp : data ≠ some p) : (h.without data).live p = h.live p := by
  cases data with
  | none => rfl
  | some q =>
    have hpq : p ≠ q := by
      rintro rfl
      exact hp rfl
    exact update_of_ne hpq none h.live

@[simp] theorem Buffers.calls_write (data : Option ℕ) : (h.write data off src).calls = h.calls := by
  cases data <;> rfl

@[simp] theorem Buffers.clean_write (data : Option ℕ) : (h.write data off src).clean = h.clean := by
  cases data <;> rfl

theorem Buffers.live_write_self (off : ℕ) (src : Bytes) (hp : h.live p = some buf) :
    (h.write (some p) off src).live p =
      some (buf.take off ++ src ++ buf.drop (off + src.length)) := by
  simp [Buffers.write, hp]

theorem Buffers.live_write_of_ne (hq : q ≠ p) : (h.write (some p) off src).live q = h.live q := by
  simp [Buffers.write, hq]

theorem length_overwrite (hfit : off + src.length ≤ buf.length) :
    (buf.take off ++ src ++ buf.drop (off + src.length)).length = buf.length := by
  simp only [List.length_append, List.length_take, List.length_drop]
  omega

theorem take_overwrite (hfit : off + src.length ≤ buf.length) :
    (buf.take off ++ src ++ buf.drop (off + src.length)).take (off + src.length) =
      buf.take off ++ src := by
  have hlen : (buf.take off ++ src).length = off + src.length := by
    simp only [List.length_append, List.length_take]
    omega
  rw [← hlen, List.take_left]

theorem Buffers.copied (copy : Prop) [Decidable copy] (hp : h.live p = some buf)
    (hfit : src.length ≤ buf.length) :
    (if copy then h.write (some p) 0 src else h).calls = h.calls ∧
    (if copy then h.write (some p) 0 src else h).clean = h.clean ∧
    (∃ buf', (if copy then h.write (some p) 0 src else h).live p = some buf' ∧
      buf'.length = buf.length ∧ (copy → buf'.take src.length = src)) ∧
    ∀ q, q ≠ p → (if copy then h.write (some p) 0 src else h).live q = h.live q := by
  by_cases hc : copy
  · have hroom : 0 + src.length ≤ buf.length := by omega
    simp only [if_pos hc]
    refine ⟨calls_write _, clean_write _, ⟨_, live_write_self 0 src hp, length_overwrite hroom,
      fun _ => ?_⟩, fun q hq => live_write_of_ne hq⟩
    simp
  · rw [if_neg hc]
    exact ⟨rfl, rfl, ⟨buf, hp, rfl, fun h => absurd h hc⟩, fun q _ => rfl⟩

end Buffers

section FileData

variable {alloc : Allocator} {s : Okfs} {id : Slot} {newSize : ℕ} {append : Bool}

theorem growFile_of_fits (h : newSize ≤ (s.nodes id).cap) :
    growFile alloc s id newSize append = (s, true) := by
  simp [growFile, h]

theorem growFile_of_null (h : (s.nodes id).cap < newSize)
    (ha : alloc s.heap.calls (nextCap (s.nodes id).cap newSize) = none) :
    growFile alloc s id newSize append =
      ({ s with heap := { s.heap with calls := s.heap.calls + 1 } }, false) := by
  simp [growFile, not_le.mpr h, Buffers.kmalloc, ha]

/-- The heap after a file has got a larger buffer: the new buffer starts with the old bytes
where these are kept, the old one is freed, and the others are as before. -/
structure Regrown (h h' : Buffers) (node : Node) (newCap : ℕ) (append : Bool) : Prop where
  calls : h'.calls = h.calls + 1
  fresh : ∃ buf, h'.live h.calls = some buf ∧ buf.length = newCap ∧
    (append = true → buf.take node.size = (h.read node.data).take node.size)
  freed : ∀ p, node.data = some p → h'.live p = none
  other : ∀ p, node.data ≠ some p → p ≠ h.calls → h'.live p = h.live p
  clean : (∀ p, node.data = some p → h.live p ≠ none) → h'.clean = h.clean

/-- A fresh buffer, a copy of the old bytes where they are wanted, and the old buffer freed. -/
theorem regrown_of_copy {h : Buffers} {node : Node} {newCap : ℕ} {buf : Bytes} (copy : Prop)
    [Decidable copy] (hcopy : append = true → node.data ≠ none → 0 < node.size → copy)
    (hlen : buf.length = newCap) (hsize : node.size ≤ (h.read node.data).length)
    (hfit : node.size ≤ newCap) (hdata : node.data ≠ some h.calls) {h₁ : Buffers}
    (h₁_eq : h₁ = ⟨update h.live h.calls (some buf), h.calls + 1, h.clean⟩) :
    Regrown h ((if copy then h₁.write (some h.calls) 0 ((h₁.read node.data).take node.size)
      else h₁).without node.data) node newCap append := by
  have hread : h₁.read node.data = h.read node.data := by
    rw [h₁_eq]
    unfold Buffers.read
    cases hd : node.data with
    | none => rfl
    | some p =>
      have hp : p ≠ h.calls := by
        rintro rfl
        exact hdata hd
      simp [hp]
  have hsrc : ((h.read node.data).take node.size).length = node.size := by
    simpa using hsize
  have hfresh₁ : h₁.live h.calls = some buf := by
    rw [h₁_eq]
    exact update_self ..
  rw [hread]
  -- the heap between the copy and the release of the old buffer
  obtain ⟨hcalls, hclean, ⟨buf', hfresh, hlen', htake⟩, hother⟩ := Buffers.copied copy hfresh₁
    (show ((h.read node.data).take node.size).length ≤ buf.length by omega)
  rw [hsrc] at htake
  refine ⟨?_, ⟨buf', ?_, hlen'.trans hlen, fun happ => ?_⟩,
    fun p hp => Buffers.live_without_self hp, fun p hp hpk => ?_, fun hlive => ?_⟩
  · rw [Buffers.calls_without, hcalls, h₁_eq]
  · rw [Buffers.live_without_of_ne hdata, hfresh]
  · by_cases hzero : node.size = 0
    · simp [hzero]
    · refine htake (hcopy happ (fun hnone => ?_) (Nat.pos_of_ne_zero hzero))
      rw [hnone] at hsize
      exact hzero (by simpa [Buffers.read] using hsize)
  · rw [Buffers.live_without_of_ne hp, hother p hpk, h₁_eq]
    exact update_of_ne hpk _ _
  · rw [Buffers.clean_without, hclean, h₁_eq]
    intro p hp
    have hpk : p ≠ h.calls := by
      rintro rfl
      exact hdata hp
    rw [hother p hpk, h₁_eq]
    dsimp only
    rw [update_of_ne hpk]
    exact hlive p hp

theorem growFile_of_some (append : Bool) {fill : ℕ → UInt8} (h : (s.nodes id).cap < newSize)
    (ha : alloc s.heap.calls (nextCap (s.nodes id).cap newSize) = some fill)
    (hsize : (s.nodes id).size ≤ (s.heap.read (s.nodes id).data).length)
    (hfit : (s.nodes id).size ≤ nextCap (s.nodes id).cap newSize)
    (hdata : (s.nodes id).data ≠ some s.heap.calls) :
    ∃ heap, growFile alloc s id newSize append =
      ({ s with
        heap := heap
        nodes := update s.nodes id { s.nodes id with
          data := some s.heap.calls, cap := nextCap (s.nodes id).cap newSize } }, true) ∧
      Regrown s.heap heap (s.nodes id) (nextCap (s.nodes id).cap newSize) append := by
  simp only [growFile, if_neg (not_le.mpr h), Buffers.kmalloc, ha]
  refine ⟨_, rfl, ?_⟩
  exact regrown_of_copy (append = true ∧ (s.nodes id).data ≠ none ∧ 0 < (s.nodes id).size)
    (fun h₁ h₂ h₃ => ⟨h₁, h₂, h₃⟩) (by simp) hsize hfit hdata rfl

/-- The size of a file after storing `len` bytes. -/
def sizeAfter (s : Okfs) (id : Slot) (len : ℕ) (append : Bool) : ℕ :=
  if append then (s.nodes id).size + len else len

/-- `len` bytes can be stored: the sizes are in range, and if a larger buffer is needed then
`kmalloc` gives one. -/
def Fits (alloc : Allocator) (s : Okfs) (id : Slot) (len : ℕ) (append : Bool) : Prop :=
  len ≤ fsMaxFileSize ∧ sizeAfter s id len append ≤ fsMaxFileSize ∧
    (sizeAfter s id len append ≤ (s.nodes id).cap ∨
      alloc s.heap.calls (nextCap (s.nodes id).cap (sizeAfter s id len append)) ≠ none)

theorem fsSetFileData_of_fits {len : ℕ} (h : Fits alloc s id len append) (data : Bytes) :
    ∃ t, growFile alloc s id (sizeAfter s id len append) append = (t, true) ∧
      fsSetFileData alloc s id data len append =
        (storeFile t id (readBytes data len) (sizeAfter s id len append) append, .ok ()) := by
  obtain ⟨h₁, h₂, h₃⟩ := h
  have hgrow : (growFile alloc s id (sizeAfter s id len append) append).2 = true := by
    by_cases hcap : sizeAfter s id len append ≤ (s.nodes id).cap
    · rw [growFile_of_fits hcap]
    · obtain ⟨fill, ha⟩ := Option.ne_none_iff_exists'.mp (h₃.resolve_left hcap)
      simp [growFile, hcap, Buffers.kmalloc, ha]
  cases hg : growFile alloc s id (sizeAfter s id len append) append with
  | mk t ok =>
    rw [hg] at hgrow
    subst hgrow
    refine ⟨t, rfl, ?_⟩
    unfold sizeAfter at h₂ hg ⊢
    rw [fsSetFileData, if_neg (by omega)]
    dsimp only
    rw [if_neg (by omega), hg]

theorem fsSetFileData_of_not_fits {len : ℕ} (h : ¬ Fits alloc s id len append) (data : Bytes) :
    ∃ n, s.heap.calls ≤ n ∧ fsSetFileData alloc s id data len append =
      ({ s with heap := { s.heap with calls := n } }, .error .noSpace) := by
  unfold Fits sizeAfter at h
  unfold fsSetFileData
  by_cases h₁ : fsMaxFileSize < len
  · exact ⟨s.heap.calls, le_rfl, if_pos h₁⟩
  rw [if_neg h₁]
  dsimp only
  generalize (if append then (s.nodes id).size + len else len) = newSize at h ⊢
  by_cases h₂ : fsMaxFileSize < newSize
  · exact ⟨s.heap.calls, le_rfl, if_pos h₂⟩
  rw [if_neg h₂]
  have hcap : ¬ newSize ≤ (s.nodes id).cap :=
    fun hle => h ⟨not_lt.mp h₁, not_lt.mp h₂, Or.inl hle⟩
  have hnull : alloc s.heap.calls (nextCap (s.nodes id).cap newSize) = none := by
    by_contra hne
    exact h ⟨not_lt.mp h₁, not_lt.mp h₂, Or.inr hne⟩
  rw [growFile_of_null (not_le.mp hcap) hnull]
  exact ⟨s.heap.calls + 1, Nat.le_succ _, rfl⟩

theorem fsSetFileData_ok_iff {len : ℕ} (data : Bytes) :
    (fsSetFileData alloc s id data len append).2 = .ok () ↔ Fits alloc s id len append := by
  by_cases h : Fits alloc s id len append
  · obtain ⟨t, -, he⟩ := fsSetFileData_of_fits h data
    simp [he, h]
  · obtain ⟨n, -, he⟩ := fsSetFileData_of_not_fits h data
    simp [he, h]

end FileData

section Same

variable {s t : Okfs} {alloc : Allocator} {id : Slot}

theorem sameTree_growFile (newSize : ℕ) (append : Bool) :
    SameTree s (growFile alloc s id newSize append).1 := by
  by_cases h : newSize ≤ (s.nodes id).cap
  · rw [growFile_of_fits h]
    exact SameTree.refl s
  cases ha : alloc s.heap.calls (nextCap (s.nodes id).cap newSize) with
  | none =>
    rw [growFile_of_null (not_le.mp h) ha]
    exact ⟨rfl, rfl⟩
  | some fill =>
    simp only [growFile, if_neg h, Buffers.kmalloc, ha]
    exact sameTree_update rfl rfl rfl

theorem sameTree_storeFile (bytes : Bytes) (newSize : ℕ) (append : Bool) :
    SameTree s (storeFile s id bytes newSize append) :=
  sameTree_update (n := { s.nodes id with size := newSize }) rfl rfl rfl

theorem sameTree_fsSetFileData (data : Bytes) (len : ℕ) (append : Bool) :
    SameTree s (fsSetFileData alloc s id data len append).1 := by
  by_cases h : Fits alloc s id len append
  · obtain ⟨t, ht, he⟩ := fsSetFileData_of_fits h data
    have hgrow : SameTree s (growFile alloc s id (sizeAfter s id len append) append).1 :=
      sameTree_growFile _ append
    rw [ht] at hgrow
    rw [he]
    exact hgrow.trans (sameTree_storeFile _ _ _)
  · obtain ⟨n, -, he⟩ := fsSetFileData_of_not_fits h data
    rw [he]
    exact ⟨rfl, rfl⟩

end Same

section Creation

variable {s : Okfs} {parent : Slot} {name : Bytes} {type : FsType}

/-- The state with a new, empty entry in slot `id`. -/
def withEntry (s : Okfs) (id parent : Slot) (name : Bytes) (type : FsType) : Okfs :=
  { s with nodes := update s.nodes id ⟨true, some parent, type, fsStrcpy name fsMaxName, none, 0, 0⟩ }

theorem used_of_withEntry {id : Slot} {t : Okfs}
    (h : SameTree (withEntry s id parent name type) t) : (t.nodes id).used = true := by
  have hshape := congrArg Shape.used (congrFun h.1 id)
  simpa [Okfs.shape, withEntry, Node.shape] using hshape

theorem fsCreateEntry_of_ok {id : Slot} (hvalid : fsIsValidName name = true)
    (htext : type = .file → fsEndsWithTxt name = true) (hnew : fsFindChild s parent name = none)
    (hid : fsAllocNode s = some id) :
    fsCreateEntry s parent name type = (withEntry s id parent name type, .ok id) := by
  have ht : ¬ (type = .file ∧ (!fsEndsWithTxt name) = true) := by
    rintro ⟨hfile, hnot⟩
    simp [htext hfile] at hnot
  rw [fsCreateEntry, if_neg (by simp [hvalid]), if_neg ht, if_neg (by simp [hnew])]
  simp [hid, withEntry]

/-- A creation that is refused changes nothing. -/
theorem fsCreateEntry_cases (s : Okfs) (parent : Slot) (name : Bytes) (type : FsType) :
    (∃ err, fsCreateEntry s parent name type = (s, .error err)) ∨
    ∃ id, fsIsValidName name = true ∧ (type = .file → fsEndsWithTxt name = true) ∧
      fsFindChild s parent name = none ∧ fsAllocNode s = some id ∧
      fsCreateEntry s parent name type = (withEntry s id parent name type, .ok id) := by
  by_cases hvalid : fsIsValidName name = true
  · by_cases htext : type = .file ∧ (!fsEndsWithTxt name) = true
    · exact Or.inl ⟨.notTxt, by simp [fsCreateEntry, hvalid, htext]⟩
    · have htext' : type = .file → fsEndsWithTxt name = true := by
        intro hfile
        by_contra hnot
        exact htext ⟨hfile, by simpa using hnot⟩
      by_cases hnew : fsFindChild s parent name = none
      · cases hid : fsAllocNode s with
        | none =>
          refine Or.inl ⟨.full, ?_⟩
          rw [fsCreateEntry, if_neg (by simp [hvalid]), if_neg htext, if_neg (by simp [hnew])]
          simp [hid]
        | some id =>
          exact Or.inr ⟨id, hvalid, htext', hnew, rfl, fsCreateEntry_of_ok hvalid htext' hnew hid⟩
      · refine Or.inl ⟨.alreadyExists, ?_⟩
        rw [fsCreateEntry, if_neg (by simp [hvalid]), if_neg htext, if_pos hnew]
  · exact Or.inl ⟨.invalid, by simp [fsCreateEntry, hvalid]⟩

theorem removeNode_eq {id p : Slot} (hp : (s.nodes id).parent = some p) :
    ∃ t, removeNode s id = (t, .ok ()) ∧
      t.nodes = update s.nodes id { s.nodes id with used := false, data := none, size := 0, cap := 0 } ∧
      t.cwd = (if s.cwd = id then p else s.cwd) ∧ t.heap = s.heap.without (s.nodes id).data := by
  unfold removeNode
  dsimp only
  by_cases hc : s.cwd = id
  · rw [if_pos hc, if_pos hc, hp]
    refine ⟨_, rfl, ?_, rfl, rfl⟩
    simp [fsRebuildCwdPath]
  · rw [if_neg hc, if_neg hc]
    refine ⟨_, rfl, ?_, rfl, rfl⟩
    simp

end Creation

section Operations

variable {alloc : Allocator} {s : Okfs}

/-- An entry that a call with this path may make, in the slot `id`. -/
structure NewEntry (s : Okfs) (path : Bytes) (id parent : Slot) (name : Bytes) (type : FsType) :
    Prop where
  resolved : fsResolveParent s path = .ok (parent, name)
  valid : fsIsValidName name = true
  text : type = .file → fsEndsWithTxt name = true
  missing : fsFindChild s parent name = none
  slot : fsAllocNode s = some id

/-- `fs_mkdir` is refused, or makes a new entry. -/
theorem fsMkdir_cases (s : Okfs) (path : Bytes) :
    (∃ err, fsMkdir s path = (s, .error err)) ∨
    ∃ id parent name, NewEntry s path id parent name .dir ∧
      fsMkdir s path = (withEntry s id parent name .dir, .ok ()) := by
  unfold fsMkdir
  cases hr : fsResolveParent s path with
  | error err => exact Or.inl ⟨err, rfl⟩
  | ok r =>
    obtain ⟨parent, name⟩ := r
    dsimp only
    split_ifs
    · exact Or.inl ⟨.invalid, rfl⟩
    · rcases fsCreateEntry_cases s parent name .dir with
        ⟨err, he⟩ | ⟨id, hvalid, htext, hnew, hid, he⟩
      · rw [he]
        exact Or.inl ⟨.full, rfl⟩
      · rw [he]
        exact Or.inr ⟨id, parent, name, ⟨hr, hvalid, htext, hnew, hid⟩, rfl⟩

/-- `fs_touch` is refused, finds a file, or makes a new entry. -/
theorem fsTouch_cases (s : Okfs) (path : Bytes) :
    (∃ err, fsTouch s path = (s, .error err)) ∨
    (∃ id parent name, fsResolveParent s path = .ok (parent, name) ∧
      fsFindChild s parent name = some id ∧ fsTouch s path = (s, .ok ())) ∨
    ∃ id parent name, NewEntry s path id parent name .file ∧
      fsTouch s path = (withEntry s id parent name .file, .ok ()) := by
  unfold fsTouch
  cases hr : fsResolveParent s path with
  | error err => exact Or.inl ⟨err, rfl⟩
  | ok r =>
    obtain ⟨parent, name⟩ := r
    dsimp only
    cases hf : fsFindChild s parent name with
    | some id =>
      dsimp only
      split_ifs
      · exact Or.inl ⟨.notFile, rfl⟩
      · exact Or.inr (Or.inl ⟨id, parent, name, rfl, hf, rfl⟩)
    | none =>
      dsimp only
      rcases fsCreateEntry_cases s parent name .file with
        ⟨err, he⟩ | ⟨id, hvalid, htext, hnew, hid, he⟩
      · rw [he]
        exact Or.inl ⟨err, rfl⟩
      · rw [he]
        exact Or.inr (Or.inr ⟨id, parent, name, ⟨hr, hvalid, htext, hnew, hid⟩, rfl⟩)

/-- `fs_write_file` is refused, or stores into a file that is found or into a new one. -/
theorem fsWriteFile_cases (alloc : Allocator) (s : Okfs) (path : Bytes) (data : Option Bytes)
    (len : ℕ) :
    (∃ err, fsWriteFile alloc s path data len = (s, .error err)) ∨
    ∃ id parent name bytes n, fsResolveParent s path = .ok (parent, name) ∧
      ((fsFindChild s parent name = some id ∧ (s.nodes id).type = .file ∧
          fsWriteFile alloc s path data len = fsSetFileData alloc s id bytes n false) ∨
        (NewEntry s path id parent name .file ∧ fsWriteFile alloc s path data len =
          fsSetFileData alloc (withEntry s id parent name .file) id bytes n false)) := by
  unfold fsWriteFile
  cases data with
  | none => exact Or.inl ⟨.invalid, rfl⟩
  | some data =>
    dsimp only
    generalize (if len = 0 then fsStrlen data else len) = n
    cases hr : fsResolveParent s path with
    | error err => exact Or.inl ⟨err, rfl⟩
    | ok r =>
      obtain ⟨parent, name⟩ := r
      dsimp only
      cases hf : fsFindChild s parent name with
      | some id =>
        dsimp only
        split_ifs with htype
        · exact Or.inl ⟨.notFile, rfl⟩
        · exact Or.inr ⟨id, parent, name, data, n, rfl, Or.inl ⟨hf, not_not.mp htype, rfl⟩⟩
      | none =>
        dsimp only
        rcases fsCreateEntry_cases s parent name .file with
          ⟨err, he⟩ | ⟨id, hvalid, htext, hnew, hid, he⟩
        · rw [he]
          exact Or.inl ⟨err, rfl⟩
        · rw [he]
          exact Or.inr ⟨id, parent, name, data, n, rfl,
            Or.inr ⟨⟨hr, hvalid, htext, hnew, hid⟩, rfl⟩⟩

theorem fsWriteFile_rule (p : Okfs → Prop) (h : p s) {path : Bytes}
    (hentry : ∀ id parent name type, NewEntry s path id parent name type →
      p (withEntry s id parent name type))
    (hstore : ∀ u id data len, p u → (u.nodes id).used = true → (u.nodes id).type = .file →
      p (fsSetFileData alloc u id data len false).1)
    (data : Option Bytes) (len : ℕ) : p (fsWriteFile alloc s path data len).1 := by
  rcases fsWriteFile_cases alloc s path data len with
    ⟨err, he⟩ | ⟨id, parent, name, bytes, n, -, ⟨hf, htype, he⟩ | ⟨hnew, he⟩⟩
  · rw [he]
    exact h
  · rw [he]
    exact hstore s id bytes n h (fsFindChild_some hf).2.1 htype
  · have hnode : (withEntry s id parent name .file).nodes id =
        ⟨true, some parent, .file, fsStrcpy name fsMaxName, none, 0, 0⟩ := update_self ..
    rw [he]
    exact hstore _ id bytes n (hentry id parent name .file hnew) (by rw [hnode]) (by rw [hnode])

theorem fsMkdir_rule (p : Okfs → Prop) (h : p s) {path : Bytes}
    (hentry : ∀ id parent name type, NewEntry s path id parent name type →
      p (withEntry s id parent name type)) : p (fsMkdir s path).1 := by
  rcases fsMkdir_cases s path with ⟨err, he⟩ | ⟨id, parent, name, hnew, he⟩
  · rw [he]
    exact h
  · rw [he]
    exact hentry id parent name .dir hnew

theorem fsTouch_rule (p : Okfs → Prop) (h : p s) {path : Bytes}
    (hentry : ∀ id parent name type, NewEntry s path id parent name type →
      p (withEntry s id parent name type)) : p (fsTouch s path).1 := by
  rcases fsTouch_cases s path with
    ⟨err, he⟩ | ⟨id, parent, name, -, -, he⟩ | ⟨id, parent, name, hnew, he⟩
  · rw [he]
    exact h
  · rw [he]
    exact h
  · rw [he]
    exact hentry id parent name .file hnew

/-- Everything that an operation can do, where the nodes that paths lead to are in use. -/
theorem run_rule (p : Okfs → Prop) (h : p s)
    (hused : ∀ path id, fsResolve s s.cwd path false = .ok id → (s.nodes id).used = true)
    (hcd : ∀ path target, fsResolve s s.cwd path true = .ok target →
      p (fsRebuildCwdPath { s with cwd := target }))
    (hentry : ∀ path id parent name type, NewEntry s path id parent name type →
      p (withEntry s id parent name type))
    (hstore : ∀ u id data len append, p u → (u.nodes id).used = true → (u.nodes id).type = .file →
      p (fsSetFileData alloc u id data len append).1)
    (hremove : ∀ id, id ≠ 0 → (s.nodes id).used = true →
      ¬ ((s.nodes id).type = .dir ∧
        (entrySlots.any fun i => (s.nodes i).used && (s.nodes i).parent = some id) = true) →
      p (removeNode s id).1) (op : Op) :
    p (op.run alloc s).1 := by
  cases op with
  | cd path =>
    change p (fsCd s path).1
    unfold fsCd
    cases hr : fsResolve s s.cwd path true with
    | error err => exact h
    | ok target =>
      dsimp only
      split_ifs
      · exact h
      · exact hcd path target hr
  | mkdir path => exact fsMkdir_rule p h (hentry path)
  | touch path => exact fsTouch_rule p h (hentry path)
  | rm path =>
    change p (fsRm s path).1
    unfold fsRm
    cases hr : fsResolve s s.cwd path false with
    | error err => exact h
    | ok id =>
      dsimp only
      split_ifs with hzero hchild
      · exact h
      · exact h
      · exact hremove id hzero (hused path id hr) hchild
  | writeFile path data len =>
    exact fsWriteFile_rule p h (hentry path) (fun u id data len => hstore u id data len false)
      data len
  | appendFile path data len =>
    change p (fsAppendFile alloc s path data len).1
    unfold fsAppendFile
    cases data with
    | none => exact h
    | some data =>
      dsimp only
      generalize (if len = 0 then fsStrlen data else len) = len
      cases hr : fsResolve s s.cwd path false with
      | error err => exact h
      | ok id =>
        dsimp only
        by_cases htype : (s.nodes id).type = .file
        · rw [if_neg (not_not.mpr htype)]
          split_ifs
          · exact h
          · exact hstore s id data len true h (hused path id hr) htype
        · rw [if_pos htype]
          exact h

end Operations

/-- `t` has the nodes and the current directory of `s`. -/
def SameNodes (s t : Okfs) : Prop := t.nodes = s.nodes ∧ t.cwd = s.cwd

/-- `t` differs from `s` in the heap and the session only. -/
structure SessionOnly (s t : Okfs) : Prop where
  sameNodes : SameNodes s t
  cwdPath : t.cwdPath = s.cwdPath

/-- `t` differs from `s` in the heap and the edit buffer only. -/
def BufferOnly (s t : Okfs) : Prop := ∃ heap buf len cap, t = { s with
  heap := heap, editBuf := buf, editLen := len, editCap := cap }

section Editor

variable {s t u : Okfs} {alloc : Allocator}

theorem SameNodes.refl (s : Okfs) : SameNodes s s := ⟨rfl, rfl⟩

theorem SameNodes.trans (h : SameNodes s t) (h' : SameNodes t u) : SameNodes s u :=
  ⟨h'.1.trans h.1, h'.2.trans h.2⟩

theorem SameNodes.sameTree (h : SameNodes s t) : SameTree s t := by
  refine ⟨?_, h.2⟩
  funext i
  unfold Okfs.shape
  rw [h.1]

theorem SessionOnly.refl (s : Okfs) : SessionOnly s s := ⟨SameNodes.refl s, rfl⟩

theorem SessionOnly.trans (h : SessionOnly s t) (h' : SessionOnly t u) : SessionOnly s u :=
  ⟨h.sameNodes.trans h'.sameNodes, h'.cwdPath.trans h.cwdPath⟩

theorem SessionOnly.sameTree (h : SessionOnly s t) : SameTree s t := h.sameNodes.sameTree

theorem BufferOnly.refl (s : Okfs) : BufferOnly s s := ⟨_, _, _, _, rfl⟩

theorem BufferOnly.trans (h : BufferOnly s t) (h' : BufferOnly t u) : BufferOnly s u := by
  obtain ⟨_, _, _, _, rfl⟩ := h
  obtain ⟨_, _, _, _, rfl⟩ := h'
  exact ⟨_, _, _, _, rfl⟩

theorem BufferOnly.sessionOnly (h : BufferOnly s t) : SessionOnly s t := by
  obtain ⟨_, _, _, _, rfl⟩ := h
  exact ⟨⟨rfl, rfl⟩, rfl⟩

theorem bufferOnly_growEditBuf (need : ℕ) : BufferOnly s (growEditBuf alloc s need).1 := by
  unfold growEditBuf
  split_ifs
  · exact BufferOnly.refl s
  · dsimp only
    split
    · exact ⟨_, _, _, _, rfl⟩
    · exact ⟨_, _, _, _, rfl⟩

theorem bufferOnly_editBufAppend (text : Bytes) :
    BufferOnly s (editBufAppend alloc s text).1 := by
  unfold editBufAppend
  dsimp only
  split_ifs
  · exact BufferOnly.refl s
  · have hgrow : BufferOnly s (growEditBuf alloc s (s.editLen + text.length)).1 :=
      bufferOnly_growEditBuf _
    cases hg : growEditBuf alloc s (s.editLen + text.length) with
    | mk t ok =>
      rw [hg] at hgrow
      cases ok with
      | false => exact hgrow
      | true => exact hgrow.trans ⟨_, _, _, _, rfl⟩

theorem sessionOnly_closeSession : SessionOnly s (closeSession s) := ⟨⟨rfl, rfl⟩, rfl⟩

theorem bufferOnly_replaceLoop (idx : ℤ) (text : Bytes) (rounds : ℕ) (cur : ℤ) (old : Bytes) :
    BufferOnly s (replaceLoop alloc idx text rounds s cur old) := by
  induction rounds generalizing s cur old with
  | zero => exact BufferOnly.refl s
  | succ rounds ih =>
    unfold replaceLoop
    by_cases hold : old = []
    · rw [if_pos hold]
      exact BufferOnly.refl s
    rw [if_neg hold]
    dsimp only
    generalize (if cur = idx then text else old.takeWhile (· ≠ newline)) = line
    have hline : BufferOnly s (editBufAppend alloc s line).1 := bufferOnly_editBufAppend line
    cases old.dropWhile (· ≠ newline) with
    | nil => exact hline
    | cons c rest => exact (hline.trans (bufferOnly_editBufAppend _)).trans (ih _ _)

theorem bufferOnly_replaceLine (idx : ℤ) (text : Bytes) :
    BufferOnly s (replaceLine alloc s idx text) := by
  have hempty : BufferOnly s { s with editBuf := none, editLen := 0, editCap := 0 } :=
    ⟨_, _, _, _, rfl⟩
  have hloop : BufferOnly s (replaceLoop alloc idx text ((editText s).length + 1)
      { s with editBuf := none, editLen := 0, editCap := 0 } 0 (editText s)) :=
    hempty.trans (bufferOnly_replaceLoop idx text _ 0 (editText s))
  unfold replaceLine
  dsimp only
  cases s.editBuf with
  | none => exact hloop
  | some buf => exact hloop.trans ⟨_, _, _, _, rfl⟩

/-- What the command `:e` does: nothing, it fetches a line, or it replaces one. -/
theorem editCommand_rule (p : Okfs → Prop) (h : p s)
    (hfetch : ∀ line ln, p { s with
      editPendingLine := line, editPendingLineValid := true, editTargetLine := ln })
    (hreplace : ∀ idx text, p (replaceLine alloc s idx text)) (arg : Bytes) :
    p (editCommand alloc s arg).1 := by
  unfold editCommand
  cases parseNumber 0 arg with
  | mk ln rest =>
    dsimp only
    split_ifs
    · exact h
    · exact h
    · exact h
    · cases rest with
      | nil =>
        dsimp only
        cases editFetchLine s ln fsMaxPath with
        | none => exact h
        | some line => exact hfetch line ln
      | cons c text =>
        dsimp only
        split_ifs
        · exact h
        · exact hreplace _ text

/-- The lines that end the session, or try to. -/
def closing : List Bytes := [ascii ":save", ascii ":w", ascii ":q", ascii ":quit"]

theorem mem_closing {line : Bytes} : line ∈ closing ↔
    (line = ascii ":save" ∨ line = ascii ":w") ∨ line = ascii ":q" ∨ line = ascii ":quit" := by
  simp [closing, or_assoc]

theorem handleCommand_of_quit {line : Bytes} (h : line = ascii ":q" ∨ line = ascii ":quit") :
    handleCommand alloc s line = (closeSession s, .ok (), [ascii "Edit cancelled."]) := by
  have hsave : ¬ (line = ascii ":save" ∨ line = ascii ":w") := by
    rcases h with rfl | rfl
    · decide
    · decide
  unfold handleCommand
  rw [if_neg hsave, if_pos h]

/-- Any other line appends to the edit buffer or is the command `:e`. -/
theorem handleCommand_rule (p : Okfs → Prop) (h : p s)
    (happend : ∀ u text, p u → p (editBufAppend alloc u text).1) {line : Bytes}
    (hcommand : line.take 3 = ascii ":e " → p (editCommand alloc s (line.drop 3)).1)
    (hline : line ∉ closing) : p (handleCommand alloc s line).1 := by
  rw [mem_closing, not_or] at hline
  unfold handleCommand
  rw [if_neg hline.1, if_neg hline.2]
  split_ifs with hprint hempty hedit
  · exact h
  · exact h
  · exact hcommand hedit
  · have hfirst := happend s line h
    cases hr : editBufAppend alloc s line with
    | mk t r =>
      rw [hr] at hfirst
      cases r with
      | error err => exact hfirst
      | ok _ =>
        have hsecond := happend t [newline] hfirst
        dsimp only
        cases hr' : editBufAppend alloc t [newline] with
        | mk u r =>
          rw [hr'] at hsecond
          cases r <;> exact hsecond

theorem not_mem_closing {line : Bytes} (h : line.take 3 = ascii ":e ") : line ∉ closing := by
  intro hmem
  have hnone : ∀ l ∈ closing, l.take 3 ≠ ascii ":e " := by decide
  exact hnone line hmem h

/-- A line of the shell is one command, once the target line is dealt with. -/
theorem fsEditHandleLine_rule (p : Okfs → Prop) (h : p s) {line : Bytes} (hline : line ∉ closing)
    (hcommand : ∀ u line', line' ∉ closing → u = s ∨ u = { s with editTargetLine := 0 } →
      p (handleCommand alloc u line').1) : p (fsEditHandleLine alloc s line).1 := by
  unfold fsEditHandleLine
  split_ifs
  · exact h
  · refine hcommand _ _ (not_mem_closing ?_) (Or.inr rfl)
    have hmin : min 3 (fsCmdTextMax - 2) = 3 := by decide
    have hthree : (ascii ":e ").length = 3 := by decide
    rw [List.take_take, hmin, List.append_assoc, List.append_assoc, ← hthree, List.take_left]
  · exact hcommand _ _ hline (Or.inr rfl)
  · exact hcommand _ _ hline (Or.inl rfl)

theorem sessionOnly_editCommand (arg : Bytes) : SessionOnly s (editCommand alloc s arg).1 := by
  apply editCommand_rule
  · exact SessionOnly.refl s
  · intro line ln
    exact ⟨⟨rfl, rfl⟩, rfl⟩
  · intro idx text
    exact (bufferOnly_replaceLine idx text).sessionOnly

/-- The session `fs_edit_begin` sets up before it loads the file. -/
def opened (s : Okfs) (path : Bytes) : Okfs :=
  { editBufFree s with editActive := true, editPath := fsStrcpy path fsMaxPath }

/-- Everything that opening a file can do. -/
theorem fsEditBegin_cases (alloc : Allocator) (s : Okfs) (path : Bytes) :
    (∃ err, fsEditBegin alloc s path = (s, .error err)) ∨
    fsEditBegin alloc s path = (opened s path, .ok ()) ∨
    (∃ text t, editBufAppend alloc (opened s path) text = (t, .ok ()) ∧
      fsEditBegin alloc s path = (t, .ok ())) ∨
    ∃ text t err, editBufAppend alloc (opened s path) text = (t, .error err) ∧
      fsEditBegin alloc s path = ({ t with editActive := false, editPath := [] }, .error err) := by
  unfold fsEditBegin
  split_ifs
  · exact Or.inl ⟨_, rfl⟩
  cases fsResolve s s.cwd path false with
  | error err => exact Or.inl ⟨_, rfl⟩
  | ok id =>
    dsimp only
    split_ifs
    · exact Or.inl ⟨_, rfl⟩
    · exact Or.inl ⟨_, rfl⟩
    · generalize ((editBufFree s).heap.read ((editBufFree s).nodes id).data).take
        ((editBufFree s).nodes id).size = text
      have hopened : ({ editBufFree s with
        editActive := true, editPath := fsStrcpy path fsMaxPath } : Okfs) = opened s path := rfl
      rw [hopened]
      cases hr : editBufAppend alloc (opened s path) text with
      | mk t r =>
        cases r with
        | error err => exact Or.inr (Or.inr (Or.inr ⟨text, t, err, hr, rfl⟩))
        | ok _ => exact Or.inr (Or.inr (Or.inl ⟨text, t, hr, rfl⟩))
    · exact Or.inr (Or.inl rfl)

theorem sessionOnly_fsEditBegin (path : Bytes) : SessionOnly s (fsEditBegin alloc s path).1 := by
  have hopened : SessionOnly s (opened s path) := ⟨⟨rfl, rfl⟩, rfl⟩
  have happend : ∀ text, SessionOnly s (editBufAppend alloc (opened s path) text).1 :=
    fun text => hopened.trans (bufferOnly_editBufAppend text).sessionOnly
  rcases fsEditBegin_cases alloc s path with ⟨err, he⟩ | he | ⟨text, t, hr, he⟩ |
    ⟨text, t, err, hr, he⟩
  · rw [he]
    exact SessionOnly.refl s
  · rw [he]
    exact hopened
  · have htext := happend text
    rw [hr] at htext
    rw [he]
    exact htext
  · have htext := happend text
    rw [hr] at htext
    rw [he]
    exact htext.trans ⟨⟨rfl, rfl⟩, rfl⟩

theorem sessionOnly_handleCommand {line : Bytes} (hline : line ∉ closing) :
    SessionOnly s (handleCommand alloc s line).1 := by
  apply handleCommand_rule
  · exact SessionOnly.refl s
  · intro u text hu
    exact hu.trans (bufferOnly_editBufAppend text).sessionOnly
  · intro _
    exact sessionOnly_editCommand _
  · exact hline

/-- A handled line writes the file, or changes the session only. -/
theorem handleCommand_cases (alloc : Allocator) (s : Okfs) (line : Bytes) :
    SessionOnly s (handleCommand alloc s line).1 ∨
    ∃ data len, SessionOnly (fsWriteFile alloc s s.editPath data len).1
      (handleCommand alloc s line).1 := by
  by_cases hline : line ∈ closing
  · rcases mem_closing.mp hline with hsave | hquit
    · refine Or.inr ⟨s.editBuf.map fun p => s.heap.read (some p), s.editLen, ?_⟩
      unfold handleCommand
      rw [if_pos hsave]
      cases fsWriteFile alloc s s.editPath (s.editBuf.map fun p => s.heap.read (some p))
          s.editLen with
      | mk t r =>
        cases r with
        | error err => exact SessionOnly.refl t
        | ok _ => exact sessionOnly_closeSession
    · rw [handleCommand_of_quit hquit]
      exact Or.inl sessionOnly_closeSession
  · exact Or.inl (sessionOnly_handleCommand hline)

theorem fsEditHandleLine_cases (line : Bytes) :
    SessionOnly s (fsEditHandleLine alloc s line).1 ∨
    ∃ u data len, SessionOnly s u ∧ SessionOnly (fsWriteFile alloc u u.editPath data len).1
      (fsEditHandleLine alloc s line).1 := by
  have key : ∀ u line', SessionOnly s u → SessionOnly s (handleCommand alloc u line').1 ∨
      ∃ u' data len, SessionOnly s u' ∧ SessionOnly (fsWriteFile alloc u' u'.editPath data len).1
        (handleCommand alloc u line').1 := by
    intro u line' hu
    rcases handleCommand_cases alloc u line' with h | ⟨data, len, h⟩
    · exact Or.inl (hu.trans h)
    · exact Or.inr ⟨u, data, len, hu, h⟩
  unfold fsEditHandleLine
  split_ifs
  · exact Or.inl (SessionOnly.refl s)
  · exact key _ _ ⟨⟨rfl, rfl⟩, rfl⟩
  · exact key _ _ ⟨⟨rfl, rfl⟩, rfl⟩
  · exact key _ _ (SessionOnly.refl s)

theorem sessionOnly_fsEditGetPendingLine : SessionOnly s (fsEditGetPendingLine s).1 := by
  unfold fsEditGetPendingLine
  split_ifs
  · exact ⟨⟨rfl, rfl⟩, rfl⟩
  · exact SessionOnly.refl s

end Editor

end OpenKernel.FileSystem
