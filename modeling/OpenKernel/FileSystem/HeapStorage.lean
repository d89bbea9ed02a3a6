import OpenKernel.FileSystem.Refinement
import OpenKernel.Memory.HeapStore

/-!
# OKFS in the heap

The file buffers of `fs.c` are allocations of `kmalloc`, next to those of the rest of the
kernel. Its operations over the heap are lists of loads and stores; they do what the node
table with named buffers does, whatever other code does in between with memory of its own.
-/

namespace OpenKernel.FileSystem

open Function BufferMap

/-- `fs.c` over the heap. The field `data` of a node is an address, and the buffers are those
of `heap`; the named buffers of `statics` play no part. -/
structure MemFs where
  statics : Okfs
  heap : Memory.Heap

namespace MemFs

variable (s : MemFs) (id : Slot)

/-- The part of `fs_set_file_data` that makes room for `newSize` bytes. -/
def growFile (newSize : ℕ) (append : Bool) : Option (MemFs × Bool) :=
  let node := s.statics.nodes id
  if newSize ≤ node.cap then some (s, true)
  else
    let newCap := nextCap node.cap newSize
    match s.heap.kmalloc newCap with
    | none => none
    | some (none, heap) => some ({ s with heap := heap }, false)
    | some (some nbuf, heap) =>
      let heap :=
        match node.data with
        | none => heap
        | some old =>
          (if append ∧ 0 < node.size then heap.copyFrom nbuf old node.size else heap).kfree old
      some ({
        statics := { s.statics with
          nodes := update s.statics.nodes id { node with data := some nbuf, cap := newCap } }
        heap := heap }, true)

/-- The copy at the end of `fs_set_file_data`. The source is no part of the buffer. -/
def storeFile (bytes : Bytes) (newSize : ℕ) (append : Bool) : MemFs :=
  let node := s.statics.nodes id
  { statics := { s.statics with nodes := update s.statics.nodes id { node with size := newSize } }
    heap := s.heap.copyIn (node.data.getD 0 + if append then node.size else 0) bytes }

def fsSetFileData (data : Bytes) (len : ℕ) (append : Bool) :
    Option (MemFs × Except FsError Unit) :=
  if fsMaxFileSize < len then some (s, .error .noSpace)
  else
    let newSize := if append then (s.statics.nodes id).size + len else len
    if fsMaxFileSize < newSize then some (s, .error .noSpace)
    else
      match s.growFile id newSize append with
      | none => none
      | some (s, false) => some (s, .error .noSpace)
      | some (s, true) => some (s.storeFile id (readBytes data len) newSize append, .ok ())

/-- The end of `fs_rm`: the buffer is freed, and the statics change as in `removeNode`. -/
def removeNode : MemFs × Except FsError Unit :=
  let (statics, r) := FileSystem.removeNode s.statics id
  ({ statics := statics
     heap :=
      match (s.statics.nodes id).data with
      | none => s.heap
      | some data => s.heap.kfree data }, r)

def fsRm (path : Bytes) : MemFs × Except FsError Unit :=
  match fsResolve s.statics s.statics.cwd path false with
  | .error err => (s, .error err)
  | .ok id =>
    if id = 0 then (s, .error .invalid)
    else if (s.statics.nodes id).type = .dir ∧
        entrySlots.any fun i => (s.statics.nodes i).used &&
          (s.statics.nodes i).parent = some id then
      (s, .error .notEmpty)
    else s.removeNode id

def fsWriteFile (path : Bytes) (data : Option Bytes) (len : ℕ) :
    Option (MemFs × Except FsError Unit) :=
  match data with
  | none => some (s, .error .invalid)
  | some data =>
    let len := if len = 0 then fsStrlen data else len
    match fsResolveParent s.statics path with
    | .error err => some (s, .error err)
    | .ok (parent, name) =>
      match fsFindChild s.statics parent name with
      | some id =>
        if (s.statics.nodes id).type ≠ .file then some (s, .error .notFile)
        else s.fsSetFileData id data len false
      | none =>
        match fsCreateEntry s.statics parent name .file with
        | (statics, .error err) => some ({ s with statics := statics }, .error err)
        | (statics, .ok id) => { s with statics := statics }.fsSetFileData id data len false

def fsAppendFile (path : Bytes) (data : Option Bytes) (len : ℕ) :
    Option (MemFs × Except FsError Unit) :=
  match data with
  | none => some (s, .error .invalid)
  | some data =>
    let len := if len = 0 then fsStrlen data else len
    match fsResolve s.statics s.statics.cwd path false with
    | .error err => some (s, .error err)
    | .ok id =>
      if (s.statics.nodes id).type ≠ .file then some (s, .error .notFile)
      else if !fsEndsWithTxt (s.statics.nodes id).name then some (s, .error .notTxt)
      else s.fsSetFileData id data len true

/-- The operations; `fs_cd`, `fs_mkdir` and `fs_touch` call neither `kmalloc` nor `kfree`. -/
def run : Op → Option (MemFs × Except FsError Unit)
  | .cd path => some ({ s with statics := (fsCd s.statics path).1 }, (fsCd s.statics path).2)
  | .mkdir path =>
    some ({ s with statics := (fsMkdir s.statics path).1 }, (fsMkdir s.statics path).2)
  | .touch path =>
    some ({ s with statics := (fsTouch s.statics path).1 }, (fsTouch s.statics path).2)
  | .rm path => some (s.fsRm path)
  | .writeFile path data len => s.fsWriteFile path data len
  | .appendFile path data len => s.fsAppendFile path data len

def bytesOf (i : Slot) : Bytes :=
  Memory.contents s.heap.mem ((s.statics.nodes i).data.getD 0) (s.statics.nodes i).size

end MemFs

def Okfs.relabel (s : Okfs) (data : Slot → Option ℕ) (heap : Buffers) : Okfs :=
  { s with nodes := fun i => { s.nodes i with data := data i }, heap := heap }

/-- The buffer of each node. -/
def Okfs.data (s : Okfs) (i : Slot) : Option ℕ := (s.nodes i).data

section Relabel

variable {s : Okfs} {data : Slot → Option ℕ} {heap : Buffers}

@[simp] theorem relabel_cwd : (s.relabel data heap).cwd = s.cwd := rfl

@[simp] theorem relabel_nodes (i : Slot) :
    (s.relabel data heap).nodes i = { s.nodes i with data := data i } := rfl

theorem fsFindChild_relabel (u : Slot) (name : Bytes) :
    fsFindChild (s.relabel data heap) u name = fsFindChild s u name := rfl

theorem fsAllocNode_relabel : fsAllocNode (s.relabel data heap) = fsAllocNode s := rfl

theorem fsResolveLoop_relabel (rounds : ℕ) (cur : Slot) (path : Bytes) :
    fsResolveLoop (s.relabel data heap) rounds cur path = fsResolveLoop s rounds cur path := by
  induction rounds generalizing cur path with
  | zero => rfl
  | succ rounds ih =>
    have henter : ∀ component, fsEnter (s.relabel data heap) cur component =
        fsEnter s cur component := fun _ => rfl
    simp only [fsResolveLoop, ih, henter]

theorem fsResolve_relabel (start : Slot) (path : Bytes) (wantDir : Bool) :
    fsResolve (s.relabel data heap) start path wantDir = fsResolve s start path wantDir := by
  unfold fsResolve
  simp only [fsResolveLoop_relabel]
  rfl

theorem fsResolveParent_relabel (path : Bytes) :
    fsResolveParent (s.relabel data heap) path = fsResolveParent s path := by
  unfold fsResolveParent
  simp only [fsResolve_relabel]
  rfl

theorem climb_relabel (rounds : ℕ) (cur : Slot) :
    climb (s.relabel data heap).nodes rounds cur = climb s.nodes rounds cur := by
  induction rounds generalizing cur with
  | zero => rfl
  | succ rounds ih =>
    simp only [climb, ih]
    rfl

theorem fsRebuildCwdPath_relabel :
    fsRebuildCwdPath (s.relabel data heap) = (fsRebuildCwdPath s).relabel data heap := by
  unfold fsRebuildCwdPath
  simp only [climb_relabel]
  rfl

theorem fsCd_relabel (s : Okfs) (data : Slot → Option ℕ) (heap : Buffers) (path : Bytes) :
    fsCd (s.relabel data heap) path = ((fsCd s path).1.relabel data heap, (fsCd s path).2) := by
  unfold fsCd
  rw [fsResolve_relabel, relabel_cwd]
  cases fsResolve s s.cwd path true with
  | error err => rfl
  | ok target =>
    have htype : ((s.relabel data heap).nodes target).type = (s.nodes target).type := rfl
    dsimp only
    rw [htype]
    by_cases hdir : (s.nodes target).type = .dir
    · rw [if_neg (not_not.mpr hdir), if_neg (not_not.mpr hdir)]
      exact Prod.ext (fsRebuildCwdPath_relabel (s := { s with cwd := target })) rfl
    · rw [if_pos hdir, if_pos hdir]

theorem update_relabel (s : Okfs) (data : Slot → Option ℕ) (heap : Buffers) (id : Slot) (n : Node)
    (p : Option ℕ) :
    update (s.relabel data heap).nodes id { n with data := p } =
      fun i => { update s.nodes id n i with data := update data id p i } := by
  funext i
  by_cases hi : i = id
  · subst hi
    rw [update_self, update_self, update_self]
  · rw [update_of_ne hi, update_of_ne hi, update_of_ne hi]
    rfl

/-- A new entry takes an idle slot, which has no buffer under either name. -/
theorem fsCreateEntry_relabel (heap : Buffers)
    (hidle : ∀ i, (s.nodes i).used = false → data i = none) (parent : Slot) (name : Bytes)
    (type : FsType) :
    fsCreateEntry (s.relabel data heap) parent name type =
      ((fsCreateEntry s parent name type).1.relabel data heap,
        (fsCreateEntry s parent name type).2) := by
  unfold fsCreateEntry
  rw [fsFindChild_relabel, fsAllocNode_relabel]
  split_ifs
  · rfl
  · rfl
  · rfl
  · cases ha : fsAllocNode s with
    | none => rfl
    | some id =>
      have hid : data id = none := by
        apply hidle
        simpa using List.find?_some ha
      have hsame : update data id none = data := by rw [← hid, update_eq_self]
      refine Prod.ext ?_ rfl
      have hnodes := update_relabel s data heap id
        ⟨true, some parent, type, fsStrcpy name fsMaxName, none, 0, 0⟩ none
      rw [hsame] at hnodes
      unfold Okfs.relabel at hnodes ⊢
      dsimp only at hnodes ⊢
      rw [hnodes]

theorem fsMkdir_relabel (heap : Buffers) (hidle : ∀ i, (s.nodes i).used = false → data i = none)
    (path : Bytes) :
    fsMkdir (s.relabel data heap) path =
      ((fsMkdir s path).1.relabel data heap, (fsMkdir s path).2) := by
  unfold fsMkdir
  rw [fsResolveParent_relabel]
  cases fsResolveParent s path with
  | error err => rfl
  | ok target =>
    obtain ⟨parent, name⟩ := target
    dsimp only
    split_ifs
    · rfl
    · rw [fsCreateEntry_relabel heap hidle]
      rcases fsCreateEntry s parent name .dir with ⟨t, err | id⟩ <;> rfl

theorem fsTouch_relabel (heap : Buffers) (hidle : ∀ i, (s.nodes i).used = false → data i = none)
    (path : Bytes) :
    fsTouch (s.relabel data heap) path =
      ((fsTouch s path).1.relabel data heap, (fsTouch s path).2) := by
  unfold fsTouch
  rw [fsResolveParent_relabel]
  cases fsResolveParent s path with
  | error err => rfl
  | ok target =>
    obtain ⟨parent, name⟩ := target
    dsimp only
    rw [fsFindChild_relabel]
    cases fsFindChild s parent name with
    | some existing =>
      have htype : ((s.relabel data heap).nodes existing).type = (s.nodes existing).type := rfl
      dsimp only
      rw [htype]
      split_ifs
      · rfl
      · rfl
    | none =>
      dsimp only
      rw [fsCreateEntry_relabel heap hidle]
      rcases fsCreateEntry s parent name .file with ⟨t, err | id⟩ <;> rfl

/-- The node without its buffer. -/
def detach (s : Okfs) (id : Slot) : Okfs :=
  { s with
    heap := s.heap.without (s.nodes id).data
    nodes := update s.nodes id { s.nodes id with data := none } }

/-- The slot is free again. -/
def vacate (s : Okfs) (id : Slot) : Okfs :=
  { s with nodes := update s.nodes id { s.nodes id with used := false, size := 0, cap := 0 } }

theorem removeNode_eq_vacate (s : Okfs) (id : Slot) : removeNode s id =
    if s.cwd = id then
      match (s.nodes id).parent with
      | none => (detach s id, .error .fault)
      | some parent => (vacate (fsRebuildCwdPath { detach s id with cwd := parent }) id, .ok ())
    else (vacate (detach s id) id, .ok ()) := by
  have hnode : (detach s id).nodes id = { s.nodes id with data := none } := update_self ..
  have hrebuilt : ∀ parent, (fsRebuildCwdPath { detach s id with cwd := parent }).nodes id =
    { s.nodes id with data := none } := fun _ => hnode
  unfold removeNode vacate
  rw [hnode]
  simp only [hrebuilt]
  rfl

theorem detach_relabel (s : Okfs) (data : Slot → Option ℕ) (heap : Buffers) (id : Slot) : ∃ heap',
    detach (s.relabel data heap) id = (detach s id).relabel (update data id none) heap' := by
  refine ⟨heap.without (data id), ?_⟩
  have hnodes := update_relabel s data heap id
    { s.nodes id with data := none } none
  unfold detach Okfs.relabel at *
  dsimp only at *
  rw [hnodes]

theorem vacate_relabel (id : Slot) :
    vacate (s.relabel data heap) id = (vacate s id).relabel data heap := by
  have hnodes := update_relabel s data heap id
    { s.nodes id with used := false, size := 0, cap := 0 } (data id)
  rw [update_eq_self] at hnodes
  unfold vacate Okfs.relabel at *
  dsimp only at *
  rw [hnodes]

theorem removeNode_relabel (s : Okfs) (data : Slot → Option ℕ) (heap : Buffers) (id : Slot) :
    ∃ heap',
    removeNode (s.relabel data heap) id =
      ((removeNode s id).1.relabel (update data id none) heap', (removeNode s id).2) := by
  obtain ⟨heap', hdetach⟩ := detach_relabel s data heap id
  refine ⟨heap', ?_⟩
  rw [removeNode_eq_vacate, removeNode_eq_vacate, hdetach, relabel_cwd, relabel_nodes]
  split_ifs
  · cases (s.nodes id).parent with
    | none => rfl
    | some parent =>
      have hcwd : ({ (detach s id).relabel (update data id none) heap' with
          cwd := parent } : Okfs) =
        Okfs.relabel { detach s id with cwd := parent } (update data id none) heap' := rfl
      dsimp only
      rw [hcwd, fsRebuildCwdPath_relabel, vacate_relabel]
  · rw [vacate_relabel]

end Relabel

end OpenKernel.FileSystem
