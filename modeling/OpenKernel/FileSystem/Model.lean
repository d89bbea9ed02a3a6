import OpenKernel.Lib.Transition
import Mathlib.Algebra.GroupWithZero.Nat
import Mathlib.Data.Fin.Basic
import Mathlib.Data.List.FinRange

/-!
# OKFS

The node table of `fs.c`, its two path walkers and its operations. A C string is
the list of its bytes before the terminating NUL. A node index is a position in
`nodes`, and the index -1 is `none`. Buffers are named by the call of `kmalloc`
that returned them; which calls fail, and what fresh buffers hold, is a parameter.
-/

namespace OpenKernel.FileSystem

abbrev Bytes := List UInt8

def ascii (s : String) : Bytes := s.toList.map Char.toUInt8

def slash : UInt8 := 47

def backslash : UInt8 := 92

def dot : Bytes := [46]

def dotDot : Bytes := [46, 46]

def fsMaxNodes : ℕ := 128

def fsMaxName : ℕ := 48

def fsMaxPath : ℕ := 256

def fsMaxFileSize : ℕ := 64 * 1024

abbrev Slot := Fin fsMaxNodes

instance : NeZero fsMaxNodes := ⟨by decide⟩

/-- The `FS_ERR_*` codes. `fault` is an access outside `nodes`. -/
inductive FsError
  | notFound
  | alreadyExists
  | notDir
  | notFile
  | notTxt
  | noSpace
  | invalid
  | full
  | notEmpty
  | fault
  deriving DecidableEq, Repr

inductive FsType
  | dir
  | file
  deriving DecidableEq, Repr

structure Node where
  used : Bool
  parent : Option Slot
  type : FsType
  name : Bytes
  data : Option ℕ
  size : ℕ
  cap : ℕ
  deriving DecidableEq

/-- The buffers not freed yet, the number of calls of `kmalloc` so far, and whether all that has
been freed was live. -/
structure Buffers where
  live : ℕ → Option Bytes
  calls : ℕ
  clean : Bool

/-- What `kmalloc` answers, by the number of the call and the size: null or fresh bytes. -/
abbrev Allocator := ℕ → ℕ → Option (ℕ → UInt8)

namespace Buffers

variable (h : Buffers)

def kmalloc (alloc : Allocator) (size : ℕ) : Option ℕ × Buffers :=
  match alloc h.calls size with
  | none => (none, { h with calls := h.calls + 1 })
  | some fill =>
    (some h.calls,
      { h with
        live := Function.update h.live h.calls (some ((List.range size).map fill))
        calls := h.calls + 1 })

def kfree (p : ℕ) : Buffers :=
  { h with live := Function.update h.live p none, clean := h.clean && (h.live p).isSome }

/-- The bytes of a buffer, none for a null pointer. -/
def read (p : Option ℕ) : Bytes := (p.bind h.live).getD []

/-- Copy `src` into a buffer from position `off` on. -/
def write (p : Option ℕ) (off : ℕ) (src : Bytes) : Buffers :=
  match p with
  | none => h
  | some p =>
    { h with live := Function.update h.live p ((h.live p).map fun buf =>
        buf.take off ++ src ++ buf.drop (off + src.length)) }

end Buffers

/-- The statics of `fs.c`. -/
structure Okfs where
  nodes : Slot → Node
  cwd : Slot
  cwdPath : Bytes
  heap : Buffers
  editActive : Bool
  editPath : Bytes
  editBuf : Option ℕ
  editLen : ℕ
  editCap : ℕ
  editPendingLine : Bytes
  editPendingLineValid : Bool
  editTargetLine : ℤ

section Strings

def fsStrlen (s : Bytes) : ℕ := (s.takeWhile (· ≠ 0)).length

def fsStrcpy (src : Bytes) (max : ℕ) : Bytes := src.take (max - 1)

def fsEndsWithTxt (name : Bytes) : Bool :=
  4 ≤ name.length && name.drop (name.length - 4) = ascii ".txt"

def fsIsValidName (name : Bytes) : Bool :=
  name ≠ [] && name ≠ dot && name ≠ dotDot && name.all fun c => c ≠ slash && c ≠ backslash

/-- The first `len` bytes behind a `const char *`. -/
def readBytes (data : Bytes) (len : ℕ) : Bytes := (List.range len).map fun i => data.getD i 0

end Strings

section Nodes

variable (s : Okfs)

/-- All indices but 0. -/
def entrySlots : List Slot := (List.finRange fsMaxNodes).tail

def fsAllocNode : Option Slot := entrySlots.find? fun i => !(s.nodes i).used

def fsFindChild (parent : Slot) (name : Bytes) : Option Slot :=
  entrySlots.find? fun i =>
    (s.nodes i).used && (s.nodes i).parent = some parent && (s.nodes i).name = name

/-- The `stack` of `fs_rebuild_cwd_path`: the nodes from `cur` up, without the root. -/
def climb (nodes : Slot → Node) : ℕ → Slot → List Slot
  | 0, _ => []
  | rounds + 1, cur =>
    if cur = 0 then []
    else
      match (nodes cur).parent with
      | none => [cur]
      | some parent => cur :: climb nodes rounds parent

/-- The loop of `fs_rebuild_cwd_path` that joins the names. -/
def joinNames (path : Bytes) : List Bytes → Bytes
  | [] => path
  | name :: names =>
    let path :=
      if path ≠ [] ∧ path.getLast? ≠ some slash then
        if path.length < fsMaxPath - 1 then path ++ [slash] else path
      else path
    if fsMaxPath - 1 ≤ path.length + name.length then path else joinNames (path ++ name) names

def fsRebuildCwdPath : Okfs :=
  let names := (climb s.nodes fsMaxNodes s.cwd).reverse.map fun id => (s.nodes id).name
  let path := if s.cwd = 0 then [slash] else joinNames [] names
  { s with cwdPath := if path = [] then [slash] else path }

end Nodes

section Resolution

variable (s : Okfs)

def fsEnter (cur : Slot) (component : Bytes) : Except FsError Slot :=
  if component = [] then .ok cur
  else if component = dot then .ok cur
  else if component = dotDot then
    if cur = 0 then .ok cur
    else
      match (s.nodes cur).parent with
      | none => .error .fault
      | some parent => .ok parent
  else
    match fsFindChild s cur component with
    | none => .error .notFound
    | some child => .ok child

/-- The outer loop of `fs_resolve` at the rest `path` of its argument, which every round
shortens. -/
def fsResolveLoop : ℕ → Slot → Bytes → Except FsError Slot
  | 0, _, _ => .error .fault
  | rounds + 1, cur, path =>
    if path = [] then .ok cur
    else
      let component := path.takeWhile (· ≠ slash)
      if fsMaxName - 1 < component.length then .error .invalid
      else
        let rest := (path.dropWhile (· ≠ slash)).dropWhile (· = slash)
        match fsEnter s cur component with
        | .error err => .error err
        | .ok next => fsResolveLoop rounds next rest

def fsResolve (start : Slot) (path : Bytes) (wantDir : Bool) : Except FsError Slot :=
  if path = [] then .error .invalid
  else
    let cur := if path.head? = some slash then 0 else start
    match fsResolveLoop s (path.length + 1) cur (path.dropWhile (· = slash)) with
    | .error err => .error err
    | .ok id => if wantDir ∧ (s.nodes id).type ≠ .dir then .error .notDir else .ok id

/-- `fs_resolve_parent`: the parent and the name. The search for the last slash runs from the
end of the path. -/
def fsResolveParent (path : Bytes) : Except FsError (Slot × Bytes) :=
  if fsMaxPath ≤ path.length then .error .invalid
  else
    let name := fsStrcpy (path.reverse.takeWhile (· ≠ slash)).reverse fsMaxName
    match path.reverse.dropWhile (· ≠ slash) with
    | [] => .ok (s.cwd, name)
    | _ :: front =>
      let parentPath := if front = [] then [slash] else front.reverse
      match fsResolve s (if path.head? = some slash then 0 else s.cwd) parentPath true with
      | .error err => .error err
      | .ok parent => .ok (parent, name)

end Resolution

section FileData

variable (alloc : Allocator) (s : Okfs) (id : Slot)

/-- The loop `while (new_cap < new_size) new_cap *= 2`, at most `rounds` times. -/
def doubleCap (newSize : ℕ) : ℕ → ℕ → ℕ
  | 0, newCap => newCap
  | rounds + 1, newCap => if newCap < newSize then doubleCap newSize rounds (newCap * 2) else newCap

/-- The capacity for `newSize` bytes; doubling a positive number reaches it within `newSize`
rounds. -/
def nextCap (cap newSize : ℕ) : ℕ :=
  min (doubleCap newSize newSize (if cap ≠ 0 then cap else 256)) fsMaxFileSize

/-- The part of `fs_set_file_data` that makes room for `newSize` bytes; `false` if `kmalloc`
fails. -/
def growFile (newSize : ℕ) (append : Bool) : Okfs × Bool :=
  let node := s.nodes id
  if newSize ≤ node.cap then (s, true)
  else
    let newCap := nextCap node.cap newSize
    match s.heap.kmalloc alloc newCap with
    | (none, heap) => ({ s with heap := heap }, false)
    | (some nbuf, heap) =>
      let heap :=
        if append ∧ node.data ≠ none ∧ 0 < node.size then
          heap.write (some nbuf) 0 ((heap.read node.data).take node.size)
        else heap
      let heap :=
        match node.data with
        | none => heap
        | some data => heap.kfree data
      ({ s with
        heap := heap
        nodes := Function.update s.nodes id { node with data := some nbuf, cap := newCap } }, true)

/-- The copy at the end of `fs_set_file_data`. -/
def storeFile (bytes : Bytes) (newSize : ℕ) (append : Bool) : Okfs :=
  let node := s.nodes id
  { s with
    heap := s.heap.write node.data (if append then node.size else 0) bytes
    nodes := Function.update s.nodes id { node with size := newSize } }

def fsSetFileData (data : Bytes) (len : ℕ) (append : Bool) : Okfs × Except FsError Unit :=
  if fsMaxFileSize < len then (s, .error .noSpace)
  else
    let newSize := if append then (s.nodes id).size + len else len
    if fsMaxFileSize < newSize then (s, .error .noSpace)
    else
      match growFile alloc s id newSize append with
      | (s, false) => (s, .error .noSpace)
      | (s, true) => (storeFile s id (readBytes data len) newSize append, .ok ())

end FileData

section Operations

variable (alloc : Allocator) (s : Okfs)

def fsCreateEntry (parent : Slot) (name : Bytes) (type : FsType) : Okfs × Except FsError Slot :=
  if !fsIsValidName name then (s, .error .invalid)
  else if type = .file ∧ !fsEndsWithTxt name then (s, .error .notTxt)
  else if fsFindChild s parent name ≠ none then (s, .error .alreadyExists)
  else
    match fsAllocNode s with
    | none => (s, .error .full)
    | some id =>
      let node : Node :=
        { used := true, parent := some parent, type := type, name := fsStrcpy name fsMaxName,
          data := none, size := 0, cap := 0 }
      ({ s with nodes := Function.update s.nodes id node }, .ok id)

def fsCd (path : Bytes) : Okfs × Except FsError Unit :=
  match fsResolve s s.cwd path true with
  | .error err => (s, .error err)
  | .ok target =>
    if (s.nodes target).type ≠ .dir then (s, .error .notDir)
    else (fsRebuildCwdPath { s with cwd := target }, .ok ())

/-- `fs_mkdir`: whatever makes the creation fail is reported as a full table. -/
def fsMkdir (path : Bytes) : Okfs × Except FsError Unit :=
  match fsResolveParent s path with
  | .error err => (s, .error err)
  | .ok (parent, name) =>
    if !fsIsValidName name then (s, .error .invalid)
    else
      match fsCreateEntry s parent name .dir with
      | (s, .error _) => (s, .error .full)
      | (s, .ok _) => (s, .ok ())

def fsTouch (path : Bytes) : Okfs × Except FsError Unit :=
  match fsResolveParent s path with
  | .error err => (s, .error err)
  | .ok (parent, name) =>
    match fsFindChild s parent name with
    | some existing =>
      if (s.nodes existing).type ≠ .file then (s, .error .notFile) else (s, .ok ())
    | none =>
      match fsCreateEntry s parent name .file with
      | (s, .error err) => (s, .error err)
      | (s, .ok _) => (s, .ok ())

/-- The end of `fs_rm`, once `id` may be removed. -/
def removeNode (id : Slot) : Okfs × Except FsError Unit :=
  let heap :=
    match (s.nodes id).data with
    | none => s.heap
    | some data => s.heap.kfree data
  let node := { s.nodes id with data := none }
  let s := { s with heap := heap, nodes := Function.update s.nodes id node }
  let clear (s : Okfs) : Okfs :=
    { s with nodes := Function.update s.nodes id { node with used := false, size := 0, cap := 0 } }
  if s.cwd = id then
    match node.parent with
    | none => (s, .error .fault)
    | some parent => (clear (fsRebuildCwdPath { s with cwd := parent }), .ok ())
  else (clear s, .ok ())

def fsRm (path : Bytes) : Okfs × Except FsError Unit :=
  match fsResolve s s.cwd path false with
  | .error err => (s, .error err)
  | .ok id =>
    if id = 0 then (s, .error .invalid)
    else if (s.nodes id).type = .dir ∧
        entrySlots.any fun i => (s.nodes i).used && (s.nodes i).parent = some id then
      (s, .error .notEmpty)
    else removeNode s id

/-- `fs_write_file`; the data pointer may be null. -/
def fsWriteFile (path : Bytes) (data : Option Bytes) (len : ℕ) : Okfs × Except FsError Unit :=
  match data with
  | none => (s, .error .invalid)
  | some data =>
    let len := if len = 0 then fsStrlen data else len
    match fsResolveParent s path with
    | .error err => (s, .error err)
    | .ok (parent, name) =>
      match fsFindChild s parent name with
      | some id =>
        if (s.nodes id).type ≠ .file then (s, .error .notFile)
        else fsSetFileData alloc s id data len false
      | none =>
        match fsCreateEntry s parent name .file with
        | (s, .error err) => (s, .error err)
        | (s, .ok id) => fsSetFileData alloc s id data len false

def fsAppendFile (path : Bytes) (data : Option Bytes) (len : ℕ) : Okfs × Except FsError Unit :=
  match data with
  | none => (s, .error .invalid)
  | some data =>
    let len := if len = 0 then fsStrlen data else len
    match fsResolve s s.cwd path false with
    | .error err => (s, .error err)
    | .ok id =>
      if (s.nodes id).type ≠ .file then (s, .error .notFile)
      else if !fsEndsWithTxt (s.nodes id).name then (s, .error .notTxt)
      else fsSetFileData alloc s id data len true

/-- The operations that change the file system. -/
inductive Op
  | cd (path : Bytes)
  | mkdir (path : Bytes)
  | touch (path : Bytes)
  | rm (path : Bytes)
  | writeFile (path : Bytes) (data : Option Bytes) (len : ℕ)
  | appendFile (path : Bytes) (data : Option Bytes) (len : ℕ)
  deriving DecidableEq

def Op.run : Op → Okfs × Except FsError Unit
  | .cd path => fsCd s path
  | .mkdir path => fsMkdir s path
  | .touch path => fsTouch s path
  | .rm path => fsRm s path
  | .writeFile path data len => fsWriteFile alloc s path data len
  | .appendFile path data len => fsAppendFile alloc s path data len

/-- The statics before `fs_init` runs. -/
def boot : Okfs where
  nodes _ := ⟨false, some 0, .dir, [], none, 0, 0⟩
  cwd := 0
  cwdPath := [slash]
  heap := ⟨fun _ => none, 0, true⟩
  editActive := false
  editPath := []
  editBuf := none
  editLen := 0
  editCap := 0
  editPendingLine := []
  editPendingLineValid := false
  editTargetLine := 0

/-- The loop and the assignments at the start of `fs_init`. -/
def clearNodes : Okfs :=
  { s with
    nodes := Function.update (fun _ => ⟨false, none, .dir, [], none, 0, 0⟩) 0
      ⟨true, none, .dir, [], none, 0, 0⟩
    cwd := 0
    cwdPath := [slash] }

def readmeText : Bytes := ascii
  "Welcome to openkernel OKFS.\nUse 'help --fs' for file commands.\nTry: cat readme.txt\n"

def aboutText : Bytes := ascii
  "openkernel educational filesystem.\nText files use the .txt extension.\n"

def fsInit : Okfs :=
  let s := clearNodes s
  let s := (fsMkdir s (ascii "/docs")).1
  let s := (fsWriteFile alloc s (ascii "/readme.txt") (some readmeText) 0).1
  (fsWriteFile alloc s (ascii "/docs/about.txt") (some aboutText) 0).1

end Operations

end OpenKernel.FileSystem
