import OpenKernel.FileSystem.Model

/-!
# The editor session of OKFS

`fs_edit_begin`, `fs_edit_handle_line` and `fs_edit_get_pending_line`, with the
buffer functions they use. A handled line also yields the lines passed to `emit`.
`int` arithmetic wraps around at 32 bits.
-/

namespace OpenKernel.FileSystem

def newline : UInt8 := 10

def colon : UInt8 := 58

def space : UInt8 := 32

def digitZero : UInt8 := 48

def fsCmdTextMax : ℕ := 4096

def fsStrerror : FsError → Bytes
  | .notFound => ascii "Not found"
  | .alreadyExists => ascii "Already exists"
  | .notDir => ascii "Not a directory"
  | .notFile => ascii "Not a file"
  | .notTxt => ascii "Only .txt files are supported"
  | .noSpace => ascii "Out of memory or file too large"
  | .invalid => ascii "Invalid path or name"
  | .full => ascii "Filesystem full"
  | .notEmpty => ascii "Directory not empty"
  | .fault => ascii "Unknown error"

/-- The decimal digits of `n`, written by `rounds` divisions at most. -/
def decimal : ℕ → ℕ → Bytes
  | 0, _ => []
  | rounds + 1, n =>
    let digit := digitZero + (n % 10).toUInt8
    if n / 10 = 0 then [digit] else decimal rounds (n / 10) ++ [digit]

section Buffer

variable (alloc : Allocator) (s : Okfs)

def editText : Bytes := (s.heap.read s.editBuf).take s.editLen

/-- The part of `edit_buf_append` that makes room for `need` bytes; `false` if `kmalloc` fails. -/
def growEditBuf (need : ℕ) : Okfs × Bool :=
  if need ≤ s.editCap then (s, true)
  else
    let newCap := nextCap s.editCap need
    match s.heap.kmalloc alloc newCap with
    | (none, heap) => ({ s with heap := heap }, false)
    | (some nbuf, heap) =>
      let heap := heap.write (some nbuf) 0 ((heap.read s.editBuf).take s.editLen)
      let heap :=
        match s.editBuf with
        | none => heap
        | some old => heap.kfree old
      ({ s with heap := heap, editBuf := some nbuf, editCap := newCap }, true)

def editBufAppend (text : Bytes) : Okfs × Except FsError Unit :=
  let need := s.editLen + text.length
  if fsMaxFileSize < need then (s, .error .noSpace)
  else
    match growEditBuf alloc s need with
    | (s, false) => (s, .error .noSpace)
    | (s, true) =>
      ({ s with heap := s.heap.write s.editBuf s.editLen text, editLen := need }, .ok ())

def editBufFree : Okfs :=
  let heap :=
    match s.editBuf with
    | none => s.heap
    | some buf => s.heap.kfree buf
  { s with
    heap := heap, editBuf := none, editLen := 0, editCap := 0
    editPendingLineValid := false, editTargetLine := 0 }

/-- The search of `edit_fetch_line`: the text from line `n` on, if it is reached before the
end, at line number `cur`. -/
def seekLine (n : ℤ) : ℤ → Bytes → Option Bytes
  | cur, [] => if cur = n then some [] else none
  | cur, c :: text =>
    if cur < n then seekLine n (if c = newline then cur + 1 else cur) text
    else if cur = n then some (c :: text) else none

/-- `edit_fetch_line` into a buffer of `max` bytes. -/
def editFetchLine (n : ℤ) (max : ℕ) : Option Bytes :=
  if s.editLen = 0 ∨ n < 1 then none
  else
    match seekLine n 1 (editText s) with
    | none => none
    | some [] => none
    | some text => some ((text.takeWhile (· ≠ newline)).take (max - 1))

end Buffer

section Commands

variable (alloc : Allocator) (s : Okfs)

def fsEditBegin (path : Bytes) : Okfs × Except FsError Unit :=
  if s.editActive then (s, .error .invalid)
  else
    match fsResolve s s.cwd path false with
    | .error err => (s, .error err)
    | .ok id =>
      if (s.nodes id).type ≠ .file then (s, .error .notFile)
      else if !fsEndsWithTxt (s.nodes id).name then (s, .error .notTxt)
      else
        let s := { editBufFree s with editActive := true, editPath := fsStrcpy path fsMaxPath }
        let node := s.nodes id
        if 0 < node.size then
          match editBufAppend alloc s ((s.heap.read node.data).take node.size) with
          | (s, .error err) => ({ s with editActive := false, editPath := [] }, .error err)
          | (s, .ok ()) => (s, .ok ())
        else (s, .ok ())

def closeSession : Okfs := editBufFree { s with editActive := false, editPath := [] }

/-- The lines `:p` prints: the number and the text of every line that ends in a newline. -/
def printLines (n : ℕ) (buf : Bytes) : Bytes → List Bytes
  | [] => []
  | c :: text =>
    if c = newline then
      let out := decimal 10 n ++ [colon, space]
      (out ++ (buf.takeWhile (· ≠ 0)).take (94 - out.length)) :: printLines (n + 1) [] text
    else printLines n (if buf.length < 80 then buf ++ [c] else buf) text

/-- The line number of `:e`: an `int` that wraps around. -/
def parseNumber (ln : ℤ) : Bytes → ℤ × Bytes
  | [] => (ln, [])
  | c :: p =>
    if digitZero ≤ c ∧ c ≤ digitZero + 9 then
      parseNumber (Int.bmod (ln * 10 + (c.toNat - digitZero.toNat : ℤ)) (2 ^ 32)) p
    else (ln, c :: p)

def totalLines (text : Bytes) : ℕ :=
  text.count newline + if text.getLast? = some newline then 0 else 1

/-- The loop of `:e <n> <text>` at the rest `old` of the old buffer, which every round
shortens. -/
def replaceLoop (idx : ℤ) (text : Bytes) : ℕ → Okfs → ℤ → Bytes → Okfs
  | 0, s, _, _ => s
  | rounds + 1, s, cur, old =>
    if old = [] then s
    else
      let line := old.takeWhile (· ≠ newline)
      let s := (editBufAppend alloc s (if cur = idx then text else line)).1
      match old.dropWhile (· ≠ newline) with
      | [] => s
      | _ :: rest =>
        replaceLoop idx text rounds (editBufAppend alloc s [newline]).1 (cur + 1) rest

/-- `:e <n> <text>` with a line number in range: the old buffer is freed at the end. -/
def replaceLine (idx : ℤ) (text : Bytes) : Okfs :=
  let old := editText s
  let oldBuf := s.editBuf
  let s := replaceLoop alloc idx text (old.length + 1)
    { s with editBuf := none, editLen := 0, editCap := 0 } 0 old
  match oldBuf with
  | none => s
  | some buf => { s with heap := s.heap.kfree buf }

def editCommand (arg : Bytes) : Okfs × Except FsError Unit × List Bytes :=
  let (ln, p) := parseNumber 0 arg
  let idx := Int.bmod (ln - 1) (2 ^ 32)
  if idx < 0 then (s, .error .invalid, [ascii "Invalid line number"])
  else if s.editLen = 0 then (s, .error .invalid, [ascii "File is empty"])
  else if (totalLines (editText s) : ℤ) ≤ idx then
    (s, .error .invalid, [ascii "Line number out of range"])
  else
    match p with
    | [] =>
      match editFetchLine s ln fsMaxPath with
      | none => (s, .ok (), [])
      | some line =>
        ({ s with editPendingLine := line, editPendingLineValid := true, editTargetLine := ln },
          .ok (), [])
    | c :: text =>
      if c ≠ space then (s, .error .invalid, [ascii "Usage: :e <n> [text]"])
      else (replaceLine alloc s idx text, .ok (), [ascii "Line updated."])

/-- `fs_edit_handle_line` behind its treatment of the target line. -/
def handleCommand (line : Bytes) : Okfs × Except FsError Unit × List Bytes :=
  if line = ascii ":save" ∨ line = ascii ":w" then
    match fsWriteFile alloc s s.editPath (s.editBuf.map fun p => s.heap.read (some p)) s.editLen with
    | (s, .error err) => (s, .error err, [fsStrerror err])
    | (s, .ok ()) => (closeSession s, .ok (), [ascii "Saved."])
  else if line = ascii ":q" ∨ line = ascii ":quit" then
    (closeSession s, .ok (), [ascii "Edit cancelled."])
  else if line = ascii ":p" then
    if s.editLen = 0 then (s, .ok (), [ascii "(empty)"])
    else (s, .ok (), printLines 1 [] (editText s))
  else if line.take 3 = ascii ":e " then editCommand alloc s (line.drop 3)
  else
    match editBufAppend alloc s line with
    | (s, .error err) => (s, .error err, [fsStrerror err])
    | (s, .ok ()) =>
      match editBufAppend alloc s [newline] with
      | (s, .error err) => (s, .error err, [fsStrerror err])
      | (s, .ok ()) => (s, .ok (), [])

/-- `fs_edit_handle_line`: a line that is no command replaces the target line, if one is set,
through the command `:e <n> <text>`. -/
def fsEditHandleLine (line : Bytes) : Okfs × Except FsError Unit × List Bytes :=
  if !s.editActive then (s, .error .invalid, [])
  else if 0 < s.editTargetLine then
    if line.head? ≠ some colon then
      let syn := ascii ":e " ++ decimal 10 s.editTargetLine.toNat ++ [space] ++ line
      handleCommand alloc { s with editTargetLine := 0 } (syn.take (fsCmdTextMax - 2))
    else handleCommand alloc { s with editTargetLine := 0 } line
  else handleCommand alloc s line

def fsEditGetPendingLine : Okfs × Option Bytes :=
  if s.editPendingLineValid then
    ({ s with editPendingLineValid := false }, some s.editPendingLine)
  else (s, none)

end Commands

/-- The calls of the shell that change the file system or the session. -/
inductive Call
  | op (op : Op)
  | editBegin (path : Bytes)
  | editHandleLine (line : Bytes)
  | editGetPendingLine
  deriving DecidableEq

def step (alloc : Allocator) (s : Okfs) : Call → Option Okfs
  | .op op => some (op.run alloc s).1
  | .editBegin path => some (fsEditBegin alloc s path).1
  | .editHandleLine line => some (fsEditHandleLine alloc s line).1
  | .editGetPendingLine => some (fsEditGetPendingLine s).1

end OpenKernel.FileSystem
