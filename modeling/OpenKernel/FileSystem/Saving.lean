import OpenKernel.FileSystem.Ownership

/-!
# Saving what was edited

`fs_edit_begin` finds its file with `fs_resolve`, and `:save` stores to the file
that `fs_resolve_parent` and `fs_find_child` find under the first 255 bytes of the
same path. The two agree on paths that end in the name of the file. A session
that has nothing in its buffer has no buffer, which `fs_write_file` refuses.
-/

namespace OpenKernel.FileSystem

open Function

/-! ### The two resolvers -/

/-- The path ends in the name of the file `id`. -/
structure Names (s : Okfs) (path : Bytes) (id : Slot) : Prop where
  resolved : fsResolve s s.cwd path false = .ok id
  file : (s.nodes id).type = .file
  ne_nil : lastName path ≠ []
  ne_dot : lastName path ≠ dot

section Resolvers

variable {s : Okfs} {path name : Bytes} {parent id : Slot}

theorem name_of_fsResolveParent (h : fsResolveParent s path = .ok (parent, name)) :
    name = fsStrcpy (lastName path) fsMaxName := by
  unfold fsResolveParent at h
  by_cases hlen : fsMaxPath ≤ path.length
  · rw [if_pos hlen] at h
    cases h
  rw [if_neg hlen] at h
  dsimp only at h
  cases hd : path.reverse.dropWhile (· ≠ slash) with
  | nil =>
    rw [hd] at h
    exact (congrArg Prod.snd (Except.ok.inj h)).symm
  | cons c front =>
    rw [hd] at h
    dsimp only at h
    split at h
    · cases h
    · exact (congrArg Prod.snd (Except.ok.inj h)).symm

/-- Both resolvers walk down the same components; then the one enters the last name. -/
theorem resolvers_eq (h : TreeInv s) (hlen : path.length < fsMaxPath)
    (hne : lastName path ≠ []) :
    ∃ (front : List Bytes) (start : Slot), (s.shape start).used = true ∧
      fsResolve s s.cwd path false = front.foldlM (enterComponent s) start >>= (fun cur =>
        enterComponent s cur (lastName path)) ∧
      fsResolveParent s path = front.foldlM (enterComponent s) start >>= (fun cur =>
        if (s.nodes cur).type ≠ .dir then .error .notDir
        else .ok (cur, fsStrcpy (lastName path) fsMaxName)) := by
  have hpath : path ≠ [] := by
    rintro rfl
    exact hne rfl
  have hresolve : fsResolve s s.cwd path false = (components path).foldlM (enterComponent s)
      (if path.head? = some slash then 0 else s.cwd) := by
    rw [fsResolve_eq hpath]
    cases (components path).foldlM (enterComponent s)
      (if path.head? = some slash then 0 else s.cwd) <;> simp [bind, Except.bind]
  rcases eq_lastName_or_append path with hslash | ⟨front, hfront⟩
  · have hdir : (s.nodes s.cwd).type = .dir := h.cwd_dir
    have hhead : path.head? ≠ some slash := by
      intro hs
      exact hslash (List.mem_of_mem_head? hs)
    refine ⟨[], s.cwd, h.cwd_used, ?_, ?_⟩
    · rw [hresolve, if_neg hhead, components_of_not_mem hslash hpath, lastName_of_not_mem hslash]
      simp
    · rw [fsResolveParent_of_not_mem hslash hlen, lastName_of_not_mem hslash]
      simp [pure, Except.pure, bind, Except.bind, hdir]
  · refine ⟨components front, if path.head? = some slash then 0 else s.cwd, ?_, ?_, ?_⟩
    · split_ifs
      · exact h.root_used
      · exact h.cwd_used
    · have hcomp : components path = components front ++ [lastName path] := by
        conv_lhs => rw [hfront]
        rw [components_append, components_of_not_mem slash_not_mem_lastName hne]
      rw [hresolve, hcomp, List.foldlM_append]
      simp
    · have hparent : fsResolveParent s (front ++ slash :: lastName path) = _ :=
        fsResolveParent_append slash_not_mem_lastName (hfront ▸ hlen)
      rw [← hfront] at hparent
      exact hparent

/-- A file that is entered by its last name is a child of a directory. -/
theorem TreeInv.fsFindChild_of_enter {cur : Slot} (h : TreeInv s) (hcur : (s.shape cur).used = true)
    (hne : name ≠ []) (hdot : name ≠ dot) (he : FileSystem.enterComponent s cur name = .ok id)
    (hfile : (s.nodes id).type = .file) :
    fsFindChild s cur name = some id ∧ (s.nodes cur).type = .dir ∧ name.length < fsMaxName := by
  unfold FileSystem.enterComponent fsEnter at he
  split_ifs at he with hlong hdots hroot
  · -- `..` at the root stays there
    cases he
    subst hroot
    rw [show (s.nodes 0).type = .dir from h.root_dir] at hfile
    cases hfile
  · -- `..` leads to a directory
    obtain ⟨p, hp, -, hdir⟩ := h.parent cur hroot hcur
    rw [show (s.nodes cur).parent = some p from hp] at he
    obtain rfl := Except.ok.inj he
    rw [show (s.nodes p).type = .dir from hdir] at hfile
    cases hfile
  · cases hf : fsFindChild s cur name with
    | none =>
      rw [hf] at he
      cases he
    | some child =>
      rw [hf] at he
      obtain rfl := Except.ok.inj he
      obtain ⟨hid, hused, hparent, -⟩ := fsFindChild_some hf
      obtain ⟨p, hp, -, hdir⟩ := h.parent child hid hused
      obtain rfl : p = cur := Option.some.inj (hp.symm.trans hparent)
      refine ⟨rfl, hdir, ?_⟩
      unfold fsMaxName at hlong ⊢
      omega

theorem Names.found (h : TreeInv s) (hlen : path.length < fsMaxPath) (hn : Names s path id) :
    ∃ parent, fsResolveParent s path = .ok (parent, lastName path) ∧
      fsFindChild s parent (lastName path) = some id := by
  obtain ⟨front, start, hstart, hresolve, hparent⟩ := resolvers_eq h hlen hn.ne_nil
  have hr := hn.resolved
  rw [hresolve] at hr
  cases hfront : front.foldlM (enterComponent s) start with
  | error err =>
    rw [hfront] at hr
    cases hr
  | ok cur =>
    rw [hfront] at hr hparent
    have hcur : (s.shape cur).used = true := foldlM_enterComponent
      (fun i => (s.shape i).used = true) (fun _ _ _ hc he => h.enterComponent hc he) hstart hfront
    obtain ⟨hf, hdir, hshort⟩ := h.fsFindChild_of_enter hcur hn.ne_nil hn.ne_dot hr hn.file
    refine ⟨cur, ?_, hf⟩
    rw [hparent, fsStrcpy_of_lt hshort]
    simp [bind, Except.bind, hdir]

/-- What `fs_find_child` finds under the parent is what `fs_resolve` finds. -/
theorem fsResolve_of_found (h : TreeInv s) (hlen : path.length < fsMaxPath)
    (hshort : (lastName path).length < fsMaxName)
    (hr : fsResolveParent s path = .ok (parent, name)) (hf : fsFindChild s parent name = some id) :
    fsResolve s s.cwd path false = .ok id ∧ NameOk (lastName path) := by
  have hname := name_of_fsResolveParent hr
  rw [fsStrcpy_of_lt hshort] at hname
  subst hname
  obtain ⟨hid, hused, -, hnamed⟩ := fsFindChild_some hf
  have hok : NameOk (s.nodes id).name := h.name id hid hused
  rw [hnamed] at hok
  refine ⟨?_, hok⟩
  obtain ⟨front, start, -, hresolve, hparent⟩ := resolvers_eq h hlen hok.ne_nil
  rw [hresolve]
  rw [hparent] at hr
  cases hfront : front.foldlM (enterComponent s) start with
  | error err =>
    rw [hfront] at hr
    cases hr
  | ok cur =>
    rw [hfront] at hr
    change (if _ then _ else _) = _ at hr
    split_ifs at hr
    obtain rfl : cur = parent := congrArg Prod.fst (Except.ok.inj hr)
    change enterComponent s cur (lastName path) = _
    unfold enterComponent fsEnter
    rw [if_neg (by omega), if_neg hok.ne_nil, if_neg hok.ne_dot, if_neg hok.ne_dotDot, hf]

theorem names_of_found (h : TreeInv s) (hlen : path.length < fsMaxPath)
    (hshort : (lastName path).length < fsMaxName)
    (hr : fsResolveParent s path = .ok (parent, name)) (hf : fsFindChild s parent name = some id)
    (hfile : (s.nodes id).type = .file) : Names s path id := by
  obtain ⟨hresolved, hok⟩ := fsResolve_of_found h hlen hshort hr hf
  exact ⟨hresolved, hfile, hok.ne_nil, hok.ne_dot⟩

end Resolvers

/-! ### The session -/

def handled (alloc : Allocator) (s : Okfs) (line : Bytes) : Option Okfs :=
  match fsEditHandleLine alloc s line with
  | (t, .ok (), _) => some t
  | (_, .error _, _) => none

/-- The line is none of those that end a session. -/
def KeepsOpen (_ : Okfs) (line : Bytes) : Prop := line ∉ closing

/-- A session is open under `path`, and it has no buffer before it has text. -/
structure Editing (s : Okfs) (path : Bytes) : Prop where
  active : s.editActive = true
  path_eq : s.editPath = path
  null : s.editLen = 0 → s.editBuf = none

namespace Editing

variable {alloc : Allocator} {s t : Okfs} {path : Bytes}

theorem congr (h : Editing s path) (hactive : t.editActive = s.editActive)
    (hpath : t.editPath = s.editPath) (hlen : t.editLen = s.editLen)
    (hbuf : t.editBuf = s.editBuf) : Editing t path := by
  refine ⟨hactive.trans h.active, hpath.trans h.path_eq, ?_⟩
  rw [hlen, hbuf]
  exact h.null

/-- Text goes into a buffer, so that only an empty append leaves the session without one. -/
theorem editBufAppend (h : Editing s path) (text : Bytes) :
    Editing (editBufAppend alloc s text).1 path := by
  unfold FileSystem.editBufAppend
  dsimp only
  split_ifs
  · exact h
  unfold growEditBuf
  by_cases hfit : s.editLen + text.length ≤ s.editCap
  · rw [if_pos hfit]
    refine ⟨h.active, h.path_eq, ?_⟩
    intro hzero
    refine h.null ?_
    change s.editLen + text.length = 0 at hzero
    omega
  · rw [if_neg hfit]
    dsimp only
    cases s.heap.kmalloc alloc (nextCap s.editCap (s.editLen + text.length)) with
    | mk r heap =>
      cases r with
      | none => exact h.congr rfl rfl rfl rfl
      | some nbuf =>
        refine ⟨h.active, h.path_eq, ?_⟩
        intro hzero
        change s.editLen + text.length = 0 at hzero
        omega

theorem replaceLoop (h : Editing s path) (alloc : Allocator) (idx : ℤ) (text : Bytes)
    (rounds : ℕ) (cur : ℤ) (old : Bytes) :
    Editing (replaceLoop alloc idx text rounds s cur old) path := by
  induction rounds generalizing s cur old with
  | zero => exact h
  | succ rounds ih =>
    unfold FileSystem.replaceLoop
    by_cases hold : old = []
    · rw [if_pos hold]
      exact h
    rw [if_neg hold]
    dsimp only
    generalize (if cur = idx then text else old.takeWhile (· ≠ newline)) = line
    cases old.dropWhile (· ≠ newline) with
    | nil => exact h.editBufAppend line
    | cons c rest => exact ih ((h.editBufAppend line).editBufAppend [newline]) _ _

theorem replaceLine (h : Editing s path) (idx : ℤ) (text : Bytes) :
    Editing (replaceLine alloc s idx text) path := by
  have hempty : Editing { s with editBuf := none, editLen := 0, editCap := 0 } path :=
    ⟨h.active, h.path_eq, fun _ => rfl⟩
  have hloop := hempty.replaceLoop alloc idx text ((editText s).length + 1) 0 (editText s)
  unfold FileSystem.replaceLine
  dsimp only
  cases s.editBuf with
  | none => exact hloop
  | some buf => exact hloop.congr rfl rfl rfl rfl

theorem handleCommand (h : Editing s path) {line : Bytes} (hline : line ∉ closing) :
    Editing (handleCommand alloc s line).1 path := by
  apply handleCommand_rule fun s => Editing s path
  · exact h
  · intro u text hu
    exact hu.editBufAppend text
  · intro _
    apply editCommand_rule fun s => Editing s path
    · exact h
    · intro text ln
      exact h.congr rfl rfl rfl rfl
    · intro idx text
      exact h.replaceLine idx text
  · exact hline

theorem fsEditHandleLine (h : Editing s path) {line : Bytes} (hline : line ∉ closing) :
    Editing (fsEditHandleLine alloc s line).1 path := by
  apply fsEditHandleLine_rule fun s => Editing s path
  · exact h
  · exact hline
  · intro u line' hline' hu
    have hedit : Editing u path := by
      rcases hu with rfl | rfl
      · exact h
      · exact h.congr rfl rfl rfl rfl
    exact hedit.handleCommand hline'

end Editing

section Session

variable {alloc : Allocator} {s t : Okfs} {path : Bytes} {id : Slot}

theorem fsEditBegin_ok (hb : fsEditBegin alloc s path = (t, .ok ())) :
    t = opened s path ∨ ∃ text, t = (editBufAppend alloc (opened s path) text).1 := by
  rcases fsEditBegin_cases alloc s path with ⟨err, he⟩ | he | ⟨text, u, hr, he⟩ |
    ⟨text, u, err, hr, he⟩
  · cases congrArg Prod.snd (he.symm.trans hb)
  · exact Or.inl (congrArg Prod.fst (hb.symm.trans he))
  · refine Or.inr ⟨text, ?_⟩
    rw [hr]
    exact congrArg Prod.fst (hb.symm.trans he)
  · cases congrArg Prod.snd (he.symm.trans hb)

theorem editing_fsEditBegin (hb : fsEditBegin alloc s path = (t, .ok ())) :
    Editing t (fsStrcpy path fsMaxPath) := by
  have hopened : Editing (opened s path) (fsStrcpy path fsMaxPath) := ⟨rfl, rfl, fun _ => rfl⟩
  obtain rfl | ⟨text, rfl⟩ := fsEditBegin_ok hb
  · exact hopened
  · exact hopened.editBufAppend text

/-- What holds between two lines of a session on a state with the nodes of `s₁`. -/
structure SessionInv (s₁ : Okfs) (path : Bytes) (s : Okfs) : Prop where
  owned : OwnershipInv s .empty
  nodes : SameNodes s₁ s
  editing : Editing s path

theorem fst_of_handled {line : Bytes} (h : handled alloc s line = some t) :
    (fsEditHandleLine alloc s line).1 = t := by
  unfold handled at h
  split at h
  · next heq =>
    rw [heq]
    exact Option.some.inj h
  · cases h

theorem SessionInv.handled {s₁ : Okfs} {line : Bytes} (h : SessionInv s₁ path s)
    (hline : line ∉ closing) (hh : handled alloc s line = some t) : SessionInv s₁ path t := by
  obtain rfl := fst_of_handled hh
  refine ⟨h.owned.fsEditHandleLine line, ?_, h.editing.fsEditHandleLine hline⟩
  refine h.nodes.trans ?_
  apply fsEditHandleLine_rule (SameNodes s)
  · exact SameNodes.refl s
  · exact hline
  · intro u line' hline' hu
    have hsame : SameNodes s u := by
      rcases hu with rfl | rfl
      · exact SameNodes.refl u
      · exact ⟨rfl, rfl⟩
    exact hsame.trans (sessionOnly_handleCommand hline').sameNodes

theorem SessionInv.of_run {s₁ : Okfs} {lines : List Bytes}
    (hlines : Run (FileSystem.handled alloc) KeepsOpen s₁ lines s) (h : SessionInv s₁ path s₁) :
    SessionInv s₁ path s :=
  hlines.invariant (SessionInv s₁ path) (fun _ _ _ hs hline hh => hs.handled hline hh) h

end Session

/-! ### Storing the buffer -/

/-- What the session is for: `:save` in state `s` stores the text to the file `id`, changes no
other node and closes the session. -/
structure Faithful (s : Okfs) (id : Slot) (t : Okfs) (result : Except FsError Unit) : Prop where
  returned : result = .ok ()
  bytes : fileBytes t id = editText s
  tree : SameTree s t
  others : OthersKept s t id
  closed : t.editActive = false ∧ t.editPath = [] ∧ t.editBuf = none ∧ t.editLen = 0

/-- There is something to save, and `path` ends in the name of the file, or of one with which
saving makes no difference. -/
structure Savable (s : Okfs) (path : Bytes) (id : Slot) : Prop where
  text : s.editLen ≠ 0
  target : ∃ j, Names s path j ∧
    (j = id ∨ fileBytes s j = editText s ∧ fileBytes s id = editText s)

section Saving

variable {alloc : Allocator} {s t : Okfs} {path data : Bytes} {id j parent : Slot} {len : ℕ}

theorem fsWriteFile_of_found {name : Bytes} (hlen : len ≠ 0)
    (hr : fsResolveParent s path = .ok (parent, name)) (hf : fsFindChild s parent name = some j)
    (hfile : (s.nodes j).type = .file) :
    fsWriteFile alloc s path (some data) len = fsSetFileData alloc s j data len false := by
  unfold fsWriteFile
  dsimp only
  rw [if_neg hlen, hr]
  dsimp only
  rw [hf]
  dsimp only
  rw [if_neg (not_not.mpr hfile)]

theorem fsWriteFile_of_not_found (alloc : Allocator) (data : Bytes) (len : ℕ)
    (hno : ∀ parent name j, fsResolveParent s path = .ok (parent, name) →
      fsFindChild s parent name = some j → (s.nodes j).type ≠ .file) :
    (fsWriteFile alloc s path (some data) len).2 ≠ .ok () ∨
      ¬ SameTree s (fsWriteFile alloc s path (some data) len).1 := by
  rcases fsWriteFile_cases alloc s path (some data) len with
    ⟨err, he⟩ | ⟨id, parent, name, bytes, n, hr, ⟨hf, hfile, -⟩ | ⟨hnew, he⟩⟩
  · rw [he]
    exact Or.inl (by simp)
  · exact absurd hfile (hno parent name id hr hf)
  · rw [he]
    refine Or.inr fun hsame => ?_
    have hstored : SameTree (withEntry s id parent name .file)
        (fsSetFileData alloc (withEntry s id parent name .file) id bytes n false).1 :=
      sameTree_fsSetFileData bytes n false
    have hused := used_of_withEntry hstored
    have hfree : (s.nodes id).used = true :=
      (congrArg Shape.used (congrFun hsame.1 id)).symm.trans hused
    rw [(fsAllocNode_some hnew.slot).2] at hfree
    cases hfree

theorem fileBytes_closeSession {old : Holding} (h : OwnershipInv s old)
    (hu : (s.nodes id).used = true) : fileBytes (closeSession s) id = fileBytes s id := by
  have hread : (s.heap.without s.editBuf).read (s.nodes id).data =
      s.heap.read (s.nodes id).data := by
    cases hd : (s.nodes id).data with
    | none => rfl
    | some p =>
      unfold Buffers.read
      rw [Option.bind_some, Option.bind_some,
        Buffers.live_without_of_ne (h.edit_distinct hu hd)]
  exact congrArg (List.take (s.nodes id).size) hread

/-- `:save` fails with `fs_write_file`, and else closes the session. -/
theorem save_cases (alloc : Allocator) (s : Okfs) (r : Okfs × Except FsError Unit)
    (hr : fsWriteFile alloc s s.editPath (s.editBuf.map fun p => s.heap.read (some p)) s.editLen =
      r) : (r.2 = .ok () ∧ handleCommand alloc s (ascii ":save") =
        (closeSession r.1, .ok (), [ascii "Saved."])) ∨
      ∃ err, r.2 = .error err ∧ handleCommand alloc s (ascii ":save") =
        (r.1, .error err, [fsStrerror err]) := by
  obtain ⟨t, result⟩ := r
  unfold handleCommand
  rw [if_pos (Or.inl rfl), hr]
  cases result with
  | error err => exact Or.inr ⟨err, rfl, rfl⟩
  | ok _ => exact Or.inl ⟨rfl, rfl⟩

/-- `:save` stores the text to the file that the path names. -/
theorem save_of_names (h : OwnershipInv s .empty) (hs : TreeInv s) (he : Editing s path)
    (hlen : path.length < fsMaxPath) (htext : s.editLen ≠ 0) (hj : Names s path j)
    (halloc : ∀ size, alloc s.heap.calls size ≠ none) :
    ∃ t, handleCommand alloc s (ascii ":save") = (closeSession t, .ok (), [ascii "Saved."]) ∧
      SameTree s (closeSession t) ∧ fileBytes (closeSession t) j = editText s ∧
      OthersKept s (closeSession t) j := by
  have hju : (s.nodes j).used = true := (hs.fsResolve hs.cwd_used hj.resolved).1
  have hmax : s.editLen ≤ fsMaxFileSize := h.editLen_le_editCap.trans h.editCap_le
  obtain ⟨p, hp, hread⟩ := h.edit_some htext
  have hfits : Fits alloc s j s.editLen false := ⟨hmax, hmax, Or.inr (halloc _)⟩
  obtain ⟨t, hset, ⟨-, hothers⟩, htree, hbytes⟩ :=
    h.storageInv.fsSetFileData hju hfits (s.heap.read (some p))
  have hwrite : fsWriteFile alloc s s.editPath (s.editBuf.map fun p => s.heap.read (some p))
      s.editLen = (t, .ok ()) := by
    obtain ⟨parent, hparent, hf⟩ := hj.found hs hlen
    rw [hp, he.path_eq, ← hset]
    exact fsWriteFile_of_found htext hparent hf hj.file
  have howned : OwnershipInv t .empty := by
    have hset' : OwnershipInv (fsSetFileData alloc s j (s.heap.read (some p)) s.editLen false).1
        .empty := h.fsSetFileData hju hj.file (s.heap.read (some p)) s.editLen false
    rw [hset] at hset'
    exact hset'
  have hclose : ∀ i, (s.nodes i).used = true → fileBytes (closeSession t) i = fileBytes t i := by
    intro i hi
    exact fileBytes_closeSession howned ((congrArg Shape.used (congrFun htree.1 i)).trans hi)
  rcases save_cases alloc s _ hwrite with ⟨-, hsave⟩ | ⟨err, herr, -⟩
  · refine ⟨t, hsave, htree.trans sessionOnly_closeSession.sameTree, ?_, ?_⟩
    · rw [hclose j hju, hbytes, readBytes_of_le hread]
      unfold editText
      rw [hp]
      rfl
    · intro i hi hiu
      rw [hclose i hiu]
      exact hothers i hi hiu
  · cases herr

/-- Saving to the file `j` is what the session is for if `j` is the file, or if it changes
nothing and there was nothing to change. -/
theorem faithful_of_names (h : OwnershipInv s .empty) (hs : TreeInv s) (he : Editing s path)
    (hlen : path.length < fsMaxPath) (htext : s.editLen ≠ 0) (hj : Names s path j)
    (hu : (s.nodes id).used = true) (halloc : ∀ size, alloc s.heap.calls size ≠ none) :
    Faithful s id (handleCommand alloc s (ascii ":save")).1
        (handleCommand alloc s (ascii ":save")).2.1 ↔
      j = id ∨ fileBytes s j = editText s ∧ fileBytes s id = editText s := by
  have hju : (s.nodes j).used = true := (hs.fsResolve hs.cwd_used hj.resolved).1
  obtain ⟨t, hsave, htree, hstored, hothers⟩ := save_of_names h hs he hlen htext hj halloc
  rw [hsave]
  constructor
  · intro hf
    by_cases hid : j = id
    · exact Or.inl hid
    · right
      constructor
      · exact (hf.others j hid hju).symm.trans hstored
      · exact (hothers id (Ne.symm hid) hu).symm.trans hf.bytes
  · intro hcase
    refine ⟨rfl, ?_, htree, ?_, rfl, rfl, rfl, rfl⟩
    · by_cases hid : id = j
      · rw [hid]
        exact hstored
      · rcases hcase with rfl | ⟨-, hsame⟩
        · exact absurd rfl hid
        · exact (hothers id hid hu).trans hsame
    · intro i hi hiu
      by_cases hij : i = j
      · subst hij
        rcases hcase with rfl | ⟨hsame, -⟩
        · exact absurd rfl hi
        · exact hstored.trans hsame.symm
      · exact hothers i hij hiu

/-- `:save` in a session on the file `id`. -/
theorem faithful_save_iff (h : OwnershipInv s .empty) (hs : TreeInv s) (he : Editing s path)
    (hlen : path.length < fsMaxPath) (hshort : (lastName path).length < fsMaxName)
    (hu : (s.nodes id).used = true) (halloc : ∀ size, alloc s.heap.calls size ≠ none) :
    Faithful s id (handleCommand alloc s (ascii ":save")).1
        (handleCommand alloc s (ascii ":save")).2.1 ↔ Savable s path id := by
  by_cases htext : s.editLen = 0
  · -- a null buffer is refused
    refine iff_of_false ?_ fun hsave => hsave.text htext
    intro hf
    have hwrite : fsWriteFile alloc s s.editPath (s.editBuf.map fun p => s.heap.read (some p))
        s.editLen = (s, .error .invalid) := by
      rw [he.null htext]
      rfl
    rcases save_cases alloc s _ hwrite with ⟨hok, -⟩ | ⟨err, -, hsave⟩
    · cases hok
    · rw [hsave] at hf
      cases hf.returned
  by_cases hnamed : ∃ j, Names s path j
  · obtain ⟨j, hj⟩ := hnamed
    rw [faithful_of_names h hs he hlen htext hj hu halloc]
    constructor
    · intro hcase
      exact ⟨htext, j, hj, hcase⟩
    · rintro ⟨-, j', hj', hcase⟩
      obtain rfl : j = j' := Except.ok.inj (hj.resolved.symm.trans hj'.resolved)
      exact hcase
  · -- there is no file to store to
    refine iff_of_false ?_ fun hsave => hnamed (hsave.target.imp fun _ hj => hj.1)
    intro hf
    obtain ⟨p, hp, -⟩ := h.edit_some htext
    have hno : ∀ parent name j, fsResolveParent s s.editPath = .ok (parent, name) →
        fsFindChild s parent name = some j → (s.nodes j).type ≠ .file := by
      rw [he.path_eq]
      intro parent name j hr hfind hfile
      exact hnamed ⟨j, names_of_found hs hlen hshort hr hfind hfile⟩
    have hwrite := fsWriteFile_of_not_found alloc (s.heap.read (some p)) s.editLen hno
    rw [← Option.map_some (f := fun p => s.heap.read (some p)), ← hp] at hwrite
    rcases save_cases alloc s _ rfl with ⟨hok, hsave⟩ | ⟨err, -, hsave⟩
    · rw [hsave] at hf
      rcases hwrite with hne | hne
      · exact hne hok
      · exact hne hf.tree
    · rw [hsave] at hf
      cases hf.returned

theorem savable_target (n : ℤ) :
    Savable { s with editTargetLine := n } path id ↔ Savable s path id := by
  have hnames : ∀ j, Names { s with editTargetLine := n } path j ↔ Names s path j := by
    intro j
    have hr : fsResolve { s with editTargetLine := n } s.cwd path false =
        fsResolve s s.cwd path false := by
      apply fsResolve_congr
      rfl
    constructor
    · rintro ⟨hres, hfile, hne, hdot⟩
      exact ⟨hr.symm.trans hres, hfile, hne, hdot⟩
    · rintro ⟨hres, hfile, hne, hdot⟩
      exact ⟨hr.trans hres, hfile, hne, hdot⟩
  constructor
  · rintro ⟨htext, j, hj, hcase⟩
    exact ⟨htext, j, (hnames j).mp hj, hcase⟩
  · rintro ⟨htext, j, hj, hcase⟩
    exact ⟨htext, j, (hnames j).mpr hj, hcase⟩

theorem faithful_target (n : ℤ) {result : Except FsError Unit} :
    Faithful { s with editTargetLine := n } id t result ↔ Faithful s id t result := by
  constructor
  · rintro ⟨hret, hbytes, htree, hothers, hclosed⟩
    exact ⟨hret, hbytes, htree, hothers, hclosed⟩
  · rintro ⟨hret, hbytes, htree, hothers, hclosed⟩
    exact ⟨hret, hbytes, htree, hothers, hclosed⟩

theorem fsEditHandleLine_save (alloc : Allocator) (hactive : s.editActive = true) :
    ∃ n, fsEditHandleLine alloc s (ascii ":save") =
      handleCommand alloc { s with editTargetLine := n } (ascii ":save") := by
  have hcolon : (ascii ":save").head? = some colon := by decide
  unfold fsEditHandleLine
  rw [if_neg (by simp [hactive])]
  split_ifs with htarget hhead
  · exact absurd hcolon hhead
  · exact ⟨0, rfl⟩
  · exact ⟨s.editTargetLine, rfl⟩

theorem length_lastName_kept {start : Slot} {wantDir : Bool}
    (hr : fsResolve s start path wantDir = .ok id) :
    (lastName (fsStrcpy path fsMaxPath)).length < fsMaxName := by
  refine length_lastName_lt (path.drop (fsMaxPath - 1)) ?_
  unfold fsStrcpy
  rw [List.take_append_drop]
  exact length_of_fsResolve hr

end Saving

/-- In every reachable state, for every path that `fs_edit_begin` opens and after any lines that
were handled: unless `kmalloc` fails, `:save` stores exactly the text of the session to the file
that was opened, changes no other node and closes the session, if and only if there is text and
the part of the path that the session keeps ends in the name of the file, or of one with which
saving makes no difference. -/
theorem save_faithful_iff {alloc : Allocator} {calls : List Call} {lines : List Bytes}
    {s₀ s₁ s₂ : Okfs} {path : Bytes} {id : Slot}
    (hrun : Run (step alloc) anyCall (fsInit alloc boot) calls s₀)
    (hresolve : fsResolve s₀ s₀.cwd path false = .ok id)
    (hbegin : fsEditBegin alloc s₀ path = (s₁, .ok ()))
    (hlines : Run (handled alloc) KeepsOpen s₁ lines s₂)
    (halloc : ∀ size, alloc s₂.heap.calls size ≠ none) :
    Faithful s₂ id (fsEditHandleLine alloc s₂ (ascii ":save")).1
        (fsEditHandleLine alloc s₂ (ascii ":save")).2.1 ↔
      Savable s₂ (fsStrcpy path fsMaxPath) id := by
  obtain ⟨htree, howned⟩ := invariants_of_run hrun
  have howned₁ : OwnershipInv (fsEditBegin alloc s₀ path).1 .empty := howned.fsEditBegin path
  have hnodes₁ : SameNodes s₀ (fsEditBegin alloc s₀ path).1 :=
    (sessionOnly_fsEditBegin path).sameNodes
  rw [hbegin] at howned₁ hnodes₁
  have hsession : SessionInv s₁ (fsStrcpy path fsMaxPath) s₂ := SessionInv.of_run hlines
    ⟨howned₁, SameNodes.refl s₁, editing_fsEditBegin hbegin⟩
  have hnodes := hnodes₁.trans hsession.nodes
  have hused : (s₂.nodes id).used = true := by
    rw [hnodes.1]
    exact (htree.fsResolve htree.cwd_used hresolve).1
  have hlen : (fsStrcpy path fsMaxPath).length < fsMaxPath := by
    have hle := List.length_take_le (fsMaxPath - 1) path
    unfold fsStrcpy fsMaxPath at *
    omega
  obtain ⟨n, hsave⟩ := fsEditHandleLine_save alloc hsession.editing.active
  rw [hsave, ← faithful_target n, ← savable_target n]
  exact faithful_save_iff (hsession.owned.congr rfl rfl rfl)
    ((htree.congr hnodes.sameTree).congr ⟨rfl, rfl⟩)
    (hsession.editing.congr rfl rfl rfl rfl) hlen (length_lastName_kept hresolve) hused halloc

/-- A line is added to a file and the file is saved. -/
theorem save_faithful_iff_readme : ∃ s₀ s₁ s₂,
    Run (step clearedAlloc) anyCall (fsInit clearedAlloc boot) [] s₀ ∧
    fsEditBegin clearedAlloc s₀ (ascii "/readme.txt") = (s₁, .ok ()) ∧
    Run (handled clearedAlloc) KeepsOpen s₁ [ascii "More."] s₂ ∧
    Faithful s₂ 2 (fsEditHandleLine clearedAlloc s₂ (ascii ":save")).1
      (fsEditHandleLine clearedAlloc s₂ (ascii ":save")).2.1 := by
  have hfacts : ∃ s₀ s₁ s₂,
      Run (step clearedAlloc) anyCall (fsInit clearedAlloc boot) [] s₀ ∧
      fsResolve s₀ s₀.cwd (ascii "/readme.txt") false = .ok 2 ∧
      fsEditBegin clearedAlloc s₀ (ascii "/readme.txt") = (s₁, .ok ()) ∧
      handled clearedAlloc s₁ (ascii "More.") = some s₂ ∧ s₂.editLen ≠ 0 ∧
      fsResolve s₂ s₂.cwd (fsStrcpy (ascii "/readme.txt") fsMaxPath) false = .ok 2 ∧
      (s₂.nodes 2).type = .file := by
    rw [fsInit_cleared]
    exact ⟨_, _, _, .nil _, rfl, rfl, rfl, by decide, rfl, rfl⟩
  obtain ⟨s₀, s₁, s₂, hrun, hresolve, hbegin, hhandled, htext, hnamed, hfile⟩ := hfacts
  have hopen : ascii "More." ∉ closing := by decide
  have hlines : Run (handled clearedAlloc) KeepsOpen s₁ [ascii "More."] s₂ :=
    .cons hopen hhandled (.nil s₂)
  refine ⟨s₀, s₁, s₂, hrun, hbegin, hlines, ?_⟩
  apply (save_faithful_iff hrun hresolve hbegin hlines (by simp [clearedAlloc])).mpr
  exact ⟨htext, 2, ⟨hnamed, hfile, by decide, by decide⟩, Or.inl rfl⟩

/-- A file that is empty cannot be saved as it is. -/
theorem empty_file_not_saved : ∃ s₀ s₁ id,
    Run (step clearedAlloc) anyCall (fsInit clearedAlloc boot) [.op (.touch (ascii "/a.txt"))] s₀ ∧
    fsResolve s₀ s₀.cwd (ascii "/a.txt") false = .ok id ∧
    fsEditBegin clearedAlloc s₀ (ascii "/a.txt") = (s₁, .ok ()) ∧
    (fsEditHandleLine clearedAlloc s₁ (ascii ":save")).2.1 = .error .invalid ∧
    ¬ Faithful s₁ id (fsEditHandleLine clearedAlloc s₁ (ascii ":save")).1
      (fsEditHandleLine clearedAlloc s₁ (ascii ":save")).2.1 := by
  have hfacts : ∃ s₀ s₁, step clearedAlloc (fsInit clearedAlloc boot)
        (.op (.touch (ascii "/a.txt"))) = some s₀ ∧
      fsResolve s₀ s₀.cwd (ascii "/a.txt") false = .ok 4 ∧
      fsEditBegin clearedAlloc s₀ (ascii "/a.txt") = (s₁, .ok ()) ∧
      (fsEditHandleLine clearedAlloc s₁ (ascii ":save")).2.1 = .error .invalid := by
    rw [fsInit_cleared]
    exact ⟨_, _, rfl, rfl, rfl, rfl⟩
  obtain ⟨s₀, s₁, htouch, hresolve, hbegin, hinvalid⟩ := hfacts
  refine ⟨s₀, s₁, 4, .cons trivial htouch (.nil s₀), hresolve, hbegin, hinvalid, ?_⟩
  intro hf
  have hok := hf.returned
  rw [hinvalid] at hok
  cases hok

end OpenKernel.FileSystem
