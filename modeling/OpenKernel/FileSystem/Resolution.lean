import OpenKernel.FileSystem.Saving
import OpenKernel.FileSystem.View

/-!
# Path resolution and its reference

What a path means, by the children that directories have: a fold over the parts
between its slashes. `fs_resolve` computes this fold on its way through the bytes.
`fs_resolve_parent` followed by `fs_find_child` finds the same files, except under
paths that go on behind the name of the file with a slash or a dot.
-/

namespace OpenKernel.FileSystem

open Classical in
/-- Where one component leads: to the one child with that name, if it is not special. -/
noncomputable def refEnter (s : Okfs) (cur : Slot) (c : Bytes) : Except FsError Slot :=
  if c = [] ∨ c = dot then .ok cur
  else if fsMaxName ≤ c.length then .error .invalid
  else if c = dotDot then .ok (if cur = 0 then cur else (s.nodes cur).parent.getD cur)
  else if h : ∃! v, IsChild s cur c v then .ok h.exists.choose
  else .error .notFound

/-- Where a path leads: all its components from left to right, and the type at the end. -/
noncomputable def refResolve (s : Okfs) (start : Slot) (path : Bytes) (wantDir : Bool) :
    Except FsError Slot := do
  let id ← (path.splitOn slash).foldlM (refEnter s) (if path.head? = some slash then 0 else start)
  if wantDir ∧ (s.nodes id).type = .file then .error .notDir else .ok id

/-- The loop of `fs_resolve` with the values `cur` has in it. -/
def fsResolveLoopTraced (s : Okfs) : ℕ → Slot → Bytes → List Slot × Except FsError Slot
  | 0, _, _ => ([], .error .fault)
  | rounds + 1, cur, path =>
    if path = [] then ([cur], .ok cur)
    else
      let component := path.takeWhile (· ≠ slash)
      if fsMaxName - 1 < component.length then ([cur], .error .invalid)
      else
        let rest := (path.dropWhile (· ≠ slash)).dropWhile (· = slash)
        match fsEnter s cur component with
        | .error err => ([cur], .error err)
        | .ok next =>
          let r := fsResolveLoopTraced s rounds next rest
          (cur :: r.1, r.2)

/-- The indices with which `fs_resolve` itself accesses `nodes` are among these. -/
def resolveCursors (s : Okfs) (start : Slot) (path : Bytes) : List Slot :=
  (fsResolveLoopTraced s (path.length + 1) (if path.head? = some slash then 0 else start)
    (path.dropWhile (· = slash))).1

section Reference

variable {s : Okfs} {cur start : Slot} {path c : Bytes}

theorem TreeInv.refEnter_eq (h : TreeInv s) (hcur : (s.shape cur).used = true) :
    refEnter s cur c = if c = [] then .ok cur else FileSystem.enterComponent s cur c := by
  unfold refEnter FileSystem.enterComponent fsEnter
  by_cases hnil : c = []
  · simp [hnil]
  by_cases hdot : c = dot
  · simp [hdot, dot, fsMaxName]
  have hplain : ¬ (c = [] ∨ c = dot) := not_or.mpr ⟨hnil, hdot⟩
  have hlen : fsMaxName - 1 < c.length ↔ fsMaxName ≤ c.length := by
    unfold fsMaxName
    omega
  simp only [if_neg hplain, if_neg hnil, if_neg hdot, hlen]
  by_cases hlong : fsMaxName ≤ c.length
  · rw [if_pos hlong, if_pos hlong]
  rw [if_neg hlong, if_neg hlong]
  by_cases hdots : c = dotDot
  · rw [if_pos hdots, if_pos hdots]
    by_cases h0 : cur = 0
    · simp [h0]
    · obtain ⟨p, hp, -⟩ := h.parent cur h0 hcur
      have hp' : (s.nodes cur).parent = some p := hp
      simp [h0, hp']
  rw [if_neg hdots, if_neg hdots]
  cases hf : fsFindChild s cur c with
  | none =>
    have hnone : ¬ ∃! v, IsChild s cur c v := by
      rintro ⟨v, hv, -⟩
      rw [h.fsFindChild_iff.mpr hv] at hf
      cases hf
    rw [dif_neg hnone]
  | some v =>
    have hv := h.fsFindChild_iff.mp hf
    have hone : ∃! v, IsChild s cur c v := ⟨v, hv, fun w hw => h.isTree.child _ _ _ _ hw hv⟩
    rw [dif_pos hone]
    exact congrArg Except.ok (h.isTree.child _ _ _ _ hone.exists.choose_spec hv)

theorem TreeInv.foldlM_refEnter (h : TreeInv s) (hcur : (s.shape cur).used = true)
    (parts : List Bytes) :
    parts.foldlM (refEnter s) cur =
      (parts.filter (· ≠ [])).foldlM (FileSystem.enterComponent s) cur := by
  induction parts generalizing cur with
  | nil => rfl
  | cons c parts ih =>
    rw [List.foldlM_cons, h.refEnter_eq hcur]
    by_cases hnil : c = []
    · rw [if_pos hnil, List.filter_cons_of_neg (by simp [hnil])]
      exact ih hcur
    · rw [if_neg hnil, List.filter_cons_of_pos (by simp [hnil]), List.foldlM_cons]
      cases he : FileSystem.enterComponent s cur c with
      | error err => rfl
      | ok next => exact ih (h.enterComponent hcur he)

theorem TreeInv.fsResolve_eq_ref (h : TreeInv s) (hstart : (s.shape start).used = true)
    (hne : path ≠ []) (wantDir : Bool) :
    FileSystem.fsResolve s start path wantDir = refResolve s start path wantDir := by
  have hused : (s.shape (if path.head? = some slash then 0 else start)).used = true := by
    split_ifs
    · exact h.root_used
    · exact hstart
  have htype : ∀ id, (s.nodes id).type ≠ .dir ↔ (s.nodes id).type = .file := by
    intro id
    cases (s.nodes id).type <;> simp
  rw [fsResolve_eq hne, refResolve, h.foldlM_refEnter hused]
  simp only [htype]
  rfl

theorem traced_snd (rounds : ℕ) :
    (fsResolveLoopTraced s rounds cur path).2 = fsResolveLoop s rounds cur path := by
  induction rounds generalizing cur path with
  | zero => rfl
  | succ rounds ih =>
    unfold fsResolveLoopTraced fsResolveLoop
    dsimp only
    split_ifs
    · rfl
    · rfl
    · cases fsEnter s cur (path.takeWhile (· ≠ slash)) with
      | error err => rfl
      | ok next => exact ih

theorem TreeInv.used_of_traced (h : TreeInv s) (rounds : ℕ) (hcur : (s.shape cur).used = true) :
    ∀ i ∈ (fsResolveLoopTraced s rounds cur path).1, (s.shape i).used = true := by
  induction rounds generalizing cur path with
  | zero => simp [fsResolveLoopTraced]
  | succ rounds ih =>
    unfold fsResolveLoopTraced
    dsimp only
    split_ifs with hnil hlong
    · simpa using hcur
    · simpa using hcur
    · cases he : fsEnter s cur (path.takeWhile (· ≠ slash)) with
      | error err => simpa using hcur
      | ok next =>
        have henter : FileSystem.enterComponent s cur (path.takeWhile (· ≠ slash)) = .ok next := by
          rw [FileSystem.enterComponent, if_neg hlong, he]
        simp only [List.mem_cons, forall_eq_or_imp]
        exact ⟨hcur, ih (h.enterComponent hcur henter)⟩

end Reference

/-- In every state reached by calls of the shell and of the editor, and from every used node,
`fs_resolve` leads where the reference does, over used nodes only. -/
theorem fsResolve_reference {alloc : Allocator} {s t : Okfs} {calls : List Call} {start : Slot}
    {path : Bytes} (hrun : Run (step alloc) anyCall (fsInit alloc s) calls t)
    (hstart : (t.nodes start).used = true) (hne : path ≠ []) (wantDir : Bool) :
    fsResolve t start path wantDir = refResolve t start path wantDir ∧
      ∀ i ∈ resolveCursors t start path, (t.nodes i).used = true := by
  have htree := treeInv_of_run hrun
  refine ⟨htree.fsResolve_eq_ref hstart hne wantDir, ?_⟩
  refine htree.used_of_traced (path.length + 1) ?_
  split_ifs
  · exact htree.root_used
  · exact hstart

/-- A path with empty parts, a dot and two dots that ends at a file, from the root and from a
directory. -/
theorem fsResolve_reference_about : ∃ t start,
    Run (step clearedAlloc) anyCall (fsInit clearedAlloc boot) [.op (.cd (ascii "docs"))] t ∧
    (t.nodes start).used = true ∧ start ≠ 0 ∧ ascii ".//..///docs/./about.txt/" ≠ [] ∧
    (fsResolve t start (ascii ".//..///docs/./about.txt/") false =
        refResolve t start (ascii ".//..///docs/./about.txt/") false ∧
      ∀ i ∈ resolveCursors t start (ascii ".//..///docs/./about.txt/"),
        (t.nodes i).used = true) := by
  obtain ⟨t, ht, hused⟩ : ∃ t, [.op (.cd (ascii "docs"))].foldlM (step clearedAlloc)
      (fsInit clearedAlloc boot) = some t ∧ (t.nodes 1).used = true := by
    rw [fsInit_cleared]
    exact ⟨_, rfl, rfl⟩
  refine ⟨t, 1, Run.of_foldlM ht, hused, by decide, by decide, ?_⟩
  exact fsResolve_reference (Run.of_foldlM ht) hused (by decide) false

section Walkers

variable {s : Okfs} {path name : Bytes} {parent id : Slot}

theorem TreeInv.fsResolve_iff_ref (h : TreeInv s) (hfile : (s.nodes id).type = .file) :
    FileSystem.fsResolve s s.cwd path false = .ok id ↔ refResolve s s.cwd path false = .ok id := by
  by_cases hne : path = []
  · subst hne
    have hdir : (s.nodes s.cwd).type = .dir := h.cwd_dir
    have hcwd : s.cwd ≠ id := by
      rintro rfl
      rw [hdir] at hfile
      cases hfile
    have href : refResolve s s.cwd [] false = .ok s.cwd := by
      simp [refResolve, refEnter, bind, Except.bind, pure, Except.pure]
    simp [FileSystem.fsResolve, href, hcwd]
  · rw [h.fsResolve_eq_ref h.cwd_used hne]

end Walkers

/-- `fs_resolve_parent` and `fs_find_child` together find the node `id`. -/
def FoundByParent (s : Okfs) (path : Bytes) (id : Slot) : Prop :=
  ∃ parent name, fsResolveParent s path = .ok (parent, name) ∧ fsFindChild s parent name = some id

/-- The two ways to a file agree, unless the path leads to it and ends in a slash or in a part
that is a dot. -/
theorem walkers_agree_iff {alloc : Allocator} {s t : Okfs} {calls : List Call} {path : Bytes}
    {id : Slot} (hrun : Run (step alloc) anyCall (fsInit alloc s) calls t)
    (hlen : path.length < fsMaxPath) (hcomps : ∀ c ∈ components path, c.length < fsMaxName)
    (hfile : (t.nodes id).type = .file) :
    (fsResolve t t.cwd path false = .ok id ↔ FoundByParent t path id) ↔
      lastName path ≠ [] ∧ lastName path ≠ dot ∨ refResolve t t.cwd path false ≠ .ok id := by
  have htree := treeInv_of_run hrun
  have hnames : ∀ parent name, fsResolveParent t path = .ok (parent, name) →
      fsFindChild t parent name = some id → Names t path id := fun parent name hr hf =>
    names_of_found htree hlen (length_lastName_lt [] (by rwa [List.append_nil])) hr hf hfile
  have href : fsResolve t t.cwd path false = .ok id ↔ refResolve t t.cwd path false = .ok id :=
    htree.fsResolve_iff_ref hfile
  rw [ne_eq (refResolve t t.cwd path false), ← href]
  constructor
  · intro hagree
    by_cases hres : fsResolve t t.cwd path false = .ok id
    · obtain ⟨parent, name, hr, hf⟩ := hagree.mp hres
      have hn := hnames parent name hr hf
      exact Or.inl ⟨hn.ne_nil, hn.ne_dot⟩
    · exact Or.inr hres
  · intro hcond
    constructor
    · intro hres
      obtain ⟨hnil, hdot⟩ := hcond.resolve_right fun hnot => hnot hres
      have hn : Names t path id := ⟨hres, hfile, hnil, hdot⟩
      obtain ⟨parent, hr, hf⟩ := hn.found htree hlen
      exact ⟨parent, lastName path, hr, hf⟩
    · rintro ⟨parent, name, hr, hf⟩
      exact (hnames parent name hr hf).resolved

/-- The file that is there at the start, by its name and with a slash behind it. -/
theorem walkers_agree_iff_readme :
    ((fsInit clearedAlloc boot).nodes 2).type = .file ∧
    ((fsResolve (fsInit clearedAlloc boot) 0 (ascii "/readme.txt") false = .ok 2 ↔
        FoundByParent (fsInit clearedAlloc boot) (ascii "/readme.txt") 2) ↔
      lastName (ascii "/readme.txt") ≠ [] ∧ lastName (ascii "/readme.txt") ≠ dot ∨
        refResolve (fsInit clearedAlloc boot) 0 (ascii "/readme.txt") false ≠ .ok 2) ∧
    ((fsResolve (fsInit clearedAlloc boot) 0 (ascii "/readme.txt/") false = .ok 2 ↔
        FoundByParent (fsInit clearedAlloc boot) (ascii "/readme.txt/") 2) ↔
      lastName (ascii "/readme.txt/") ≠ [] ∧ lastName (ascii "/readme.txt/") ≠ dot ∨
        refResolve (fsInit clearedAlloc boot) 0 (ascii "/readme.txt/") false ≠ .ok 2) := by
  have hfile : ((fsInit clearedAlloc boot).nodes 2).type = .file := by
    rw [fsInit_cleared]
    rfl
  have hcwd : (fsInit clearedAlloc boot).cwd = 0 := by
    rw [fsInit_cleared]
    rfl
  have hlen : (ascii "/readme.txt").length < fsMaxPath := by decide
  have hlenSlash : (ascii "/readme.txt/").length < fsMaxPath := by decide
  have hname := walkers_agree_iff (.nil _) hlen (by decide) hfile
  have hslash := walkers_agree_iff (.nil _) hlenSlash (by decide) hfile
  rw [hcwd] at hname hslash
  exact ⟨hfile, hname, hslash⟩

/-- With a slash behind it the file is found by `fs_resolve`, but its parent is not. -/
theorem walkers_differ : ∃ t, Run (step clearedAlloc) anyCall (fsInit clearedAlloc boot) [] t ∧
    (ascii "/readme.txt/").length < fsMaxPath ∧
    (∀ c ∈ components (ascii "/readme.txt/"), c.length < fsMaxName) ∧
    (t.nodes 2).type = .file ∧ fsResolve t t.cwd (ascii "/readme.txt/") false = .ok 2 ∧
    fsResolveParent t (ascii "/readme.txt/") = .error .notDir ∧
    ¬ FoundByParent t (ascii "/readme.txt/") 2 := by
  rw [fsInit_cleared]
  have hparent : fsResolveParent started (ascii "/readme.txt/") = .error .notDir := rfl
  refine ⟨started, .nil _, by decide, by decide, rfl, rfl, hparent, ?_⟩
  rintro ⟨parent, name, hr, -⟩
  rw [hparent] at hr
  cases hr

end OpenKernel.FileSystem
