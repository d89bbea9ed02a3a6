import OpenKernel.FileSystem.Simulation

/-!
# The working directory

`cwd_path` is a copy of the names on the way to the current directory, made when
that directory changes. The copy is always what making it again would give. It has
a slash between two names and none in front of the first, so that outside the root
it is not the path of the directory and leads somewhere else.
-/

namespace OpenKernel.FileSystem

open Function

def fsPwd (s : Okfs) : Bytes := s.cwdPath

/-- `cwd_path` is what `fs_rebuild_cwd_path` would make of the current state. -/
def PathCurrent (s : Okfs) : Prop := s.cwdPath = (fsRebuildCwdPath s).cwdPath

section Rebuilding

variable {s t : Okfs} {alloc : Allocator}

theorem climb_congr {nodes nodes' : Slot → Node} (good : Slot → Prop)
    (hup : ∀ i p, good i → i ≠ 0 → (nodes i).parent = some p → good p)
    (hsame : ∀ i, good i → (nodes' i).parent = (nodes i).parent) (rounds : ℕ) {cur : Slot}
    (hcur : good cur) :
    climb nodes' rounds cur = climb nodes rounds cur ∧ ∀ i ∈ climb nodes rounds cur, good i := by
  induction rounds generalizing cur with
  | zero => simp [climb]
  | succ rounds ih =>
    by_cases h0 : cur = 0
    · simp [climb, h0]
    · simp only [climb, if_neg h0, hsame cur hcur]
      cases hp : (nodes cur).parent with
      | none => simp [hcur]
      | some p =>
        obtain ⟨heq, hgood⟩ := ih (hup cur p hcur h0 hp)
        simp only [heq, List.mem_cons, forall_eq_or_imp, true_and]
        exact ⟨hcur, hgood⟩

theorem rebuilt_congr (good : Slot → Prop)
    (hup : ∀ i p, good i → i ≠ 0 → (s.nodes i).parent = some p → good p)
    (hsame : ∀ i, good i →
      (t.nodes i).parent = (s.nodes i).parent ∧ (t.nodes i).name = (s.nodes i).name)
    (hcwd : t.cwd = s.cwd) (hgood : good s.cwd) :
    (fsRebuildCwdPath t).cwdPath = (fsRebuildCwdPath s).cwdPath := by
  obtain ⟨hclimb, hmem⟩ := climb_congr good hup (fun i hi => (hsame i hi).1) fsMaxNodes hgood
  have hnames : (climb s.nodes fsMaxNodes s.cwd).reverse.map (fun id => (t.nodes id).name) =
      (climb s.nodes fsMaxNodes s.cwd).reverse.map fun id => (s.nodes id).name := by
    apply List.map_congr_left
    intro i hi
    exact (hsame i (hmem i (List.mem_reverse.mp hi))).2
  simp only [fsRebuildCwdPath, hcwd, hclimb, hnames]

theorem pathCurrent_of_rebuilt (hpath : t.cwdPath = (fsRebuildCwdPath s).cwdPath)
    (hcwd : t.cwd = s.cwd)
    (hsame : ∀ i, (t.nodes i).parent = (s.nodes i).parent ∧ (t.nodes i).name = (s.nodes i).name) :
    PathCurrent t :=
  hpath.trans (rebuilt_congr (fun _ => True) (fun _ _ _ _ _ => trivial) (fun i _ => hsame i) hcwd
    trivial).symm

/-- Steps of the tree that stay in the current directory do not touch the nodes above it. -/
theorem PathCurrent.treeStep (h : PathCurrent s) (htree : TreeInv s) (hst : TreeStep s t)
    (hcwd : t.cwd = s.cwd) (hpath : t.cwdPath = s.cwdPath) : PathCurrent t := by
  have hup : ∀ i p, (s.shape i).used = true → i ≠ 0 → (s.nodes i).parent = some p →
      (s.shape p).used = true := by
    intro i p hi hi0 hp
    obtain ⟨p', hp', hu, -⟩ := htree.parent i hi0 hi
    obtain rfl : p' = p := Option.some.inj (hp'.symm.trans hp)
    exact hu
  have hsame : ∀ i, (s.shape i).used = true →
      (t.nodes i).parent = (s.nodes i).parent ∧ (t.nodes i).name = (s.nodes i).name := by
    intro i hi
    have hshape : (t.shape i).parent = (s.shape i).parent ∧
        (t.shape i).name = (s.shape i).name := by
      cases hst with
      | same hs =>
        rw [hs.1]
        exact ⟨rfl, rfl⟩
      | chdir hshape =>
        rw [hshape]
        exact ⟨rfl, rfl⟩
      | create id parent type name hshape hcwd hid hfree =>
        have hne : i ≠ id := by
          rintro rfl
          rw [hfree] at hi
          cases hi
        rw [hshape, update_of_ne hne]
        exact ⟨rfl, rfl⟩
      | remove id hshape =>
        rw [hshape]
        by_cases hid : i = id
        · rw [hid, update_self]
          exact ⟨rfl, rfl⟩
        · rw [update_of_ne hid]
          exact ⟨rfl, rfl⟩
    exact hshape
  unfold PathCurrent
  rw [rebuilt_congr (fun i => (s.shape i).used = true) hup hsame hcwd htree.cwd_used, hpath]
  exact h

end Rebuilding

/-- `t` has the current directory of `s` and the same text for it. -/
structure StaysPut (s t : Okfs) : Prop where
  cwd : t.cwd = s.cwd
  cwdPath : t.cwdPath = s.cwdPath

section Steps

variable {s t u : Okfs} {alloc : Allocator}

theorem StaysPut.refl (s : Okfs) : StaysPut s s := ⟨rfl, rfl⟩

theorem StaysPut.trans (h : StaysPut s t) (h' : StaysPut t u) : StaysPut s u :=
  ⟨h'.cwd.trans h.cwd, h'.cwdPath.trans h.cwdPath⟩

theorem SessionOnly.staysPut (h : SessionOnly s t) : StaysPut s t := ⟨h.sameNodes.2, h.cwdPath⟩

theorem staysPut_growFile (id : Slot) (newSize : ℕ) (append : Bool) :
    StaysPut s (growFile alloc s id newSize append).1 := by
  unfold growFile
  dsimp only
  split_ifs
  · exact StaysPut.refl s
  · split
    · exact ⟨rfl, rfl⟩
    · exact ⟨rfl, rfl⟩
  · split
    · exact ⟨rfl, rfl⟩
    · exact ⟨rfl, rfl⟩

theorem staysPut_fsSetFileData (id : Slot) (data : Bytes) (len : ℕ) (append : Bool) :
    StaysPut s (fsSetFileData alloc s id data len append).1 := by
  by_cases h : Fits alloc s id len append
  · obtain ⟨t, ht, he⟩ := fsSetFileData_of_fits h data
    have hgrow : StaysPut s (growFile alloc s id (sizeAfter s id len append) append).1 :=
      staysPut_growFile id _ append
    rw [ht] at hgrow
    rw [he]
    exact hgrow.trans ⟨rfl, rfl⟩
  · obtain ⟨n, -, he⟩ := fsSetFileData_of_not_fits h data
    rw [he]
    exact ⟨rfl, rfl⟩

theorem staysPut_withEntry (id parent : Slot) (name : Bytes) (type : FsType) :
    StaysPut s (withEntry s id parent name type) := ⟨rfl, rfl⟩

theorem staysPut_fsMkdir (path : Bytes) : StaysPut s (fsMkdir s path).1 :=
  fsMkdir_rule (StaysPut s) (StaysPut.refl s)
    fun id parent name type _ => staysPut_withEntry id parent name type

theorem staysPut_fsWriteFile (path : Bytes) (data : Option Bytes) (len : ℕ) :
    StaysPut s (fsWriteFile alloc s path data len).1 := by
  apply fsWriteFile_rule
  · exact StaysPut.refl s
  · intro id parent name type _
    exact staysPut_withEntry id parent name type
  · intro u id data len hu _ _
    exact hu.trans (staysPut_fsSetFileData id data len false)

theorem removeNode_path (id : Slot) :
    StaysPut s (removeNode s id).1 ∨ PathCurrent (removeNode s id).1 := by
  unfold removeNode
  dsimp only
  split_ifs
  · cases (s.nodes id).parent with
    | none => exact Or.inl ⟨rfl, rfl⟩
    | some parent =>
      refine Or.inr (pathCurrent_of_rebuilt rfl rfl fun i => ?_)
      by_cases hi : i = id
      · simp [fsRebuildCwdPath, hi]
      · simp [fsRebuildCwdPath, hi]
  · exact Or.inl ⟨rfl, rfl⟩

/-- A call keeps the current directory and its text, or leaves the text up to date. -/
theorem run_path (htree : TreeInv s) (op : Op) :
    StaysPut s (op.run alloc s).1 ∨ PathCurrent (op.run alloc s).1 := by
  apply run_rule fun t => StaysPut s t ∨ PathCurrent t
  · exact Or.inl (StaysPut.refl s)
  · intro path id hr
    exact (htree.fsResolve htree.cwd_used hr).1
  · intro path target _
    exact Or.inr rfl
  · intro path id parent name type _
    exact Or.inl (staysPut_withEntry id parent name type)
  · intro u id data len append hu _ _
    have hput : StaysPut u (fsSetFileData alloc u id data len append).1 :=
      staysPut_fsSetFileData id data len append
    have hsame : SameTree u (fsSetFileData alloc u id data len append).1 :=
      sameTree_fsSetFileData data len append
    rcases hu with hu | hu
    · exact Or.inl (hu.trans hput)
    · refine Or.inr (pathCurrent_of_rebuilt (hput.cwdPath.trans hu) hput.cwd fun i => ?_)
      have hshape := congrFun hsame.1 i
      exact ⟨congrArg Shape.parent hshape, congrArg Shape.name hshape⟩
  · intro id _ _ _
    exact removeNode_path id

theorem step_path {call : Call} (htree : TreeInv s) (he : step alloc s call = some t) :
    StaysPut s t ∨ PathCurrent t := by
  cases call with
  | op op =>
    cases he
    exact run_path htree op
  | editBegin path =>
    cases he
    exact Or.inl (sessionOnly_fsEditBegin path).staysPut
  | editHandleLine line =>
    cases he
    refine Or.inl ?_
    rcases fsEditHandleLine_cases (s := s) line with hs | ⟨u, data, len, hu, hs⟩
    · exact hs.staysPut
    · exact (hu.staysPut.trans (staysPut_fsWriteFile _ data len)).trans hs.staysPut
  | editGetPendingLine =>
    cases he
    exact Or.inl sessionOnly_fsEditGetPendingLine.staysPut

theorem PathCurrent.step {call : Call} (h : PathCurrent s) (htree : TreeInv s)
    (he : step alloc s call = some t) : PathCurrent t := by
  rcases step_path htree he with hput | hcur
  · exact h.treeStep htree (htree.step he) hput.cwd hput.cwdPath
  · exact hcur

theorem pathCurrent_fsInit (alloc : Allocator) (s : Okfs) : PathCurrent (fsInit alloc s) := by
  have hput : StaysPut (clearNodes s) (fsInit alloc s) :=
    ((staysPut_fsMkdir _).trans (staysPut_fsWriteFile _ _ _)).trans (staysPut_fsWriteFile _ _ _)
  have hcwd : (fsInit alloc s).cwd = 0 := hput.cwd
  have hpath : (fsInit alloc s).cwdPath = [slash] := hput.cwdPath
  unfold PathCurrent fsRebuildCwdPath
  simp [hcwd, hpath]

theorem pathCurrent_of_run {calls : List Call}
    (hrun : Run (FileSystem.step alloc) anyCall (fsInit alloc s) calls t) :
    TreeInv t ∧ PathCurrent t := by
  refine hrun.invariant (fun u => TreeInv u ∧ PathCurrent u) ?_
    ⟨treeInv_fsInit alloc s, pathCurrent_fsInit alloc s⟩
  rintro u call v ⟨htree, hcur⟩ - he
  exact ⟨htree.treeStep (htree.step he), hcur.step htree he⟩

end Steps

section Text

variable {s : Okfs} {p q : Path} {c path : Bytes} {v : Slot}

theorem NameOk.cleanName (h : NameOk c) : CleanName c :=
  ⟨h.ne_nil, h.length_lt, h.ne_dot, h.ne_dotDot, h.no_slash⟩

theorem TreeInv.cleanName_of_walk (h : TreeInv s) (hp : Walk (IsChild s) 0 p v) :
    ∀ c ∈ p, CleanName c := by
  induction hp with
  | nil => simp
  | snoc _ he ih =>
    obtain ⟨h0, hu, -, rfl⟩ := he
    intro c hc
    rcases List.mem_append.mp hc with hc | hc
    · exact ih c hc
    · rw [List.mem_singleton.mp hc]
      exact (h.name _ h0 hu).cleanName

/-- Joining names behind a text that does not end in a slash. -/
theorem joinNames_eq (hne : path ≠ []) (hlast : path.getLast? ≠ some slash)
    (hp : ∀ c ∈ p, CleanName c)
    (hfit : (path ++ p.flatMap fun c => slash :: c).length < fsMaxPath - 1) :
    joinNames path p = path ++ p.flatMap fun c => slash :: c := by
  induction p generalizing path with
  | nil => simp [joinNames]
  | cons c p ih =>
    have hc := hp c List.mem_cons_self
    have hgrow : path ++ (c :: p).flatMap (fun c => slash :: c) =
        (path ++ [slash] ++ c) ++ p.flatMap fun c => slash :: c := by simp
    rw [hgrow] at hfit ⊢
    have hlen := hfit
    simp only [List.length_append, List.length_singleton] at hlen
    have hsep : (if path ≠ [] ∧ path.getLast? ≠ some slash then
        if path.length < fsMaxPath - 1 then path ++ [slash] else path else path) =
        path ++ [slash] := by
      rw [if_pos ⟨hne, hlast⟩, if_pos (by omega)]
    rw [joinNames, hsep, if_neg (by simp; omega)]
    refine ih (by simp) ?_ (fun d hd => hp d (List.mem_cons_of_mem c hd)) hfit
    rw [List.getLast?_append_of_ne_nil _ hc.ne_nil]
    intro hs
    exact hc.no_slash (List.mem_of_getLast? hs)

theorem joinNames_nil (hp : ∀ c ∈ p, CleanName c) (hne : p ≠ [])
    (hfit : (pathText p).length ≤ fsMaxPath - 2) : joinNames [] p = (pathText p).tail := by
  obtain ⟨c, q, rfl⟩ := List.exists_cons_of_ne_nil hne
  have hc := hp c List.mem_cons_self
  have htail : (pathText (c :: q)).tail = c ++ q.flatMap fun c => slash :: c := by
    simp [pathText]
  have hlen : (c ++ q.flatMap fun c => slash :: c).length < fsMaxPath - 1 := by
    rw [← htail, List.length_tail]
    unfold fsMaxPath at *
    omega
  have hroom := hlen
  rw [List.length_append] at hroom
  rw [htail, joinNames, if_neg (by simp; omega), if_neg (by simp), List.nil_append]
  refine joinNames_eq hc.ne_nil ?_ (fun d hd => hp d (List.mem_cons_of_mem c hd)) hlen
  intro hs
  exact hc.no_slash (List.mem_of_getLast? hs)

theorem names_climb (hp : Walk (IsChild s) 0 p v) {rounds : ℕ} (hlen : p.length ≤ rounds) :
    (climb s.nodes rounds v).reverse.map (fun id => (s.nodes id).name) = p := by
  induction hp generalizing rounds with
  | nil => cases rounds <;> simp [climb]
  | snoc _ he ih =>
    obtain ⟨h0, -, hparent, hname⟩ := he
    change (s.nodes _).parent = some _ at hparent
    change (s.nodes _).name = _ at hname
    rw [List.length_append, List.length_singleton] at hlen
    obtain ⟨rounds, rfl⟩ : ∃ m, rounds = m + 1 := ⟨rounds - 1, by omega⟩
    have hup := @ih rounds (by omega)
    simp only [climb, if_neg h0, hparent, List.reverse_cons, List.map_append, hup, List.map_cons,
      List.map_nil, hname]

theorem two_mul_length_le (hp : ∀ c ∈ p, CleanName c) : 2 * p.length ≤ (pathText p).length := by
  have hmap : ∀ q : Path, (∀ c ∈ q, CleanName c) →
      2 * q.length ≤ (q.flatMap fun c => slash :: c).length := by
    intro q hq
    induction q with
    | nil => simp
    | cons c q ih =>
      have hc := List.length_pos_iff.mpr (hq c List.mem_cons_self).ne_nil
      have hrest := ih fun d hd => hq d (List.mem_cons_of_mem c hd)
      simp only [List.flatMap_cons, List.length_append, List.length_cons]
      omega
  unfold pathText
  split_ifs with hnil
  · simp [hnil]
  · exact hmap p hp

/-- The text of the current directory at `p`. -/
theorem TreeInv.cwdPath_eq (h : TreeInv s) (hcur : PathCurrent s)
    (hp : Walk (IsChild s) 0 p s.cwd) (hfit : (pathText p).length ≤ fsMaxPath - 2) :
    s.cwdPath = if s.cwd = 0 then [slash] else (pathText p).tail := by
  have hclean := h.cleanName_of_walk hp
  rw [hcur]
  unfold fsRebuildCwdPath
  by_cases h0 : s.cwd = 0
  · simp [h0]
  · have hne : p ≠ [] := by
      rintro rfl
      exact h0 (Walk.nil_iff.mp hp)
    have hlen := two_mul_length_le hclean
    have hrounds : p.length ≤ fsMaxNodes := by
      unfold fsMaxPath at hfit
      unfold fsMaxNodes
      omega
    have hnames := names_climb hp hrounds
    have htail : (pathText p).tail ≠ [] := by
      intro hnil
      have hone := congrArg List.length hnil
      have hpos := List.length_pos_iff.mpr hne
      rw [List.length_tail, List.length_nil] at hone
      omega
    simp only [if_neg h0, hnames, joinNames_nil hclean hne hfit, if_neg htail]

theorem fsResolve_tail (hp : ∀ c ∈ p, CleanName c) (hne : p ≠ []) (start : Slot)
    (wantDir : Bool) :
    fsResolve s start (pathText p).tail wantDir = found (p.foldlM (fsFindChild s) start) >>=
      fun id => if wantDir ∧ (s.nodes id).type ≠ .dir then .error .notDir else .ok id := by
  have hcomp := components_pathText hp
  obtain ⟨c, q, rfl⟩ := List.exists_cons_of_ne_nil hne
  have hc := hp c List.mem_cons_self
  obtain ⟨b, c, rfl⟩ := List.exists_cons_of_ne_nil hc.ne_nil
  have htext : pathText ((b :: c) :: q) = slash :: b :: (c ++ q.flatMap fun c => slash :: c) := by
    simp [pathText]
  rw [htext, components_slash] at hcomp
  have hb : b ≠ slash := by
    rintro rfl
    exact hc.no_slash List.mem_cons_self
  rw [htext, List.tail_cons, fsResolve_eq (by simp), hcomp, if_neg (by simpa using hb),
    foldlM_enterComponent_clean hp]

theorem TreeInv.foldlM_ne (h : TreeInv s) (hp : Walk (IsChild s) 0 p v) (hne : p ≠ []) :
    p.foldlM (fsFindChild s) v ≠ some v := by
  intro hv
  have htwice : locate s (p ++ p) = some v := by
    have hfirst := h.locate_iff.mpr hp
    unfold locate at hfirst ⊢
    rw [List.foldlM_append, hfirst]
    exact hv
  have hself := Walk.path_unique h.isTree (h.locate_iff.mp htwice) hp
  exact hne (List.append_right_eq_self.mp hself)

end Text

/-- `fs_cd` to where `fs_pwd` says the current directory is works, and stays there. -/
def PwdLeadsBack (s : Okfs) : Prop :=
  (fsCd s (fsPwd s)).2 = .ok () ∧ (fsCd s (fsPwd s)).1.cwd = s.cwd

/-- As far as it fits, `fs_pwd` is the path of the current directory, and leads back to it, in the
root only: elsewhere the slash in front is missing. -/
theorem pwd_iff_root {alloc : Allocator} {s t : Okfs} {calls : List Call} {p : Path}
    (hrun : Run (step alloc) anyCall (fsInit alloc s) calls t)
    (hp : Walk (IsChild t) 0 p t.cwd) (hfit : (pathText p).length ≤ fsMaxPath - 2) :
    (fsPwd t = pathText p ↔ t.cwd = 0) ∧ (PwdLeadsBack t ↔ t.cwd = 0) := by
  obtain ⟨htree, hcur⟩ := pathCurrent_of_run hrun
  have hpwd : fsPwd t = if t.cwd = 0 then [slash] else (pathText p).tail :=
    htree.cwdPath_eq hcur hp hfit
  have hclean := htree.cleanName_of_walk hp
  by_cases h0 : t.cwd = 0
  · rw [if_pos h0] at hpwd
    rw [h0] at hp
    obtain rfl := Walk.path_unique htree.isTree hp .nil
    have hdir : (t.nodes 0).type = .dir := htree.root_dir
    have hres : fsResolve t 0 [slash] true = .ok 0 := by
      simpa [locate, found, bind, Except.bind, hdir, pathText] using
        fsResolve_pathText (s := t) (p := []) (by simp) 0 true
    simp only [h0, iff_true, PwdLeadsBack, hpwd, fsCd, hres, hdir]
    exact ⟨rfl, rfl, rfl⟩
  · have hne : p ≠ [] := by
      rintro rfl
      exact h0 (Walk.nil_iff.mp hp)
    rw [if_neg h0] at hpwd
    refine ⟨iff_of_false (fun heq => ?_) h0, iff_of_false (fun hback => ?_) h0⟩
    · obtain ⟨rest, hrest⟩ := head_pathText (p := p)
      rw [hpwd, hrest, List.tail_cons] at heq
      exact absurd heq.symm (List.cons_ne_self slash rest)
    · obtain ⟨hok, hcwd⟩ := hback
      rw [hpwd, fsCd, fsResolve_tail hclean hne] at hok hcwd
      cases hf : p.foldlM (fsFindChild t) t.cwd with
      | none =>
        rw [hf] at hok
        cases hok
      | some w =>
        have hw : w ≠ t.cwd := fun heq => htree.foldlM_ne hp hne (heq ▸ hf)
        by_cases hdir : (t.nodes w).type = .dir
        · simp [hf, found, bind, Except.bind, hdir, fsRebuildCwdPath] at hcwd
          exact hw hcwd
        · simp [hf, found, bind, Except.bind, hdir] at hok

/-- In the directory that was there at the start, and back in the root. -/
theorem pwd_iff_root_docs : ∃ t u,
    Run (step clearedAlloc) anyCall (fsInit clearedAlloc boot) [.op (.cd (ascii "docs"))] t ∧
    Run (step clearedAlloc) anyCall (fsInit clearedAlloc boot)
      [.op (.cd (ascii "docs")), .op (.cd (ascii ".."))] u ∧
    ((fsPwd t = pathText [ascii "docs"] ↔ t.cwd = 0) ∧ (PwdLeadsBack t ↔ t.cwd = 0)) ∧
    ((fsPwd u = pathText [] ↔ u.cwd = 0) ∧ (PwdLeadsBack u ↔ u.cwd = 0)) := by
  obtain ⟨t, u, ht, hdocs, hu, hroot⟩ : ∃ t u,
      [.op (.cd (ascii "docs"))].foldlM (step clearedAlloc) (fsInit clearedAlloc boot) = some t ∧
      locate t [ascii "docs"] = some t.cwd ∧
      [.op (.cd (ascii "docs")), .op (.cd (ascii ".."))].foldlM (step clearedAlloc)
        (fsInit clearedAlloc boot) = some u ∧ locate u [] = some u.cwd := by
    rw [fsInit_cleared]
    exact ⟨_, _, rfl, rfl, rfl, rfl⟩
  have hrunt : Run (step clearedAlloc) anyCall _ _ t := Run.of_foldlM ht
  have hrunu : Run (step clearedAlloc) anyCall _ _ u := Run.of_foldlM hu
  refine ⟨t, u, hrunt, hrunu, pwd_iff_root hrunt ?_ (by decide), pwd_iff_root hrunu ?_ (by decide)⟩
  · exact (treeInv_of_run hrunt).locate_iff.mp hdocs
  · exact (treeInv_of_run hrunu).locate_iff.mp hroot

/-- After `cd docs` the working directory is printed without its slash, and `cd docs` fails. -/
theorem pwd_without_slash : ∃ t,
    Run (step clearedAlloc) anyCall (fsInit clearedAlloc boot) [.op (.cd (ascii "docs"))] t ∧
    Walk (IsChild t) 0 [ascii "docs"] t.cwd ∧
    (pathText [ascii "docs"]).length ≤ fsMaxPath - 2 ∧ fsPwd t = ascii "docs" ∧
    fsPwd t ≠ pathText [ascii "docs"] ∧ (fsCd t (fsPwd t)).2 = .error .notFound := by
  obtain ⟨t, ht, hdocs, hpwd, hcd⟩ : ∃ t,
      [.op (.cd (ascii "docs"))].foldlM (step clearedAlloc) (fsInit clearedAlloc boot) = some t ∧
      locate t [ascii "docs"] = some t.cwd ∧ fsPwd t = ascii "docs" ∧
      (fsCd t (ascii "docs")).2 = .error .notFound := by
    rw [fsInit_cleared]
    exact ⟨_, rfl, rfl, rfl, rfl⟩
  have hrun : Run (step clearedAlloc) anyCall _ _ t := Run.of_foldlM ht
  refine ⟨t, hrun, (treeInv_of_run hrun).locate_iff.mp hdocs, by decide, hpwd, ?_, ?_⟩
  · rw [hpwd]
    decide
  · rw [hpwd]
    exact hcd

end OpenKernel.FileSystem
