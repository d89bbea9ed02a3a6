import OpenKernel.FileSystem.View

/-!
# The operations on the map

On clean absolute paths, and with a `kmalloc` that does not fail, each operation of
OKFS does to the map that the node table stands for what the request of the abstract
map does, and reports success exactly when the request is allowed.
-/

namespace OpenKernel.FileSystem

open Function PathMap

section Lookup

variable {s : Okfs} {cur u : Slot} {path c : Bytes} {p q : Path}

/-- A lookup as `fs_resolve` reports it. -/
def found : Option Slot → Except FsError Slot
  | none => .error .notFound
  | some i => .ok i

theorem enterComponent_clean (hc : CleanName c) :
    enterComponent s cur c = found (fsFindChild s cur c) := by
  have hlen := hc.length_lt
  rw [enterComponent, if_neg (by omega), fsEnter, if_neg hc.ne_nil, if_neg hc.ne_dot,
    if_neg hc.ne_dotDot]
  cases fsFindChild s cur c <;> rfl

theorem foldlM_enterComponent_clean (hp : ∀ c ∈ p, CleanName c) :
    p.foldlM (enterComponent s) cur = found (p.foldlM (fsFindChild s) cur) := by
  induction p generalizing cur with
  | nil => rfl
  | cons c p ih =>
    rw [List.foldlM_cons, List.foldlM_cons, enterComponent_clean (hp c List.mem_cons_self)]
    cases fsFindChild s cur c with
    | none => rfl
    | some next => exact ih fun d hd => hp d (List.mem_cons_of_mem c hd)

theorem fsResolve_pathText (hp : ∀ c ∈ p, CleanName c) (start : Slot) (wantDir : Bool) :
    fsResolve s start (pathText p) wantDir = found (locate s p) >>= fun id =>
      if wantDir ∧ (s.nodes id).type ≠ .dir then .error .notDir else .ok id := by
  obtain ⟨rest, hrest⟩ := head_pathText (p := p)
  rw [fsResolve_eq (by simp [hrest]), components_pathText hp, if_pos (by simp [hrest]),
    foldlM_enterComponent_clean hp]
  rfl

theorem fsResolve_clean (h : CleanPath path) (hl : locate s (components path) = some u)
    (start : Slot) (wantDir : Bool) :
    fsResolve s start path wantDir =
      if wantDir ∧ (s.nodes u).type ≠ .dir then .error .notDir else .ok u := by
  rw [h.text, fsResolve_pathText fun c hc => h.cleanName hc, hl]
  rfl

theorem fsResolve_clean_none (h : CleanPath path) (hl : locate s (components path) = none)
    (start : Slot) (wantDir : Bool) :
    fsResolve s start path wantDir = .error .notFound := by
  rw [h.text, fsResolve_pathText fun c hc => h.cleanName hc, hl]
  rfl

theorem pathText_snoc (q : Path) (c : Bytes) :
    pathText (q ++ [c]) = (q.flatMap fun c => slash :: c) ++ slash :: c := by
  simp [pathText]

theorem fsResolveParent_pathText (hq : ∀ d ∈ q, CleanName d) (hc : CleanName c)
    (hlen : (pathText (q ++ [c])).length < fsMaxPath) :
    fsResolveParent s (pathText (q ++ [c])) = found (locate s q) >>= fun id =>
      if (s.nodes id).type ≠ .dir then .error .notDir else .ok (id, c) := by
  rw [pathText_snoc] at hlen ⊢
  have hhead : ((q.flatMap fun c => slash :: c) ++ slash :: c).head? = some slash := by
    cases q with
    | nil => rfl
    | cons d q => rfl
  rw [fsResolveParent_append hc.no_slash hlen, if_pos hhead, components_flatMap hq,
    foldlM_enterComponent_clean hq, fsStrcpy_of_lt hc.length_lt]
  rfl

end Lookup

/-- The limits of the node table, and the names `fs_create_entry` accepts. -/
def okfsRules : Rules Bytes where
  capacity := 127
  newName c := backslash ∉ c
  fileName c := ascii ".txt" <:+ c

structure FsInv (s : Okfs) : Prop where
  tree : TreeInv s
  storage : StorageInv s

/-- The outcome of an operation in `s` is that of the request. -/
structure Simulates (s : Okfs) (r : Okfs × Except FsError Unit) (req : Request Bytes UInt8) :
    Prop where
  inv : FsInv r.1
  result : r.2 = .ok () ↔ Allowed okfsRules (view s) req
  map : view r.1 = after okfsRules (view s) req

section Creation

variable {s t : Okfs} {u : Slot} {c : Bytes} {p q : Path} {req : Request Bytes UInt8}

theorem FsInv.failed (h : FsInv s) (err : FsError) (hnot : ¬ Allowed okfsRules (view s) req) :
    Simulates s (s, .error err) req := by
  refine ⟨h, by simp [hnot], ?_⟩
  exact (after_of_not_allowed hnot).symm

theorem FsInv.done (h : FsInv t) (hallowed : Allowed okfsRules (view s) req)
    (hview : view t = effect (view s) req) : Simulates s (t, .ok ()) req := by
  refine ⟨h, by simp [hallowed], ?_⟩
  rw [after_of_allowed hallowed]
  exact hview

theorem fsEndsWithTxt_iff : fsEndsWithTxt c = true ↔ ascii ".txt" <:+ c := by
  have hlen : (ascii ".txt").length = 4 := by decide
  unfold fsEndsWithTxt
  rw [Bool.and_eq_true, decide_eq_true_eq, decide_eq_true_eq, List.suffix_iff_eq_drop, hlen]
  constructor
  · rintro ⟨-, hdrop⟩
    exact hdrop.symm
  · intro hdrop
    refine ⟨?_, hdrop.symm⟩
    have hle := congrArg List.length hdrop
    rw [hlen, List.length_drop] at hle
    omega

theorem fsIsValidName_iff (hc : CleanName c) : fsIsValidName c = true ↔ backslash ∉ c := by
  simp only [fsIsValidName, Bool.and_eq_true, decide_eq_true_eq, List.all_eq_true]
  constructor
  · rintro ⟨-, hall⟩ hb
    exact (hall backslash hb).2 rfl
  · intro hb
    refine ⟨⟨⟨hc.ne_nil, hc.ne_dot⟩, hc.ne_dotDot⟩, fun x hx => ⟨?_, ?_⟩⟩
    · rintro rfl
      exact hc.no_slash hx
    · rintro rfl
      exact hb hx

theorem FsInv.creatable_iff (h : FsInv s) (hc : CleanName c) (hu : locate s q = some u)
    (hdir : (s.nodes u).type = .dir) (named : Bytes → Prop) :
    Creatable okfsRules (view s) (q ++ [c]) named ↔
      fsFindChild s u c = none ∧ fsAllocNode s ≠ none ∧ fsIsValidName c = true ∧ named c := by
  have hnew : view s (q ++ [c]) = none ↔ fsFindChild s u c = none := by
    rw [view_eq_none_iff, locate_snoc, hu, Option.bind_some]
  unfold Creatable
  rw [hnew, h.tree.fsAllocNode_iff, fsIsValidName_iff hc]
  refine and_congr_right fun _ => and_congr_right fun _ => ?_
  constructor
  · rintro ⟨q', c', he, -, hvalid, hnamed⟩
    obtain ⟨rfl, hcc⟩ := List.append_inj' he rfl
    obtain rfl := List.singleton_inj.mp hcc
    exact ⟨hvalid, hnamed⟩
  · rintro ⟨hvalid, hnamed⟩
    exact ⟨q, c, rfl, (view_dir_iff hu).mpr hdir, hvalid, hnamed⟩

theorem not_creatable_of_parent {named : Bytes → Prop} (hq : view s q ≠ some .dir) :
    ¬ Creatable okfsRules (view s) (q ++ [c]) named := by
  rintro ⟨-, -, q', c', he, hdir, -⟩
  rw [(List.append_inj' he rfl).1] at hq
  exact hq hdir

def newEntry : FsType → Entry UInt8
  | .dir => .dir
  | .file => .file []

theorem FsInv.withEntry {id : Slot} {type : FsType} (h : FsInv s) (hc : CleanName c)
    (hu : locate s q = some u) (hdir : (s.nodes u).type = .dir)
    (htext : type = .file → fsEndsWithTxt c = true) (hnew : fsFindChild s u c = none)
    (hvalid : fsIsValidName c = true) (hid : fsAllocNode s = some id) :
    FsInv (withEntry s id u c type) ∧ locate (withEntry s id u c type) (q ++ [c]) = some id ∧
      view (withEntry s id u c type) = update (view s) (q ++ [c]) (some (newEntry type)) := by
  have hwalk := h.tree.locate_iff.mp hu
  obtain ⟨hid0, hfree⟩ := fsAllocNode_some hid
  have hstep : TreeStep s (FileSystem.withEntry s id u c type) :=
    treeStep_withEntry hc.length_lt (h.tree.used_of_walk hwalk) hdir hvalid htext hnew hid
  have htree := h.tree.treeStep hstep
  obtain ⟨hstorage, hothers⟩ := h.storage.withEntry id u c type
  have hshape : (FileSystem.withEntry s id u c type).shape = _ :=
    shape_withEntry hc.length_lt id u type
  refine ⟨⟨htree, hstorage⟩, ?_, ?_⟩
  · exact htree.locate_iff.mpr
      ((h.tree.walk_created hshape hid0 hfree hwalk _ _).mpr (Or.inr ⟨rfl, rfl⟩))
  rw [h.tree.view_created htree hshape hid0 hfree hothers hwalk]
  congr 2
  cases type <;> simp [entryAt, newEntry, FileSystem.withEntry, fileBytes]

/-- A creation succeeds when the map has room for it, and changes nothing otherwise. -/
theorem FsInv.fsCreateEntry_cases (h : FsInv s) (hc : CleanName c) (hu : locate s q = some u)
    (hdir : (s.nodes u).type = .dir) (type : FsType) (named : Bytes → Prop)
    (hnamed : named c ↔ (type = .file → fsEndsWithTxt c = true)) :
    (∃ err, fsCreateEntry s u c type = (s, .error err) ∧
      ¬ Creatable okfsRules (view s) (q ++ [c]) named) ∨
    ∃ t id, fsCreateEntry s u c type = (t, .ok id) ∧ FsInv t ∧
      Creatable okfsRules (view s) (q ++ [c]) named ∧ locate t (q ++ [c]) = some id ∧
      (t.nodes id).type = type ∧
      view t = update (view s) (q ++ [c]) (some (newEntry type)) := by
  rw [h.creatable_iff hc hu hdir, hnamed]
  rcases FileSystem.fsCreateEntry_cases s u c type with ⟨err, he⟩ |
    ⟨id, hvalid, htext, hnew, hid, he⟩
  · refine Or.inl ⟨err, he, ?_⟩
    rintro ⟨hnew, hne, hvalid, htext⟩
    obtain ⟨id, hid⟩ := Option.ne_none_iff_exists'.mp hne
    rw [fsCreateEntry_of_ok hvalid htext hnew hid] at he
    cases congrArg Prod.snd he
  · obtain ⟨hinv, hloc, hview⟩ := h.withEntry hc hu hdir htext hnew hvalid hid
    refine Or.inr ⟨_, id, he, hinv, ⟨hnew, by simp [hid], hvalid, htext⟩, hloc, ?_, hview⟩
    simp [FileSystem.withEntry]

end Creation

section Operations

variable {s : Okfs} {path c : Bytes} {p q : Path}

theorem FsInv.view_root (h : FsInv s) : view s [] = some .dir :=
  (view_dir_iff rfl).mpr h.tree.root_dir

theorem FsInv.view_parent (h : FsInv s) (hc : view s (q ++ [c]) ≠ none) :
    view s q = some .dir := by
  obtain ⟨e, he⟩ := Option.ne_none_iff_exists'.mp hc
  obtain ⟨v, hv, -⟩ := h.tree.view_iff.mp he
  obtain ⟨u, hu, hv0, hvu, hvp, -⟩ := Walk.snoc_iff.mp hv
  obtain ⟨u', hu', -, hdir⟩ := h.tree.parent v hv0 hvu
  obtain rfl : u' = u := Option.some.inj (hu'.symm.trans hvp)
  exact (view_dir_iff (h.tree.locate_iff.mpr hu)).mpr hdir

/-- `fs_resolve_parent` fails where the map has no directory, and else splits off the name. -/
theorem FsInv.fsResolveParent_cases (h : FsInv s) (hp : CleanPath path) :
    (∃ err q c, fsResolveParent s path = .error err ∧ components path = q ++ [c] ∧
      view s q ≠ some .dir) ∨
    (fsResolveParent s path = .ok (0, []) ∧ components path = []) ∨
    ∃ q c u, fsResolveParent s path = .ok (u, c) ∧ components path = q ++ [c] ∧ CleanName c ∧
      locate s q = some u ∧ (s.nodes u).type = .dir := by
  have hlen := hp.length_lt
  have htext := hp.text
  have hclean := fun c => hp.cleanName (c := c)
  rcases List.eq_nil_or_concat' (components path) with hnil | ⟨q, c, hqc⟩
  · refine Or.inr (Or.inl ⟨?_, hnil⟩)
    rw [hnil] at htext
    have hroot : (s.nodes 0).type = .dir := h.tree.root_dir
    have hres : fsResolve s 0 [slash] true = .ok 0 := by
      simpa [locate, found, bind, Except.bind, hroot, pathText] using
        fsResolve_pathText (s := s) (p := []) (by simp) 0 true
    rw [htext]
    simp [fsResolveParent, pathText, hres, fsMaxPath, fsStrcpy]
  · rw [hqc] at htext hclean
    have hq : ∀ d ∈ q, CleanName d := fun d hd => hclean d (List.mem_append_left [c] hd)
    have hc : CleanName c := hclean c (by simp)
    rw [htext] at hlen
    have hres := fsResolveParent_pathText (s := s) hq hc hlen
    rw [← htext] at hres
    cases hl : locate s q with
    | none =>
      rw [hl] at hres
      refine Or.inl ⟨_, q, c, hres, hqc, ?_⟩
      rw [view_eq_none_iff.mpr hl]
      simp
    | some u =>
      rw [hl] at hres
      by_cases hdir : (s.nodes u).type = .dir
      · refine Or.inr (Or.inr ⟨q, c, u, hres.trans ?_, hqc, hc, hl, hdir⟩)
        simp [found, bind, Except.bind, hdir]
      · refine Or.inl ⟨.notDir, q, c, hres.trans ?_, hqc, ?_⟩
        · simp [found, bind, Except.bind, hdir]
        · rw [Ne, view_dir_iff hl]
          exact hdir

/-- A file can be stored at `p`: it exists or can be created. -/
def Storable (m : PathMap Bytes UInt8) (p : Path) : Prop :=
  IsFile m p ∨ Creatable okfsRules m p okfsRules.fileName

theorem FsInv.not_storable_of_parent (h : FsInv s) (hq : view s q ≠ some .dir) :
    ¬ Storable (view s) (q ++ [c]) := by
  rintro (⟨bytes, hb⟩ | hcan)
  · have hne : view s (q ++ [c]) ≠ none := by simp [hb]
    exact hq (h.view_parent hne)
  · exact not_creatable_of_parent hq hcan

theorem FsInv.not_storable_root (h : FsInv s) : ¬ Storable (view s) [] := by
  rintro (⟨bytes, hb⟩ | ⟨-, -, q, c, hqc, -⟩)
  · rw [h.view_root] at hb
    cases hb
  · simp at hqc

/-- The file that `fs_touch` and `fs_write_file` work on: what they find or create at `path`. -/
inductive Target (s : Okfs) (path : Bytes) : Prop
  | unresolved (err : FsError) (hr : fsResolveParent s path = .error err)
      (hnot : ¬ Storable (view s) (components path))
  | directory (u i : Slot) (c : Bytes) (hr : fsResolveParent s path = .ok (u, c))
      (hf : fsFindChild s u c = some i) (hdir : (s.nodes i).type ≠ .file)
      (hnot : ¬ Storable (view s) (components path))
  | existing (u i : Slot) (c : Bytes) (hr : fsResolveParent s path = .ok (u, c))
      (hf : fsFindChild s u c = some i) (hfile : (s.nodes i).type = .file)
      (hi : locate s (components path) = some i)
  | refused (u : Slot) (c : Bytes) (err : FsError) (hr : fsResolveParent s path = .ok (u, c))
      (hf : fsFindChild s u c = none) (he : fsCreateEntry s u c .file = (s, .error err))
      (hnot : ¬ Storable (view s) (components path))
  | created (u i : Slot) (c : Bytes) (t : Okfs) (hr : fsResolveParent s path = .ok (u, c))
      (hf : fsFindChild s u c = none) (he : fsCreateEntry s u c .file = (t, .ok i))
      (ht : FsInv t) (hcan : Creatable okfsRules (view s) (components path) okfsRules.fileName)
      (hi : locate t (components path) = some i) (hfile : (t.nodes i).type = .file)
      (hview : view t = update (view s) (components path) (some (.file [])))

theorem FsInv.target (h : FsInv s) (hp : CleanPath path) : Target s path := by
  rcases h.fsResolveParent_cases hp with ⟨err, q, c, hr, hqc, hq⟩ | ⟨hr, hnil⟩ |
    ⟨q, c, u, hr, hqc, hc, hu, hdir⟩
  · exact .unresolved err hr (hqc ▸ h.not_storable_of_parent hq)
  · have hfind : fsFindChild s 0 [] = none := by
      by_contra hne
      obtain ⟨i, hi⟩ := Option.ne_none_iff_exists'.mp hne
      obtain ⟨hi0, hiu, -, hname⟩ := fsFindChild_some hi
      exact (h.tree.name i hi0 hiu).ne_nil hname
    refine .refused 0 [] .invalid hr hfind ?_ (hnil ▸ h.not_storable_root)
    simp [fsCreateEntry, fsIsValidName]
  · have hloc : locate s (components path) = fsFindChild s u c := by
      rw [hqc, locate_snoc, hu, Option.bind_some]
    cases hf : fsFindChild s u c with
    | some i =>
      rw [hf] at hloc
      by_cases hfile : (s.nodes i).type = .file
      · exact .existing u i c hr hf hfile hloc
      · refine .directory u i c hr hf hfile ?_
        rintro (hisFile | hcan)
        · exact hfile ((isFile_view_iff hloc).mp hisFile)
        · rw [view_eq_none_iff.mp hcan.1] at hloc
          cases hloc
    | none =>
      rw [hf] at hloc
      have hcreate := h.fsCreateEntry_cases hc hu hdir .file okfsRules.fileName
        (by simp [okfsRules, fsEndsWithTxt_iff])
      rw [← hqc] at hcreate
      rcases hcreate with ⟨err, he, hnot⟩ | ⟨t, id, he, ht, hcan, hid, htype, hview⟩
      · refine .refused u c err hr hf he ?_
        rintro (⟨bytes, hb⟩ | hcan)
        · rw [view_eq_none_iff.mpr hloc] at hb
          cases hb
        · exact hnot hcan
      · exact .created u id c t hr hf he ht hcan hid htype hview

theorem simulates_fsMkdir (h : FsInv s) (hp : CleanPath path) :
    Simulates s (fsMkdir s path) (.mkdir (components path)) := by
  unfold fsMkdir
  rcases h.fsResolveParent_cases hp with ⟨err, q, c, hr, hqc, hq⟩ | ⟨hr, hnil⟩ |
    ⟨q, c, u, hr, hqc, hc, hu, hdir⟩
  · rw [hr, hqc]
    exact h.failed err (not_creatable_of_parent hq)
  · rw [hr, hnil]
    apply h.failed .invalid
    rintro ⟨-, -, q, c, hqc, -⟩
    simp at hqc
  · rw [hr, hqc]
    dsimp only
    have hcreate := h.fsCreateEntry_cases hc hu hdir .dir (fun _ => True) (by simp)
    by_cases hvalid : fsIsValidName c = true
    · rw [if_neg (by simp [hvalid])]
      rcases hcreate with ⟨err, he, hnot⟩ | ⟨t, id, he, ht, hcan, -, -, hview⟩
      · rw [he]
        exact h.failed .full hnot
      · rw [he]
        exact ht.done hcan hview
    · rw [if_pos (by simp [hvalid])]
      apply h.failed .invalid
      intro hcan
      exact hvalid ((h.creatable_iff hc hu hdir _).mp hcan).2.2.1

theorem simulates_fsTouch (h : FsInv s) (hp : CleanPath path) :
    Simulates s (fsTouch s path) (.touch (components path)) := by
  unfold fsTouch
  cases h.target hp with
  | unresolved err hr hnot =>
    rw [hr]
    exact h.failed err hnot
  | directory u i c hr hf hdir hnot =>
    simp only [hr, hf, if_pos hdir]
    exact h.failed .notFile hnot
  | existing u i c hr hf hfile hi =>
    simp only [hr, hf, if_neg (not_not.mpr hfile)]
    have hisFile := (isFile_view_iff hi).mpr hfile
    refine h.done (Or.inl hisFile) ?_
    obtain ⟨bytes, hb⟩ := hisFile
    have hbytes : bytesAt (view s) (components path) = bytes := by simp [bytesAt, hb]
    rw [effect, hbytes, ← hb, update_eq_self]
  | refused u c err hr hf he hnot =>
    simp only [hr, hf, he]
    exact h.failed err hnot
  | created u i c t hr hf he ht hcan hi hfile hview =>
    simp only [hr, hf, he]
    refine ht.done (Or.inr hcan) (hview.trans ?_)
    simp [effect, bytesAt, hcan.1]

theorem simulates_fsCd (h : FsInv s) (hp : CleanPath path) :
    Simulates s (fsCd s path) (.cd (components path)) := by
  unfold fsCd
  cases hl : locate s (components path) with
  | none =>
    rw [fsResolve_clean_none hp hl]
    apply h.failed .notFound
    intro hdir
    rw [Allowed, view_eq_none_iff.mpr hl] at hdir
    cases hdir
  | some i =>
    rw [fsResolve_clean hp hl]
    by_cases hdir : (s.nodes i).type = .dir
    · simp only [hdir, ne_eq, not_true_eq_false, and_false, if_false]
      obtain ⟨hstorage, hbytes⟩ :=
        h.storage.congr (t := fsRebuildCwdPath { s with cwd := i }) rfl rfl
      refine FsInv.done ⟨?_, hstorage⟩ ((view_dir_iff hl).mpr hdir) ?_
      · exact h.tree.chdir rfl (h.tree.used_of_walk (h.tree.locate_iff.mp hl)) hdir
      · exact view_congr rfl hbytes
    · rw [if_pos ⟨rfl, hdir⟩]
      exact h.failed .notDir fun hd => hdir ((view_dir_iff hl).mp hd)

/-- The checks of `fs_rm` are those of the map. -/
theorem FsInv.rm_allowed_iff {i : Slot} (h : FsInv s) (hi : locate s p = some i) :
    Allowed okfsRules (view s) (.rm p) ↔ i ≠ 0 ∧ ¬ ((s.nodes i).type = .dir ∧
      (entrySlots.any fun j => (s.nodes j).used && (s.nodes j).parent = some i) = true) := by
  have hwalk := h.tree.locate_iff.mp hi
  have hview := h.tree.view_of_walk hwalk
  have hnil : p ≠ [] ↔ i ≠ 0 := by
    refine not_congr ⟨?_, ?_⟩
    · rintro rfl
      exact Walk.nil_iff.mp hwalk
    · rintro rfl
      exact Walk.path_unique h.tree.isTree hwalk .nil
  have hleaf : (∀ c, view s (p ++ [c]) = none) ↔
      ∀ j, j ≠ 0 → (s.shape j).used = true → (s.shape j).parent ≠ some i := by
    constructor
    · intro hnone j hj hju hjp
      have hchild := h.tree.view_of_walk (Walk.snoc hwalk ⟨hj, hju, hjp, rfl⟩)
      rw [hnone] at hchild
      cases hchild
    · intro hno c
      by_contra hc
      obtain ⟨e, he⟩ := Option.ne_none_iff_exists'.mp hc
      obtain ⟨v, hv, -⟩ := h.tree.view_iff.mp he
      obtain ⟨w, hw, hv0, hvu, hvp, -⟩ := Walk.snoc_iff.mp hv
      obtain rfl := Walk.functional h.tree.isTree hw hwalk
      exact hno v hv0 hvu hvp
  rw [Allowed, hnil, hleaf]
  constructor
  · rintro (⟨bytes, hb⟩ | ⟨hi0, hdir, hno⟩)
    · obtain ⟨hfile, -⟩ := entryAt_file_iff.mp (Option.some.inj (hview.symm.trans hb))
      refine ⟨?_, fun hd => by rw [hfile] at hd; cases hd.1⟩
      rintro rfl
      rw [show (s.nodes 0).type = .dir from h.tree.root_dir] at hfile
      cases hfile
    · refine ⟨hi0, fun hd => ?_⟩
      obtain ⟨j, hj, hju, hjp⟩ := any_child_iff.mp hd.2
      exact hno j hj hju hjp
  · rintro ⟨hi0, hd⟩
    cases htype : (s.nodes i).type with
    | dir =>
      exact Or.inr ⟨hi0, (view_dir_iff hi).mpr htype, h.tree.no_child hd⟩
    | file => exact Or.inl ((isFile_view_iff hi).mpr htype)

theorem simulates_fsRm (h : FsInv s) (hp : CleanPath path) :
    Simulates s (fsRm s path) (.rm (components path)) := by
  unfold fsRm
  cases hl : locate s (components path) with
  | none =>
    rw [fsResolve_clean_none hp hl]
    apply h.failed .notFound
    have hnone := view_eq_none_iff.mpr hl
    rintro (⟨bytes, hb⟩ | ⟨-, hb, -⟩) <;> rw [hnone] at hb <;> cases hb
  | some i =>
    have hallowed := h.rm_allowed_iff hl
    rw [fsResolve_clean hp hl, if_neg (by simp)]
    dsimp only
    by_cases hi : i = 0
    · rw [if_pos hi]
      exact h.failed .invalid fun ha => (hallowed.mp ha).1 hi
    rw [if_neg hi]
    by_cases hdir : (s.nodes i).type = .dir ∧
        (entrySlots.any fun j => (s.nodes j).used && (s.nodes j).parent = some i) = true
    · rw [if_pos hdir]
      exact h.failed .notEmpty fun ha => (hallowed.mp ha).2 hdir
    · rw [if_neg hdir]
      have hwalk := h.tree.locate_iff.mp hl
      have hused := h.tree.used_of_walk hwalk
      have hleaf := h.tree.no_child hdir
      obtain ⟨u, hu, -⟩ := h.tree.parent i hi hused
      obtain ⟨t, ht, hnodes, -, hheap⟩ := removeNode_eq hu
      have htree := h.tree.treeStep (h.tree.removeNode hi hused hleaf)
      rw [ht] at htree ⊢
      obtain ⟨hstorage, hothers⟩ := h.storage.removeNode hused hnodes hheap rfl rfl
      refine FsInv.done ⟨htree, hstorage⟩ (hallowed.mpr ⟨hi, hdir⟩) ?_
      exact h.tree.view_removed htree (shape_removed hnodes rfl) hi hleaf hothers hwalk

end Operations

/-- The bytes that a call with `data` and `len` stands for. -/
def payload (data : Bytes) (len : ℕ) : Bytes :=
  if len = 0 then data.takeWhile (· ≠ 0) else data.take len

def Within (m : PathMap Bytes UInt8) : Prop :=
  ∀ p bytes, m p = some (.file bytes) → bytes.length ≤ fsMaxFileSize

section Data

variable {alloc : Allocator} {s : Okfs} {path data : Bytes} {p : Path} {i : Slot} {len n : ℕ}

theorem readBytes_eq_payload (h : len ≤ data.length) :
    readBytes data (if len = 0 then fsStrlen data else len) = payload data len := by
  unfold payload
  split_ifs
  · have hfirst : data.takeWhile (· ≠ 0) <+: data := List.takeWhile_prefix _
    rw [fsStrlen, readBytes_of_le hfirst.length_le]
    exact (List.prefix_iff_eq_take.mp hfirst).symm
  · exact readBytes_of_le h

theorem bytesAt_view (hi : locate s p = some i) (hfile : (s.nodes i).type = .file) :
    bytesAt (view s) p = fileBytes s i := by
  have hview := view_of_locate hi
  rw [entryAt_file_iff.mpr ⟨hfile, rfl⟩] at hview
  simp [bytesAt, hview]

/-- Storing into the file at `p` updates the map there. -/
theorem FsInv.fsSetFileData (h : FsInv s) (append : Bool)
    (halloc : ∀ k size, alloc k size ≠ none) (hi : locate s p = some i)
    (hfile : (s.nodes i).type = .file)
    (hmax : ((if append then fileBytes s i else []) ++ readBytes data n).length ≤ fsMaxFileSize) :
    ∃ t, fsSetFileData alloc s i data n append = (t, .ok ()) ∧ FsInv t ∧
      view t = update (view s) p
        (some (.file ((if append then fileBytes s i else []) ++ readBytes data n))) := by
  have hwalk := h.tree.locate_iff.mp hi
  have hused : (s.nodes i).used = true := h.tree.used_of_walk hwalk
  have hfits : Fits alloc s i n append := by
    rw [List.length_append, length_readBytes] at hmax
    refine ⟨by omega, ?_, Or.inr (halloc _ _)⟩
    cases append with
    | false => simpa [sizeAfter] using hmax
    | true => simpa [sizeAfter, h.storage.length_fileBytes hused] using hmax
  obtain ⟨t, he, ⟨hstorage, hothers⟩, htree, hbytes⟩ :=
    h.storage.fsSetFileData hused hfits data
  refine ⟨t, he, ⟨h.tree.congr htree, hstorage⟩, ?_⟩
  have htype : (t.nodes i).type = .file := by
    rw [← hfile]
    exact congrArg Shape.type (congrFun htree.1 i)
  rw [h.tree.view_stored htree.1 hothers hwalk, entryAt_file_iff.mpr ⟨htype, hbytes⟩]

theorem simulates_fsWriteFile (h : FsInv s) (halloc : ∀ k size, alloc k size ≠ none)
    (hp : CleanPath path) (hlen : len ≤ data.length)
    (hmax : Within (after okfsRules (view s) (.write (components path) (payload data len)))) :
    Simulates s (fsWriteFile alloc s path (some data) len)
      (.write (components path) (payload data len)) := by
  have hfits : Storable (view s) (components path) →
      (payload data len).length ≤ fsMaxFileSize := by
    intro hallowed
    have he : after okfsRules (view s) (.write (components path) (payload data len)) = _ :=
      after_of_allowed hallowed
    rw [he] at hmax
    exact hmax (components path) _ (update_self _ _ _)
  rw [← readBytes_eq_payload hlen] at hfits ⊢
  unfold fsWriteFile
  dsimp only
  generalize (if len = 0 then fsStrlen data else len) = n at hfits ⊢
  cases h.target hp with
  | unresolved err hr hnot =>
    rw [hr]
    exact h.failed err hnot
  | directory u i c hr hf hdir hnot =>
    simp only [hr, hf, if_pos hdir]
    exact h.failed .notFile hnot
  | existing u i c hr hf hfile hi =>
    have hallowed : Storable (view s) (components path) :=
      Or.inl ((isFile_view_iff hi).mpr hfile)
    obtain ⟨t, he, ht, hview⟩ := h.fsSetFileData false halloc hi hfile
      (by simpa using hfits hallowed)
    simp only [hr, hf, if_neg (not_not.mpr hfile), he]
    exact ht.done hallowed hview
  | refused u c err hr hf he hnot =>
    simp only [hr, hf, he]
    exact h.failed err hnot
  | created u i c t hr hf he ht hcan hi hfile hview =>
    have hallowed : Storable (view s) (components path) := Or.inr hcan
    obtain ⟨t', he', ht', hview'⟩ := ht.fsSetFileData false halloc hi hfile
      (by simpa using hfits hallowed)
    simp only [hr, hf, he, he']
    refine ht'.done hallowed ?_
    rw [hview', hview, update_idem]
    rfl

theorem simulates_fsAppendFile (h : FsInv s) (halloc : ∀ k size, alloc k size ≠ none)
    (hp : CleanPath path) (hlen : len ≤ data.length)
    (hmax : Within (after okfsRules (view s) (.append (components path) (payload data len)))) :
    Simulates s (fsAppendFile alloc s path (some data) len)
      (.append (components path) (payload data len)) := by
  rw [← readBytes_eq_payload hlen] at hmax ⊢
  unfold fsAppendFile
  dsimp only
  generalize (if len = 0 then fsStrlen data else len) = n at hmax ⊢
  cases hl : locate s (components path) with
  | none =>
    rw [fsResolve_clean_none hp hl]
    apply h.failed .notFound
    rintro ⟨bytes, hb⟩
    rw [view_eq_none_iff.mpr hl] at hb
    cases hb
  | some i =>
    rw [fsResolve_clean hp hl, if_neg (by simp)]
    dsimp only
    by_cases hfile : (s.nodes i).type = .file
    · have hallowed : IsFile (view s) (components path) :=
        (isFile_view_iff hl).mpr hfile
      have hbytes := bytesAt_view hl hfile
      have hused := h.tree.used_of_walk (h.tree.locate_iff.mp hl)
      have hi0 : i ≠ 0 := by
        rintro rfl
        rw [show (s.nodes 0).type = .dir from h.tree.root_dir] at hfile
        cases hfile
      have htext : fsEndsWithTxt (s.nodes i).name = true := h.tree.text i hi0 hused hfile
      have hsize : (fileBytes s i ++ readBytes data n).length ≤ fsMaxFileSize := by
        have he : after okfsRules (view s) (.append (components path) (readBytes data n)) = _ :=
          after_of_allowed hallowed
        rw [he] at hmax
        exact hmax (components path) _ (by rw [effect, update_self, hbytes])
      obtain ⟨t, he, ht, hview⟩ := h.fsSetFileData true halloc hl hfile
        (by simpa using hsize)
      rw [if_neg (not_not.mpr hfile), if_neg (by simp [htext]), he]
      refine ht.done hallowed ?_
      rw [hview, effect, hbytes]
      rfl
    · rw [if_pos hfile]
      exact h.failed .notFile fun hisFile => hfile ((isFile_view_iff hl).mp hisFile)

end Data

end OpenKernel.FileSystem
