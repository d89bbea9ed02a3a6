import OpenKernel.FileSystem.Saving
import OpenKernel.FileSystem.Simulation

/-!
# The calls that create entries

`fs_mkdir`, `fs_touch` and `fs_write_file` take the last name of the path through a
buffer of 48 bytes. A longer name is cut there: the call succeeds and works on an
entry under another name, which the path does not lead to. When they fail, `fs_touch`
and `fs_write_file` pass on why the entry could not be made, and `fs_mkdir` does not.
-/

namespace OpenKernel.FileSystem

open Function

/-- The entry `i` of `t` is new, or it is not what it was in `s`. -/
def Changed (s t : Okfs) (i : Slot) : Prop :=
  (t.nodes i).used = true ∧ (t.shape i ≠ s.shape i ∨ fileBytes t i ≠ fileBytes s i)

/-- The path leads to an entry with its last name, and only entries of that name changed. -/
structure FoundByName (s t : Okfs) (path : Bytes) : Prop where
  resolved : ∃ id, fsResolve t t.cwd path false = .ok id ∧ (t.nodes id).name = lastName path
  only : ∀ i, Changed s t i → (t.nodes i).name = lastName path

/-- The entry `id` of `t` is the one called `name` in `parent`; all others are those of `s`. -/
structure Placed (s t : Okfs) (parent : Slot) (name : Bytes) (id : Slot) : Prop where
  tree : TreeInv t
  cwd : t.cwd = s.cwd
  shape : ∀ i, i ≠ id ∨ (s.shape i).used = true → t.shape i = s.shape i
  child : IsChild t parent name id
  bytes : OthersKept s t id

section Resolution

variable {s t : Okfs} {cur next parent id : Slot} {path name c : Bytes}

/-- Where a component led, it leads when there are more entries. -/
theorem TreeInv.enterComponent_mono (h : TreeInv s) (ht : TreeInv t)
    (hshape : ∀ i, (s.shape i).used = true → t.shape i = s.shape i)
    (hcur : (s.shape cur).used = true) (he : FileSystem.enterComponent s cur c = .ok next) :
    FileSystem.enterComponent t cur c = .ok next := by
  unfold FileSystem.enterComponent fsEnter at he ⊢
  have hparent : (t.nodes cur).parent = (s.nodes cur).parent :=
    congrArg Shape.parent (hshape cur hcur)
  rw [hparent]
  split_ifs at he ⊢ with hlong hnil hdot hdots hroot
  · exact he
  · exact he
  · exact he
  · exact he
  · cases hf : fsFindChild s cur c with
    | none =>
      rw [hf] at he
      cases he
    | some child =>
      have hchild := h.fsFindChild_iff.mp hf
      have hchild' : IsChild t cur c child := by
        unfold IsChild
        rw [hshape child hchild.2.1]
        exact hchild
      rw [hf] at he
      rw [ht.fsFindChild_iff.mpr hchild']
      exact he

theorem TreeInv.fsResolve_mono {start : Slot} {wantDir : Bool} (h : TreeInv s) (ht : TreeInv t)
    (hshape : ∀ i, (s.shape i).used = true → t.shape i = s.shape i)
    (hstart : (s.shape start).used = true)
    (hr : FileSystem.fsResolve s start path wantDir = .ok id) :
    FileSystem.fsResolve t start path wantDir = .ok id := by
  have hne : path ≠ [] := by
    rintro rfl
    cases hr
  have hcur : (s.shape (if path.head? = some slash then 0 else start)).used = true := by
    split_ifs
    · exact h.root_used
    · exact hstart
  have hfold : ∀ (comps : List Bytes) cur end_, (s.shape cur).used = true →
      comps.foldlM (FileSystem.enterComponent s) cur = .ok end_ →
      comps.foldlM (FileSystem.enterComponent t) cur = .ok end_ := by
    intro comps
    induction comps with
    | nil => exact fun _ _ _ he => he
    | cons c comps ih =>
      intro cur end_ hu he
      rw [List.foldlM_cons] at he ⊢
      cases hc : FileSystem.enterComponent s cur c with
      | error err =>
        rw [hc] at he
        cases he
      | ok next =>
        rw [hc] at he
        rw [h.enterComponent_mono ht hshape hu hc]
        exact ih next end_ (h.enterComponent hu hc) he
  have hused := (h.fsResolve hstart hr).1
  rw [fsResolve_eq hne] at hr ⊢
  cases hw : (components path).foldlM (FileSystem.enterComponent s)
      (if path.head? = some slash then 0 else start) with
  | error err =>
    rw [hw] at hr
    cases hr
  | ok end_ =>
    rw [hw] at hr
    rw [hfold _ _ _ hcur hw]
    change (if _ then _ else _) = _ at hr
    change (if _ then _ else _) = _
    split_ifs at hr with hdir
    obtain rfl := Except.ok.inj hr
    have htype : (t.nodes end_).type = (s.nodes end_).type :=
      congrArg Shape.type (hshape end_ hused)
    rw [htype, if_neg hdir]

theorem Placed.fsResolveParent (h : TreeInv s) (hp : Placed s t parent name id)
    (hr : fsResolveParent s path = .ok (parent, name)) :
    fsResolveParent t path = .ok (parent, name) := by
  have hshape : ∀ i, (s.shape i).used = true → t.shape i = s.shape i :=
    fun i hi => hp.shape i (Or.inr hi)
  have hstart : (s.shape (if path.head? = some slash then 0 else s.cwd)).used = true := by
    split_ifs
    · exact h.root_used
    · exact h.cwd_used
  unfold FileSystem.fsResolveParent at hr ⊢
  rw [hp.cwd]
  by_cases hlen : fsMaxPath ≤ path.length
  · rw [if_pos hlen] at hr
    cases hr
  rw [if_neg hlen] at hr ⊢
  generalize (if path.head? = some slash then 0 else s.cwd) = start at hr hstart ⊢
  dsimp only at hr ⊢
  cases hd : path.reverse.dropWhile (· ≠ slash) with
  | nil =>
    rw [hd] at hr
    exact hr
  | cons c front =>
    rw [hd] at hr
    dsimp only at hr ⊢
    cases hres : fsResolve s start (if front = [] then [slash] else front.reverse) true with
    | error err =>
      rw [hres] at hr
      cases hr
    | ok end_ =>
      rw [hres] at hr
      rw [h.fsResolve_mono hp.tree hshape hstart hres]
      exact hr

end Resolution

section Placing

variable {s t u : Okfs} {alloc : Allocator} {parent id : Slot} {path name : Bytes}

theorem Placed.of_found (h : TreeInv s) (hf : fsFindChild s parent name = some id) :
    Placed s s parent name id :=
  ⟨h, rfl, fun _ _ => rfl, h.fsFindChild_iff.mp hf, fun _ _ _ => rfl⟩

theorem Placed.of_newEntry {type : FsType} (h : TreeInv s) (hs : StorageInv s)
    (he : NewEntry s path id parent name type) :
    Placed s (withEntry s id parent name type) parent name id ∧
      StorageInv (withEntry s id parent name type) := by
  obtain ⟨hlen, -⟩ := h.fsResolveParent he.resolved
  obtain ⟨hid0, hfree⟩ := fsAllocNode_some he.slot
  obtain ⟨hstorage, hothers⟩ := hs.withEntry id parent name type
  have hshape : (withEntry s id parent name type).shape = _ := shape_withEntry hlen id parent type
  refine ⟨⟨h.treeStep (h.newEntry he), rfl, fun i hi => ?_, ?_, hothers⟩, hstorage⟩
  · have hne : i ≠ id := by
      rcases hi with hi | hi
      · exact hi
      · rintro rfl
        rw [show (s.shape i).used = false from hfree] at hi
        cases hi
    rw [hshape, update_of_ne hne]
  · unfold IsChild
    rw [hshape, update_self]
    exact ⟨hid0, rfl, rfl, rfl⟩

theorem Placed.stored {data : Bytes} {len : ℕ} {append : Bool}
    (hp : Placed s u parent name id) (hu : StorageInv u)
    (hset : fsSetFileData alloc u id data len append = (t, .ok ())) :
    Placed s t parent name id := by
  have hfits : Fits alloc u id len append :=
    (fsSetFileData_ok_iff data).mp (congrArg Prod.snd hset)
  obtain ⟨t', he, ⟨-, hothers⟩, hsame, -⟩ := hu.fsSetFileData hp.child.2.1 hfits data
  obtain rfl : t' = t := congrArg Prod.fst (he.symm.trans hset)
  refine ⟨hp.tree.congr hsame, hsame.2.trans hp.cwd, fun i hi => ?_, ?_, fun j hj hju => ?_⟩
  · rw [hsame.1]
    exact hp.shape i hi
  · unfold IsChild
    rw [hsame.1]
    exact hp.child
  · have hju' : (u.nodes j).used = true := by
      have hj' := congrArg Shape.used (hp.shape j (Or.inl hj))
      exact hj'.trans hju
    rw [hothers j hj hju', hp.bytes j hj hju]

theorem placed_of_fsMkdir (h : TreeInv s) (hs : StorageInv s) (he : fsMkdir s path = (t, .ok ())) :
    ∃ parent name id, FileSystem.fsResolveParent s path = .ok (parent, name) ∧
      Placed s t parent name id := by
  rcases fsMkdir_cases s path with ⟨err, hs'⟩ | ⟨id, parent, name, hnew, hs'⟩
  · cases congrArg Prod.snd (hs'.symm.trans he)
  · obtain rfl : withEntry s id parent name .dir = t := congrArg Prod.fst (hs'.symm.trans he)
    exact ⟨parent, name, id, hnew.resolved, (Placed.of_newEntry h hs hnew).1⟩

theorem placed_of_fsTouch (h : TreeInv s) (hs : StorageInv s) (he : fsTouch s path = (t, .ok ())) :
    ∃ parent name id, FileSystem.fsResolveParent s path = .ok (parent, name) ∧
      Placed s t parent name id := by
  rcases fsTouch_cases s path with
    ⟨err, hs'⟩ | ⟨id, parent, name, hr, hf, hs'⟩ | ⟨id, parent, name, hnew, hs'⟩
  · cases congrArg Prod.snd (hs'.symm.trans he)
  · obtain rfl : s = t := congrArg Prod.fst (hs'.symm.trans he)
    exact ⟨parent, name, id, hr, Placed.of_found h hf⟩
  · obtain rfl : withEntry s id parent name .file = t := congrArg Prod.fst (hs'.symm.trans he)
    exact ⟨parent, name, id, hnew.resolved, (Placed.of_newEntry h hs hnew).1⟩

theorem placed_of_fsWriteFile {data : Option Bytes} {len : ℕ} (h : TreeInv s) (hs : StorageInv s)
    (he : fsWriteFile alloc s path data len = (t, .ok ())) :
    ∃ parent name id, FileSystem.fsResolveParent s path = .ok (parent, name) ∧
      Placed s t parent name id := by
  rcases fsWriteFile_cases alloc s path data len with
    ⟨err, hs'⟩ | ⟨id, parent, name, bytes, n, hr, ⟨hf, -, hs'⟩ | ⟨hnew, hs'⟩⟩
  · cases congrArg Prod.snd (hs'.symm.trans he)
  · exact ⟨parent, name, id, hr, (Placed.of_found h hf).stored hs (hs'.symm.trans he)⟩
  · obtain ⟨hp, hu⟩ := Placed.of_newEntry h hs hnew
    exact ⟨parent, name, id, hr, hp.stored hu (hs'.symm.trans he)⟩

/-- A name that fits is the name of the entry; one that does not is not even looked up. -/
theorem Placed.foundByName_iff (h : TreeInv s)
    (hr : FileSystem.fsResolveParent s path = .ok (parent, name))
    (hp : Placed s t parent name id) :
    FoundByName s t path ↔ (lastName path).length < fsMaxName := by
  have hlen : path.length < fsMaxPath := by
    by_contra hlong
    rw [FileSystem.fsResolveParent, if_pos (not_lt.mp hlong)] at hr
    cases hr
  constructor
  · rintro ⟨⟨i, hi, -⟩, -⟩
    refine length_lastName_lt [] ?_
    rw [List.append_nil]
    exact length_of_fsResolve hi
  · intro hshort
    have hname := name_of_fsResolveParent hr
    rw [fsStrcpy_of_lt hshort] at hname
    have hchild : (t.nodes id).name = lastName path := hp.child.2.2.2.trans hname
    refine ⟨⟨id, ?_, hchild⟩, fun i hi => ?_⟩
    · exact (fsResolve_of_found hp.tree hlen hshort (hp.fsResolveParent h hr)
        (hp.tree.fsFindChild_iff.mpr hp.child)).1
    · by_cases hii : i = id
      · rw [hii]
        exact hchild
      · obtain ⟨hu, hshape | hbytes⟩ := hi
        · exact absurd (hp.shape i (Or.inl hii)) hshape
        · have hu' : (s.nodes i).used = true :=
            (congrArg Shape.used (hp.shape i (Or.inl hii))).symm.trans hu
          exact absurd (hp.bytes i hii hu') hbytes

end Placing

/-- In every reachable state and for every path: what a successful call made or wrote is found
under the last name of the path, and is the only thing that changed, if and only if that name is
shorter than 48 bytes. -/
theorem created_found_iff {alloc : Allocator} {calls : List Call} {s : Okfs}
    (hrun : Run (step alloc) anyCall (fsInit alloc boot) calls s) (path : Bytes) :
    (∀ t, fsMkdir s path = (t, .ok ()) →
      (FoundByName s t path ↔ (lastName path).length < fsMaxName)) ∧
    (∀ t, fsTouch s path = (t, .ok ()) →
      (FoundByName s t path ↔ (lastName path).length < fsMaxName)) ∧
    ∀ data len t, fsWriteFile alloc s path data len = (t, .ok ()) →
      (FoundByName s t path ↔ (lastName path).length < fsMaxName) := by
  obtain ⟨htree, howned⟩ := invariants_of_run hrun
  have hstorage := howned.storageInv
  refine ⟨fun t he => ?_, fun t he => ?_, fun data len t he => ?_⟩
  · obtain ⟨parent, name, id, hr, hp⟩ := placed_of_fsMkdir htree hstorage he
    exact hp.foundByName_iff htree hr
  · obtain ⟨parent, name, id, hr, hp⟩ := placed_of_fsTouch htree hstorage he
    exact hp.foundByName_iff htree hr
  · obtain ⟨parent, name, id, hr, hp⟩ := placed_of_fsWriteFile htree hstorage he
    exact hp.foundByName_iff htree hr

/-- A directory, a new file and a file that was there. -/
theorem created_found_iff_docs : ∃ t u v,
    fsMkdir (fsInit clearedAlloc boot) (ascii "docs//old") = (t, .ok ()) ∧
    fsTouch (fsInit clearedAlloc boot) (ascii "docs/../a.txt") = (u, .ok ()) ∧
    fsWriteFile clearedAlloc (fsInit clearedAlloc boot) (ascii "/readme.txt") (some (ascii "b")) 0 =
      (v, .ok ()) ∧
    FoundByName (fsInit clearedAlloc boot) t (ascii "docs//old") ∧
    FoundByName (fsInit clearedAlloc boot) u (ascii "docs/../a.txt") ∧
    FoundByName (fsInit clearedAlloc boot) v (ascii "/readme.txt") := by
  obtain ⟨t, u, v, ht, hu, hv⟩ : ∃ t u v,
      fsMkdir (fsInit clearedAlloc boot) (ascii "docs//old") = (t, .ok ()) ∧
      fsTouch (fsInit clearedAlloc boot) (ascii "docs/../a.txt") = (u, .ok ()) ∧
      fsWriteFile clearedAlloc (fsInit clearedAlloc boot) (ascii "/readme.txt")
        (some (ascii "b")) 0 = (v, .ok ()) := by
    rw [fsInit_cleared]
    exact ⟨_, _, _, rfl, rfl, rfl⟩
  have hrun : Run (step clearedAlloc) anyCall (fsInit clearedAlloc boot) [] _ := .nil _
  refine ⟨t, u, v, ht, hu, hv, ?_, ?_, ?_⟩
  · exact ((created_found_iff hrun (ascii "docs//old")).1 t ht).mpr (by decide)
  · exact ((created_found_iff hrun (ascii "docs/../a.txt")).2.1 u hu).mpr (by decide)
  · exact ((created_found_iff hrun (ascii "/readme.txt")).2.2 (some (ascii "b")) 0 v hv).mpr
      (by decide)

/-- A directory whose name has 48 bytes is made under the first 47 of them, where the path does
not lead. -/
theorem long_name_cut : ∃ s t,
    Run (step clearedAlloc) anyCall (fsInit clearedAlloc boot) [] s ∧
    fsMkdir s (List.replicate 48 97) = (t, .ok ()) ∧
    (s.nodes 4).used = false ∧ (t.nodes 4).used = true ∧
    (t.nodes 4).name = List.replicate 47 97 ∧
    fsResolve t t.cwd (List.replicate 48 97) false = .error .invalid ∧
    ¬ FoundByName s t (List.replicate 48 97) := by
  rw [fsInit_cleared]
  refine ⟨_, (fsMkdir started (List.replicate 48 97)).1, .nil _, rfl, rfl, rfl, rfl, rfl, ?_⟩
  rintro ⟨⟨id, hid, -⟩, -⟩
  cases hid

/-! ### What a failed call reports -/

def HasEntry (s : Okfs) (parent : Slot) (name : Bytes) : Prop := ∃ i, IsChild s parent name i

/-- All slots but that of the root are used. -/
def TableFull (s : Okfs) : Prop := ∀ i, i ≠ 0 → (s.nodes i).used = true

/-- The name is that of a file that could be made in the directory. -/
def NewFile (s : Okfs) (parent : Slot) (name : Bytes) : Prop :=
  NameOk name ∧ ascii ".txt" <:+ name ∧ ¬ HasEntry s parent name

/-- `fs_mkdir` names the cause of its failure: the name, an entry of that name, or the table. -/
structure MkdirCodes (s : Okfs) (path : Bytes) (parent : Slot) : Prop where
  invalid : (fsMkdir s path).2 = .error .invalid ↔ ¬ NameOk (lastName path)
  alreadyExists : (fsMkdir s path).2 = .error .alreadyExists ↔
    NameOk (lastName path) ∧ HasEntry s parent (lastName path)
  full : (fsMkdir s path).2 = .error .full ↔
    NameOk (lastName path) ∧ ¬ HasEntry s parent (lastName path) ∧ TableFull s

section Codes

variable {s : Okfs} {alloc : Allocator} {parent : Slot} {path name : Bytes}

theorem nameOk_iff (hlen : name.length < fsMaxName) : NameOk name ↔ fsIsValidName name = true := by
  refine ⟨fun h => ?_, nameOk_of_valid hlen⟩
  exact (fsIsValidName_iff ⟨h.ne_nil, h.length_lt, h.ne_dot, h.ne_dotDot, h.no_slash⟩).mpr
    h.no_backslash

theorem TreeInv.hasEntry_iff (h : TreeInv s) :
    HasEntry s parent name ↔ fsFindChild s parent name ≠ none := by
  simp only [HasEntry, ← h.fsFindChild_iff, ne_eq, Option.eq_none_iff_forall_ne_some, not_forall,
    not_not]

theorem tableFull_iff : TableFull s ↔ fsAllocNode s = none := by
  constructor
  · intro hfull
    by_contra hne
    obtain ⟨i, hi⟩ := Option.ne_none_iff_exists'.mp hne
    obtain ⟨h0, hfree⟩ := fsAllocNode_some hi
    rw [hfull i h0] at hfree
    cases hfree
  · exact fun hnone i hi => fsAllocNode_none hnone hi

theorem fsCreateEntry_full_iff (type : FsType) :
    (fsCreateEntry s parent name type).2 = .error .full ↔ fsIsValidName name = true ∧
      (type = .file → fsEndsWithTxt name = true) ∧ fsFindChild s parent name = none ∧
      fsAllocNode s = none := by
  have hnamed : type = .file ∧ (!fsEndsWithTxt name) = true ↔
      ¬ (type = .file → fsEndsWithTxt name = true) := by simp
  unfold fsCreateEntry
  by_cases hvalid : fsIsValidName name = true
  · rw [if_neg (by simp [hvalid])]
    by_cases htext : type = .file → fsEndsWithTxt name = true
    · rw [if_neg fun hnot => hnamed.mp hnot htext]
      by_cases hnew : fsFindChild s parent name = none
      · rw [if_neg (by simp [hnew])]
        cases fsAllocNode s with
        | none => exact iff_of_true rfl ⟨hvalid, htext, hnew, rfl⟩
        | some id => simp
      · simp [hnew]
    · rw [if_pos (hnamed.mpr htext)]
      exact iff_of_false (by simp) fun hall => htext hall.2.1
  · simp [hvalid]

theorem fsMkdir_snd (hr : fsResolveParent s path = .ok (parent, name)) :
    (fsMkdir s path).2 = if fsIsValidName name = true then
      if fsFindChild s parent name = none ∧ fsAllocNode s ≠ none then .ok () else .error .full
      else .error .invalid := by
  unfold fsMkdir
  rw [hr]
  dsimp only
  by_cases hvalid : fsIsValidName name = true
  · rw [if_neg (by simp [hvalid]), if_pos hvalid]
    rcases fsCreateEntry_cases s parent name .dir with ⟨err, he⟩ | ⟨id, -, -, hnew, hid, he⟩
    · rw [he, if_neg]
      rintro ⟨hnew, hne⟩
      obtain ⟨id, hid⟩ := Option.ne_none_iff_exists'.mp hne
      rw [fsCreateEntry_of_ok hvalid (by simp) hnew hid] at he
      cases congrArg Prod.snd he
    · rw [he, if_pos ⟨hnew, by simp [hid]⟩]
  · rw [if_pos (by simpa using hvalid), if_neg hvalid]

theorem TreeInv.mkdirCodes_iff (h : TreeInv s)
    (hr : FileSystem.fsResolveParent s path = .ok (parent, lastName path))
    (hshort : (lastName path).length < fsMaxName) :
    MkdirCodes s path parent ↔ ¬ (NameOk (lastName path) ∧ HasEntry s parent (lastName path)) := by
  have hsnd := fsMkdir_snd hr
  constructor
  · rintro ⟨-, hexists, -⟩ hboth
    refine absurd (hexists.mpr hboth) ?_
    rw [hsnd]
    split_ifs <;> simp
  · intro hnot
    rw [nameOk_iff hshort, h.hasEntry_iff] at hnot
    refine ⟨?_, ?_, ?_⟩
    · rw [hsnd, nameOk_iff hshort]
      split_ifs with hvalid <;> simp [hvalid]
    · rw [hsnd, nameOk_iff hshort, h.hasEntry_iff]
      refine iff_of_false ?_ hnot
      split_ifs <;> simp
    · rw [hsnd, nameOk_iff hshort, h.hasEntry_iff, tableFull_iff]
      split_ifs with hvalid hcan
      · simp [hcan.2]
      · have hnew : fsFindChild s parent (lastName path) = none := by
          by_contra hne
          exact hnot ⟨hvalid, hne⟩
        have hfull : fsAllocNode s = none := by
          by_contra hne
          exact hcan ⟨hnew, hne⟩
        simp [hvalid, hnew, hfull]
      · simp [hvalid]

theorem TreeInv.newFile_iff (h : TreeInv s) (hshort : name.length < fsMaxName) :
    NewFile s parent name ∧ TableFull s ↔ fsFindChild s parent name = none ∧
      (fsCreateEntry s parent name .file).2 = .error .full := by
  rw [NewFile, nameOk_iff hshort, h.hasEntry_iff, ← fsEndsWithTxt_iff, tableFull_iff,
    fsCreateEntry_full_iff]
  simp only [ne_eq, not_not, forall_const]
  constructor
  · rintro ⟨⟨hvalid, htext, hnew⟩, hfull⟩
    exact ⟨hnew, hvalid, htext, hnew, hfull⟩
  · rintro ⟨hnew, hvalid, htext, -, hfull⟩
    exact ⟨⟨hvalid, htext, hnew⟩, hfull⟩

theorem fsTouch_full_iff (hr : fsResolveParent s path = .ok (parent, name)) :
    (fsTouch s path).2 = .error .full ↔ fsFindChild s parent name = none ∧
      (fsCreateEntry s parent name .file).2 = .error .full := by
  unfold fsTouch
  rw [hr]
  dsimp only
  cases fsFindChild s parent name with
  | some existing =>
    dsimp only
    split_ifs <;> simp
  | none =>
    cases fsCreateEntry s parent name .file with
    | mk t res => cases res <;> simp

theorem fsSetFileData_ne_full {id : Slot} {data : Bytes} {len : ℕ} {append : Bool} :
    (fsSetFileData alloc s id data len append).2 ≠ .error .full := by
  by_cases h : Fits alloc s id len append
  · obtain ⟨t, -, he⟩ := fsSetFileData_of_fits h data
    simp [he]
  · obtain ⟨n, -, he⟩ := fsSetFileData_of_not_fits h data
    simp [he]

/-- A null pointer is refused before anything is looked up. -/
theorem fsWriteFile_full_iff (hr : fsResolveParent s path = .ok (parent, name))
    (data : Option Bytes) (len : ℕ) :
    (fsWriteFile alloc s path data len).2 = .error .full ↔ data ≠ none ∧
      fsFindChild s parent name = none ∧
      (fsCreateEntry s parent name .file).2 = .error .full := by
  unfold fsWriteFile
  cases data with
  | none => simp
  | some data =>
    rw [hr]
    dsimp only
    cases fsFindChild s parent name with
    | some id =>
      dsimp only
      by_cases hfile : (s.nodes id).type ≠ .file
      · simp [hfile]
      · rw [if_neg hfile]
        exact iff_of_false fsSetFileData_ne_full (by simp)
    | none =>
      cases fsCreateEntry s parent name .file with
      | mk t res =>
        cases res with
        | error err => simp
        | ok id => exact iff_of_false fsSetFileData_ne_full (by simp)

end Codes

/-- In every reachable state and for every path whose parent is a directory and whose last name
fits: `fs_mkdir` tells why it fails unless there is an entry of that name already; `fs_touch` and
`fs_write_file` report a full table when it keeps a new file from being made, and only then,
unless `fs_write_file` is given no data. -/
theorem error_codes_iff {alloc : Allocator} {calls : List Call} {s : Okfs} {path name : Bytes}
    {parent : Slot} (hrun : Run (step alloc) anyCall (fsInit alloc boot) calls s)
    (hr : fsResolveParent s path = .ok (parent, name))
    (hshort : (lastName path).length < fsMaxName) (data : Option Bytes) (len : ℕ) :
    (MkdirCodes s path parent ↔
      ¬ (NameOk (lastName path) ∧ HasEntry s parent (lastName path))) ∧
    ((fsTouch s path).2 = .error .full ↔
      NewFile s parent (lastName path) ∧ TableFull s) ∧
    (((fsWriteFile alloc s path data len).2 = .error .full ↔
        NewFile s parent (lastName path) ∧ TableFull s) ↔
      data ≠ none ∨ ¬ (NewFile s parent (lastName path) ∧ TableFull s)) := by
  have htree := treeInv_of_run hrun
  have hname := name_of_fsResolveParent hr
  rw [fsStrcpy_of_lt hshort] at hname
  subst hname
  refine ⟨htree.mkdirCodes_iff hr hshort, ?_, ?_⟩
  · rw [fsTouch_full_iff hr, htree.newFile_iff hshort]
  · rw [fsWriteFile_full_iff hr, ← htree.newFile_iff hshort]
    by_cases hdata : data = none
    · simp [hdata]
    · simp [hdata]

/-- A new name and one that is taken. -/
theorem error_codes_iff_docs :
    fsResolveParent (fsInit clearedAlloc boot) (ascii "/new.txt") = .ok (0, ascii "new.txt") ∧
    fsResolveParent (fsInit clearedAlloc boot) (ascii "/docs") = .ok (0, ascii "docs") ∧
    (MkdirCodes (fsInit clearedAlloc boot) (ascii "/new.txt") 0 ↔
      ¬ (NameOk (lastName (ascii "/new.txt")) ∧
        HasEntry (fsInit clearedAlloc boot) 0 (lastName (ascii "/new.txt")))) ∧
    (MkdirCodes (fsInit clearedAlloc boot) (ascii "/docs") 0 ↔
      ¬ (NameOk (lastName (ascii "/docs")) ∧
        HasEntry (fsInit clearedAlloc boot) 0 (lastName (ascii "/docs")))) := by
  have hnew : fsResolveParent (fsInit clearedAlloc boot) (ascii "/new.txt") =
      .ok (0, ascii "new.txt") := by
    rw [fsInit_cleared]
    rfl
  have hdocs : fsResolveParent (fsInit clearedAlloc boot) (ascii "/docs") =
      .ok (0, ascii "docs") := by
    rw [fsInit_cleared]
    rfl
  exact ⟨hnew, hdocs, (error_codes_iff (.nil _) hnew (by decide) none 0).1,
    (error_codes_iff (.nil _) hdocs (by decide) none 0).1⟩

/-- Making a directory that exists is reported as a full file system, with free slots. -/
theorem mkdir_reports_full : ∃ s,
    Run (step clearedAlloc) anyCall (fsInit clearedAlloc boot) [] s ∧
    (ascii "/docs").length < fsMaxPath ∧ (lastName (ascii "/docs")).length < fsMaxName ∧
    fsResolveParent s (ascii "/docs") = .ok (0, lastName (ascii "/docs")) ∧
    NameOk (lastName (ascii "/docs")) ∧ HasEntry s 0 (lastName (ascii "/docs")) ∧
    ¬ TableFull s ∧ (fsMkdir s (ascii "/docs")).2 = .error .full ∧
    ¬ MkdirCodes s (ascii "/docs") 0 := by
  rw [fsInit_cleared]
  have hname : NameOk (lastName (ascii "/docs")) := nameOk_of_valid (by decide) (by decide)
  have hentry : HasEntry started 0 (lastName (ascii "/docs")) := ⟨1, by decide, rfl, rfl, rfl⟩
  have hcode : (fsMkdir started (ascii "/docs")).2 = .error .full := rfl
  refine ⟨_, .nil _, by decide, by decide, rfl, hname, hentry, fun hfull => ?_, hcode, fun h => ?_⟩
  · cases hfull 4 (by decide)
  · exact (h.full.mp hcode).2.1 hentry

end OpenKernel.FileSystem
