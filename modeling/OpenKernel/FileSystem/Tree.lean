import OpenKernel.FileSystem.Effects
import OpenKernel.Lib.Linked
import Mathlib.Data.Fintype.Card

/-!
# The directory tree

The used nodes form a tree of directories below node 0, with well-formed names
that are unique in each directory. Every call of the shell and of the editor
keeps this, whatever the path: a call leaves the tree alone, moves the current
directory, adds a leaf or removes one.
-/

namespace OpenKernel.FileSystem

open Function Linked

/-- The names entries may have. -/
structure NameOk (name : Bytes) : Prop where
  ne_nil : name ≠ []
  length_lt : name.length < fsMaxName
  ne_dot : name ≠ dot
  ne_dotDot : name ≠ dotDot
  no_slash : slash ∉ name
  no_backslash : backslash ∉ name

theorem nameOk_of_valid {name : Bytes} (hlen : name.length < fsMaxName)
    (h : fsIsValidName name = true) : NameOk name := by
  simp only [fsIsValidName, Bool.and_eq_true, decide_eq_true_eq, List.all_eq_true] at h
  obtain ⟨⟨⟨hne, hdot⟩, hdots⟩, hall⟩ := h
  refine ⟨hne, hlen, hdot, hdots, fun hs => ?_, fun hs => ?_⟩
  · have hc := hall slash hs
    simp at hc
  · have hc := hall backslash hs
    simp at hc

/-- The tree below node 0. `depth` witnesses that following parents comes to an end. -/
structure TreeInv (s : Okfs) : Prop where
  root_used : (s.shape 0).used = true
  root_dir : (s.shape 0).type = .dir
  root_name : (s.shape 0).name = []
  parent : ∀ i, i ≠ 0 → (s.shape i).used = true → ∃ p, (s.shape i).parent = some p ∧
    (s.shape p).used = true ∧ (s.shape p).type = .dir
  depth : ∃ depth : Slot → ℕ, ∀ i p, i ≠ 0 → (s.shape i).used = true →
    (s.shape i).parent = some p → depth p < depth i
  cwd_used : (s.shape s.cwd).used = true
  cwd_dir : (s.shape s.cwd).type = .dir
  name : ∀ i, i ≠ 0 → (s.shape i).used = true → NameOk (s.shape i).name
  text : ∀ i, i ≠ 0 → (s.shape i).used = true → (s.shape i).type = .file →
    fsEndsWithTxt (s.shape i).name = true
  unique : ∀ i j, i ≠ 0 → j ≠ 0 → (s.shape i).used = true → (s.shape j).used = true →
    (s.shape i).parent = (s.shape j).parent → (s.shape i).name = (s.shape j).name → i = j

/-- Everything a call can do to the tree. -/
inductive TreeStep (s t : Okfs) : Prop
  | same (h : SameTree s t)
  | chdir (hshape : t.shape = s.shape) (hused : (s.shape t.cwd).used = true)
      (hdir : (s.shape t.cwd).type = .dir)
  | create (id parent : Slot) (type : FsType) (name : Bytes)
      (hshape : t.shape = update s.shape id ⟨true, some parent, type, name⟩) (hcwd : t.cwd = s.cwd)
      (hid : id ≠ 0) (hfree : (s.shape id).used = false)
      (hused : (s.shape parent).used = true) (hdir : (s.shape parent).type = .dir)
      (hname : NameOk name) (htext : type = .file → fsEndsWithTxt name = true)
      (hnew : ∀ i, i ≠ 0 → (s.shape i).used = true → (s.shape i).parent = some parent →
        (s.shape i).name ≠ name)
  | remove (id : Slot) (hshape : t.shape = update s.shape id { s.shape id with used := false })
      (hcwd : s.cwd ≠ id ∧ t.cwd = s.cwd ∨ s.cwd = id ∧ (s.shape id).parent = some t.cwd)
      (hid : id ≠ 0) (hused : (s.shape id).used = true)
      (hleaf : ∀ i, i ≠ 0 → (s.shape i).used = true → (s.shape i).parent ≠ some id)

namespace TreeInv

variable {s t : Okfs}

theorem congr (h : TreeInv s) (hs : SameTree s t) : TreeInv t := by
  obtain ⟨hshape, hcwd⟩ := hs
  refine ⟨?_, ?_, ?_, ?_, ?_, ?_, ?_, ?_, ?_, ?_⟩ <;> simp only [hshape, hcwd]
  · exact h.root_used
  · exact h.root_dir
  · exact h.root_name
  · exact h.parent
  · exact h.depth
  · exact h.cwd_used
  · exact h.cwd_dir
  · exact h.name
  · exact h.text
  · exact h.unique

theorem chdir (h : TreeInv s) (hshape : t.shape = s.shape) (hused : (s.shape t.cwd).used = true)
    (hdir : (s.shape t.cwd).type = .dir) : TreeInv t := by
  refine ⟨?_, ?_, ?_, ?_, ?_, ?_, ?_, ?_, ?_, ?_⟩ <;> simp only [hshape]
  · exact h.root_used
  · exact h.root_dir
  · exact h.root_name
  · exact h.parent
  · exact h.depth
  · exact hused
  · exact hdir
  · exact h.name
  · exact h.text
  · exact h.unique

section Create

variable {id parent : Slot} {type : FsType} {name : Bytes}

/-- A slot holds the new entry or what it held before. -/
theorem shape_cases (hshape : t.shape = update s.shape id ⟨true, some parent, type, name⟩)
    (i : Slot) : (i = id ∧ t.shape i = ⟨true, some parent, type, name⟩) ∨
      (i ≠ id ∧ t.shape i = s.shape i) := by
  by_cases hi : i = id
  · subst hi
    exact Or.inl ⟨rfl, by rw [hshape, update_self]⟩
  · exact Or.inr ⟨hi, by rw [hshape, update_of_ne hi]⟩

theorem shape_of_used (hshape : t.shape = update s.shape id ⟨true, some parent, type, name⟩)
    (hfree : (s.shape id).used = false) {i : Slot} (hi : (s.shape i).used = true) :
    i ≠ id ∧ t.shape i = s.shape i := by
  rcases shape_cases hshape i with ⟨rfl, -⟩ | hkept
  · rw [hfree] at hi
    cases hi
  · exact hkept

theorem parent_of_create (h : TreeInv s)
    (hshape : t.shape = update s.shape id ⟨true, some parent, type, name⟩)
    (hfree : (s.shape id).used = false) (hused : (s.shape parent).used = true)
    (hdir : (s.shape parent).type = .dir) {i : Slot} (hi : i ≠ 0) (hi' : (t.shape i).used = true) :
    ∃ p, (t.shape i).parent = some p ∧ (t.shape p).used = true ∧ (t.shape p).type = .dir := by
  rcases shape_cases hshape i with ⟨rfl, hnew⟩ | ⟨-, hold⟩
  · refine ⟨parent, by rw [hnew], ?_⟩
    rw [(shape_of_used hshape hfree hused).2]
    exact ⟨hused, hdir⟩
  · rw [hold] at hi' ⊢
    obtain ⟨p, hp, hpu, hpd⟩ := h.parent i hi hi'
    refine ⟨p, hp, ?_⟩
    rw [(shape_of_used hshape hfree hpu).2]
    exact ⟨hpu, hpd⟩

/-- The new entry is one level below its directory. -/
theorem depth_of_create (h : TreeInv s)
    (hshape : t.shape = update s.shape id ⟨true, some parent, type, name⟩)
    (hfree : (s.shape id).used = false) (hused : (s.shape parent).used = true) :
    ∃ depth : Slot → ℕ, ∀ i p, i ≠ 0 → (t.shape i).used = true → (t.shape i).parent = some p →
      depth p < depth i := by
  obtain ⟨depth, hdepth⟩ := h.depth
  refine ⟨update depth id (depth parent + 1), fun i p hi hi' hp => ?_⟩
  rcases shape_cases hshape i with ⟨rfl, hnew⟩ | ⟨hne, hold⟩
  · rw [hnew] at hp
    obtain rfl : parent = p := Option.some.inj hp
    rw [update_self, update_of_ne (shape_of_used hshape hfree hused).1]
    exact Nat.lt_succ_self _
  · rw [hold] at hi' hp
    obtain ⟨p', hp', hpu, -⟩ := h.parent i hi hi'
    obtain rfl : p' = p := Option.some.inj (hp'.symm.trans hp)
    rw [update_of_ne hne, update_of_ne (shape_of_used hshape hfree hpu).1]
    exact hdepth i p' hi hi' hp

theorem unique_of_create (h : TreeInv s)
    (hshape : t.shape = update s.shape id ⟨true, some parent, type, name⟩)
    (hnew : ∀ i, i ≠ 0 → (s.shape i).used = true → (s.shape i).parent = some parent →
      (s.shape i).name ≠ name) {i j : Slot} (hi : i ≠ 0) (hj : j ≠ 0)
    (hi' : (t.shape i).used = true) (hj' : (t.shape j).used = true)
    (hp : (t.shape i).parent = (t.shape j).parent) (hn : (t.shape i).name = (t.shape j).name) :
    i = j := by
  rcases shape_cases hshape i with ⟨hii, hei⟩ | ⟨-, hei⟩
  · rcases shape_cases hshape j with ⟨hjj, -⟩ | ⟨-, hej⟩
    · rw [hii, hjj]
    · rw [hej] at hj' hp hn
      rw [hei] at hp hn
      exact absurd hn.symm (hnew j hj hj' hp.symm)
  · rw [hei] at hi' hp hn
    rcases shape_cases hshape j with ⟨-, hej⟩ | ⟨-, hej⟩
    · rw [hej] at hp hn
      exact absurd hn (hnew i hi hi' hp)
    · rw [hej] at hj' hp hn
      exact h.unique i j hi hj hi' hj' hp hn

/-- A new leaf, one level below its directory. -/
theorem create (h : TreeInv s)
    (hshape : t.shape = update s.shape id ⟨true, some parent, type, name⟩) (hcwd : t.cwd = s.cwd)
    (hfree : (s.shape id).used = false)
    (hused : (s.shape parent).used = true) (hdir : (s.shape parent).type = .dir)
    (hname : NameOk name) (htext : type = .file → fsEndsWithTxt name = true)
    (hnew : ∀ i, i ≠ 0 → (s.shape i).used = true → (s.shape i).parent = some parent →
      (s.shape i).name ≠ name) : TreeInv t := by
  have hroot := (shape_of_used hshape hfree h.root_used).2
  have hcur := (shape_of_used hshape hfree h.cwd_used).2
  refine ⟨?_, ?_, ?_, fun i hi hi' => h.parent_of_create hshape hfree hused hdir hi hi',
    h.depth_of_create hshape hfree hused, ?_, ?_, fun i hi hi' => ?_, fun i hi hi' hfile => ?_,
    fun i j hi hj hi' hj' hp hn => h.unique_of_create hshape hnew hi hj hi' hj' hp hn⟩
  · rw [hroot]
    exact h.root_used
  · rw [hroot]
    exact h.root_dir
  · rw [hroot]
    exact h.root_name
  · rw [hcwd, hcur]
    exact h.cwd_used
  · rw [hcwd, hcur]
    exact h.cwd_dir
  · rcases shape_cases hshape i with ⟨-, hei⟩ | ⟨-, hei⟩
    · rw [hei]
      exact hname
    · rw [hei] at hi' ⊢
      exact h.name i hi hi'
  · rcases shape_cases hshape i with ⟨-, hei⟩ | ⟨-, hei⟩
    · rw [hei] at hfile ⊢
      exact htext hfile
    · rw [hei] at hi' hfile ⊢
      exact h.text i hi hi' hfile

end Create

/-- Removing a leaf; the current directory moves up if it was the leaf. -/
theorem remove {id : Slot} (h : TreeInv s)
    (hshape : t.shape = update s.shape id { s.shape id with used := false })
    (hcwd : s.cwd ≠ id ∧ t.cwd = s.cwd ∨ s.cwd = id ∧ (s.shape id).parent = some t.cwd)
    (hid : id ≠ 0) (hused : (s.shape id).used = true)
    (hleaf : ∀ i, i ≠ 0 → (s.shape i).used = true → (s.shape i).parent ≠ some id) :
    TreeInv t := by
  have hother : ∀ i, i ≠ id → t.shape i = s.shape i := by
    intro i hi
    rw [hshape, update_of_ne hi]
  have hself : (t.shape id).used = false := by rw [hshape, update_self]
  have hne : ∀ i, (t.shape i).used = true → i ≠ id := by
    rintro i hi rfl
    rw [hself] at hi
    cases hi
  have hold : ∀ i, (t.shape i).used = true → t.shape i = s.shape i :=
    fun i hi => hother i (hne i hi)
  have hparent : ∀ i p, i ≠ 0 → (s.shape i).used = true → (s.shape i).parent = some p →
      t.shape p = s.shape p := by
    intro i p hi hi' hp
    apply hother p
    rintro rfl
    exact hleaf i hi hi' hp
  have hcur : (s.shape t.cwd).used = true ∧ (s.shape t.cwd).type = .dir ∧
      t.shape t.cwd = s.shape t.cwd := by
    rcases hcwd with ⟨hc, hc'⟩ | ⟨-, hc⟩
    · rw [hc']
      exact ⟨h.cwd_used, h.cwd_dir, hother _ hc⟩
    · obtain ⟨p, hp, hpu, hpd⟩ := h.parent id hid hused
      obtain rfl : p = t.cwd := Option.some.inj (hp.symm.trans hc)
      exact ⟨hpu, hpd, hparent id _ hid hused hc⟩
  obtain ⟨depth, hdepth⟩ := h.depth
  refine ⟨?_, ?_, ?_, ?_, ⟨depth, ?_⟩, ?_, ?_, ?_, ?_, ?_⟩
  · rw [hother 0 hid.symm]
    exact h.root_used
  · rw [hother 0 hid.symm]
    exact h.root_dir
  · rw [hother 0 hid.symm]
    exact h.root_name
  · intro i hi hi'
    have hei := hold i hi'
    rw [hei] at hi' ⊢
    obtain ⟨p, hp, hpu, hpd⟩ := h.parent i hi hi'
    refine ⟨p, hp, ?_⟩
    rw [hparent i p hi hi' hp]
    exact ⟨hpu, hpd⟩
  · intro i p hi hi' hp
    have hei := hold i hi'
    rw [hei] at hi' hp
    exact hdepth i p hi hi' hp
  · rw [hcur.2.2]
    exact hcur.1
  · rw [hcur.2.2]
    exact hcur.2.1
  · intro i hi hi'
    have hei := hold i hi'
    rw [hei] at hi' ⊢
    exact h.name i hi hi'
  · intro i hi hi' hfile
    have hei := hold i hi'
    rw [hei] at hi' hfile ⊢
    exact h.text i hi hi' hfile
  · intro i j hi hj hi' hj' hp hn
    have hei := hold i hi'
    rw [hei] at hi' hp hn
    have hej := hold j hj'
    rw [hej] at hj' hp hn
    exact h.unique i j hi hj hi' hj' hp hn

theorem treeStep (h : TreeInv s) (hst : TreeStep s t) : TreeInv t := by
  cases hst with
  | same hs => exact h.congr hs
  | chdir hshape hused hdir => exact h.chdir hshape hused hdir
  | create id parent type name hshape hcwd hid hfree hused hdir hname htext hnew =>
    exact h.create hshape hcwd hfree hused hdir hname htext hnew
  | remove id hshape hcwd hid hused hleaf => exact h.remove hshape hcwd hid hused hleaf

end TreeInv

section Calls

variable {s t u : Okfs} {alloc : Allocator}

theorem TreeStep.trans_same (h : TreeStep s t) (h' : SameTree t u) : TreeStep s u := by
  obtain ⟨hshape', hcwd'⟩ := h'
  cases h with
  | same hs => exact .same ⟨hshape'.trans hs.1, hcwd'.trans hs.2⟩
  | chdir hshape hused hdir =>
    rw [← hcwd'] at hused hdir
    exact .chdir (hshape'.trans hshape) hused hdir
  | create id parent type name hshape hcwd hid hfree hused hdir hname htext hnew =>
    exact .create id parent type name (hshape'.trans hshape) (hcwd'.trans hcwd) hid hfree hused
      hdir hname htext hnew
  | remove id hshape hcwd hid hused hleaf =>
    rw [← hcwd'] at hcwd
    exact .remove id (hshape'.trans hshape) hcwd hid hused hleaf

theorem TreeStep.same_trans (h : SameTree s t) (h' : TreeStep t u) : TreeStep s u := by
  obtain ⟨hshape', hcwd'⟩ := h
  cases h' with
  | same hs => exact .same ⟨hs.1.trans hshape', hs.2.trans hcwd'⟩
  | chdir hshape hused hdir =>
    rw [hshape'] at hshape hused hdir
    exact .chdir hshape hused hdir
  | create id parent type name hshape hcwd hid hfree hused hdir hname htext hnew =>
    rw [hshape'] at hshape hfree hused hdir hnew
    exact .create id parent type name hshape (hcwd.trans hcwd') hid hfree hused hdir hname htext
      hnew
  | remove id hshape hcwd hid hused hleaf =>
    rw [hshape', hcwd'] at hcwd
    rw [hshape'] at hshape hused hleaf
    exact .remove id hshape hcwd hid hused hleaf

/-- Entering a component leads from used nodes to used nodes. -/
theorem TreeInv.enterComponent {cur next : Slot} {c : Bytes} (h : TreeInv s)
    (hcur : (s.shape cur).used = true) (hc : enterComponent s cur c = .ok next) :
    (s.shape next).used = true := by
  unfold FileSystem.enterComponent fsEnter at hc
  split_ifs at hc with h₁ h₂ h₃ h₄ h₅
  · cases hc
    exact hcur
  · cases hc
    exact hcur
  · cases hc
    exact hcur
  · obtain ⟨p, hp, hpu, -⟩ := h.parent cur h₅ hcur
    have hp' : (s.nodes cur).parent = some p := hp
    rw [hp'] at hc
    cases hc
    exact hpu
  · cases hf : fsFindChild s cur c with
    | none =>
      rw [hf] at hc
      cases hc
    | some child =>
      rw [hf] at hc
      cases hc
      exact (fsFindChild_some hf).2.1

theorem TreeInv.fsResolve {start id : Slot} {path : Bytes} {wantDir : Bool} (h : TreeInv s)
    (hstart : (s.shape start).used = true) (hr : fsResolve s start path wantDir = .ok id) :
    (s.shape id).used = true ∧ (wantDir = true → (s.shape id).type = .dir) :=
  fsResolve_ok (fun i => (s.shape i).used = true) (fun _ _ _ hc he => h.enterComponent hc he)
    h.root_used hstart hr

theorem TreeInv.fsResolveParent {parent : Slot} {path name : Bytes} (h : TreeInv s)
    (hr : fsResolveParent s path = .ok (parent, name)) :
    name.length < fsMaxName ∧ (s.shape parent).used = true ∧ (s.shape parent).type = .dir := by
  obtain ⟨hlen, rfl | ⟨start, parentPath, hstart, hp⟩⟩ := fsResolveParent_ok hr
  · exact ⟨hlen, h.cwd_used, h.cwd_dir⟩
  · have hused : (s.shape start).used = true := by
      rcases hstart with rfl | rfl
      · exact h.root_used
      · exact h.cwd_used
    obtain ⟨hu, hd⟩ := h.fsResolve hused hp
    exact ⟨hlen, hu, hd rfl⟩

theorem shape_withEntry {name : Bytes} (hlen : name.length < fsMaxName) (id parent : Slot)
    (type : FsType) :
    (withEntry s id parent name type).shape = update s.shape id ⟨true, some parent, type, name⟩ := by
  have hname : fsStrcpy name fsMaxName = name := fsStrcpy_of_lt hlen
  funext i
  by_cases hi : i = id
  · subst hi
    simp [Okfs.shape, withEntry, Node.shape, hname]
  · simp [Okfs.shape, withEntry, hi]

theorem treeStep_withEntry {id parent : Slot} {name : Bytes} {type : FsType}
    (hlen : name.length < fsMaxName) (hused : (s.shape parent).used = true)
    (hdir : (s.shape parent).type = .dir) (hvalid : fsIsValidName name = true)
    (htext : type = .file → fsEndsWithTxt name = true) (hnew : fsFindChild s parent name = none)
    (hid : fsAllocNode s = some id) : TreeStep s (withEntry s id parent name type) := by
  obtain ⟨hid0, hfree⟩ := fsAllocNode_some hid
  exact .create id parent type name (shape_withEntry hlen id parent type) rfl hid0 hfree hused hdir
    (nameOk_of_valid hlen hvalid) htext fun i hi hi' hp => fsFindChild_none hnew hi hi' hp

theorem TreeInv.newEntry {path name : Bytes} {id parent : Slot} {type : FsType} (h : TreeInv s)
    (he : NewEntry s path id parent name type) : TreeStep s (withEntry s id parent name type) := by
  obtain ⟨hlen, hused, hdir⟩ := h.fsResolveParent he.resolved
  exact treeStep_withEntry hlen hused hdir he.valid he.text he.missing he.slot

theorem TreeInv.fsMkdir (h : TreeInv s) (path : Bytes) : TreeStep s (fsMkdir s path).1 :=
  fsMkdir_rule (TreeStep s) (.same (SameTree.refl s)) fun _ _ _ _ he => h.newEntry he

theorem TreeInv.fsWriteFile (h : TreeInv s) (path : Bytes) (data : Option Bytes) (len : ℕ) :
    TreeStep s (fsWriteFile alloc s path data len).1 := by
  apply fsWriteFile_rule (TreeStep s)
  · exact .same (SameTree.refl s)
  · intro id parent name type he
    exact h.newEntry he
  · intro u id data len hu _ _
    exact hu.trans_same (sameTree_fsSetFileData data len false)

theorem shape_removed {id : Slot} {n : Node} (hn : t.nodes = update s.nodes id n)
    (hshape : n.shape = { s.shape id with used := false }) :
    t.shape = update s.shape id { s.shape id with used := false } := by
  funext i
  by_cases hi : i = id
  · subst hi
    rw [update_self, ← hshape, Okfs.shape, hn, update_self]
  · rw [update_of_ne hi, Okfs.shape, hn, update_of_ne hi, Okfs.shape]

theorem TreeInv.removeNode {id : Slot} (h : TreeInv s) (hid : id ≠ 0)
    (hused : (s.shape id).used = true)
    (hleaf : ∀ i, i ≠ 0 → (s.shape i).used = true → (s.shape i).parent ≠ some id) :
    TreeStep s (removeNode s id).1 := by
  obtain ⟨p, hp, -⟩ := h.parent id hid hused
  obtain ⟨t, ht, hnodes, hcwd, -⟩ := removeNode_eq hp
  rw [ht]
  refine .remove id (shape_removed hnodes rfl) ?_ hid hused hleaf
  rw [hcwd]
  by_cases hc : s.cwd = id
  · rw [if_pos hc]
    exact Or.inr ⟨hc, hp⟩
  · rw [if_neg hc]
    exact Or.inl ⟨hc, rfl⟩

theorem any_child_iff {id : Slot} :
    (entrySlots.any fun i => (s.nodes i).used && (s.nodes i).parent = some id) = true ↔
      ∃ i, i ≠ 0 ∧ (s.shape i).used = true ∧ (s.shape i).parent = some id := by
  simp only [List.any_eq_true, mem_entrySlots, Bool.and_eq_true, decide_eq_true_eq]
  rfl

theorem TreeInv.no_child {id : Slot} (h : TreeInv s)
    (hdir : ¬ ((s.nodes id).type = .dir ∧
      (entrySlots.any fun i => (s.nodes i).used && (s.nodes i).parent = some id) = true)) :
    ∀ i, i ≠ 0 → (s.shape i).used = true → (s.shape i).parent ≠ some id := by
  intro i hi hi' hp
  obtain ⟨p, hp', -, hpd⟩ := h.parent i hi hi'
  obtain rfl : p = id := Option.some.inj (hp'.symm.trans hp)
  exact hdir ⟨hpd, any_child_iff.mpr ⟨i, hi, hi', hp⟩⟩

theorem TreeInv.run (h : TreeInv s) (op : Op) : TreeStep s (op.run alloc s).1 := by
  apply run_rule (TreeStep s)
  · exact .same (SameTree.refl s)
  · intro path id hr
    exact (h.fsResolve h.cwd_used hr).1
  · intro path target hr
    obtain ⟨hused, hdir⟩ := h.fsResolve h.cwd_used hr
    exact .chdir rfl hused (hdir rfl)
  · intro path id parent name type he
    exact h.newEntry he
  · intro u id data len append hu _ _
    exact hu.trans_same (sameTree_fsSetFileData data len append)
  · intro id hid hused hchild
    exact h.removeNode hid hused (h.no_child hchild)

/-- Every call of the shell and of the editor is a step of the tree. -/
theorem TreeInv.step {call : Call} (h : TreeInv s) (he : step alloc s call = some t) :
    TreeStep s t := by
  cases call with
  | op op =>
    cases he
    exact h.run op
  | editBegin path =>
    cases he
    exact .same (sessionOnly_fsEditBegin path).sameTree
  | editHandleLine line =>
    cases he
    rcases fsEditHandleLine_cases (s := s) line with hs | ⟨u, data, len, hu, hs⟩
    · exact .same hs.sameTree
    · have hw : TreeStep u (FileSystem.fsWriteFile alloc u u.editPath data len).1 :=
        (h.congr hu.sameTree).fsWriteFile u.editPath data len
      exact TreeStep.same_trans hu.sameTree (hw.trans_same hs.sameTree)
  | editGetPendingLine =>
    cases he
    exact .same sessionOnly_fsEditGetPendingLine.sameTree

theorem treeInv_clearNodes (s : Okfs) : TreeInv (clearNodes s) := by
  have h0 : (clearNodes s).shape 0 = ⟨true, none, .dir, []⟩ := by
    simp [Okfs.shape, clearNodes, Node.shape]
  have hfree : ∀ i, i ≠ 0 → ((clearNodes s).shape i).used = false := by
    intro i hi
    simp [Okfs.shape, clearNodes, Node.shape, hi]
  have hnone : ∀ i, i ≠ 0 → ((clearNodes s).shape i).used = true → False := by
    intro i hi hu
    rw [hfree i hi] at hu
    cases hu
  have hcwd : (clearNodes s).cwd = 0 := rfl
  refine ⟨by rw [h0], by rw [h0], by rw [h0], ?_, ⟨fun _ => 0, ?_⟩, by rw [hcwd, h0],
    by rw [hcwd, h0], ?_, ?_, ?_⟩
  · exact fun i hi hu => (hnone i hi hu).elim
  · exact fun i _ hi hu => (hnone i hi hu).elim
  · exact fun i hi hu => (hnone i hi hu).elim
  · exact fun i hi hu => (hnone i hi hu).elim
  · exact fun i _ hi _ hu => (hnone i hi hu).elim

theorem treeInv_fsInit (alloc : Allocator) (s : Okfs) : TreeInv (fsInit alloc s) := by
  have h₀ := treeInv_clearNodes s
  have h₁ := h₀.treeStep (h₀.fsMkdir (ascii "/docs"))
  have hreadme : TreeStep _ (fsWriteFile alloc (fsMkdir (clearNodes s) (ascii "/docs")).1
      (ascii "/readme.txt") (some readmeText) 0).1 := h₁.fsWriteFile _ _ _
  have h₂ := h₁.treeStep hreadme
  exact h₂.treeStep (h₂.fsWriteFile (ascii "/docs/about.txt") (some aboutText) 0)

end Calls

/-- The node reached by following `parent` so many times. -/
def ancestor (s : Okfs) : ℕ → Slot → Option Slot
  | 0, i => some i
  | k + 1, i => (s.nodes i).parent.bind (ancestor s k)

section Ancestors

variable {s : Okfs}

theorem ancestor_of_seg {l : List Slot} {i j : Slot}
    (h : Seg (fun a => (s.shape a).parent) (some i) l (some j)) :
    ancestor s l.length i = some j := by
  induction l generalizing i with
  | nil => exact h
  | cons a l ih =>
    obtain ⟨ha, hl⟩ := h
    obtain rfl : i = a := Option.some.inj ha
    change (s.shape i).parent.bind (ancestor s l.length) = some j
    dsimp only at hl
    cases hp : (s.shape i).parent with
    | none =>
      rw [hp] at hl
      cases l with
      | nil => cases hl
      | cons b l => cases hl.1
    | some p =>
      rw [hp] at hl
      exact ih hl

/-- The nodes on the way up: the depths decrease, so that no node is met twice. -/
theorem TreeInv.chain (h : TreeInv s) {depth : Slot → ℕ}
    (hdepth : ∀ i p, i ≠ 0 → (s.shape i).used = true → (s.shape i).parent = some p →
      depth p < depth i) (n : ℕ) :
    ∀ i, depth i ≤ n → (s.shape i).used = true →
      ∃ l, Seg (fun a => (s.shape a).parent) (some i) l (some 0) ∧
        l.Pairwise (fun a b => depth b < depth a) ∧ ∀ a ∈ l, a ≠ 0 ∧ depth a ≤ depth i := by
  induction n with
  | zero =>
    intro i hi hu
    by_cases h0 : i = 0
    · subst h0
      exact ⟨[], rfl, List.Pairwise.nil, by simp⟩
    · obtain ⟨p, hp, -⟩ := h.parent i h0 hu
      have hlt := hdepth i p h0 hu hp
      omega
  | succ n ih =>
    intro i hi hu
    by_cases h0 : i = 0
    · subst h0
      exact ⟨[], rfl, List.Pairwise.nil, by simp⟩
    · obtain ⟨p, hp, hpu, -⟩ := h.parent i h0 hu
      have hlt := hdepth i p h0 hu hp
      obtain ⟨l, hseg, hpair, hl⟩ := ih p (by omega) hpu
      refine ⟨i :: l, ⟨rfl, ?_⟩, ?_, ?_⟩
      · dsimp only
        rw [hp]
        exact hseg
      · refine List.pairwise_cons.mpr ⟨fun a ha => ?_, hpair⟩
        have hle := (hl a ha).2
        omega
      · intro a ha
        rcases List.mem_cons.mp ha with rfl | ha
        · exact ⟨h0, le_rfl⟩
        · have hle := (hl a ha).2
          exact ⟨(hl a ha).1, by omega⟩

theorem TreeInv.reaches_root (h : TreeInv s) {i : Slot} (hu : (s.shape i).used = true) :
    ∃ k < fsMaxNodes, ancestor s k i = some 0 := by
  obtain ⟨depth, hdepth⟩ := h.depth
  obtain ⟨l, hseg, hpair, hl⟩ := h.chain hdepth (depth i) i le_rfl hu
  have hnodup : l.Nodup := by
    apply hpair.imp
    rintro a b hab rfl
    exact lt_irrefl _ hab
  have h0 : (0 : Slot) ∉ l := fun hm => (hl 0 hm).1 rfl
  have hcard := (List.nodup_cons.mpr ⟨h0, hnodup⟩).length_le_card
  rw [Fintype.card_fin, List.length_cons] at hcard
  exact ⟨l.length, hcard, ancestor_of_seg hseg⟩

end Ancestors

theorem treeInv_of_run {alloc : Allocator} {s t : Okfs} {calls : List Call}
    (hrun : Run (step alloc) anyCall (fsInit alloc s) calls t) : TreeInv t :=
  hrun.invariant TreeInv (fun _ _ _ h _ he => h.treeStep (h.step he)) (treeInv_fsInit alloc s)

/-- In every state reached by calls of the shell and of the editor the used nodes form a tree of
directories below node 0, with names in order and unique in their directory. -/
theorem tree_kept {alloc : Allocator} {s t : Okfs} {calls : List Call}
    (hrun : Run (step alloc) anyCall (fsInit alloc s) calls t) :
    ((t.nodes 0).used = true ∧ (t.nodes 0).type = .dir) ∧
    (∀ i, i ≠ 0 → (t.nodes i).used = true →
      (∃ p, (t.nodes i).parent = some p ∧ (t.nodes p).used = true ∧ (t.nodes p).type = .dir) ∧
      (∃ k < 128, ancestor t k i = some 0) ∧ NameOk (t.nodes i).name ∧
      ((t.nodes i).type = .file → fsEndsWithTxt (t.nodes i).name = true)) ∧
    ((t.nodes t.cwd).used = true ∧ (t.nodes t.cwd).type = .dir) ∧
    ∀ i j, (t.nodes i).used = true → (t.nodes j).used = true →
      (t.nodes i).parent = (t.nodes j).parent → (t.nodes i).name = (t.nodes j).name → i = j := by
  have h := treeInv_of_run hrun
  refine ⟨⟨h.root_used, h.root_dir⟩, ?_, ⟨h.cwd_used, h.cwd_dir⟩, ?_⟩
  · intro i hi hu
    exact ⟨h.parent i hi hu, h.reaches_root hu, h.name i hi hu, h.text i hi hu⟩
  · intro i j hi hj hp hn
    -- the root is the only node without a name
    have hroot : ∀ k, (t.nodes k).used = true → (t.nodes k).name = [] → k = 0 := by
      intro k hk hname
      by_contra hk0
      exact (h.name k hk0 hk).ne_nil hname
    by_cases hi0 : i = 0
    · subst hi0
      exact (hroot j hj (hn.symm.trans h.root_name)).symm
    · by_cases hj0 : j = 0
      · subst hj0
        exact hroot i hi (hn.trans h.root_name)
      · exact h.unique i j hi0 hj0 hi hj hp hn

/-- A `kmalloc` that never fails and clears the memory. -/
def clearedAlloc : Allocator := fun _ _ => some fun _ => 0

/-- The nodes that `fs_init` makes. -/
def startNodes : Slot → Node :=
  update (update (update (update (fun _ => ⟨false, none, .dir, [], none, 0, 0⟩)
    0 ⟨true, none, .dir, [], none, 0, 0⟩)
    1 ⟨true, some 0, .dir, ascii "docs", none, 0, 0⟩)
    2 ⟨true, some 0, .file, ascii "readme.txt", some 0, 83, 256⟩)
    3 ⟨true, some 1, .file, ascii "about.txt", some 1, 70, 256⟩

def startHeap : Buffers :=
  let heap := (boot.heap.kmalloc clearedAlloc 256).2.write (some 0) 0 (readBytes readmeText 83)
  (heap.kmalloc clearedAlloc 256).2.write (some 1) 0 (readBytes aboutText 70)

/-- The state after `fs_init`, in which concrete calls are computed. -/
def started : Okfs := { boot with nodes := startNodes, heap := startHeap }

/-- A `kmalloc` that starts with the two buffers of `fs_init`. -/
def lateAlloc (later : Allocator) : Allocator
  | 0, _ => some fun _ => 0
  | 1, _ => some fun _ => 0
  | n + 2, size => later n size

theorem fsInit_lateAlloc (later : Allocator) : fsInit (lateAlloc later) boot = started := by
  -- each file is entered, given a buffer and then its size
  have hsteps : fsInit (lateAlloc later) boot = { boot with
      nodes := update (update (update (update (update (update (update (update
        (fun _ => ⟨false, none, .dir, [], none, 0, 0⟩)
        0 ⟨true, none, .dir, [], none, 0, 0⟩)
        1 ⟨true, some 0, .dir, ascii "docs", none, 0, 0⟩)
        2 ⟨true, some 0, .file, ascii "readme.txt", none, 0, 0⟩)
        2 ⟨true, some 0, .file, ascii "readme.txt", some 0, 0, 256⟩)
        2 ⟨true, some 0, .file, ascii "readme.txt", some 0, 83, 256⟩)
        3 ⟨true, some 1, .file, ascii "about.txt", none, 0, 0⟩)
        3 ⟨true, some 1, .file, ascii "about.txt", some 1, 0, 256⟩)
        3 ⟨true, some 1, .file, ascii "about.txt", some 1, 70, 256⟩
      heap := startHeap } := rfl
  rw [hsteps]
  simp only [update_idem]
  rfl

theorem fsInit_cleared : fsInit clearedAlloc boot = started := by
  have hlate : clearedAlloc = lateAlloc clearedAlloc := by
    funext n size
    match n with
    | 0 => rfl
    | 1 => rfl
    | n + 2 => rfl
  rw [hlate]
  exact fsInit_lateAlloc _

theorem readme_opened : ∃ s,
    Run (step clearedAlloc) anyCall (fsInit clearedAlloc boot)
      [.editBegin (ascii "/readme.txt")] s ∧
    s.editActive = true ∧ editText s = readmeText ∧
    fsResolve s s.cwd (ascii "readme.txt") false = .ok 2 ∧ (s.nodes 2).type = .file ∧
    fileBytes s 2 = readmeText := by
  rw [fsInit_cleared]
  exact ⟨_, Run.of_foldlM rfl, rfl, by decide, rfl, rfl, by decide⟩

/-- Making a directory, entering it, and removing it from inside. -/
theorem tree_kept_rm : ∃ t, Run (step clearedAlloc) anyCall (fsInit clearedAlloc boot)
      [.op (.mkdir (ascii "/docs/../tmp")), .op (.cd (ascii "tmp")), .op (.rm (ascii "../tmp"))] t ∧
    ((t.nodes 0).used = true ∧ (t.nodes 0).type = .dir) ∧
    (∀ i, i ≠ 0 → (t.nodes i).used = true →
      (∃ p, (t.nodes i).parent = some p ∧ (t.nodes p).used = true ∧ (t.nodes p).type = .dir) ∧
      (∃ k < 128, ancestor t k i = some 0) ∧ NameOk (t.nodes i).name ∧
      ((t.nodes i).type = .file → fsEndsWithTxt (t.nodes i).name = true)) ∧
    ((t.nodes t.cwd).used = true ∧ (t.nodes t.cwd).type = .dir) ∧
    ∀ i j, (t.nodes i).used = true → (t.nodes j).used = true →
      (t.nodes i).parent = (t.nodes j).parent → (t.nodes i).name = (t.nodes j).name → i = j := by
  obtain ⟨t, ht⟩ : ∃ t, [.op (.mkdir (ascii "/docs/../tmp")), .op (.cd (ascii "tmp")),
      .op (.rm (ascii "../tmp"))].foldlM (step clearedAlloc) (fsInit clearedAlloc boot) =
      some t := by
    rw [fsInit_cleared]
    exact ⟨_, rfl⟩
  exact ⟨t, Run.of_foldlM ht, tree_kept (Run.of_foldlM ht)⟩

end OpenKernel.FileSystem
