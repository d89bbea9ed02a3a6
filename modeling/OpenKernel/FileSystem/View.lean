import OpenKernel.FileSystem.PathMap
import OpenKernel.FileSystem.Storage
import OpenKernel.FileSystem.Tree
import OpenKernel.Lib.Walk

/-!
# The map a node table stands for

A path stands for the node found by looking up its names one after the other. In
a tree each used node has exactly one path, so that creating, storing and removing
a node each update the map at one path, and free slots are room in the map.
-/

namespace OpenKernel.FileSystem

open Function

/-- The entry `v` has the name `c` in the directory `u`. -/
def IsChild (s : Okfs) (u : Slot) (c : Bytes) (v : Slot) : Prop :=
  v ≠ 0 ∧ (s.shape v).used = true ∧ (s.shape v).parent = some u ∧ (s.shape v).name = c

def locate (s : Okfs) (p : Path) : Option Slot := p.foldlM (fsFindChild s) 0

def entryAt (s : Okfs) (i : Slot) : Entry UInt8 :=
  match (s.nodes i).type with
  | .dir => .dir
  | .file => .file (fileBytes s i)

def view (s : Okfs) : PathMap Bytes UInt8 := fun p => (locate s p).map (entryAt s)

section Locate

variable {s : Okfs} {p q : Path} {u v : Slot} {c : Bytes}

theorem TreeInv.isTree (h : TreeInv s) : IsTree (IsChild s) 0 := by
  refine ⟨fun u k v w hv hw => ?_, fun u k u' k' v hv hv' => ?_, fun u k h0 => h0.1 rfl⟩
  · exact h.unique v w hv.1 hw.1 hv.2.1 hw.2.1 (hv.2.2.1.trans hw.2.2.1.symm)
      (hv.2.2.2.trans hw.2.2.2.symm)
  · exact ⟨Option.some.inj (hv.2.2.1.symm.trans hv'.2.2.1), hv.2.2.2.symm.trans hv'.2.2.2⟩

theorem TreeInv.fsFindChild_iff (h : TreeInv s) :
    fsFindChild s u c = some v ↔ IsChild s u c v := by
  constructor
  · exact fsFindChild_some
  · intro hv
    cases hf : fsFindChild s u c with
    | none => exact absurd hv.2.2.2 (fsFindChild_none hf hv.1 hv.2.1 hv.2.2.1)
    | some w => rw [h.isTree.child u c w v (fsFindChild_some hf) hv]

theorem locate_snoc : locate s (p ++ [c]) = (locate s p).bind fun u => fsFindChild s u c := by
  unfold locate
  rw [List.foldlM_append]
  cases p.foldlM (fsFindChild s) 0 with
  | none => rfl
  | some u => exact bind_pure (fsFindChild s u c)

theorem TreeInv.locate_iff (h : TreeInv s) : locate s p = some v ↔ Walk (IsChild s) 0 p v := by
  induction p using List.reverseRecOn generalizing v with
  | nil =>
    rw [Walk.nil_iff]
    exact ⟨fun he => (Option.some.inj he).symm, fun he => congrArg some he.symm⟩
  | append_singleton p c ih =>
    rw [locate_snoc, Walk.snoc_iff, Option.bind_eq_some_iff]
    simp only [ih, h.fsFindChild_iff]

theorem TreeInv.used_of_walk (h : TreeInv s) (hp : Walk (IsChild s) 0 p v) :
    (s.shape v).used = true := by
  cases hp with
  | nil => exact h.root_used
  | snoc _ he => exact he.2.1

theorem TreeInv.exists_walk (h : TreeInv s) (hv : (s.shape v).used = true) :
    ∃ p, Walk (IsChild s) 0 p v := by
  obtain ⟨depth, hdepth⟩ := h.depth
  refine Walk.exists_path (fun v => (s.shape v).used = true) depth ?_ hv
  intro v hv hv0
  obtain ⟨u, hu, huu, -⟩ := h.parent v hv0 hv
  exact ⟨u, _, huu, hdepth v u hv0 hv hu, hv0, hv, hu, rfl⟩

theorem TreeInv.view_iff (h : TreeInv s) {e : Entry UInt8} :
    view s p = some e ↔ ∃ v, Walk (IsChild s) 0 p v ∧ entryAt s v = e := by
  simp only [view, Option.map_eq_some_iff, h.locate_iff]

theorem TreeInv.view_of_walk (h : TreeInv s) (hp : Walk (IsChild s) 0 p v) :
    view s p = some (entryAt s v) :=
  h.view_iff.mpr ⟨v, hp, rfl⟩

theorem entryAt_dir_iff : entryAt s v = .dir ↔ (s.nodes v).type = .dir := by
  unfold entryAt
  cases (s.nodes v).type <;> simp

theorem entryAt_file_iff {bytes : Bytes} :
    entryAt s v = .file bytes ↔ (s.nodes v).type = .file ∧ fileBytes s v = bytes := by
  unfold entryAt
  cases (s.nodes v).type <;> simp

theorem view_of_locate (hv : locate s p = some v) : view s p = some (entryAt s v) := by
  rw [view, hv, Option.map_some]

theorem view_dir_iff (hv : locate s p = some v) :
    view s p = some .dir ↔ (s.nodes v).type = .dir := by
  rw [view_of_locate hv, Option.some.injEq, entryAt_dir_iff]

theorem isFile_view_iff (hv : locate s p = some v) :
    PathMap.IsFile (view s) p ↔ (s.nodes v).type = .file := by
  simp only [PathMap.IsFile, view_of_locate hv, Option.some.injEq, entryAt_file_iff,
    exists_and_left, exists_eq', and_true]

theorem view_eq_none_iff : view s p = none ↔ locate s p = none := by
  simp [view]

end Locate

section Changes

variable {s t : Okfs} {p : Path} {id v : Slot}

theorem entryAt_congr (hshape : t.shape v = s.shape v) (hbytes : fileBytes t v = fileBytes s v) :
    entryAt t v = entryAt s v := by
  have htype : (t.nodes v).type = (s.nodes v).type := congrArg Shape.type hshape
  unfold entryAt
  rw [htype, hbytes]

theorem locate_congr (hshape : t.shape = s.shape) (p : Path) : locate t p = locate s p := by
  have hfind : fsFindChild t = fsFindChild s := by
    funext u c
    unfold fsFindChild
    congr 1
    funext i
    have hi : (t.nodes i).shape = (s.nodes i).shape := congrFun hshape i
    rw [show (t.nodes i).used = (s.nodes i).used from congrArg Shape.used hi,
      show (t.nodes i).parent = (s.nodes i).parent from congrArg Shape.parent hi,
      show (t.nodes i).name = (s.nodes i).name from congrArg Shape.name hi]
  unfold locate
  rw [hfind]

theorem view_congr (hshape : t.shape = s.shape) (hbytes : ∀ i, fileBytes t i = fileBytes s i) :
    view t = view s := by
  funext p
  unfold view
  rw [locate_congr hshape]
  congr 1
  funext i
  exact entryAt_congr (congrFun hshape i) (hbytes i)

theorem TreeInv.view_stored (h : TreeInv s) (hshape : t.shape = s.shape)
    (hothers : OthersKept s t id) (hp : Walk (IsChild s) 0 p id) :
    view t = update (view s) p (some (entryAt t id)) := by
  funext q
  unfold view
  rw [locate_congr hshape]
  by_cases hq : q = p
  · rw [hq, update_self, h.locate_iff.mpr hp]
    rfl
  rw [update_of_ne hq]
  cases hl : locate s q with
  | none => rfl
  | some v =>
    have hv := h.locate_iff.mp hl
    have hne : v ≠ id := by
      rintro rfl
      exact hq (Walk.path_unique h.isTree hv hp)
    exact congrArg some
      (entryAt_congr (congrFun hshape v) (hothers v hne (h.used_of_walk hv)))

/-- A new entry `id` in the directory `a` at `p` adds one path. -/
theorem TreeInv.walk_created {a : Slot} {c : Bytes} {type : FsType} (h : TreeInv s)
    (hshape : t.shape = update s.shape id ⟨true, some a, type, c⟩) (hid : id ≠ 0)
    (hfree : (s.shape id).used = false) (hp : Walk (IsChild s) 0 p a) (q : Path) (v : Slot) :
    Walk (IsChild t) 0 q v ↔ Walk (IsChild s) 0 q v ∨ q = p ++ [c] ∧ v = id := by
  have hne : ∀ v, (s.shape v).used = true → v ≠ id := by
    rintro v hv rfl
    rw [hfree] at hv
    cases hv
  have hedge : ∀ u k v, IsChild t u k v ↔ IsChild s u k v ∨ u = a ∧ k = c ∧ v = id := by
    intro u k v
    unfold IsChild
    rw [hshape]
    by_cases hv : v = id
    · subst hv
      simp only [update_self, hfree]
      constructor
      · rintro ⟨-, -, hu, hk⟩
        exact Or.inr ⟨(Option.some.inj hu).symm, hk.symm, trivial⟩
      · rintro (hs | ⟨rfl, rfl, -⟩)
        · exact absurd hs.2.1 (by simp)
        · exact ⟨hid, trivial, rfl, rfl⟩
    · simp [hv]
  have hout : ∀ k v, ¬ IsChild s id k v := by
    rintro k v ⟨hv, hvu, hvp, -⟩
    obtain ⟨u, hu, huu, -⟩ := h.parent v hv hvu
    exact hne u huu (Option.some.inj (hu.symm.trans hvp))
  exact Walk.add_leaf hedge hout (hne a (h.used_of_walk hp)) hid (fun u k hc => hne id hc.2.1 rfl)
    h.isTree hp

theorem TreeInv.view_created {a : Slot} {c : Bytes} {type : FsType} (h : TreeInv s)
    (h' : TreeInv t) (hshape : t.shape = update s.shape id ⟨true, some a, type, c⟩) (hid : id ≠ 0)
    (hfree : (s.shape id).used = false) (hothers : OthersKept s t id)
    (hp : Walk (IsChild s) 0 p a) :
    view t = update (view s) (p ++ [c]) (some (entryAt t id)) := by
  have hwalk := h.walk_created hshape hid hfree hp
  funext q
  by_cases hq : q = p ++ [c]
  · rw [hq, update_self]
    exact h'.view_of_walk ((hwalk _ _).mpr (Or.inr ⟨rfl, rfl⟩))
  rw [update_of_ne hq]
  ext e
  rw [h'.view_iff, h.view_iff]
  apply exists_congr
  intro v
  rw [hwalk, or_iff_left fun hc => hq hc.1]
  apply and_congr_right
  intro hv
  have hused := h.used_of_walk hv
  have hvi : v ≠ id := by
    rintro rfl
    rw [hfree] at hused
    cases hused
  rw [entryAt_congr (by rw [hshape, update_of_ne hvi]) (hothers v hvi hused)]

/-- The entry `id` at `p`, which has no children, is gone. -/
theorem TreeInv.view_removed (h : TreeInv s) (h' : TreeInv t)
    (hshape : t.shape = update s.shape id { s.shape id with used := false }) (hid : id ≠ 0)
    (hleaf : ∀ i, i ≠ 0 → (s.shape i).used = true → (s.shape i).parent ≠ some id)
    (hothers : OthersKept s t id) (hp : Walk (IsChild s) 0 p id) :
    view t = update (view s) p none := by
  have hedge : ∀ u k v, IsChild t u k v ↔ IsChild s u k v ∧ v ≠ id := by
    intro u k v
    unfold IsChild
    rw [hshape]
    by_cases hv : v = id
    · subst hv
      simp
    · simp [hv]
  have hwalk : ∀ q v, Walk (IsChild t) 0 q v ↔ Walk (IsChild s) 0 q v ∧ v ≠ id := fun q v =>
    Walk.remove_leaf hedge (fun k v hc => hleaf v hc.1 hc.2.1 hc.2.2.1) hid
  funext q
  by_cases hq : q = p
  · rw [hq, update_self, Option.eq_none_iff_forall_not_mem]
    intro e he
    obtain ⟨v, hv, -⟩ := h'.view_iff.mp he
    obtain ⟨hv, hne⟩ := (hwalk p v).mp hv
    exact hne (Walk.functional h.isTree hv hp)
  rw [update_of_ne hq]
  ext e
  rw [h'.view_iff, h.view_iff]
  apply exists_congr
  intro v
  rw [hwalk, and_assoc]
  apply and_congr_right
  intro hv
  have hvi : v ≠ id := by
    rintro rfl
    exact hq (Walk.path_unique h.isTree hv hp)
  rw [and_iff_right hvi, entryAt_congr (by rw [hshape, update_of_ne hvi])
    (hothers v hvi (h.used_of_walk hv))]

end Changes

section Room

variable {s : Okfs}

/-- The used slots besides the root are the entries of the map. -/
theorem TreeInv.ncard_entries (h : TreeInv s) :
    (PathMap.entries (view s)).ncard = {i : Slot | i ≠ 0 ∧ (s.nodes i).used = true}.ncard := by
  have himage : (fun p => (locate s p).getD 0) '' PathMap.entries (view s) =
      {i : Slot | i ≠ 0 ∧ (s.nodes i).used = true} := by
    ext i
    constructor
    · rintro ⟨p, ⟨hp, hv⟩, rfl⟩
      obtain ⟨v, hv⟩ := Option.ne_none_iff_exists'.mp (mt view_eq_none_iff.mpr hv)
      have hw := h.locate_iff.mp hv
      simp only [hv, Option.getD_some]
      refine ⟨?_, h.used_of_walk hw⟩
      rintro rfl
      exact hp (Walk.path_unique h.isTree hw .nil)
    · rintro ⟨hi, hu⟩
      obtain ⟨p, hp⟩ := h.exists_walk hu
      refine ⟨p, ⟨?_, by simp [h.view_of_walk hp]⟩, by simp [h.locate_iff.mpr hp]⟩
      rintro rfl
      exact hi (Walk.nil_iff.mp hp)
  rw [← himage, Set.InjOn.ncard_image]
  rintro p ⟨-, hp⟩ q ⟨-, hq⟩ hpq
  obtain ⟨v, hv⟩ := Option.ne_none_iff_exists'.mp (mt view_eq_none_iff.mpr hp)
  obtain ⟨w, hw⟩ := Option.ne_none_iff_exists'.mp (mt view_eq_none_iff.mpr hq)
  simp only [hv, hw, Option.getD_some] at hpq
  subst hpq
  exact Walk.path_unique h.isTree (h.locate_iff.mp hv) (h.locate_iff.mp hw)

theorem ncard_ne_zero_slots : {i : Slot | i ≠ 0}.ncard = 127 := by
  have hcompl : {i : Slot | i ≠ 0} = {0}ᶜ := by
    ext i
    simp
  rw [hcompl, Set.ncard_compl, Set.ncard_singleton]
  simp [fsMaxNodes]

theorem TreeInv.fsAllocNode_iff (h : TreeInv s) :
    fsAllocNode s ≠ none ↔ (PathMap.entries (view s)).ncard < 127 := by
  rw [h.ncard_entries, ← ncard_ne_zero_slots]
  constructor
  · intro hne
    obtain ⟨i, hi⟩ := Option.ne_none_iff_exists'.mp hne
    obtain ⟨hi0, hfree⟩ := fsAllocNode_some hi
    refine Set.ncard_lt_ncard ⟨fun j hj => hj.1, fun hsub => ?_⟩
    have hu := (hsub hi0).2
    rw [hfree] at hu
    cases hu
  · intro hlt hnone
    refine hlt.not_ge (Set.ncard_le_ncard fun i hi => ?_)
    exact ⟨hi, fsAllocNode_none hnone hi⟩

end Room

end OpenKernel.FileSystem
