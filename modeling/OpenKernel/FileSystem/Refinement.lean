import OpenKernel.FileSystem.Simulation

/-!
# OKFS refines a map from paths

After `fs_init` the node table stands for a map with three entries, and every run of
operations on clean paths follows the requests of the abstract map step by step.
-/

namespace OpenKernel.FileSystem

open Function PathMap

/-- The call `op` makes the request on a clean path, with as much data as it announces. -/
inductive Asks : Op → Request Bytes UInt8 → Prop
  | cd {path : Bytes} (hp : CleanPath path) : Asks (.cd path) (.cd (components path))
  | mkdir {path : Bytes} (hp : CleanPath path) : Asks (.mkdir path) (.mkdir (components path))
  | touch {path : Bytes} (hp : CleanPath path) : Asks (.touch path) (.touch (components path))
  | rm {path : Bytes} (hp : CleanPath path) : Asks (.rm path) (.rm (components path))
  | writeFile {path data : Bytes} {len : ℕ} (hp : CleanPath path) (hlen : len ≤ data.length) :
      Asks (.writeFile path (some data) len) (.write (components path) (payload data len))
  | appendFile {path data : Bytes} {len : ℕ} (hp : CleanPath path) (hlen : len ≤ data.length) :
      Asks (.appendFile path (some data) len) (.append (components path) (payload data len))

/-- The calls one after the other. -/
def runOps (alloc : Allocator) (s : Okfs) (ops : List Op) : Okfs :=
  ops.foldl (fun s op => (op.run alloc s).1) s

noncomputable def mapStep (m : PathMap Bytes UInt8) (req : Request Bytes UInt8) :
    Option (PathMap Bytes UInt8) := some (after okfsRules m req)

/-- No file grows past the largest size. -/
def StaysWithin (m : PathMap Bytes UInt8) (req : Request Bytes UInt8) : Prop :=
  Within (after okfsRules m req)

/-- The map with the directory that `fs_init` makes. -/
def docsMap : PathMap Bytes UInt8 := update rootOnly [ascii "docs"] (some .dir)

/-- The map with the first of its files. -/
def readmeMap : PathMap Bytes UInt8 :=
  update docsMap [ascii "readme.txt"] (some (.file readmeText))

/-- The map after `fs_init`. -/
def initialMap : PathMap Bytes UInt8 :=
  update readmeMap [ascii "docs", ascii "about.txt"] (some (.file aboutText))

section Initial

theorem ncard_docsMap : (entries docsMap).ncard ≤ 1 := by
  have hle := ncard_update_some_le rootOnly (List.cons_ne_nil (ascii "docs") [])
    (.dir : Entry UInt8)
  rwa [entries_rootOnly, Set.ncard_empty] at hle

theorem ncard_readmeMap : (entries readmeMap).ncard ≤ 2 :=
  (ncard_update_some_le docsMap (List.cons_ne_nil _ _) _).trans
    (Nat.succ_le_succ ncard_docsMap)

theorem creatable_docs :
    Creatable okfsRules (rootOnly : PathMap Bytes UInt8) [ascii "docs"] fun _ => True := by
  refine ⟨rfl, ?_, [], ascii "docs", rfl, rfl, ?_, trivial⟩
  · rw [entries_rootOnly, Set.ncard_empty]
    decide
  · unfold okfsRules
    decide

theorem creatable_readme :
    Creatable okfsRules docsMap [ascii "readme.txt"] okfsRules.fileName := by
  refine ⟨rfl, lt_of_le_of_lt ncard_docsMap (by decide), [], ascii "readme.txt", rfl, rfl, ?_, ?_⟩
  · unfold okfsRules
    decide
  · unfold okfsRules
    decide

theorem creatable_about :
    Creatable okfsRules readmeMap [ascii "docs", ascii "about.txt"] okfsRules.fileName := by
  refine ⟨rfl, lt_of_le_of_lt ncard_readmeMap (by decide), [ascii "docs"], ascii "about.txt", rfl,
    rfl, ?_, ?_⟩
  · unfold okfsRules
    decide
  · unfold okfsRules
    decide

theorem wellFormed_initialMap : WellFormed okfsRules initialMap :=
  (((wellFormed_rootOnly okfsRules).insert creatable_docs .dir).insert creatable_readme _).insert
    creatable_about _

theorem within_update {m : PathMap Bytes UInt8} {p : Path} {e : Option (Entry UInt8)}
    (h : Within m) (he : ∀ bytes, e = some (.file bytes) → bytes.length ≤ fsMaxFileSize) :
    Within (update m p e) := by
  intro q bytes hq
  by_cases hqp : q = p
  · subst hqp
    rw [update_self] at hq
    exact he bytes hq
  · rw [update_of_ne hqp] at hq
    exact h q bytes hq

theorem within_docsMap : Within docsMap := by
  refine within_update ?_ (by simp)
  intro p bytes hp
  cases p <;> cases hp

theorem within_readmeMap : Within readmeMap := by
  apply within_update within_docsMap
  intro bytes he
  cases he
  decide

theorem within_initialMap : Within initialMap := by
  apply within_update within_readmeMap
  intro bytes he
  cases he
  decide

theorem within_after {m : PathMap Bytes UInt8} {req : Request Bytes UInt8} (h : Within m)
    (heffect : Within (effect m req)) : Within (after okfsRules m req) := by
  by_cases hallowed : Allowed okfsRules m req
  · rwa [after_of_allowed hallowed]
  · rwa [after_of_not_allowed hallowed]

end Initial

section Runs

variable {alloc : Allocator} {s : Okfs} {op : Op} {req : Request Bytes UInt8}

/-- One operation. -/
theorem simulates_run (h : FsInv s) (halloc : ∀ k size, alloc k size ≠ none) (hasks : Asks op req)
    (hmax : Within (after okfsRules (view s) req)) : Simulates s (op.run alloc s) req := by
  cases hasks with
  | cd hp => exact simulates_fsCd h hp
  | mkdir hp => exact simulates_fsMkdir h hp
  | touch hp => exact simulates_fsTouch h hp
  | rm hp => exact simulates_fsRm h hp
  | writeFile hp hlen => exact simulates_fsWriteFile h halloc hp hlen hmax
  | appendFile hp hlen => exact simulates_fsAppendFile h halloc hp hlen hmax

theorem view_clearNodes (s : Okfs) : view (clearNodes s) = rootOnly := by
  have h := treeInv_clearNodes s
  funext p
  by_cases hp : p = []
  · rw [hp]
    exact h.view_of_walk .nil
  · have hnone : view (clearNodes s) p = none := by
      by_contra hne
      obtain ⟨e, he⟩ := Option.ne_none_iff_exists'.mp hne
      obtain ⟨v, hv, -⟩ := h.view_iff.mp he
      have hv0 : v ≠ 0 := by
        rintro rfl
        exact hp (Walk.path_unique h.isTree hv .nil)
      have hused := h.used_of_walk hv
      simp [Okfs.shape, Node.shape, clearNodes, hv0] at hused
    rw [hnone]
    cases p with
    | nil => exact absurd rfl hp
    | cons c p => rfl

theorem Simulates.view_of_allowed {r : Okfs × Except FsError Unit} (h : Simulates s r req)
    (hallowed : Allowed okfsRules (view s) req) : view r.1 = effect (view s) req := by
  rw [h.map, after_of_allowed hallowed]

theorem FsInv.write_new {path data : Bytes} (h : FsInv s) (halloc : ∀ k size, alloc k size ≠ none)
    (hp : CleanPath path)
    (hcan : Creatable okfsRules (view s) (components path) okfsRules.fileName)
    (hw : Within (view s)) (hdata : payload data 0 = data ∧ data.length ≤ fsMaxFileSize) :
    FsInv (fsWriteFile alloc s path (some data) 0).1 ∧
      view (fsWriteFile alloc s path (some data) 0).1 =
        update (view s) (components path) (some (.file data)) := by
  have hallowed : Allowed okfsRules (view s) (.write (components path) data) := Or.inr hcan
  have hs := simulates_fsWriteFile h halloc hp (Nat.zero_le data.length)
  rw [hdata.1, after_of_allowed hallowed] at hs
  have hmax : Within (update (view s) (components path) (some (.file data))) := by
    apply within_update hw
    intro bytes he
    cases he
    exact hdata.2
  exact ⟨(hs hmax).inv, (hs hmax).view_of_allowed hallowed⟩

/-- `fs_init` makes a directory and writes two files. -/
theorem fsInv_fsInit (halloc : ∀ k size, alloc k size ≠ none) (s : Okfs) :
    FsInv (fsInit alloc s) ∧ view (fsInit alloc s) = initialMap := by
  have hdocs : CleanPath (ascii "/docs") ∧ components (ascii "/docs") = [ascii "docs"] := by
    decide
  have hreadme : CleanPath (ascii "/readme.txt") ∧
      components (ascii "/readme.txt") = [ascii "readme.txt"] ∧
      payload readmeText 0 = readmeText ∧ readmeText.length ≤ fsMaxFileSize := by
    decide
  have habout : CleanPath (ascii "/docs/about.txt") ∧
      components (ascii "/docs/about.txt") = [ascii "docs", ascii "about.txt"] ∧
      payload aboutText 0 = aboutText ∧ aboutText.length ≤ fsMaxFileSize := by
    decide
  have hs := simulates_fsMkdir ⟨treeInv_clearNodes s, storageInv_clearNodes s⟩ hdocs.1
  have hview₁ := hs.view_of_allowed (by
    rw [view_clearNodes, hdocs.2]
    exact creatable_docs)
  rw [view_clearNodes, hdocs.2] at hview₁
  change _ = docsMap at hview₁
  obtain ⟨hinv₂, hview₂⟩ := hs.inv.write_new halloc hreadme.1
    (by rw [hview₁, hreadme.2.1]; exact creatable_readme) (by rw [hview₁]; exact within_docsMap)
    hreadme.2.2
  rw [hview₁, hreadme.2.1] at hview₂
  change _ = readmeMap at hview₂
  obtain ⟨hinv₃, hview₃⟩ := hinv₂.write_new halloc habout.1
    (by rw [hview₂, habout.2.1]; exact creatable_about) (by rw [hview₂]; exact within_readmeMap)
    habout.2.2
  rw [hview₂, habout.2.1] at hview₃
  exact ⟨hinv₃, hview₃⟩

theorem simulates_runOps {ops : List Op} {reqs : List (Request Bytes UInt8)}
    {m : PathMap Bytes UInt8} (h : FsInv s) (halloc : ∀ k size, alloc k size ≠ none)
    (hasks : List.Forall₂ Asks ops reqs) (hrun : Run mapStep StaysWithin (view s) reqs m) :
    FsInv (runOps alloc s ops) ∧ view (runOps alloc s ops) = m := by
  induction hasks generalizing s with
  | nil =>
    cases hrun
    exact ⟨h, rfl⟩
  | cons hask _ ih =>
    cases hrun with
    | cons hmax hst hrest =>
      have hs := simulates_run h halloc hask hmax
      cases hst
      rw [← hs.map] at hrest
      exact ih hs.inv hrest

end Runs

/-- After `fs_init` and any calls on clean paths, with `kmalloc` not failing and no file growing
past the largest size, the node table stands for the map that the requests lead to, a finite map
with at most 127 entries; and each further call succeeds exactly when its request is allowed, and
then leads to the map after it. -/
theorem refines_pathMap {alloc : Allocator} (halloc : ∀ k size, alloc k size ≠ none) {s₀ : Okfs}
    {ops : List Op} {reqs : List (Request Bytes UInt8)} {m : PathMap Bytes UInt8}
    (hasks : List.Forall₂ Asks ops reqs) (hrun : Run mapStep StaysWithin initialMap reqs m) :
    view (runOps alloc (fsInit alloc s₀) ops) = m ∧ WellFormed okfsRules m ∧
    ∀ op req, Asks op req → StaysWithin m req →
      ((op.run alloc (runOps alloc (fsInit alloc s₀) ops)).2 = .ok () ↔
        Allowed okfsRules m req) ∧
      view (op.run alloc (runOps alloc (fsInit alloc s₀) ops)).1 = after okfsRules m req := by
  have hwf : WellFormed okfsRules m := by
    refine hrun.invariant (WellFormed okfsRules) ?_ wellFormed_initialMap
    intro m req m' h _ he
    cases he
    exact h.after req
  obtain ⟨hinit, hview⟩ := fsInv_fsInit halloc s₀
  rw [← hview] at hrun
  obtain ⟨hinv, rfl⟩ := simulates_runOps hinit halloc hasks hrun
  refine ⟨rfl, hwf, fun op req hask hmax => ?_⟩
  have hs := simulates_run hinv halloc hask hmax
  exact ⟨hs.result, hs.map⟩

/-- Making a directory and writing a file into it. -/
theorem refines_pathMap_write : ∃ m,
    Run mapStep StaysWithin initialMap [.mkdir (components (ascii "/tmp")),
      .write (components (ascii "/tmp/a.txt")) (payload (ascii "hello") 0)] m ∧
    view (runOps clearedAlloc (fsInit clearedAlloc boot) [.mkdir (ascii "/tmp"),
      .writeFile (ascii "/tmp/a.txt") (some (ascii "hello")) 0]) = m ∧ WellFormed okfsRules m ∧
    ∀ op req, Asks op req → StaysWithin m req →
      ((op.run clearedAlloc (runOps clearedAlloc (fsInit clearedAlloc boot) [.mkdir (ascii "/tmp"),
        .writeFile (ascii "/tmp/a.txt") (some (ascii "hello")) 0])).2 = .ok () ↔
        Allowed okfsRules m req) ∧
      view (op.run clearedAlloc (runOps clearedAlloc (fsInit clearedAlloc boot)
        [.mkdir (ascii "/tmp"),
          .writeFile (ascii "/tmp/a.txt") (some (ascii "hello")) 0])).1 = after okfsRules m req := by
  have hasks : List.Forall₂ Asks [.mkdir (ascii "/tmp"),
      .writeFile (ascii "/tmp/a.txt") (some (ascii "hello")) 0]
      [.mkdir (components (ascii "/tmp")),
        .write (components (ascii "/tmp/a.txt")) (payload (ascii "hello") 0)] :=
    .cons (.mkdir (by decide)) (.cons (.writeFile (by decide) (Nat.zero_le _)) .nil)
  have hmkdir : StaysWithin initialMap (.mkdir (components (ascii "/tmp"))) :=
    within_after within_initialMap (within_update within_initialMap (by simp))
  have hwrite : StaysWithin (after okfsRules initialMap (.mkdir (components (ascii "/tmp"))))
      (.write (components (ascii "/tmp/a.txt")) (payload (ascii "hello") 0)) := by
    refine within_after hmkdir (within_update hmkdir fun bytes he => ?_)
    cases he
    decide
  have hrun : Run mapStep StaysWithin initialMap [.mkdir (components (ascii "/tmp")),
      .write (components (ascii "/tmp/a.txt")) (payload (ascii "hello") 0)] _ :=
    .cons hmkdir rfl (.cons hwrite rfl (.nil _))
  exact ⟨_, hrun, refines_pathMap (fun _ _ => by simp [clearedAlloc]) hasks hrun⟩

end OpenKernel.FileSystem
