import OpenKernel.FileSystem.Tree

/-!
# Failed operations

An operation that fails leaves nodes, file contents and the current directory
as they were, with one exception: `fs_write_file` creates the entry of a new file
before it stores the data, and does not remove it when storing fails.
-/

namespace OpenKernel.FileSystem

open Function

/-- `t` has the used nodes of `s`, with their names, parents, types and bytes, and its current
directory. -/
structure SameContent (s t : Okfs) : Prop where
  used : ∀ i, (t.nodes i).used = (s.nodes i).used
  shape : ∀ i, (s.nodes i).used = true → (t.nodes i).shape = (s.nodes i).shape
  bytes : ∀ i, (s.nodes i).used = true → (s.nodes i).type = .file → fileBytes t i = fileBytes s i
  cwd : t.cwd = s.cwd

theorem SameContent.refl (s : Okfs) : SameContent s s :=
  ⟨fun _ => rfl, fun _ _ => rfl, fun _ _ _ => rfl, rfl⟩

/-- The call creates the entry of a new file and then cannot store the data. -/
def LeavesEntry (alloc : Allocator) (s : Okfs) : Op → Prop
  | .writeFile path (some data) len => ∃ parent name,
      fsResolveParent s path = .ok (parent, name) ∧ fsFindChild s parent name = none ∧
      fsIsValidName name = true ∧ fsEndsWithTxt name = true ∧ fsAllocNode s ≠ none ∧
      (fsMaxFileSize < (if len = 0 then fsStrlen data else len) ∨
        0 < (if len = 0 then fsStrlen data else len) ∧
          alloc s.heap.calls (nextCap 0 (if len = 0 then fsStrlen data else len)) = none)
  | _ => False

section Failures

variable {alloc : Allocator} {s : Okfs}

theorem sameContent_fsSetFileData {id : Slot} {data : Bytes} {len : ℕ} {append : Bool}
    (h : (fsSetFileData alloc s id data len append).2 ≠ .ok ()) :
    SameContent s (fsSetFileData alloc s id data len append).1 := by
  rw [Ne, fsSetFileData_ok_iff] at h
  obtain ⟨n, -, he⟩ := fsSetFileData_of_not_fits h data
  rw [he]
  exact ⟨fun _ => rfl, fun _ _ => rfl, fun _ _ _ => rfl, rfl⟩

theorem sameContent_fsMkdir {path : Bytes} (h : (fsMkdir s path).2 ≠ .ok ()) :
    SameContent s (fsMkdir s path).1 := by
  rcases fsMkdir_cases s path with ⟨err, he⟩ | ⟨id, parent, name, -, he⟩
  · rw [he]
    exact SameContent.refl s
  · rw [he] at h
    exact absurd rfl h

theorem sameContent_fsTouch {path : Bytes} (h : (fsTouch s path).2 ≠ .ok ()) :
    SameContent s (fsTouch s path).1 := by
  rcases fsTouch_cases s path with
    ⟨err, he⟩ | ⟨id, parent, name, -, -, he⟩ | ⟨id, parent, name, -, he⟩
  · rw [he]
    exact SameContent.refl s
  · rw [he] at h
    exact absurd rfl h
  · rw [he] at h
    exact absurd rfl h

theorem sameContent_fsRm {path : Bytes} (hinv : TreeInv s) (h : (fsRm s path).2 ≠ .ok ()) :
    SameContent s (fsRm s path).1 := by
  unfold fsRm at h ⊢
  cases hr : fsResolve s s.cwd path false with
  | error err => exact SameContent.refl s
  | ok id =>
    rw [hr] at h
    dsimp only at h ⊢
    split_ifs at h ⊢ with h0 hdir
    · exact SameContent.refl s
    · exact SameContent.refl s
    · -- a used node other than the root has a parent, so that the removal succeeds
      obtain ⟨hused, -⟩ := hinv.fsResolve hinv.cwd_used hr
      obtain ⟨p, hp, -⟩ := hinv.parent id h0 hused
      obtain ⟨t, ht, -⟩ := removeNode_eq hp
      rw [ht] at h
      exact absurd rfl h

theorem sameContent_fsCd {path : Bytes} (h : (fsCd s path).2 ≠ .ok ()) :
    SameContent s (fsCd s path).1 := by
  unfold fsCd at h ⊢
  cases hr : fsResolve s s.cwd path true with
  | error err => exact SameContent.refl s
  | ok id =>
    rw [hr] at h
    dsimp only at h ⊢
    split_ifs at h ⊢
    · exact SameContent.refl s
    · exact absurd rfl h

theorem sameContent_fsAppendFile {path : Bytes} {data : Option Bytes} {len : ℕ}
    (h : (fsAppendFile alloc s path data len).2 ≠ .ok ()) :
    SameContent s (fsAppendFile alloc s path data len).1 := by
  unfold fsAppendFile at h ⊢
  cases data with
  | none => exact SameContent.refl s
  | some data =>
    dsimp only at h ⊢
    generalize (if len = 0 then fsStrlen data else len) = n at h ⊢
    cases hr : fsResolve s s.cwd path false with
    | error err => exact SameContent.refl s
    | ok id =>
      rw [hr] at h
      dsimp only at h ⊢
      split_ifs at h ⊢
      · exact SameContent.refl s
      · exact SameContent.refl s
      · exact sameContent_fsSetFileData h

theorem fits_withEntry {id parent : Slot} {name : Bytes} {n : ℕ} :
    Fits alloc (withEntry s id parent name .file) id n false ↔
      n ≤ fsMaxFileSize ∧ (n = 0 ∨ alloc s.heap.calls (nextCap 0 n) ≠ none) := by
  simp [Fits, sizeAfter, withEntry]

theorem not_sameContent_withEntry {t : Okfs} {id parent : Slot} {name : Bytes}
    (hid : fsAllocNode s = some id) (ht : SameTree (withEntry s id parent name .file) t) :
    ¬ SameContent s t := by
  intro h
  have hused := used_of_withEntry ht
  rw [h.used id, (fsAllocNode_some hid).2] at hused
  cases hused

/-- A failed write either creates and keeps an entry, or changes nothing. -/
theorem sameContent_fsWriteFile_iff {path : Bytes} {data : Option Bytes} {len : ℕ} :
    ((fsWriteFile alloc s path data len).2 ≠ .ok () →
      SameContent s (fsWriteFile alloc s path data len).1) ↔
    ¬ LeavesEntry alloc s (.writeFile path data len) := by
  cases data with
  | none => simp [fsWriteFile, LeavesEntry, SameContent.refl]
  | some data =>
    unfold fsWriteFile LeavesEntry
    dsimp only
    generalize (if len = 0 then fsStrlen data else len) = n
    cases hr : fsResolveParent s path with
    | error err => simp [SameContent.refl]
    | ok r =>
      obtain ⟨parent, name⟩ := r
      dsimp only
      cases hf : fsFindChild s parent name with
      | some id =>
        dsimp only
        split_ifs
        · simp [SameContent.refl, hf]
        · simp only [Except.ok.injEq, Prod.mk.injEq]
          apply iff_of_true sameContent_fsSetFileData
          rintro ⟨p, m, ⟨rfl, rfl⟩, hnone, -⟩
          rw [hf] at hnone
          cases hnone
      | none =>
        dsimp only
        rcases fsCreateEntry_cases s parent name .file with ⟨err, he⟩ |
          ⟨id, hvalid, htext, -, hid, he⟩
        · -- the entry is refused
          rw [he]
          apply iff_of_true (fun _ => SameContent.refl s)
          rintro ⟨p, m, hpm, -, hvalid, htext, hid, -⟩
          cases hpm
          obtain ⟨id, hid⟩ := Option.ne_none_iff_exists'.mp hid
          rw [fsCreateEntry_of_ok hvalid (fun _ => htext) hf hid] at he
          cases congrArg Prod.snd he
        · -- the entry is created: all depends on the data
          rw [he]
          dsimp only
          by_cases hfits : Fits alloc (withEntry s id parent name .file) id n false
          · apply iff_of_true (fun hne => absurd ((fsSetFileData_ok_iff data).mpr hfits) hne)
            rintro ⟨p, m, -, -, -, -, -, hfail⟩
            obtain ⟨hmax, halloc⟩ := fits_withEntry.mp hfits
            rcases hfail with hlt | ⟨hpos, hnull⟩
            · omega
            · exact halloc.elim (fun h0 => by omega) fun hne => hne hnull
          · refine iff_of_false (fun h => ?_) (not_not.mpr ?_)
            · refine not_sameContent_withEntry hid (sameTree_fsSetFileData data n false)
                (h fun hok => hfits ((fsSetFileData_ok_iff data).mp hok))
            · refine ⟨parent, name, rfl, hf, hvalid, htext rfl, by simp [hid], ?_⟩
              rw [fits_withEntry] at hfits
              by_contra hno
              push Not at hno
              refine hfits ⟨hno.1, ?_⟩
              by_cases h0 : n = 0
              · exact Or.inl h0
              · exact Or.inr (hno.2 (Nat.pos_of_ne_zero h0))

end Failures

/-- In every reachable state, and for every pattern of `kmalloc` failures: an operation that
fails changes nothing if and only if it does not create an entry whose data it cannot store. -/
theorem failed_op_atomic_iff {alloc : Allocator} {s₀ s : Okfs} {calls : List Call}
    (hrun : Run (step alloc) anyCall (fsInit alloc s₀) calls s) (op : Op) :
    ((op.run alloc s).2 ≠ .ok () → SameContent s (op.run alloc s).1) ↔
      ¬ LeavesEntry alloc s op := by
  have hinv := treeInv_of_run hrun
  cases op with
  | cd path => exact iff_of_true sameContent_fsCd id
  | mkdir path => exact iff_of_true sameContent_fsMkdir id
  | touch path => exact iff_of_true sameContent_fsTouch id
  | rm path => exact iff_of_true (sameContent_fsRm hinv) id
  | writeFile path data len => exact sameContent_fsWriteFile_iff
  | appendFile path data len => exact iff_of_true sameContent_fsAppendFile id

/-- Writing a new file right after boot, where `kmalloc` does not fail. -/
theorem failed_op_atomic_iff_boot : ∃ s, Run (step clearedAlloc) anyCall (fsInit clearedAlloc boot)
      [.op (.mkdir (ascii "/tmp"))] s ∧
    (((Op.writeFile (ascii "/tmp/a.txt") (some (ascii "a")) 1).run clearedAlloc s).2 ≠ .ok () →
      SameContent s
        ((Op.writeFile (ascii "/tmp/a.txt") (some (ascii "a")) 1).run clearedAlloc s).1 ↔
      ¬ LeavesEntry clearedAlloc s (.writeFile (ascii "/tmp/a.txt") (some (ascii "a")) 1)) := by
  obtain ⟨s, hs⟩ : ∃ s, [.op (.mkdir (ascii "/tmp"))].foldlM (step clearedAlloc)
      (fsInit clearedAlloc boot) = some s := by
    rw [fsInit_cleared]
    exact ⟨_, rfl⟩
  exact ⟨s, Run.of_foldlM hs, failed_op_atomic_iff (Run.of_foldlM hs) _⟩

/-- Right after boot, writing 65537 bytes to a new file fails and leaves an empty file. -/
theorem failed_write_leaves_entry : ∃ s,
    Run (step clearedAlloc) anyCall (fsInit clearedAlloc boot) [] s ∧
    ((Op.writeFile (ascii "/big.txt") (some (List.replicate 65537 97)) 65537).run
      clearedAlloc s).2 ≠ .ok () ∧
    ¬ SameContent s ((Op.writeFile (ascii "/big.txt") (some (List.replicate 65537 97)) 65537).run
      clearedAlloc s).1 := by
  refine ⟨_, .nil _, ?_⟩
  have hnew : ∃ r, fsResolveParent (fsInit clearedAlloc boot) (ascii "/big.txt") = .ok r ∧
      fsFindChild (fsInit clearedAlloc boot) r.1 r.2 = none ∧
      fsIsValidName r.2 = true ∧ fsEndsWithTxt r.2 = true ∧
      fsAllocNode (fsInit clearedAlloc boot) ≠ none := by
    rw [fsInit_cleared]
    exact ⟨(0, ascii "big.txt"), by decide⟩
  obtain ⟨⟨parent, name⟩, hr, hfind, hvalid, htext, hid⟩ := hnew
  have hleaves : LeavesEntry clearedAlloc (fsInit clearedAlloc boot)
      (.writeFile (ascii "/big.txt") (some (List.replicate 65537 97)) 65537) :=
    ⟨parent, name, hr, hfind, hvalid, htext, hid, Or.inl (by simp [fsMaxFileSize])⟩
  exact Classical.not_imp.mp fun h => sameContent_fsWriteFile_iff.mp h hleaves

end OpenKernel.FileSystem
