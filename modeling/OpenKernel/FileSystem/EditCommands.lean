import OpenKernel.FileSystem.Atomicity
import OpenKernel.FileSystem.EditBuffer

/-!
# Commands that leave the text

Behind the treatment of the target line `fs_edit_handle_line` knows five kinds of
lines. `:p` never changes the text in the buffer and `:q` always drops it; `:save`
drops it if the file can be written, `:e` changes it unless it is rejected, only
loads a line or puts back what was there, and any other line is added at the end
if there is room.
-/

namespace OpenKernel.FileSystem

variable {alloc : Allocator} {s : Okfs} {line : Bytes}

/-! ### Saving -/

/-- `fs_write_file` finds the file of the session, or can create it, and has a buffer for the
text. -/
def CanSave (alloc : Allocator) (s : Okfs) : Prop :=
  match fsResolveParent s s.editPath with
  | .error _ => False
  | .ok (parent, name) =>
    match fsFindChild s parent name with
    | some id => (s.nodes id).type = .file ∧ Fits alloc s id s.editLen false
    | none =>
      fsIsValidName name = true ∧ fsEndsWithTxt name = true ∧ fsAllocNode s ≠ none ∧
        alloc s.heap.calls (nextCap 0 s.editLen) ≠ none

section Saving

theorem editText_fsSetFileData {t : Okfs} {id : Slot} {len : ℕ} {append : Bool}
    (h : ¬ Fits alloc t id len append) (data : Bytes) :
    ∃ u err, fsSetFileData alloc t id data len append = (u, .error err) ∧
      editText u = editText t := by
  obtain ⟨n, -, he⟩ := fsSetFileData_of_not_fits h data
  exact ⟨_, _, he, rfl⟩

theorem fsSetFileData_ok {t : Okfs} {id : Slot} {len : ℕ} {append : Bool}
    (h : Fits alloc t id len append) (data : Bytes) :
    ∃ u, fsSetFileData alloc t id data len append = (u, .ok ()) := by
  obtain ⟨t, -, he⟩ := fsSetFileData_of_fits h data
  exact ⟨_, he⟩

/-- `:save` stores the text or, refused, leaves it in the buffer. -/
theorem fsWriteFile_editPath (alloc : Allocator) (data : Bytes) (hlen : s.editLen ≠ 0)
    (hmax : s.editLen ≤ fsMaxFileSize) :
    (CanSave alloc s ∧
      ∃ t, fsWriteFile alloc s s.editPath (some data) s.editLen = (t, .ok ())) ∨
    (¬ CanSave alloc s ∧ ∃ t err,
      fsWriteFile alloc s s.editPath (some data) s.editLen = (t, .error err) ∧
        editText t = editText s) := by
  unfold fsWriteFile CanSave
  dsimp only
  rw [if_neg hlen]
  cases hr : fsResolveParent s s.editPath with
  | error err => exact Or.inr ⟨not_false, _, _, rfl, rfl⟩
  | ok r =>
    obtain ⟨parent, name⟩ := r
    dsimp only
    cases hf : fsFindChild s parent name with
    | some id =>
      dsimp only
      by_cases hfile : (s.nodes id).type = .file
      · rw [if_neg (not_not.mpr hfile)]
        by_cases hfits : Fits alloc s id s.editLen false
        · exact Or.inl ⟨⟨hfile, hfits⟩, fsSetFileData_ok hfits data⟩
        · exact Or.inr ⟨fun hs => hfits hs.2, editText_fsSetFileData hfits data⟩
      · rw [if_pos hfile]
        exact Or.inr ⟨fun hs => hfile hs.1, _, _, rfl, rfl⟩
    | none =>
      dsimp only
      rcases fsCreateEntry_cases s parent name .file with ⟨err, he⟩ | ⟨id, hvalid, htxt, -, hid, he⟩
      · rw [he]
        refine Or.inr ⟨?_, _, _, rfl, rfl⟩
        rintro ⟨hvalid, htxt, hfree, -⟩
        obtain ⟨id, hid⟩ := Option.ne_none_iff_exists'.mp hfree
        rw [fsCreateEntry_of_ok hvalid (fun _ => htxt) hf hid] at he
        cases congrArg Prod.snd he
      · rw [he]
        dsimp only
        by_cases hfits : Fits alloc (withEntry s id parent name .file) id s.editLen false
        · have halloc := (fits_withEntry.mp hfits).2.resolve_left hlen
          exact Or.inl ⟨⟨hvalid, htxt rfl, by simp [hid], halloc⟩, fsSetFileData_ok hfits data⟩
        · refine Or.inr ⟨fun hs => hfits ?_, editText_fsSetFileData hfits data⟩
          exact fits_withEntry.mpr ⟨hmax, Or.inr hs.2.2.2⟩

end Saving

/-! ### Editing a line -/

/-- The argument of `:e` is rejected, only loads a line, or puts back what was there. -/
def EditKeeps (alloc : Allocator) (s : Okfs) (arg : Bytes) : Prop :=
  match parseNumber 0 arg with
  | (_, []) => True
  | (ln, c :: text) =>
    0 ≤ Int.bmod (ln - 1) (2 ^ 32) → Int.bmod (ln - 1) (2 ^ 32) < totalLines (editText s) →
      c = space → Replaces alloc s (Int.bmod (ln - 1) (2 ^ 32)) text

theorem parseNumber_suffix (ln : ℤ) (p : Bytes) : (parseNumber ln p).2 <:+ p := by
  induction p generalizing ln with
  | nil => exact List.suffix_refl _
  | cons c p ih =>
    rw [parseNumber]
    split_ifs
    · exact (ih _).trans (List.suffix_cons c p)
    · exact List.suffix_refl _

theorem OwnershipInv.editText_editCommand_eq_iff (h : OwnershipInv s .empty) (alloc : Allocator)
    (hlen : s.editLen ≠ 0) {arg : Bytes} (harg : newline ∉ arg) :
    editText (FileSystem.editCommand alloc s arg).1 = editText s ↔ EditKeeps alloc s arg := by
  have hsuffix := parseNumber_suffix 0 arg
  unfold FileSystem.editCommand EditKeeps
  cases hp : parseNumber 0 arg with
  | mk ln p =>
    rw [hp] at hsuffix
    dsimp only at hsuffix ⊢
    rw [if_neg hlen]
    cases p with
    | nil =>
      refine iff_of_true ?_ trivial
      split_ifs
      · rfl
      · rfl
      · dsimp only
        cases editFetchLine s ln fsMaxPath <;> rfl
    | cons c text =>
      dsimp only
      generalize Int.bmod (ln - 1) (2 ^ 32) = idx
      have htext : newline ∉ text := fun hmem =>
        harg (hsuffix.subset (List.mem_cons_of_mem _ hmem))
      by_cases hneg : idx < 0
      · rw [if_pos hneg]
        exact iff_of_true rfl fun hpos => absurd hneg (not_lt.mpr hpos)
      rw [if_neg hneg]
      by_cases hrange : (totalLines (editText s) : ℤ) ≤ idx
      · rw [if_pos hrange]
        exact iff_of_true rfl fun _ hlt => absurd hrange (not_le.mpr hlt)
      rw [if_neg hrange]
      by_cases hc : c = space
      · rw [if_neg (not_not.mpr hc), h.editText_replaceLine_eq_iff alloc idx htext]
        exact ⟨fun hr _ _ _ => hr, fun hr => hr (not_lt.mp hneg) (not_le.mp hrange) hc⟩
      · rw [if_pos hc]
        exact iff_of_true rfl fun _ _ he => absurd he hc

/-! ### All commands -/

/-- The line is handled without a change to the text in the buffer. -/
def CommandKeeps (alloc : Allocator) (s : Okfs) (line : Bytes) : Prop :=
  if line = ascii ":save" ∨ line = ascii ":w" then ¬ CanSave alloc s
  else if line = ascii ":q" ∨ line = ascii ":quit" then False
  else if line = ascii ":p" then True
  else if line.take 3 = ascii ":e " then EditKeeps alloc s (line.drop 3)
  else
    fsMaxFileSize < s.editLen + line.length ∨
      roomFor alloc s.heap.calls s.editCap (s.editLen + line.length) = false

theorem commandKeeps_pending (pending : Bytes) (valid : Bool) (target : ℤ) :
    CommandKeeps alloc { s with
      editPendingLine := pending, editPendingLineValid := valid, editTargetLine := target } line ↔
      CommandKeeps alloc s line := by
  have hresolve : fsResolveParent { s with
      editPendingLine := pending, editPendingLineValid := valid, editTargetLine := target }
      s.editPath = fsResolveParent s s.editPath := by
    apply fsResolveParent_congr
    · rfl
    · rfl
  unfold CommandKeeps CanSave
  dsimp only
  rw [hresolve]
  exact Iff.rfl

theorem editText_closeSession (s : Okfs) : editText (closeSession s) = [] := rfl

namespace OwnershipInv

variable {old : Holding}

/-- Everything that a line which is no command does: it is appended with its newline, without its
newline, or not at all. -/
theorem handleCommand_append (h : OwnershipInv s old) (alloc : Allocator)
    (hclosing : line ∉ closing) (hprint : line ≠ ascii ":p") (hedit : line.take 3 ≠ ascii ":e ") :
    (hasRoom alloc s.heap.calls s.editCap s.editLen [line, [newline]] = true ∧
      ∃ t, FileSystem.handleCommand alloc s line = (t, .ok (), []) ∧
        editText t = editText s ++ line ++ [newline]) ∨
    (hasRoom alloc s.heap.calls s.editCap s.editLen [line, [newline]] = false ∧
      hasRoom alloc s.heap.calls s.editCap s.editLen [line] = true ∧
      ∃ t err out, FileSystem.handleCommand alloc s line = (t, .error err, out) ∧
        editText t = editText s ++ line) ∨
    (hasRoom alloc s.heap.calls s.editCap s.editLen [line, [newline]] = false ∧
      hasRoom alloc s.heap.calls s.editCap s.editLen [line] = false ∧
      ∃ t err out, FileSystem.handleCommand alloc s line = (t, .error err, out) ∧
        editText t = editText s) := by
  rw [mem_closing, not_or] at hclosing
  have hinv := h.editBufAppend alloc line
  unfold FileSystem.handleCommand
  rw [if_neg hclosing.1, if_neg hclosing.2, if_neg hprint, if_neg hedit]
  rcases h.editBufAppend_cases alloc line with ⟨hlt, he⟩ | ⟨hmax, hroom, t, he, happ⟩ |
    ⟨-, hroom, he⟩
  · have hnone : ∀ pieces, hasRoom alloc s.heap.calls s.editCap s.editLen (line :: pieces) =
        false := by
      intro pieces
      simp [hasRoom, hlt]
    rw [he]
    exact Or.inr (Or.inr ⟨hnone _, hnone _, _, _, _, rfl, rfl⟩)
  · -- the newline is appended to what the line gave
    have hone : hasRoom alloc s.heap.calls s.editCap s.editLen [line] = true :=
      hasRoom_cons.mpr ⟨hmax, hroom, rfl⟩
    have htwo : hasRoom alloc s.heap.calls s.editCap s.editLen [line, [newline]] =
        hasRoom alloc t.heap.calls t.editCap t.editLen [[newline]] := by
      rw [happ.calls, happ.cap, happ.len]
      simp [hasRoom, hmax, hroom]
    rw [he] at hinv ⊢
    dsimp only at hinv ⊢
    rw [htwo]
    rcases hinv.editBufAppend_cases alloc [newline] with ⟨hlt, he'⟩ |
      ⟨hmax', hroom', u, he', happ'⟩ | ⟨-, hroom', he'⟩
    · rw [he']
      refine Or.inr (Or.inl ⟨?_, hone, _, _, _, rfl, happ.bytes⟩)
      simp only [hasRoom, Bool.and_eq_false_iff, decide_eq_false_iff_not]
      exact Or.inl (Or.inl (not_le.mpr hlt))
    · rw [he']
      refine Or.inl ⟨hasRoom_cons.mpr ⟨hmax', hroom', rfl⟩, u, rfl, ?_⟩
      rw [happ'.bytes, happ.bytes]
    · rw [he']
      refine Or.inr (Or.inl ⟨?_, hone, _, _, _, rfl, happ.bytes⟩)
      simp only [hasRoom, hroom', Bool.and_false, Bool.false_and]
  · have hnone : ∀ pieces, hasRoom alloc s.heap.calls s.editCap s.editLen (line :: pieces) =
        false := by
      intro pieces
      simp [hasRoom, hroom]
    rw [he]
    exact Or.inr (Or.inr ⟨hnone _, hnone _, _, _, _, rfl, rfl⟩)

/-- A line that is no command is added at the end, if there is room. -/
theorem editText_handleCommand_of_text (h : OwnershipInv s old) (alloc : Allocator)
    (hne : line ≠ []) (hclosing : line ∉ closing) (hprint : line ≠ ascii ":p")
    (hedit : line.take 3 ≠ ascii ":e ") :
    editText (FileSystem.handleCommand alloc s line).1 = editText s ↔
      fsMaxFileSize < s.editLen + line.length ∨
        roomFor alloc s.heap.calls s.editCap (s.editLen + line.length) = false := by
  have hone : (fsMaxFileSize < s.editLen + line.length ∨
      roomFor alloc s.heap.calls s.editCap (s.editLen + line.length) = false) ↔
        hasRoom alloc s.heap.calls s.editCap s.editLen [line] = false := by
    rw [← not_le]
    simp [hasRoom, imp_iff_not_or]
  rw [hone]
  rcases h.handleCommand_append alloc hclosing hprint hedit with ⟨htwo, t, he, htext⟩ |
    ⟨-, hroom, t, err, out, he, htext⟩ | ⟨-, hroom, t, err, out, he, htext⟩
  · obtain ⟨hmax, hroom, -⟩ := hasRoom_cons.mp htwo
    rw [he, htext, hasRoom_cons.mpr ⟨hmax, hroom, rfl⟩, List.append_assoc]
    simp
  · rw [he, htext, hroom]
    simpa using hne
  · rw [he, htext, hroom]
    exact iff_of_true rfl rfl

/-- A line leaves the text exactly when it is a command of this kind. -/
theorem editText_handleCommand_eq_iff (h : OwnershipInv s .empty) (alloc : Allocator)
    (htext : editText s ≠ []) (hne : line ≠ []) (hline : newline ∉ line) :
    editText (FileSystem.handleCommand alloc s line).1 = editText s ↔
      CommandKeeps alloc s line := by
  have hlen : s.editLen ≠ 0 := h.editLen_ne_zero htext
  unfold CommandKeeps
  by_cases hsave : line = ascii ":save" ∨ line = ascii ":w"
  · obtain ⟨p, hp, -⟩ := h.edit_some hlen
    unfold FileSystem.handleCommand
    rw [if_pos hsave, if_pos hsave, hp, Option.map_some]
    rcases fsWriteFile_editPath alloc (s.heap.read (some p)) hlen
      (h.editLen_le_editCap.trans h.editCap_le) with ⟨hsaves, t, he⟩ | ⟨hsaves, t, err, he, hkept⟩
    · rw [he]
      refine iff_of_false (fun hsame => htext ?_) (not_not.mpr hsaves)
      rw [← hsame]
      exact editText_closeSession t
    · rw [he]
      exact iff_of_true hkept hsaves
  rw [if_neg hsave]
  by_cases hquit : line = ascii ":q" ∨ line = ascii ":quit"
  · rw [if_pos hquit, handleCommand_of_quit hquit, editText_closeSession]
    exact iff_of_false (fun hsame => htext hsame.symm) not_false
  rw [if_neg hquit]
  have hclosing : line ∉ closing := fun hmem => (mem_closing.mp hmem).elim hsave hquit
  by_cases hprint : line = ascii ":p"
  · rw [if_pos hprint]
    refine iff_of_true ?_ trivial
    unfold FileSystem.handleCommand
    rw [if_neg hsave, if_neg hquit, if_pos hprint, if_neg hlen]
  rw [if_neg hprint]
  by_cases hedit : line.take 3 = ascii ":e "
  · rw [if_pos hedit]
    unfold FileSystem.handleCommand
    rw [if_neg hsave, if_neg hquit, if_neg hprint, if_pos hedit]
    exact h.editText_editCommand_eq_iff alloc hlen fun hmem => hline (List.mem_of_mem_drop hmem)
  · rw [if_neg hedit]
    exact h.editText_handleCommand_of_text alloc hne hclosing hprint hedit

end OwnershipInv

end OpenKernel.FileSystem
