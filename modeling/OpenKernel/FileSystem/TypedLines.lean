import OpenKernel.FileSystem.EditSession

/-!
# Typing lines into a session

A line that is no command is appended to the text, and its newline after it; the command
`:e <n> <text>` builds the whole text again. Both are several appends, and each of these can
fail. The first append of a line fails without a trace, but its newline may not
fit when the line did, and the loop of `:e` goes on after a failure.
The newline goes behind a line only, so that a text without one at its end is continued.
-/

namespace OpenKernel.FileSystem

inductive Edit
  | append (line : Bytes)
  | replace (n : ℕ) (text : Bytes)
  deriving DecidableEq

/-- The change to the text that a line asks for: a line for the target line replaces it. -/
def requested (s : Okfs) (line : Bytes) : Option Edit :=
  if 0 < s.editTargetLine ∧ line.head? ≠ some colon then
    some (.replace s.editTargetLine.toNat line)
  else if line ∈ closing ∨ line = ascii ":p" then none
  else if line.take 3 = ascii ":e " then
    match parseNumber 0 (line.drop 3) with
    | (_, []) => none
    | (ln, c :: text) =>
      if c = space ∧ editText s ≠ [] ∧ 1 ≤ ln ∧ ln ≤ totalLines (editText s) then
        some (.replace ln.toNat text)
      else none
  else some (.append line)

/-- The result does not exceed the size of a file, and no allocation on the way to it fails. -/
def Edit.completes (alloc : Allocator) (s : Okfs) : Edit → Bool
  | .append line => hasRoom alloc s.heap.calls s.editCap s.editLen [line, [newline]]
  | .replace n text => hasRoom alloc s.heap.calls 0 0
      (Lines.pieces newline text ((editText s).length + 1) (n - 1 : ℕ) (editText s))

/-! ### Failures -/

section Failures

variable {alloc : Allocator} {s : Okfs} {line text : Bytes} {n : ℕ} {edit : Edit}

theorem requested_append (hr : requested s line = some (.append text)) :
    text = line ∧ asCommand s line = line ∧ line ∉ closing ∧ line ≠ ascii ":p" ∧
      line.take 3 ≠ ascii ":e " := by
  unfold requested at hr
  by_cases htarget : 0 < s.editTargetLine ∧ line.head? ≠ some colon
  · rw [if_pos htarget] at hr
    cases hr
  rw [if_neg htarget] at hr
  by_cases hnone : line ∈ closing ∨ line = ascii ":p"
  · rw [if_pos hnone] at hr
    cases hr
  rw [if_neg hnone] at hr
  rw [not_or] at hnone
  by_cases hedit : line.take 3 = ascii ":e "
  · rw [if_pos hedit] at hr
    split at hr
    · cases hr
    · split_ifs at hr
      cases hr
  · rw [if_neg hedit] at hr
    cases hr
    exact ⟨rfl, if_neg htarget, hnone.1, hnone.2, hedit⟩

/-- A replacement is never refused. -/
theorem EditorInv.handle_replace (h : EditorInv s) (hinv : OwnershipInv s .empty)
    (hactive : s.editActive = true) (hr : requested s line = some (.replace n text)) :
    (FileSystem.fsEditHandleLine alloc s line).2.1 = .ok () := by
  unfold requested at hr
  by_cases htarget : 0 < s.editTargetLine ∧ line.head? ≠ some colon
  · obtain ⟨n, hline, hn⟩ := h.target htarget.1.ne'
    rw [hline.handle_target hn htarget.2]
  rw [if_neg htarget] at hr
  by_cases hnone : line ∈ closing ∨ line = ascii ":p"
  · rw [if_pos hnone] at hr
    cases hr
  rw [if_neg hnone] at hr
  by_cases hedit : line.take 3 = ascii ":e "
  · rw [if_pos hedit] at hr
    split at hr
    · cases hr
    · next ln c rest hparse =>
      split_ifs at hr with hvalid
      obtain ⟨rfl, htext, hlow, hhigh⟩ := hvalid
      have hline : HasLine { s with editTargetLine := 0 } ln.toNat :=
        ⟨hinv.congr rfl rfl rfl, hactive, htext, by omega, by
          change ln.toNat ≤ totalLines (editText s)
          omega⟩
      have hparse' : parseNumber 0 (line.drop 3) = ((ln.toNat : ℤ), space :: rest) := by
        rw [hparse, Int.toNat_of_nonneg (by omega)]
      have hcommand : asCommand s line = ascii ":e " ++ line.drop 3 := by
        rw [← hedit, List.take_append_drop]
        exact if_neg htarget
      rw [h.fsEditHandleLine_eq hactive, hcommand, HasLine.handleCommand_edit,
        hline.editCommand_of_text hparse']
  · rw [if_neg hedit] at hr
    cases hr

end Failures

/-- In every session and for every line: a change that lacks room is refused and leaves the text
exactly if the change is to append a line and fails at the line itself. When only the newline
lacks room the line stays behind, and a replacement that lacks room is reported as done. -/
theorem failed_edit_keeps_text_iff {alloc : Allocator} {calls : List Call} {s : Okfs}
    (hrun : Run (step alloc) anyCall (fsInit alloc boot) calls s) (hactive : s.editActive = true)
    (line : Bytes) :
    (∀ edit, requested s line = some edit → edit.completes alloc s = false →
      (∃ err, (fsEditHandleLine alloc s line).2.1 = .error err) ∧
        editText (fsEditHandleLine alloc s line).1 = editText s) ↔
    ∀ edit, requested s line = some edit → edit.completes alloc s = false →
      ∃ text, edit = .append text ∧
        (text = [] ∨ hasRoom alloc s.heap.calls s.editCap s.editLen [text] = false) := by
  have hinv : OwnershipInv s .empty := (invariants_of_run hrun).2
  have h : EditorInv s := editorInv_of_run hrun
  refine forall_congr' fun edit => forall_congr' fun hr => forall_congr' fun hfails => ?_
  cases edit with
  | replace n text =>
    rw [h.handle_replace hinv hactive hr]
    refine iff_of_false ?_ ?_
    · rintro ⟨⟨err, he⟩, -⟩
      cases he
    · rintro ⟨text, he, -⟩
      cases he
  | append text =>
    obtain ⟨rfl, hcommand, hclosing, hprint, hedit⟩ := requested_append hr
    have hcleared : OwnershipInv { s with editTargetLine := 0 } .empty := hinv.congr rfl rfl rfl
    rw [h.fsEditHandleLine_eq hactive, hcommand]
    rcases hcleared.handleCommand_append alloc hclosing hprint hedit with ⟨hroom, -⟩ |
      ⟨-, hroom, t, err, out, he, htext⟩ | ⟨-, hroom, t, err, out, he, htext⟩
    · cases hfails.symm.trans hroom
    · rw [he]
      have hsame : editText t = editText s ↔ text = [] := by
        rw [htext]
        exact List.append_right_eq_self
      constructor
      · rintro ⟨-, hkept⟩
        exact ⟨text, rfl, Or.inl (hsame.mp hkept)⟩
      · rintro ⟨text, hedit, hnil | hnone⟩
        · cases hedit
          exact ⟨⟨err, rfl⟩, hsame.mpr hnil⟩
        · cases hedit
          cases hnone.symm.trans hroom
    · rw [he]
      exact iff_of_true ⟨⟨err, rfl⟩, htext⟩ ⟨text, rfl, Or.inr hroom⟩

/-- The first line of a new file needs a buffer, which `kmalloc` refuses. -/
theorem failed_edit_keeps_text_new_file :
    ∃ s, Run (step fourthFails) anyCall (fsInit fourthFails boot)
        [.op (.writeFile (ascii "/a.txt") (some (ascii "x")) 1), .op (.touch (ascii "/b.txt")),
          .editBegin (ascii "/b.txt")] s ∧
      requested s (ascii "y") = some (.append (ascii "y")) ∧
      (Edit.append (ascii "y")).completes fourthFails s = false ∧
      editText (fsEditHandleLine fourthFails s (ascii "y")).1 = editText s := by
  obtain ⟨s, hs, hactive, hr, hfails, hnone⟩ :
      ∃ s, [.op (.writeFile (ascii "/a.txt") (some (ascii "x")) 1), .op (.touch (ascii "/b.txt")),
          .editBegin (ascii "/b.txt")].foldlM (step fourthFails)
        (fsInit fourthFails boot) = some s ∧ s.editActive = true ∧
        requested s (ascii "y") = some (.append (ascii "y")) ∧
        (Edit.append (ascii "y")).completes fourthFails s = false ∧
        hasRoom fourthFails s.heap.calls s.editCap s.editLen [ascii "y"] = false := by
    rw [fsInit_fourthFails]
    exact ⟨_, rfl, rfl, by decide, by decide, by decide⟩
  have hrun : Run (step fourthFails) anyCall (fsInit fourthFails boot)
      [.op (.writeFile (ascii "/a.txt") (some (ascii "x")) 1), .op (.touch (ascii "/b.txt")),
        .editBegin (ascii "/b.txt")] s := Run.of_foldlM hs
  have hkeeps := (failed_edit_keeps_text_iff hrun hactive (ascii "y")).mpr
  refine ⟨s, hrun, hr, hfails, (hkeeps ?_ _ hr hfails).2⟩
  intro edit hedit _
  cases hr.symm.trans hedit
  exact ⟨_, rfl, Or.inr hnone⟩

/-- The first line is lost when its buffer is refused, and the replacement is reported as done. -/
theorem failed_replacement_loses_line :
    ∃ s, Run (step fourthFails) anyCall (fsInit fourthFails boot)
        [.editBegin (ascii "/readme.txt")] s ∧
      s.editActive = true ∧ editText s = readmeText ∧
      requested s (ascii ":e 2 b") = some (.replace 2 (ascii "b")) ∧
      (Edit.replace 2 (ascii "b")).completes fourthFails s = false ∧
      (fsEditHandleLine fourthFails s (ascii ":e 2 b")).2 = (.ok (), [ascii "Line updated."]) ∧
      editText (fsEditHandleLine fourthFails s (ascii ":e 2 b")).1 =
        ascii "\nb\nTry: cat readme.txt\n" := by
  rw [fsInit_fourthFails]
  exact ⟨_, Run.of_foldlM rfl, rfl, by decide, by decide, by decide, rfl, by decide⟩

/-! ### A line of its own -/

/-- In every session without a target line, and unless `kmalloc` fails: a line that is no command,
has no newline and fits with one becomes the last line exactly if the text is empty or ends in a
newline. Otherwise it continues the last line. -/
theorem typed_line_added_iff {alloc : Allocator} {calls : List Call} {s : Okfs} {line : Bytes}
    (hrun : Run (step alloc) anyCall (fsInit alloc boot) calls s) (hactive : s.editActive = true)
    (htarget : s.editTargetLine = 0) (hcolon : line.head? ≠ some colon) (hline : newline ∉ line)
    (hfits : (editText s).length + line.length + 1 ≤ fsMaxFileSize)
    (halloc : ∀ k ≥ s.heap.calls, ∀ size, alloc k size ≠ none) :
    Lines.lines newline (editText (fsEditHandleLine alloc s line).1) =
        Lines.lines newline (editText s) ++ [line] ↔
      editText s = [] ∨ (editText s).getLast? = some newline := by
  have hinv : OwnershipInv s .empty := (invariants_of_run hrun).2
  have hcleared : OwnershipInv { s with editTargetLine := 0 } .empty := hinv.congr rfl rfl rfl
  have hcommand : asCommand s line = line := by
    unfold asCommand
    rw [if_neg (by omega)]
  have hclosing : line ∉ closing := by
    intro hmem
    have hall : ∀ l ∈ closing, l.head? = some colon := by decide
    exact hcolon (hall line hmem)
  have hprint : line ≠ ascii ":p" := by
    rintro rfl
    exact hcolon rfl
  have hedit : line.take 3 ≠ ascii ":e " := by
    intro he
    have hhead := congrArg List.head? he
    rw [List.head?_take] at hhead
    exact hcolon hhead
  have hroom : hasRoom alloc s.heap.calls s.editCap s.editLen [line, [newline]] = true := by
    apply hasRoom_of_alloc halloc
    rw [hinv.length_editText] at hfits
    simpa [add_assoc] using hfits
  rw [(editorInv_of_run hrun).fsEditHandleLine_eq hactive, hcommand]
  rcases hcleared.handleCommand_append alloc hclosing hprint hedit with ⟨-, t, he, htext⟩ |
    ⟨hnone, -⟩ | ⟨hnone, -⟩
  · rw [he, htext]
    exact Lines.lines_append_line_iff hline
  · cases hnone.symm.trans hroom
  · cases hnone.symm.trans hroom

/-- A line behind the file that `fs_init` writes. -/
theorem typed_line_added_readme :
    ∃ s, Run (step clearedAlloc) anyCall (fsInit clearedAlloc boot)
        [.editBegin (ascii "/readme.txt")] s ∧
      Lines.lines newline (editText (fsEditHandleLine clearedAlloc s (ascii "b")).1) =
        Lines.lines newline (editText s) ++ [ascii "b"] := by
  obtain ⟨s, hs, hactive, htarget, htext⟩ :
      ∃ s, [.editBegin (ascii "/readme.txt")].foldlM (step clearedAlloc)
        (fsInit clearedAlloc boot) = some s ∧ s.editActive = true ∧ s.editTargetLine = 0 ∧
        editText s = readmeText := by
    rw [fsInit_cleared]
    exact ⟨_, rfl, rfl, rfl, by decide⟩
  have hrun : Run (step clearedAlloc) anyCall (fsInit clearedAlloc boot)
      [.editBegin (ascii "/readme.txt")] s := Run.of_foldlM hs
  have hfits : (editText s).length + (ascii "b").length + 1 ≤ fsMaxFileSize := by
    rw [htext]
    decide
  have hlast : (editText s).getLast? = some newline := by
    rw [htext]
    decide
  have hadded := typed_line_added_iff hrun hactive htarget
    (show (ascii "b").head? ≠ some colon by decide) (by decide) hfits
    fun _ _ _ => Option.some_ne_none _
  exact ⟨s, hrun, hadded.mpr (Or.inr hlast)⟩

/-- The session of the manual: the second line is typed behind a file that `write` has made. -/
theorem typed_line_continues_last :
    ∃ s, Run (step clearedAlloc) anyCall (fsInit clearedAlloc boot)
        [.op (.writeFile (ascii "notes.txt") (some (ascii "First line")) 10),
          .editBegin (ascii "notes.txt")] s ∧
      s.editActive = true ∧ s.editTargetLine = 0 ∧
      Lines.lines newline (editText s) = [ascii "First line"] ∧
      Lines.lines newline (editText (fsEditHandleLine clearedAlloc s (ascii "Second line")).1) =
        [ascii "First lineSecond line"] := by
  rw [fsInit_cleared]
  exact ⟨_, Run.of_foldlM rfl, rfl, rfl, by decide, by decide⟩

end OpenKernel.FileSystem
