import OpenKernel.FileSystem.Ownership
import OpenKernel.Lib.SplitLines

/-!
# Printing a file

`fs_cat` and `fs_edit_display_content` collect bytes in a line buffer, which they
pass to `emit` at every newline and when it is full. What they emit is the lines of
the text, cut to the width of the buffer, so that the text can be put together again.
-/

namespace OpenKernel.FileSystem

open Lines

/-- What `emit` reads of a buffer. -/
def cString (buf : Bytes) : Bytes := buf.takeWhile (· ≠ 0)

/-- The loop of `fs_cat` with the line buffer `line`. -/
def catLoop : Bytes → Bytes → List Bytes
  | line, [] => if 0 < line.length then [cString line] else []
  | line, c :: data =>
    if c = newline ∨ 127 ≤ line.length then
      cString line :: if c = newline then catLoop [] data else catLoop [c] data
    else catLoop (line ++ [c]) data

def fsCat (s : Okfs) (path : Bytes) : Except FsError Unit × List Bytes :=
  match fsResolve s s.cwd path false with
  | .error err => (.error err, [])
  | .ok id =>
    if (s.nodes id).type ≠ .file then (.error .notFile, [])
    else if !fsEndsWithTxt (s.nodes id).name then (.error .notTxt, [])
    else if (s.nodes id).size = 0 then (.ok (), [ascii "(empty file)"])
    else (.ok (), catLoop [] (fileBytes s id))

/-- The loop of `fs_edit_display_content`. -/
def displayLoop : Bytes → Bytes → List Bytes
  | line, [] => if 0 < line.length then [cString line] else []
  | line, c :: text =>
    if c = newline then cString line :: displayLoop [] text
    else if 80 ≤ line.length then cString line :: displayLoop [c] text
    else displayLoop (line ++ [c]) text

def fsEditDisplayContent (s : Okfs) : List Bytes :=
  if !s.editActive then []
  else if s.editLen = 0 then [ascii "(empty file)"]
  else ascii "--- file ---" :: displayLoop [] (editText s)

/-- The lines of a text, each cut into parts of at most `n` bytes. -/
def wrapped (n : ℕ) (text : Bytes) : List Bytes := (lines newline text).flatMap (chunks n)

section Loops

variable {s : Okfs} {buf text : Bytes}

theorem cString_of_not_mem (h : ∀ x ∈ buf, x ≠ 0) : cString buf = buf :=
  takeWhile_of_not_mem fun hmem => h 0 hmem rfl

theorem wraps_catLoop : Wraps newline 127 (· ≠ 0) catLoop := by
  refine ⟨fun buf h => ?_, fun buf rest h => ?_, fun buf c rest h hc hfull => ?_,
    fun buf c rest h hc hroom => ?_⟩
  · rw [catLoop, cString_of_not_mem h]
    cases buf <;> simp
  · rw [catLoop, cString_of_not_mem h, if_pos (Or.inl rfl), if_pos rfl]
  · rw [catLoop, cString_of_not_mem h, if_pos (Or.inr hfull), if_neg hc]
  · rw [catLoop, if_neg (not_or.mpr ⟨hc, not_le.mpr hroom⟩)]

theorem wraps_displayLoop : Wraps newline 80 (· ≠ 0) displayLoop := by
  refine ⟨fun buf h => ?_, fun buf rest h => ?_, fun buf c rest h hc hfull => ?_,
    fun buf c rest h hc hroom => ?_⟩
  · rw [displayLoop, cString_of_not_mem h]
    cases buf <;> simp
  · rw [displayLoop, cString_of_not_mem h, if_pos rfl]
  · rw [displayLoop, cString_of_not_mem h, if_neg hc, if_pos hfull]
  · rw [displayLoop, if_neg hc, if_neg (by omega)]

theorem loop_eq_wrapped {n : ℕ} {loop : Bytes → Bytes → List Bytes}
    (h : Wraps newline n (· ≠ 0) loop) (hn : 0 < n) (hnul : 0 ∉ text) :
    loop [] text = wrapped n text := by
  refine h.eq hn (by simp) (by simp) fun x hx => ?_
  rintro rfl
  exact hnul hx

end Loops

/-- In every reachable state, for every file and every session whose text is not empty and holds no
NUL: what is printed is the lines of the text, cut to the width of the line buffer; no part is
longer than that, and the parts of each line, with newlines between the lines, make up the text. -/
theorem printing_complete {alloc : Allocator} {calls : List Call} {s : Okfs}
    (hrun : Run (step alloc) anyCall (fsInit alloc boot) calls s) :
    (∀ path id, fsResolve s s.cwd path false = .ok id → (s.nodes id).type = .file →
      fileBytes s id ≠ [] → 0 ∉ fileBytes s id →
      fsCat s path = (.ok (), wrapped 127 (fileBytes s id))) ∧
    (s.editActive = true → editText s ≠ [] → 0 ∉ editText s →
      fsEditDisplayContent s = ascii "--- file ---" :: wrapped 80 (editText s)) ∧
    ∀ n text, 0 < n → (∀ part ∈ wrapped n text, part.length ≤ n) ∧
      [newline].intercalate ((lines newline text).map fun line => (chunks n line).flatten) ++
        (if text.getLast? = some newline then [newline] else []) = text := by
  obtain ⟨htree, howned⟩ := invariants_of_run hrun
  refine ⟨fun path id hr hfile hne hnul => ?_, fun hactive hne hnul => ?_,
    fun n text hn => ⟨?_, ?_⟩⟩
  · have hused := (htree.fsResolve htree.cwd_used hr).1
    have hid : id ≠ 0 := by
      rintro rfl
      rw [show (s.nodes 0).type = .dir from htree.root_dir] at hfile
      cases hfile
    have htext : fsEndsWithTxt (s.nodes id).name = true := htree.text id hid hused hfile
    have hsize : (s.nodes id).size ≠ 0 := by
      rw [← howned.storageInv.length_fileBytes hused]
      exact fun hzero => hne (List.length_eq_zero_iff.mp hzero)
    rw [fsCat, hr]
    simp only [hfile, htext, hsize, ne_eq, not_true_eq_false, if_false, Bool.not_true,
      Bool.false_eq_true, loop_eq_wrapped wraps_catLoop (by decide) hnul]
  · rw [fsEditDisplayContent, if_neg (by simp [hactive]), if_neg (howned.editLen_ne_zero hne),
      loop_eq_wrapped wraps_displayLoop (by decide) hnul]
  · intro part hpart
    obtain ⟨line, -, hline⟩ := List.mem_flatMap.mp hpart
    exact length_of_mem_chunks hn line part hline
  · simp only [flatten_chunks, List.map_id']
    exact intercalate_lines text

/-- The file that is there at the start, printed and in the editor. -/
theorem printing_complete_readme : ∃ s,
    Run (step clearedAlloc) anyCall (fsInit clearedAlloc boot)
      [.editBegin (ascii "/readme.txt")] s ∧
    fsCat s (ascii "readme.txt") = (.ok (), wrapped 127 readmeText) ∧
    fsEditDisplayContent s = ascii "--- file ---" :: wrapped 80 readmeText := by
  obtain ⟨s, hrun, hactive, htext, hr, hfile, hbytes⟩ := readme_opened
  obtain ⟨hcat, hdisplay, -⟩ := printing_complete hrun
  have hprinted := hcat (ascii "readme.txt") 2 hr hfile
  rw [hbytes] at hprinted
  rw [htext] at hdisplay
  have hnul : 0 ∉ readmeText := by decide
  exact ⟨s, hrun, hprinted (by decide) hnul, hdisplay hactive (by decide) hnul⟩

end OpenKernel.FileSystem
