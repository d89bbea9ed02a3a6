import OpenKernel.FileSystem.LineEditing
import OpenKernel.Lib.SplitLines

/-!
# Replacing a line

The command `:e <n> <text>` builds the edit buffer again, line by line, with `text`
in the place of line `n`. The line it leaves out is the one that its count of the
newlines lets pass, and nothing else of the text changes.
-/

namespace OpenKernel.FileSystem

/-- The text with other bytes between the newlines around line `n`. -/
def withLine (old : Bytes) (n : ℕ) (text : Bytes) : Bytes :=
  [newline].intercalate ((old.splitOn newline).set (n - 1) text)

section Replace

variable {alloc : Allocator} {s : Okfs} {n : ℕ} {text : Bytes}

theorem totalLines_eq (htext : editText s ≠ []) :
    totalLines (editText s) = (Lines.lines newline (editText s)).length :=
  (Lines.length_lines htext).symm

theorem HasLine.editText_replaceLine (h : HasLine s n)
    (hfit : (withLine (editText s) n text).length ≤ fsMaxFileSize)
    (halloc : ∀ k ≥ s.heap.calls, ∀ size, alloc k size ≠ none) :
    editText (replaceLine alloc s (n - 1 : ℕ) text) = withLine (editText s) n text := by
  have hflatten : (Lines.pieces newline text ((editText s).length + 1) ((n - 1 : ℕ) : ℤ)
      (editText s)).flatten = withLine (editText s) n text :=
    Lines.flatten_pieces (Nat.lt_succ_self _) h.drop_ne_nil
  rw [h.inv.editText_replaceLine_granted, granted_eq_self halloc, hflatten]
  rw [hflatten, Nat.zero_add]
  exact hfit

end Replace

/-- In every session with text and for every line of it: unless `kmalloc` fails, and if the result
fits into a file, `:e <n> <text>` replaces the bytes of line `n` by `text` and keeps all other lines
and every newline. -/
theorem line_replaced {alloc : Allocator} {calls : List Call} {s : Okfs} {n : ℕ} {text : Bytes}
    (hrun : Run (step alloc) anyCall (fsInit alloc boot) calls s) (hactive : s.editActive = true)
    (htext : editText s ≠ []) (hpos : 1 ≤ n)
    (hle : n ≤ (Lines.lines newline (editText s)).length)
    (hfit : (withLine (editText s) n text).length ≤ fsMaxFileSize)
    (halloc : ∀ k ≥ s.heap.calls, ∀ size, alloc k size ≠ none) :
    (fsEditHandleLine alloc s (ascii ":e " ++ decimal 10 n ++ space :: text)).2.1 = .ok () ∧
      editText (fsEditHandleLine alloc s (ascii ":e " ++ decimal 10 n ++ space :: text)).1 =
        withLine (editText s) n text := by
  rw [← totalLines_eq htext] at hle
  rw [List.append_assoc]
  obtain ⟨target, hhandle⟩ := HasLine.fsEditHandleLine_of_colon alloc hactive
    (show (ascii ":e " ++ (decimal 10 n ++ space :: text)).head? = some colon from rfl)
  have h : HasLine { s with editTargetLine := target } n :=
    ⟨(invariants_of_run hrun).2.congr rfl rfl rfl, hactive, htext, hpos, hle⟩
  rw [hhandle, HasLine.handleCommand_edit, h.editCommand_replace]
  exact ⟨rfl, h.editText_replaceLine hfit halloc⟩

/-- The second line of the file that `fs_init` writes. -/
theorem line_replaced_readme :
    ∃ s, Run (step clearedAlloc) anyCall (fsInit clearedAlloc boot)
        [.editBegin (ascii "/readme.txt")] s ∧
      editText s = readmeText ∧
      editText (fsEditHandleLine clearedAlloc s
        (ascii ":e " ++ decimal 10 2 ++ space :: ascii "b")).1 =
        ascii "Welcome to openkernel OKFS.\nb\nTry: cat readme.txt\n" := by
  obtain ⟨s, hrun, hactive, htext, -⟩ := readme_opened
  have hwith : withLine (editText s) 2 (ascii "b") =
      ascii "Welcome to openkernel OKFS.\nb\nTry: cat readme.txt\n" := by
    rw [htext]
    decide
  have hfit : (withLine (editText s) 2 (ascii "b")).length ≤ fsMaxFileSize := by
    rw [hwith]
    decide
  have hreplaced := line_replaced hrun hactive (by rw [htext]; decide) (by decide)
    (by rw [htext]; decide) hfit fun _ _ _ => Option.some_ne_none _
  exact ⟨s, hrun, htext, hreplaced.2.trans hwith⟩

end OpenKernel.FileSystem
