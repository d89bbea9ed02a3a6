import OpenKernel.Lib.Transition
import OpenKernel.Shell.Keys

/-!
# Typing past the end of the row

In an edit session a printable key that finds the row of the prompt full submits the buffer up to
its last space and keeps what is behind. Broken at a space, with the cursor at the end, the lines
and the buffer are still the text that was typed. Without a space the character at the break
is lost, and with the cursor elsewhere the key lands behind the text.
-/

namespace OpenKernel.Shell

open FileSystem
open Input (CommandBuffer cmdCapacity printable)

/-! ### What is submitted -/

/-- The shell, and the lines that were submitted, each with whether the break was at a space. -/
structure Typing where
  shell : ShellState
  submitted : List (Bytes × Bool)

/-- What a printable key submits. -/
def submits (fs : Okfs) (b : CommandBuffer) : List (Bytes × Bool) :=
  if wraps fs b then
    let pos := breakPos b.cmd (avail fs)
    [(submittedLine b pos, b.cmd pos == space)]
  else []

/-- A key, and the lines it adds. -/
def typeKey (alloc : Allocator) (s : Typing) (ch : UInt8) : Option Typing :=
  some ⟨step alloc s.shell (.edit (.character (some ch))),
    s.submitted ++ submits s.shell.fs s.shell.cmd⟩

/-- The lines, with one space behind each that was broken at one. -/
def joined (lines : List (Bytes × Bool)) : Bytes :=
  lines.flatMap fun line => line.1 ++ if line.2 then [space] else []

/-- A printable key in text mode, in an edit session. -/
structure InSession (s : Typing) (ch : UInt8) : Prop where
  text : s.shell.mode = .text
  active : s.shell.fs.editActive = true
  printable : printable (some ch) = true

/-- The key has room, and where it wraps, it finds the cursor at the end and a space behind the
first character of the row. -/
structure WrapsAtSpace (s : Typing) (ch : UInt8) : Prop extends InSession s ch where
  room : s.shell.cmd.cmdLen < cmdCapacity
  atEnd : avail s.shell.fs ≤ s.shell.cmd.cmdLen → s.shell.cmd.cmdCursor = s.shell.cmd.cmdLen
  atSpace : avail s.shell.fs ≤ s.shell.cmd.cmdLen →
    ∃ i, 0 < i ∧ i < avail s.shell.fs ∧ s.shell.cmd.cmd i = space

/-! ### The break -/

section Break

variable {b : CommandBuffer} {pos : ℕ}

theorem lastSpace_of_space {cmd : ℕ → UInt8} {n i : ℕ} (hi : i < n) (hspace : cmd i = space) :
    ∃ j, lastSpace cmd n = some j ∧ i ≤ j ∧ cmd j = space := by
  induction n with
  | zero => omega
  | succ n ih =>
    unfold lastSpace
    by_cases hn : cmd n = space
    · exact ⟨n, if_pos hn, Nat.le_of_lt_succ hi, hn⟩
    · rw [if_neg hn]
      refine ih (lt_of_le_of_ne (Nat.le_of_lt_succ hi) ?_)
      rintro rfl
      exact hn hspace

theorem breakPos_of_space {cmd : ℕ → UInt8} {n i : ℕ} (hpos : 0 < i) (hi : i < n)
    (hspace : cmd i = space) : 0 < breakPos cmd n ∧ cmd (breakPos cmd n) = space := by
  obtain ⟨j, hj, hle, hcmd⟩ := lastSpace_of_space hi hspace
  unfold breakPos
  rw [hj]
  dsimp only
  rw [if_neg (by omega)]
  exact ⟨by omega, hcmd⟩

theorem breakPos_of_no_space {cmd : ℕ → UInt8} {n : ℕ}
    (hnone : ∀ i, 0 < i → i < n → cmd i ≠ space) : breakPos cmd n = n - 1 := by
  unfold breakPos
  cases hlast : lastSpace cmd n with
  | none => rfl
  | some i =>
    obtain ⟨hlt, hspace⟩ := lastSpace_spec hlast
    have hzero : i = 0 := Nat.eq_zero_of_not_pos fun hi => hnone i hi hlt hspace
    exact if_pos hzero

theorem submittedLine_eq (hpos : pos ≤ b.cmdLen) (hnul : 0 ∉ bytes b) :
    submittedLine b pos = (bytes b).take pos := by
  have htake : (List.range pos).map b.cmd = (bytes b).take pos := by
    unfold bytes
    rw [← List.map_take, List.take_range, min_eq_left hpos]
  unfold submittedLine
  rw [htake]
  exact Lines.takeWhile_of_not_mem fun hmem => hnul (List.mem_of_mem_take hmem)

theorem bytes_split (hpos : pos < b.cmdLen) :
    bytes b = (bytes b).take pos ++ b.cmd pos :: (bytes b).drop (pos + 1) := by
  have hget : (bytes b)[pos]? = some (b.cmd pos) := by rw [getElem?_bytes, if_pos hpos]
  obtain ⟨hlt, he⟩ := List.getElem?_eq_some_iff.mp hget
  rw [← he, ← List.drop_eq_getElem_cons hlt, List.take_append_drop]

end Break

/-! ### Nothing is lost -/

section Kept

variable {alloc : Allocator} {s u : Typing} {t : TextCursor UInt8} {ch : UInt8}

/-- The lines and the buffer hold the text, with its cursor in the buffer. -/
structure Kept (s : Typing) (t : TextCursor UInt8) : Prop where
  text : ∃ r, Shows cmdCapacity s.shell.cmd r ∧ 0 ∉ r.text ∧ t = r.after (joined s.submitted)
  lines : ∀ line ∈ s.submitted, line.1 ≠ []

theorem joined_concat (lines : List (Bytes × Bool)) (line : Bytes) :
    joined (lines ++ [(line, true)]) = joined lines ++ (line ++ [space]) := by
  unfold joined
  rw [List.flatMap_append, List.flatMap_singleton, if_pos rfl]

theorem Shows.split {b : CommandBuffer} {pos : ℕ} (h : Shows cmdCapacity b t)
    (hend : b.cmdCursor = b.cmdLen) (hpos : pos < b.cmdLen) (hspace : b.cmd pos = space) :
    t = (TextCursor.atEnd ((bytes b).drop (pos + 1))).after ((bytes b).take pos ++ [space]) := by
  have hcursor : t.cursor = t.text.length := by rw [← h.cursor, ← h.length, hend]
  rw [TextCursor.eq_atEnd hcursor, TextCursor.after_atEnd, ← h.text, List.append_assoc,
    List.singleton_append, ← hspace, ← bytes_split hpos]

theorem typeKey_of_full {pos : ℕ} (hok : InSession s ch)
    (hroom : s.shell.cmd.cmdLen < cmdCapacity) (hfull : avail s.shell.fs ≤ s.shell.cmd.cmdLen)
    (hpos : breakPos s.shell.cmd.cmd (avail s.shell.fs) = pos) :
    typeKey alloc s ch = some ⟨{ s.shell with
        fs := executeTextCommand alloc s.shell.fs (submittedLine s.shell.cmd pos)
        cmd := wrapped s.shell.cmd pos ch },
      s.submitted ++ [(submittedLine s.shell.cmd pos, s.shell.cmd.cmd pos == space)]⟩ := by
  have hwraps : wraps s.shell.fs s.shell.cmd = true := by simp [wraps, hok.active, hfull, hroom]
  unfold typeKey submits
  rw [step_character hok.text hok.printable, typeCharacter, if_pos hwraps, if_pos hwraps, hpos]

theorem typeKey_of_not_full (hok : InSession s ch)
    (hfull : ¬avail s.shell.fs ≤ s.shell.cmd.cmdLen) :
    typeKey alloc s ch =
      some ⟨{ s.shell with cmd := s.shell.cmd.insert cmdCapacity ch }, s.submitted⟩ := by
  have hwraps : ¬wraps s.shell.fs s.shell.cmd = true := by simp [wraps, hfull]
  unfold typeKey submits
  rw [step_character hok.text hok.printable, typeCharacter, if_neg hwraps, if_neg hwraps,
    List.append_nil]

theorem Kept.insert (h : Kept s t) (hok : InSession s ch)
    (hroom : s.shell.cmd.cmdLen < cmdCapacity) (hfull : ¬avail s.shell.fs ≤ s.shell.cmd.cmdLen)
    (hstep : typeKey alloc s ch = some u) : Kept u (t.typed ch) := by
  obtain ⟨⟨r, hr, hnul, rfl⟩, hlines⟩ := h
  obtain rfl := Option.some.inj ((typeKey_of_not_full hok hfull).symm.trans hstep)
  have hinsert := hr.insert ch
  unfold TextCursor.insert at hinsert
  rw [if_pos (hr.length ▸ hroom)] at hinsert
  refine ⟨⟨r.typed ch, hinsert, fun hmem => ?_, r.typed_after _ ch⟩, hlines⟩
  rcases TextCursor.mem_of_mem_typed hmem with he | hmem
  · exact ne_zero_of_printable hok.printable he.symm
  · exact hnul hmem

/-- A key in a full row: the line goes, with the space behind it. -/
theorem Kept.wrap (h : Kept s t) (hok : WrapsAtSpace s ch)
    (hfull : avail s.shell.fs ≤ s.shell.cmd.cmdLen) (hstep : typeKey alloc s ch = some u) :
    Kept u (t.typed ch) := by
  obtain ⟨⟨r, hr, hnul, rfl⟩, hlines⟩ := h
  have hroom := hok.room
  obtain ⟨i, hi, hlt, hspace⟩ := hok.atSpace hfull
  obtain ⟨hpos, hbreak⟩ := breakPos_of_space hi hlt hspace
  have hlen := (breakPos_lt s.shell.cmd.cmd (avail_pos s.shell.fs)).trans_le hfull
  generalize hwhere : breakPos s.shell.cmd.cmd (avail s.shell.fs) = pos at hpos hbreak hlen
  obtain rfl := Option.some.inj
    ((typeKey_of_full hok.toInSession hroom hfull hwhere).symm.trans hstep)
  have hbytes : 0 ∉ bytes s.shell.cmd := hr.text ▸ hnul
  have hsplit := hr.split (hok.atEnd hfull) hlen hbreak
  rw [submittedLine_eq hlen.le hbytes, hbreak, beq_self_eq_true]
  refine ⟨⟨_, Shows.wrapped hlen hroom.le ch, ?_, ?_⟩, ?_⟩
  · exact nul_not_mem_rest hbytes (ne_zero_of_printable hok.printable)
  · rw [joined_concat, TextCursor.after_append _ (joined s.submitted), ← TextCursor.typed_atEnd,
      ← TextCursor.typed_after, ← hsplit, TextCursor.typed_after]
  · intro line hmem
    rcases List.mem_append.mp hmem with hmem | hmem
    · exact hlines line hmem
    · obtain rfl := List.mem_singleton.mp hmem
      rw [← List.length_pos_iff, List.length_take, length_bytes]
      omega

theorem Kept.typeKey (h : Kept s t) (hok : WrapsAtSpace s ch)
    (hstep : typeKey alloc s ch = some u) : Kept u (t.typed ch) := by
  by_cases hfull : avail s.shell.fs ≤ s.shell.cmd.cmdLen
  · exact h.wrap hok hfull hstep
  · exact h.insert hok.toInSession hok.room hfull hstep

/-- In a run in which every wrap is at a space with the cursor at the end, the lines and the
buffer are the text that was typed, and no line is empty. -/
theorem wrap_keeps_text {typed : List UInt8} (hshows : Shows cmdCapacity s.shell.cmd t)
    (hnul : 0 ∉ t.text) (hnone : s.submitted = [])
    (hrun : Run (typeKey alloc) WrapsAtSpace s typed u) :
    joined u.submitted ++ bytes u.shell.cmd = (typed.foldl TextCursor.typed t).text ∧
      ∀ line ∈ u.submitted, line.1 ≠ [] := by
  have hstart : Kept s t := by
    refine ⟨⟨t, hshows, hnul, ?_⟩, ?_⟩
    · rw [hnone]
      exact t.after_nil.symm
    · rw [hnone]
      exact fun line hmem => absurd hmem List.not_mem_nil
  obtain ⟨⟨r, hr, -, htext⟩, hlines⟩ :=
    hrun.simulates Kept TextCursor.typed (fun s ch u t h hok hstep => h.typeKey hok hstep) hstart
  refine ⟨?_, hlines⟩
  rw [htext, hr.text]
  rfl

theorem length_of_no_space (hok : InSession s ch) (hroom : s.shell.cmd.cmdLen < cmdCapacity)
    (hfull : avail s.shell.fs ≤ s.shell.cmd.cmdLen) (hwide : 1 < avail s.shell.fs)
    (hnone : ∀ i, 0 < i → i < avail s.shell.fs → s.shell.cmd.cmd i ≠ space)
    (hnul : 0 ∉ bytes s.shell.cmd) (hstep : typeKey alloc s ch = some u) :
    (joined u.submitted ++ bytes u.shell.cmd).length =
      (joined s.submitted ++ bytes s.shell.cmd).length := by
  have hletter : s.shell.cmd.cmd (avail s.shell.fs - 1) ≠ space :=
    hnone _ (by omega) (Nat.sub_one_lt_of_lt hwide)
  obtain rfl := Option.some.inj
    ((typeKey_of_full hok hroom hfull (breakPos_of_no_space hnone)).symm.trans hstep)
  have hpos : avail s.shell.fs - 1 < s.shell.cmd.cmdLen := by omega
  dsimp only
  rw [submittedLine_eq hpos.le hnul, beq_eq_false_iff_ne.mpr hletter]
  unfold joined
  rw [List.flatMap_append, List.flatMap_singleton, bytes_wrapped hpos hroom.le]
  simp only [List.length_append, List.length_take, List.length_drop, length_bytes,
    List.length_singleton, Bool.false_eq_true, if_false, List.length_nil]
  omega

/-- The file system with `readme.txt` opened in the editor. -/
def readmeSession : Okfs :=
  (fsEditBegin clearedAlloc (fsInit clearedAlloc boot) (ascii "readme.txt")).1

/-- Text mode in that session, with `line` in the command buffer. -/
def editing (line : Bytes) : Typing :=
  ⟨⟨readmeSession, .text, load ⟨fun _ => 0, 0, 0⟩ line, ⟨fun _ => 0, 0, 0⟩⟩, []⟩

theorem readmeSession_spec : readmeSession.editActive = true ∧ avail readmeSession = 63 := by
  unfold readmeSession
  rw [fsInit_cleared]
  exact ⟨rfl, rfl⟩

theorem inSession_editing (line : Bytes) : InSession (editing line) 120 :=
  ⟨rfl, readmeSession_spec.1, by decide⟩

theorem avail_editing (line : Bytes) : avail (editing line).shell.fs = 63 := by
  dsimp only [editing]
  exact readmeSession_spec.2

theorem shows_editing {line : Bytes} (hlen : line.length ≤ cmdCapacity) :
    Shows cmdCapacity (editing line).shell.cmd (.atEnd line) := Shows.load hlen

/-- A row of 63 characters with a space, and one more key. -/
theorem word_kept : ∃ u, Run (typeKey clearedAlloc) WrapsAtSpace
      (editing (List.replicate 50 97 ++ space :: List.replicate 12 98)) [120] u ∧
    joined u.submitted ++ bytes u.shell.cmd = ([120].foldl TextCursor.typed
      (.atEnd (List.replicate 50 97 ++ space :: List.replicate 12 98))).text ∧
    ∀ line ∈ u.submitted, line.1 ≠ [] := by
  have hok : WrapsAtSpace
      (editing (List.replicate 50 97 ++ space :: List.replicate 12 98)) 120 := by
    refine ⟨inSession_editing _, by decide, fun _ => rfl, fun _ => ⟨50, by decide, ?_, by decide⟩⟩
    rw [avail_editing]
    decide
  have hrun : Run (typeKey clearedAlloc) WrapsAtSpace _ [120] _ := .cons hok rfl (.nil _)
  exact ⟨_, hrun, wrap_keeps_text (shows_editing (by decide)) (by decide) rfl hrun⟩

/-- In a row of 63 characters without a space one of them is lost. -/
theorem unbroken_row_loses_character : ∃ u,
    Shows cmdCapacity (editing (List.replicate 63 97)).shell.cmd (.atEnd (List.replicate 63 97)) ∧
    Run (typeKey clearedAlloc) InSession (editing (List.replicate 63 97)) [120] u ∧
    (joined u.submitted ++ bytes u.shell.cmd).length = 63 ∧
    joined u.submitted ++ bytes u.shell.cmd ≠
      ([120].foldl TextCursor.typed (.atEnd (List.replicate 63 97))).text := by
  obtain ⟨row, hrow⟩ : ∃ row : Bytes, row = List.replicate 63 97 := ⟨_, rfl⟩
  rw [← hrow]
  have hlen : row.length = 63 := by rw [hrow, List.length_replicate]
  have hshows : Shows cmdCapacity (editing row).shell.cmd (.atEnd row) :=
    shows_editing (hlen.le.trans (by decide))
  have hbytes : bytes (editing row).shell.cmd = row := hshows.text
  have hletters : ∀ c ∈ row, c = 97 := hrow ▸ fun c hc => List.eq_of_mem_replicate hc
  have havail := avail_editing row
  have hfull : avail (editing row).shell.fs ≤ (editing row).shell.cmd.cmdLen :=
    (havail.trans hlen.symm).le
  have hnone : ∀ i, 0 < i → i < avail (editing row).shell.fs →
      (editing row).shell.cmd.cmd i ≠ space := by
    intro i _ hi hspace
    have hget : row[i]? = some space := by
      rw [← hbytes, getElem?_bytes, if_pos (hi.trans_le hfull), hspace]
    exact absurd (hletters _ (List.mem_of_getElem? hget)) (by decide)
  have hnul : 0 ∉ bytes (editing row).shell.cmd := by
    rw [hbytes]
    exact fun hmem => absurd (hletters _ hmem) (by decide)
  obtain ⟨u, hu⟩ : ∃ u, typeKey clearedAlloc (editing row) 120 = some u := ⟨_, rfl⟩
  have hwide : 1 < avail (editing row).shell.fs := havail.symm ▸ by decide
  have hkept := length_of_no_space (inSession_editing row) (hlen.trans_lt (by decide)) hfull hwide
    hnone hnul hu
  rw [hbytes] at hkept
  refine ⟨u, hshows, .cons (inSession_editing row) hu (.nil _), hkept.trans hlen, fun he => ?_⟩
  rw [he, List.foldl_cons, List.foldl_nil, TextCursor.typed_atEnd] at hkept
  simp [TextCursor.atEnd, joined, editing] at hkept

end Kept

end OpenKernel.Shell
