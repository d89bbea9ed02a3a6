import OpenKernel.FileSystem.EditSession

/-!
# Line numbers

Several loops of the editor count lines: `:p` while it prints, `:e` to reject a number,
`edit_fetch_line` on its way to a line, and the loop that replaces one. They agree on every text
that ends in a newline; of any other text `:p` does not print the last line. The number itself
is read into an `int`, so that a numeral stands for what is left of it modulo 2^32.
-/

namespace OpenKernel.FileSystem

section Session

variable {alloc : Allocator} {s : Okfs} {n : ℕ} {line : Bytes}

theorem hasLine_iff (hinv : OwnershipInv s .empty) (hactive : s.editActive = true) :
    HasLine s n ↔ 1 ≤ n ∧ n ≤ (Lines.lines newline (editText s)).length := by
  constructor
  · intro h
    rw [← totalLines_eq h.text]
    exact ⟨h.pos, h.le⟩
  · rintro ⟨hpos, hle⟩
    have htext : editText s ≠ [] := by
      intro hnil
      rw [hnil, Lines.lines_nil, List.length_nil] at hle
      omega
    rw [← totalLines_eq htext] at hle
    exact ⟨hinv, hactive, htext, hpos, hle⟩

theorem OwnershipInv.length_lines_lt (hinv : OwnershipInv s .empty) :
    (Lines.lines newline (editText s)).length < 2 ^ 17 := by
  by_cases htext : editText s = []
  · rw [htext, Lines.lines_nil]
    decide
  · rw [← totalLines_eq htext]
    exact hinv.totalLines_lt

theorem EditorInv.handle_edit (h : EditorInv s) (hactive : s.editActive = true) (alloc : Allocator)
    (arg : Bytes) : FileSystem.fsEditHandleLine alloc s (ascii ":e " ++ arg) =
      FileSystem.editCommand alloc { s with editTargetLine := 0 } arg := by
  have hcommand : asCommand s (ascii ":e " ++ arg) = ascii ":e " ++ arg :=
    if_neg fun hand => hand.2 rfl
  rw [h.fsEditHandleLine_eq hactive, hcommand, HasLine.handleCommand_edit]

end Session

/-! ### Numerals -/

/-- The value of a decimal numeral. -/
def numeral (digits : Bytes) : ℕ :=
  digits.foldl (fun v c => v * 10 + (c.toNat - digitZero.toNat)) 0

/-- What `:e` is to do with a numeral and what follows it. -/
def Exact (alloc : Allocator) (s : Okfs) (digits tail : Bytes) : Prop :=
  let n := numeral digits
  let result := fsEditHandleLine alloc s (ascii ":e " ++ (digits ++ tail))
  if 1 ≤ n ∧ n ≤ (Lines.lines newline (editText s)).length then
    match tail with
    | [] => result = (fetched s n, .ok (), [])
    | _ :: text => result = (replaceLine alloc { s with editTargetLine := 0 } (n - 1 : ℕ) text,
        .ok (), [ascii "Line updated."])
  else ∃ out, result = ({ s with editTargetLine := 0 }, .error .invalid, out)

section Numerals

variable {alloc : Allocator} {s : Okfs} {n : ℕ} {digits tail : Bytes}

theorem parseNumber_foldl (hdigits : ∀ c ∈ digits, digitZero ≤ c ∧ c ≤ digitZero + 9)
    (htail : ∀ c, tail.head? = some c → ¬ (digitZero ≤ c ∧ c ≤ digitZero + 9)) (v : ℕ) :
    parseNumber (Int.bmod v (2 ^ 32)) (digits ++ tail) =
      (Int.bmod (digits.foldl (fun v c => v * 10 + (c.toNat - digitZero.toNat)) v : ℕ) (2 ^ 32),
        tail) := by
  induction digits generalizing v with
  | nil =>
    cases tail with
    | nil => rfl
    | cons c tail =>
      rw [List.nil_append, parseNumber, if_neg (htail c rfl)]
      rfl
  | cons c digits ih =>
    have hc := hdigits c List.mem_cons_self
    have hsub : digitZero.toNat ≤ c.toNat := UInt8.le_iff_toNat_le.mp hc.1
    have hcast : (v : ℤ) * 10 + ((c.toNat : ℤ) - digitZero.toNat) =
        ((v * 10 + (c.toNat - digitZero.toNat) : ℕ) : ℤ) := by omega
    rw [List.cons_append, parseNumber, if_pos hc, ← Int.bmod_add_bmod, Int.bmod_mul_bmod,
      Int.bmod_add_bmod, hcast]
    exact ih (fun c hc => hdigits c (List.mem_cons_of_mem _ hc)) _

theorem parseNumber_numeral (hdigits : ∀ c ∈ digits, digitZero ≤ c ∧ c ≤ digitZero + 9)
    (htail : ∀ c, tail.head? = some c → ¬ (digitZero ≤ c ∧ c ≤ digitZero + 9)) :
    parseNumber 0 (digits ++ tail) = (Int.bmod (numeral digits) (2 ^ 32), tail) :=
  parseNumber_foldl hdigits htail 0

theorem bmod_eq_iff (v : ℕ) (hn : n < 2 ^ 31) : Int.bmod v (2 ^ 32) = n ↔ v % 2 ^ 32 = n := by
  rw [Int.bmod_def]
  split_ifs <;> omega

theorem digit_ne_space {c : UInt8} (h : digitZero ≤ c ∧ c ≤ digitZero + 9) : c ≠ space := by
  rintro rfl
  revert h
  decide

end Numerals

/-- In every session and for every numeral, with or without a text behind it: `:e` acts on the line
with that number or rejects it, unless the numeral is too large for an `int` and what is left of
it is the number of a line. -/
theorem exact_iff_not_wrapped {alloc : Allocator} {calls : List Call} {s : Okfs}
    {digits tail : Bytes} (hrun : Run (step alloc) anyCall (fsInit alloc boot) calls s)
    (hactive : s.editActive = true) (hdigits : ∀ c ∈ digits, digitZero ≤ c ∧ c ≤ digitZero + 9)
    (htail : tail = [] ∨ tail.head? = some space) :
    Exact alloc s digits tail ↔
      ¬ (2 ^ 32 ≤ numeral digits ∧ 1 ≤ numeral digits % 2 ^ 32 ∧
        numeral digits % 2 ^ 32 ≤ (Lines.lines newline (editText s)).length) := by
  have hinv : OwnershipInv s .empty := (invariants_of_run hrun).2
  have hcleared : OwnershipInv { s with editTargetLine := 0 } .empty := hinv.congr rfl rfl rfl
  have hline : ∀ n, HasLine { s with editTargetLine := 0 } n ↔
      1 ≤ n ∧ n ≤ (Lines.lines newline (editText s)).length := fun n => hasLine_iff hcleared hactive
  have hparse : parseNumber 0 (digits ++ tail) = (Int.bmod (numeral digits) (2 ^ 32), tail) := by
    apply parseNumber_numeral hdigits
    intro c hc hdigit
    rcases htail with rfl | hspace
    · cases hc
    · exact digit_ne_space hdigit (Option.some.inj (hc.symm.trans hspace))
  have hlines := hinv.length_lines_lt
  unfold Exact
  dsimp only
  rw [(editorInv_of_run hrun).handle_edit hactive]
  by_cases hvalid : ∃ n, HasLine { s with editTargetLine := 0 } n ∧ numeral digits % 2 ^ 32 = n
  · obtain ⟨n, h, hn⟩ := hvalid
    have hbounds := (hline n).mp h
    have hlt : n < 2 ^ 31 := h.lt.trans (by decide)
    rw [(bmod_eq_iff (numeral digits) hlt).mpr hn] at hparse
    by_cases hsmall : numeral digits = n
    · rw [hsmall, if_pos hbounds]
      refine iff_of_true ?_ (by omega)
      rcases htail with rfl | hspace
      · exact h.editCommand_of_fetch hparse
      · obtain ⟨text, rfl⟩ := List.head?_eq_some_iff.mp hspace
        exact h.editCommand_of_text hparse
    · -- the line is taken for another one
      rw [if_neg (by omega)]
      refine iff_of_false ?_ (by omega)
      rintro ⟨out, he⟩
      have hcode := congrArg (fun r => r.2.1) he
      rcases htail with rfl | hspace
      · rw [h.editCommand_of_fetch hparse] at hcode
        cases hcode
      · obtain ⟨text, rfl⟩ := List.head?_eq_some_iff.mp hspace
        rw [h.editCommand_of_text hparse] at hcode
        cases hcode
  · have hreject : ∀ n : ℕ, HasLine { s with editTargetLine := 0 } n →
        (parseNumber 0 (digits ++ tail)).1 ≠ n := by
      intro n h he
      have hlt : n < 2 ^ 31 := h.lt.trans (by decide)
      rw [hparse] at he
      dsimp only at he
      rw [bmod_eq_iff (numeral digits) hlt] at he
      exact hvalid ⟨n, h, he⟩
    obtain ⟨out, he⟩ := HasLine.editCommand_of_no_line alloc hcleared hactive hreject
    have hno : ¬ (1 ≤ numeral digits % 2 ^ 32 ∧
        numeral digits % 2 ^ 32 ≤ (Lines.lines newline (editText s)).length) := fun hbounds =>
      hvalid ⟨_, (hline _).mpr hbounds, rfl⟩
    rw [if_neg (by omega)]
    exact iff_of_true ⟨out, he⟩ (by omega)

/-- The second line of the file that `fs_init` writes is replaced. -/
theorem exact_readme :
    ∃ s, Run (step clearedAlloc) anyCall (fsInit clearedAlloc boot)
        [.editBegin (ascii "/readme.txt")] s ∧
      Exact clearedAlloc s (ascii "2") (ascii " b") := by
  obtain ⟨s, hrun, hactive, htext, -⟩ := readme_opened
  have hdigits : ∀ c ∈ ascii "2", digitZero ≤ c ∧ c ≤ digitZero + 9 := by
    intro c hc
    obtain rfl : c = 50 := List.mem_singleton.mp hc
    decide
  have htail : ascii " b" = [] ∨ (ascii " b").head? = some space := by decide
  have hexact := exact_iff_not_wrapped hrun hactive hdigits htail
  refine ⟨s, hrun, hexact.mpr ?_⟩
  have hvalue : numeral (ascii "2") = 2 := by decide
  omega

/-- A number that is larger than any `int` loads the second of three lines. -/
theorem numeral_wraps :
    ∃ s, Run (step clearedAlloc) anyCall (fsInit clearedAlloc boot)
        [.editBegin (ascii "/readme.txt")] s ∧
      s.editActive = true ∧ (Lines.lines newline (editText s)).length = 3 ∧
      numeral (ascii "4294967298") = 4294967298 ∧
      (fsEditHandleLine clearedAlloc s (ascii ":e 4294967298")).2.1 = .ok () ∧
      (fsEditHandleLine clearedAlloc s (ascii ":e 4294967298")).1.editTargetLine = 2 ∧
      ¬ Exact clearedAlloc s (ascii "4294967298") [] := by
  obtain ⟨s, hs, hactive, hlines, hcode, htarget⟩ :
      ∃ s, [.editBegin (ascii "/readme.txt")].foldlM (step clearedAlloc)
        (fsInit clearedAlloc boot) = some s ∧ s.editActive = true ∧
        (Lines.lines newline (editText s)).length = 3 ∧
        (fsEditHandleLine clearedAlloc s (ascii ":e 4294967298")).2.1 = .ok () ∧
        (fsEditHandleLine clearedAlloc s (ascii ":e 4294967298")).1.editTargetLine = 2 := by
    rw [fsInit_cleared]
    exact ⟨_, rfl, rfl, by decide, rfl, rfl⟩
  have hvalue : numeral (ascii "4294967298") = 4294967298 := by decide
  refine ⟨s, Run.of_foldlM hs, hactive, hlines, hvalue, hcode, htarget, ?_⟩
  unfold Exact
  dsimp only
  rw [hvalue, hlines, if_neg (by decide)]
  rintro ⟨out, he⟩
  have hcode' := congrArg (fun r => r.2.1) he
  cases hcode.symm.trans hcode'

/-! ### Printing, accepting and fetching -/

def IsLine (s : Okfs) (n : ℕ) (line : Bytes) : Prop :=
  1 ≤ n ∧ (Lines.lines newline (editText s))[n - 1]? = some line

/-- A line as `:p` prints it. -/
def numbered (n : ℕ) (text : Bytes) : Bytes := decimal 10 n ++ [colon, space] ++ text

/-- `:p`, `:e` and `edit_fetch_line` mean the same line by `n`. -/
structure NumberAgrees (alloc : Allocator) (s : Okfs) (n : ℕ) : Prop where
  printed : ∀ text, numbered n text ∈ (fsEditHandleLine alloc s (ascii ":p")).2.2 ↔
    ∃ line, IsLine s n line ∧ text = line.take 80
  accepted : (fsEditHandleLine alloc s (ascii ":e " ++ decimal 10 n)).2.1 = .ok () ↔
    ∃ line, IsLine s n line
  fetched : ∀ text, editFetchLine s n fsMaxPath = some text ↔
    ∃ line, IsLine s n line ∧ text = line.take 255
  replaced : ∀ line text, IsLine s n line → (withLine (editText s) n text).length ≤ fsMaxFileSize →
    (∀ k ≥ s.heap.calls, ∀ size, alloc k size ≠ none) →
      editText (fsEditHandleLine alloc s (ascii ":e " ++ (decimal 10 n ++ space :: text))).1 =
        withLine (editText s) n text

section Printing

variable {alloc : Allocator} {s : Okfs} {n : ℕ} {buf head rest text : Bytes}

/-- The line that a newline ends is printed. -/
theorem printLines_line (hbuf : buf.length ≤ 80) (hnul : 0 ∉ buf ++ head) (hhead : newline ∉ head) :
    printLines n buf (head ++ newline :: rest) =
      numbered n ((buf ++ head).take 80) :: printLines (n + 1) [] rest := by
  induction head generalizing buf with
  | nil =>
    have hdecimal := length_decimal_le 10 n
    rw [List.append_nil] at hnul ⊢
    rw [List.nil_append, printLines, if_pos rfl, Lines.takeWhile_of_not_mem hnul,
      List.take_of_length_le hbuf]
    dsimp only
    rw [List.take_of_length_le]
    · rfl
    · rw [List.length_append]
      simp only [List.length_cons, List.length_nil]
      omega
  | cons c head ih =>
    have hc : c ≠ newline := fun he => hhead (he ▸ List.mem_cons_self)
    have hrest : newline ∉ head := fun hm => hhead (List.mem_cons_of_mem _ hm)
    rw [List.cons_append, printLines, if_neg hc]
    by_cases hlt : buf.length < 80
    · have hsnoc : buf ++ c :: head = buf ++ [c] ++ head := by simp
      rw [hsnoc] at hnul ⊢
      rw [if_pos hlt]
      refine ih ?_ hnul hrest
      rw [List.length_append, List.length_singleton]
      omega
    · -- the buffer is full
      have hfull : ∀ more : Bytes, (buf ++ more).take 80 = buf := fun more =>
        List.take_left' (by omega)
      rw [if_neg hlt, ih hbuf ?_ hrest, hfull, hfull]
      intro hm
      rcases List.mem_append.mp hm with hm | hm
      · exact hnul (List.mem_append_left _ hm)
      · exact hnul (List.mem_append_right _ (List.mem_cons_of_mem _ hm))

theorem printLines_rest (htext : newline ∉ text) : printLines n buf text = [] := by
  induction text generalizing buf with
  | nil => rfl
  | cons c text ih =>
    have hc : c ≠ newline := fun he => htext (he ▸ List.mem_cons_self)
    rw [printLines, if_neg hc]
    exact ih fun hm => htext (List.mem_cons_of_mem _ hm)

theorem printLines_eq (hnul : 0 ∉ text) : printLines n [] text =
    (text.splitOn newline).dropLast.mapIdx fun k line => numbered (n + k) (line.take 80) := by
  induction text using Lines.line_induction newline generalizing n with
  | hnil => rfl
  | hlast text _ h =>
    rw [printLines_rest h, List.splitOn_eq_singleton h]
    rfl
  | hline head rest h ih =>
    have hhead : 0 ∉ [] ++ head := fun hm => hnul (List.mem_append_left _ hm)
    have hrest : 0 ∉ rest := fun hm => hnul (List.mem_append_right _ (List.mem_cons_of_mem _ hm))
    have hnumbers : (fun k line => numbered (n + 1 + k) (List.take 80 line)) =
        fun k line => numbered (n + (k + 1)) (List.take 80 line) := by
      funext k line
      rw [Nat.add_right_comm, Nat.add_assoc]
    rw [printLines_line (by simp) hhead h, ih hrest, Lines.splitOn_line h,
      List.dropLast_cons_of_ne_nil (List.splitOn_ne_nil _ _), List.mapIdx_cons, hnumbers]
    rfl

theorem numbered_inj {m : ℕ} {text' : Bytes} (hn : n < 2 ^ 31) (hm : m < 2 ^ 31) :
    numbered n text = numbered m text' ↔ n = m ∧ text = text' := by
  have hparse : ∀ k < 2 ^ 31, ∀ rest : Bytes,
      parseNumber 0 (numbered k rest) = ((k : ℤ), colon :: space :: rest) := by
    intro k hk rest
    have hcolon : ¬ (digitZero ≤ colon ∧ colon ≤ digitZero + 9) := by decide
    unfold numbered
    rw [List.append_assoc, parseNumber_decimal (by omega) (by decide) hk, List.cons_append,
      parseNumber, if_neg hcolon]
    rfl
  constructor
  · intro he
    have hread := congrArg (parseNumber 0) he
    rw [hparse n hn, hparse m hm] at hread
    obtain ⟨hnm, hrest⟩ := Prod.mk.inj hread
    exact ⟨Int.ofNat_inj.mp hnm, List.tail_eq_of_cons_eq (List.tail_eq_of_cons_eq hrest)⟩
  · rintro ⟨rfl, rfl⟩
    rfl

theorem seekLine_of_drop_nil {k : ℕ} (n cur : ℤ) (hk : cur + k = n)
    (hdrop : Lines.drop newline k text = []) :
    seekLine n cur text = none ∨ seekLine n cur text = some [] := by
  induction text generalizing cur k with
  | nil =>
    rw [seekLine]
    split_ifs
    · exact Or.inr rfl
    · exact Or.inl rfl
  | cons c text ih =>
    rw [seekLine]
    cases k with
    | zero => cases hdrop
    | succ k =>
      rw [if_pos (by omega)]
      by_cases hc : c = newline
      · rw [if_pos hc]
        refine ih (cur + 1) (k := k) (by omega) ?_
        rw [← hdrop]
        simp [Lines.drop, hc]
      · rw [if_neg hc]
        refine ih cur hk ?_
        rw [← hdrop]
        simp [Lines.drop, hc]

end Printing

section Agreement

variable {alloc : Allocator} {s : Okfs} {n : ℕ} {line : Bytes}

theorem isLine_iff (hinv : OwnershipInv s .empty) (hactive : s.editActive = true) :
    IsLine s n line ↔ HasLine s n ∧ line = lineText s n := by
  unfold IsLine
  constructor
  · rintro ⟨hpos, hline⟩
    have hlt := (List.getElem?_eq_some_iff.mp hline).1
    have h : HasLine s n := (hasLine_iff hinv hactive).mpr ⟨hpos, by omega⟩
    rw [Lines.getElem?_lines, if_neg h.drop_ne_nil] at hline
    exact ⟨h, (Option.some.inj hline).symm⟩
  · rintro ⟨h, rfl⟩
    rw [Lines.getElem?_lines, if_neg h.drop_ne_nil]
    exact ⟨h.pos, rfl⟩

theorem exists_isLine_iff (hinv : OwnershipInv s .empty) (hactive : s.editActive = true) :
    (∃ line, IsLine s n line) ↔ HasLine s n := by
  constructor
  · rintro ⟨line, hline⟩
    exact ((isLine_iff hinv hactive).mp hline).1
  · intro h
    exact ⟨lineText s n, (isLine_iff hinv hactive).mpr ⟨h, rfl⟩⟩

/-- `edit_fetch_line` finds the lines there are. -/
theorem editFetchLine_iff (hinv : OwnershipInv s .empty) (hactive : s.editActive = true)
    (text : Bytes) : editFetchLine s n fsMaxPath = some text ↔
      ∃ line, IsLine s n line ∧ text = line.take 255 := by
  constructor
  · intro hfetch
    by_cases h : HasLine s n
    · rw [h.editFetchLine_eq] at hfetch
      exact ⟨lineText s n, (isLine_iff hinv hactive).mpr ⟨h, rfl⟩, (Option.some.inj hfetch).symm⟩
    · unfold editFetchLine at hfetch
      split_ifs at hfetch with hempty
      rw [not_or, not_lt] at hempty
      have hdrop : Lines.drop newline (n - 1) (editText s) = [] := by
        by_contra hdrop
        have hline : IsLine s n (lineText s n) := by
          refine ⟨by omega, ?_⟩
          rw [Lines.getElem?_lines, if_neg hdrop]
          rfl
        exact h ((isLine_iff hinv hactive).mp hline).1
      rcases seekLine_of_drop_nil n 1 (by omega) hdrop with he | he
      · rw [he] at hfetch
        cases hfetch
      · rw [he] at hfetch
        cases hfetch
  · rintro ⟨line, hline, rfl⟩
    obtain ⟨h, rfl⟩ := (isLine_iff hinv hactive).mp hline
    exact h.editFetchLine_eq

theorem EditorInv.handle_print (h : EditorInv s) (hinv : OwnershipInv s .empty)
    (hactive : s.editActive = true) (htext : editText s ≠ []) (hnul : 0 ∉ editText s) :
    (FileSystem.fsEditHandleLine alloc s (ascii ":p")).2.2 =
      ((editText s).splitOn newline).dropLast.mapIdx
        fun k line => numbered (k + 1) (line.take 80) := by
  have hcommand : asCommand s (ascii ":p") = ascii ":p" := if_neg fun hand => hand.2 rfl
  have hprint : FileSystem.handleCommand alloc { s with editTargetLine := 0 } (ascii ":p") =
      ({ s with editTargetLine := 0 }, .ok (), printLines 1 [] (editText s)) := by
    unfold FileSystem.handleCommand
    rw [if_neg (by decide), if_neg (by decide), if_pos rfl, if_neg (hinv.editLen_ne_zero htext)]
    rfl
  rw [h.fsEditHandleLine_eq hactive, hcommand, hprint, printLines_eq hnul]
  simp only [Nat.add_comm]

/-- A printed line is one of those that a newline ends. -/
theorem numbered_mem_iff (hinv : OwnershipInv s .empty) (hn : n < 2 ^ 31) (text : Bytes) :
    numbered n text ∈ ((editText s).splitOn newline).dropLast.mapIdx
        (fun k line => numbered (k + 1) (line.take 80)) ↔
      1 ≤ n ∧ ∃ line, ((editText s).splitOn newline).dropLast[n - 1]? = some line ∧
        text = line.take 80 := by
  have hshort : ∀ k, k < ((editText s).splitOn newline).dropLast.length → k + 1 < 2 ^ 31 := by
    intro k hk
    have hlines := hinv.length_lines_lt
    have hle : ((editText s).splitOn newline).dropLast.length ≤
        (Lines.lines newline (editText s)).length := Lines.length_dropLast_splitOn_le
    omega
  rw [List.mem_mapIdx]
  constructor
  · rintro ⟨k, hk, he⟩
    obtain ⟨rfl, htext⟩ := (numbered_inj (hshort k hk) hn).mp he
    refine ⟨by omega, _, ?_, htext.symm⟩
    rw [Nat.add_sub_cancel]
    exact List.getElem?_eq_getElem hk
  · rintro ⟨hpos, line, hline, rfl⟩
    obtain ⟨hk, hget⟩ := List.getElem?_eq_some_iff.mp hline
    refine ⟨n - 1, hk, ?_⟩
    rw [hget, Nat.sub_add_cancel hpos]

theorem EditorInv.accepted_iff (h : EditorInv s) (hinv : OwnershipInv s .empty)
    (hactive : s.editActive = true) (hn : n < 2 ^ 31) :
    (FileSystem.fsEditHandleLine alloc s (ascii ":e " ++ decimal 10 n)).2.1 = .ok () ↔
      ∃ line, IsLine s n line := by
  have hcleared : OwnershipInv { s with editTargetLine := 0 } .empty := hinv.congr rfl rfl rfl
  have hparse : parseNumber 0 (decimal 10 n) = ((n : ℤ), []) := by
    have hread : parseNumber 0 (decimal 10 n ++ []) = parseNumber n [] :=
      parseNumber_decimal (by omega) (by decide) hn []
    rwa [List.append_nil] at hread
  rw [h.handle_edit hactive, exists_isLine_iff hinv hactive]
  by_cases hline : HasLine s n
  · have hkept : HasLine { s with editTargetLine := 0 } n := hline.congr hcleared rfl rfl
    rw [hkept.editCommand_of_fetch hparse]
    exact iff_of_true rfl hline
  · have hno : ∀ m : ℕ, HasLine { s with editTargetLine := 0 } m →
        (parseNumber 0 (decimal 10 n)).1 ≠ m := by
      intro m hm he
      rw [hparse] at he
      obtain rfl : n = m := Int.ofNat_inj.mp he
      exact hline (hm.congr hinv rfl rfl)
    obtain ⟨out, he⟩ := HasLine.editCommand_of_no_line alloc hcleared hactive hno
    rw [he]
    exact iff_of_false (fun hok => by cases hok) hline

end Agreement

/-- In every session, for every text that is not empty and has no NUL: `:p`, `:e` and
`edit_fetch_line` agree on the lines 1 to the last one, and on the start of their texts, exactly if
the text ends in a newline. -/
theorem line_numbers_agree_iff {alloc : Allocator} {calls : List Call} {s : Okfs}
    (hrun : Run (step alloc) anyCall (fsInit alloc boot) calls s) (hactive : s.editActive = true)
    (htext : editText s ≠ []) (hnul : 0 ∉ editText s) :
    (∀ n < 2 ^ 31, NumberAgrees alloc s n) ↔ (editText s).getLast? = some newline := by
  have hinv : OwnershipInv s .empty := (invariants_of_run hrun).2
  have h : EditorInv s := editorInv_of_run hrun
  constructor
  · intro hagree
    by_contra hlast
    -- the last line is not printed
    have hlines := Lines.lines_of_rest htext hlast
    have hlt := hinv.length_lines_lt
    have hpos : 1 ≤ (Lines.lines newline (editText s)).length :=
      List.length_pos_of_ne_nil (Lines.lines_ne_nil htext)
    obtain ⟨line, hline⟩ := (exists_isLine_iff hinv hactive).mpr
      ((hasLine_iff hinv hactive).mpr ⟨hpos, le_rfl⟩)
    have hn : (Lines.lines newline (editText s)).length < 2 ^ 31 := by omega
    have hprinted := ((hagree _ hn).printed (line.take 80)).mpr ⟨line, hline, rfl⟩
    rw [h.handle_print hinv hactive htext hnul, numbered_mem_iff hinv hn] at hprinted
    obtain ⟨-, last, hget, -⟩ := hprinted
    have hbound := (List.getElem?_eq_some_iff.mp hget).1
    rw [List.length_dropLast, ← hlines] at hbound
    omega
  · intro hlast n hn
    have hlines := Lines.lines_of_getLast hlast
    refine ⟨fun text => ?_, h.accepted_iff hinv hactive hn, editFetchLine_iff hinv hactive, ?_⟩
    · rw [h.handle_print hinv hactive htext hnul, numbered_mem_iff hinv hn, ← hlines]
      constructor
      · rintro ⟨hpos, line, hline, he⟩
        exact ⟨line, ⟨hpos, hline⟩, he⟩
      · rintro ⟨line, ⟨hpos, hline⟩, he⟩
        exact ⟨hpos, line, hline, he⟩
    · intro line text hline hfits halloc
      have hkept : HasLine { s with editTargetLine := 0 } n :=
        ((isLine_iff hinv hactive).mp hline).1.congr (hinv.congr rfl rfl rfl) rfl rfl
      rw [h.handle_edit hactive, hkept.editCommand_replace]
      exact hkept.editText_replaceLine hfits halloc


/-- The file that `fs_init` writes ends in a newline. -/
theorem line_numbers_agree_readme :
    ∃ s, Run (step clearedAlloc) anyCall (fsInit clearedAlloc boot)
        [.editBegin (ascii "/readme.txt")] s ∧
      ∀ n < 2 ^ 31, NumberAgrees clearedAlloc s n := by
  obtain ⟨s, hrun, hactive, htext, -⟩ := readme_opened
  have hne : editText s ≠ [] := by
    rw [htext]
    decide
  have hnul : 0 ∉ editText s := by
    rw [htext]
    decide
  have hlast : (editText s).getLast? = some newline := by
    rw [htext]
    decide
  exact ⟨s, hrun, (line_numbers_agree_iff hrun hactive hne hnul).mpr hlast⟩

/-- A file that `write` has made ends without a newline: its last line can be loaded but is not
printed. -/
theorem last_line_not_printed :
    ∃ s, Run (step clearedAlloc) anyCall (fsInit clearedAlloc boot)
        [.op (.writeFile (ascii "notes.txt") (some (ascii "a\nb")) 3),
          .editBegin (ascii "notes.txt")] s ∧
      s.editActive = true ∧ editText s = ascii "a\nb" ∧
      (fsEditHandleLine clearedAlloc s (ascii ":p")).2 = (.ok (), [ascii "1: a"]) ∧
      editFetchLine s 2 fsMaxPath = some (ascii "b") ∧ ¬ NumberAgrees clearedAlloc s 2 := by
  obtain ⟨s, hs, hactive, htext, hprint, hfetch⟩ :
      ∃ s, [.op (.writeFile (ascii "notes.txt") (some (ascii "a\nb")) 3),
          .editBegin (ascii "notes.txt")].foldlM (step clearedAlloc) (fsInit clearedAlloc boot) =
        some s ∧ s.editActive = true ∧ editText s = ascii "a\nb" ∧
        (fsEditHandleLine clearedAlloc s (ascii ":p")).2 = (.ok (), [ascii "1: a"]) ∧
        editFetchLine s 2 fsMaxPath = some (ascii "b") := by
    rw [fsInit_cleared]
    exact ⟨_, rfl, rfl, by decide, by decide, by decide⟩
  refine ⟨s, Run.of_foldlM hs, hactive, htext, hprint, hfetch, fun hagree => ?_⟩
  have hline : IsLine s 2 (ascii "b") := by
    unfold IsLine
    rw [htext]
    decide
  have hmem := (hagree.printed (ascii "b")).mpr ⟨_, hline, rfl⟩
  rw [hprint] at hmem
  revert hmem
  decide

/-! ### Two ways to replace a line -/

section Pending

variable {alloc : Allocator} {s : Okfs}

def withPending (s : Okfs) (pending : Bytes) (valid : Bool) : Okfs :=
  { s with editPendingLine := pending, editPendingLineValid := valid }

theorem growEditBuf_withPending (s : Okfs) (pending : Bytes) (valid : Bool) (need : ℕ) :
    growEditBuf alloc (withPending s pending valid) need =
      (withPending (growEditBuf alloc s need).1 pending valid, (growEditBuf alloc s need).2) := by
  have hcap : (withPending s pending valid).editCap = s.editCap := rfl
  have hheap : (withPending s pending valid).heap = s.heap := rfl
  unfold growEditBuf
  rw [hcap, hheap]
  by_cases hfit : need ≤ s.editCap
  · rw [if_pos hfit, if_pos hfit]
  rw [if_neg hfit, if_neg hfit]
  dsimp only
  cases s.heap.kmalloc alloc (nextCap s.editCap need) with
  | mk r heap => cases r <;> rfl

theorem editBufAppend_withPending (s : Okfs) (pending : Bytes) (valid : Bool) (text : Bytes) :
    (editBufAppend alloc (withPending s pending valid) text).1 =
      withPending (editBufAppend alloc s text).1 pending valid := by
  have hlen : (withPending s pending valid).editLen = s.editLen := rfl
  unfold editBufAppend
  dsimp only
  rw [hlen, growEditBuf_withPending]
  by_cases hmax : fsMaxFileSize < s.editLen + text.length
  · rw [if_pos hmax, if_pos hmax]
  rw [if_neg hmax, if_neg hmax]
  cases growEditBuf alloc s (s.editLen + text.length) with
  | mk t ok => cases ok <;> rfl

theorem replaceLoop_withPending (pending : Bytes) (valid : Bool) (idx : ℤ) (text : Bytes)
    (rounds : ℕ) (s : Okfs) (cur : ℤ) (old : Bytes) :
    replaceLoop alloc idx text rounds (withPending s pending valid) cur old =
      withPending (replaceLoop alloc idx text rounds s cur old) pending valid := by
  induction rounds generalizing s cur old with
  | zero => rfl
  | succ rounds ih =>
    rw [replaceLoop, replaceLoop]
    by_cases hold : old = []
    · rw [if_pos hold, if_pos hold]
    rw [if_neg hold, if_neg hold]
    dsimp only
    rw [editBufAppend_withPending]
    cases old.dropWhile (· ≠ newline) with
    | nil => rfl
    | cons c rest =>
      dsimp only
      rw [editBufAppend_withPending, ih]

theorem replaceLine_withPending (s : Okfs) (pending : Bytes) (valid : Bool) (idx : ℤ)
    (text : Bytes) :
    replaceLine alloc (withPending s pending valid) idx text =
      withPending (replaceLine alloc s idx text) pending valid := by
  have htext : editText (withPending s pending valid) = editText s := rfl
  have hempty : ({ withPending s pending valid with editBuf := none, editLen := 0, editCap := 0 } :
      Okfs) = withPending { s with editBuf := none, editLen := 0, editCap := 0 } pending valid := rfl
  have hbuf : (withPending s pending valid).editBuf = s.editBuf := rfl
  unfold replaceLine
  dsimp only
  rw [htext, hempty, replaceLoop_withPending, hbuf]
  cases s.editBuf <;> rfl

end Pending

/-- In every session, for every line of it and every text that is no command and has at most 4085
bytes: `:e <n>` and then the text do the same as `:e <n> <text>`, up to the pending line, whether or
not `kmalloc` fails. -/
theorem inline_edit_eq_replacement {alloc : Allocator} {calls : List Call} {s : Okfs} {n : ℕ}
    {text : Bytes} (hrun : Run (step alloc) anyCall (fsInit alloc boot) calls s)
    (hactive : s.editActive = true) (hpos : 1 ≤ n)
    (hle : n ≤ (Lines.lines newline (editText s)).length) (hcolon : text.head? ≠ some colon)
    (hlen : text.length ≤ 4085) :
    let inline := fsEditHandleLine alloc
      (fsEditHandleLine alloc s (ascii ":e " ++ decimal 10 n)).1 text
    let direct := fsEditHandleLine alloc s (ascii ":e " ++ (decimal 10 n ++ space :: text))
    inline.2 = direct.2 ∧
      withPending inline.1 direct.1.editPendingLine direct.1.editPendingLineValid = direct.1 := by
  have hinv : OwnershipInv s .empty := (invariants_of_run hrun).2
  have h : EditorInv s := editorInv_of_run hrun
  have hline : HasLine { s with editTargetLine := 0 } n :=
    ((hasLine_iff hinv hactive).mpr ⟨hpos, hle⟩).congr (hinv.congr rfl rfl rfl) rfl rfl
  have hfetched : HasLine (fetched { s with editTargetLine := 0 } n) n :=
    hline.congr (hinv.congr rfl rfl rfl) rfl rfl
  have hroom := hline.le_targetRoom
  dsimp only
  rw [h.handle_edit hactive, h.handle_edit hactive, hline.editCommand_load,
    hline.editCommand_replace]
  dsimp only
  rw [hfetched.handle_target rfl hcolon, List.take_of_length_le (by omega)]
  have hcleared : ({ fetched { s with editTargetLine := 0 } n with editTargetLine := 0 } : Okfs) =
      withPending { s with editTargetLine := 0 } ((lineText s n).take (fsMaxPath - 1)) true := rfl
  rw [hcleared, replaceLine_withPending]
  exact ⟨rfl, rfl⟩

/-- The second line of the file that `fs_init` writes. -/
theorem inline_edit_readme :
    ∃ s, Run (step clearedAlloc) anyCall (fsInit clearedAlloc boot)
        [.editBegin (ascii "/readme.txt")] s ∧
      let inline := fsEditHandleLine clearedAlloc
        (fsEditHandleLine clearedAlloc s (ascii ":e " ++ decimal 10 2)).1 (ascii "b")
      let direct := fsEditHandleLine clearedAlloc s
        (ascii ":e " ++ (decimal 10 2 ++ space :: ascii "b"))
      inline.2 = direct.2 ∧
        withPending inline.1 direct.1.editPendingLine direct.1.editPendingLineValid =
          direct.1 := by
  obtain ⟨s, hrun, hactive, htext, -⟩ := readme_opened
  have hle : 2 ≤ (Lines.lines newline (editText s)).length := by
    rw [htext]
    decide
  exact ⟨s, hrun, inline_edit_eq_replacement hrun hactive (by decide) hle (by decide) (by decide)⟩

end OpenKernel.FileSystem
