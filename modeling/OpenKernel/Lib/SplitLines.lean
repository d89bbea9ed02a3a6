import OpenKernel.Lib.Lines

/-!
# Lines as a list, and lines cut to a width

The lines of a text are its parts between separators, without an empty part at the
end. Putting a separator between them gives the text back, up to a separator at its
end. A loop that fills a buffer of `n` places and flushes it when it is full and at
every separator puts out the lines, each cut into parts of `n` places.
-/

namespace OpenKernel.Lines

variable {α : Type*} [DecidableEq α] (sep : α)

/-- The lines of a text, without their separators. -/
def lines (l : List α) : List (List α) :=
  if (l.splitOn sep).getLast? = some [] then (l.splitOn sep).dropLast else l.splitOn sep

variable {sep} {l text head rest : List α} {k rounds n : ℕ}

theorem splitOn_line (h : sep ∉ head) :
    (head ++ sep :: rest).splitOn sep = head :: rest.splitOn sep := by
  rw [List.splitOn_append_cons_self, List.splitOn_eq_singleton h, List.singleton_append]

@[simp] theorem lines_nil : lines sep [] = [] := by
  simp [lines]

theorem lines_of_not_mem (h : sep ∉ l) (hl : l ≠ []) : lines sep l = [l] := by
  rw [lines, List.splitOn_eq_singleton h, if_neg (by simpa using hl)]

theorem lines_cons (h : sep ∉ head) : lines sep (head ++ sep :: rest) = head :: lines sep rest := by
  have hne : rest.splitOn sep ≠ [] := List.splitOn_ne_nil _ _
  have hlast : (head :: rest.splitOn sep).getLast? = (rest.splitOn sep).getLast? := by
    rw [List.getLast?_cons, List.getLast?_eq_some_getLast hne]
    rfl
  rw [lines, lines, splitOn_line h, hlast, List.dropLast_cons_of_ne_nil hne]
  split_ifs <;> rfl

theorem line_induction (sep : α) {p : List α → Prop} (hnil : p [])
    (hlast : ∀ l, l ≠ [] → sep ∉ l → p l)
    (hline : ∀ head rest, sep ∉ head → p rest → p (head ++ sep :: rest)) (l : List α) : p l := by
  induction hn : l.length using Nat.strongRecOn generalizing l with
  | ind n ih =>
    by_cases hl : l = []
    · rw [hl]
      exact hnil
    rcases line_cases sep l with ⟨-, -, hmem⟩ | ⟨rest, hd, hparts, hmem⟩
    · exact hlast l hl hmem
    · rw [hparts]
      exact hline _ rest hmem (ih _ (hn ▸ length_lt_of_dropWhile hd) rest rfl)

theorem span_line (h : sep ∉ head) : (head ++ sep :: rest).takeWhile (· ≠ sep) = head ∧
    (head ++ sep :: rest).dropWhile (· ≠ sep) = sep :: rest := by
  apply span_append
  · intro x hx
    exact decide_eq_true fun he => h (he ▸ hx)
  · intro x hx
    simpa using hx.symm

/-- Line `k` in the list of lines. -/
theorem getElem?_lines (k : ℕ) (l : List α) :
    (lines sep l)[k]? = if drop sep k l = [] then none else some (line sep k l) := by
  induction l using line_induction sep generalizing k with
  | hnil => simp
  | hlast l hl h =>
    have hself : l.takeWhile (· ≠ sep) = l ∧ l.dropWhile (· ≠ sep) = [] := by
      rcases line_cases sep l with ⟨hd, ht, -⟩ | ⟨rest, -, hparts, -⟩
      · exact ⟨ht, hd⟩
      · refine absurd ?_ h
        rw [hparts]
        simp
    rw [lines_of_not_mem h hl]
    cases k with
    | zero => rw [line, drop, if_neg hl, hself.1, List.getElem?_cons_zero]
    | succ k =>
      rw [drop_succ_of_last hself.2, if_pos rfl, List.getElem?_cons_succ, List.getElem?_nil]
  | hline head rest h ih =>
    rw [lines_cons h]
    cases k with
    | zero => rw [line, drop, if_neg (by simp), (span_line h).1, List.getElem?_cons_zero]
    | succ k =>
      rw [line, drop_succ_of_dropWhile (span_line h).2, List.getElem?_cons_succ, ih k, line]

theorem getLast?_splitOn (hl : l ≠ []) :
    (l.splitOn sep).getLast? = some [] ↔ l.getLast? = some sep := by
  induction l using line_induction sep with
  | hnil => exact absurd rfl hl
  | hlast l hl h =>
    rw [List.splitOn_eq_singleton h]
    refine iff_of_false (by simpa using hl) fun hlast => h (List.mem_of_getLast? hlast)
  | hline head rest h ih =>
    rw [splitOn_line h, List.getLast?_cons,
      List.getLast?_eq_some_getLast (List.splitOn_ne_nil sep rest)]
    by_cases hrest : rest = []
    · subst hrest
      simp
    · rw [getLast?_append_cons hrest, ← ih hrest,
        List.getLast?_eq_some_getLast (List.splitOn_ne_nil sep rest)]
      simp

theorem lines_of_getLast (hl : l.getLast? = some sep) :
    lines sep l = (l.splitOn sep).dropLast := by
  have hne : l ≠ [] := by
    rintro rfl
    cases hl
  exact if_pos ((getLast?_splitOn hne).mpr hl)

theorem lines_of_rest (hne : l ≠ []) (hl : l.getLast? ≠ some sep) : lines sep l = l.splitOn sep :=
  if_neg (mt (getLast?_splitOn hne).mp hl)

theorem length_dropLast_splitOn_le : (l.splitOn sep).dropLast.length ≤ (lines sep l).length := by
  unfold lines
  split_ifs
  · exact le_rfl
  · exact (List.dropLast_sublist _).length_le

theorem lines_ne_nil (hl : l ≠ []) : lines sep l ≠ [] := by
  induction l using line_induction sep with
  | hnil => exact absurd rfl hl
  | hlast l hl h => simp [lines_of_not_mem h hl]
  | hline head rest h _ => simp [lines_cons h]

theorem length_lines (hl : l ≠ []) : (lines sep l).length = count sep l := by
  induction l using line_induction sep with
  | hnil => exact absurd rfl hl
  | hlast l hl h => rw [lines_of_not_mem h hl, count_of_not_mem h, List.length_singleton]
  | hline head rest h ih =>
    rw [lines_cons h, count_append_cons h, List.length_cons]
    split_ifs with hrest
    · simp [hrest]
    · rw [ih hrest]

theorem lines_append_of_getLast (hl : l = [] ∨ l.getLast? = some sep) (text : List α) :
    lines sep (l ++ text) = lines sep l ++ lines sep text := by
  induction l using line_induction sep with
  | hnil => simp
  | hlast l hne hmem =>
    rcases hl with hl | hl
    · exact absurd hl hne
    · exact absurd (List.mem_of_getLast? hl) hmem
  | hline head rest hmem ih =>
    have hrest : rest = [] ∨ rest.getLast? = some sep := by
      by_cases hnil : rest = []
      · exact Or.inl hnil
      · rw [getLast?_append_cons hnil] at hl
        exact Or.inr (hl.resolve_left (by simp))
    rw [List.append_assoc, List.cons_append, lines_cons hmem, lines_cons hmem, ih hrest,
      List.cons_append]

theorem lines_append_line_iff (htext : sep ∉ text) :
    lines sep (l ++ text ++ [sep]) = lines sep l ++ [text] ↔
      l = [] ∨ l.getLast? = some sep := by
  constructor
  · intro he
    by_cases hl : l = []
    · exact Or.inl hl
    · refine Or.inr ?_
      -- a line that is continued gives the text no line more
      by_contra hlast
      have hlen := congrArg List.length he
      have hcount : (l ++ text ++ [sep]).count sep = l.count sep + 1 := by
        simp [List.count_append, List.count_eq_zero_of_not_mem htext]
      rw [List.length_append, length_lines (by simp), length_lines hl, count, count, hcount,
        if_pos (by simp), if_neg hlast, List.length_singleton] at hlen
      omega
  · intro hl
    have hline : lines sep (text ++ [sep]) = [text] := by
      rw [lines_cons htext, lines_nil]
    rw [List.append_assoc, lines_append_of_getLast hl, hline]

omit [DecidableEq α] in
theorem intercalate_cons {parts : List (List α)} (hne : parts ≠ []) (head : List α) :
    [sep].intercalate (head :: parts) = head ++ sep :: [sep].intercalate parts := by
  obtain ⟨part, parts, rfl⟩ := List.exists_cons_of_ne_nil hne
  simp [List.intercalate]

theorem intercalate_lines (l : List α) :
    [sep].intercalate (lines sep l) ++ (if l.getLast? = some sep then [sep] else []) = l := by
  induction l using line_induction sep with
  | hnil => simp [List.intercalate]
  | hlast l hl h =>
    have hlast : l.getLast? ≠ some sep := fun he => h (List.mem_of_getLast? he)
    rw [lines_of_not_mem h hl, if_neg hlast]
    simp [List.intercalate]
  | hline head rest h ih =>
    rw [lines_cons h]
    by_cases hrest : rest = []
    · subst hrest
      simp [List.intercalate]
    · rw [intercalate_cons (lines_ne_nil hrest), getLast?_append_cons hrest, List.append_assoc,
        List.cons_append, ih]

/-- Replacing a line leaves the parts between the other separators as they are. -/
theorem flatten_pieces (hrounds : l.length < rounds) (hk : drop sep k l ≠ []) :
    (pieces sep text rounds k l).flatten = [sep].intercalate ((l.splitOn sep).set k text) := by
  induction rounds generalizing k l with
  | zero => omega
  | succ rounds ih =>
    have hnil : l ≠ [] := by
      rintro rfl
      exact hk drop_nil
    rcases line_cases sep l with ⟨hd, -, hmem⟩ | ⟨rest, hd, hparts, hmem⟩
    · cases k with
      | zero =>
        rw [pieces_last hnil hd, if_pos (by rfl), List.splitOn_eq_singleton hmem]
        simp [List.intercalate]
      | succ k => exact absurd (drop_succ_of_last hd) hk
    · have hlen := length_lt_of_dropWhile hd
      have hne : rest.splitOn sep ≠ [] := List.splitOn_ne_nil _ _
      have hsplit : l.splitOn sep = l.takeWhile (· ≠ sep) :: rest.splitOn sep := by
        conv_lhs => rw [hparts]
        exact splitOn_line hmem
      rw [pieces_line hd, List.flatten_cons, List.flatten_cons, hsplit]
      cases k with
      | zero =>
        have hrest : (pieces sep text rounds (((0 : ℕ) : ℤ) - 1) rest).flatten = rest :=
          flatten_pieces_of_neg (by omega) (by omega)
        rw [if_pos (by rfl), hrest, List.set_cons_zero, intercalate_cons hne,
          List.intercalate_splitOn]
        rfl
      | succ k =>
        rw [drop_succ_of_dropWhile hd] at hk
        have hk' : ((k + 1 : ℕ) : ℤ) - 1 = k := by omega
        rw [if_neg (by omega), hk', ih (by omega) hk, List.set_cons_succ,
          intercalate_cons (by simp)]
        rfl

/-- The parts of `n` places that a line is cut into; an empty line is one empty part. -/
def chunks (n : ℕ) (l : List α) : List (List α) :=
  if n = 0 ∨ l.length ≤ n then [l] else l.take n :: chunks n (l.drop n)
termination_by l.length
decreasing_by
  rw [List.length_drop]
  omega

omit [DecidableEq α] in
theorem chunks_of_le (h : l.length ≤ n) : chunks n l = [l] := by
  rw [chunks, if_pos (Or.inr h)]

omit [DecidableEq α] in
theorem chunks_append (hn : 0 < n) (hhead : head.length = n) (hrest : rest ≠ []) :
    chunks n (head ++ rest) = head :: chunks n rest := by
  have hpos := List.length_pos_iff.mpr hrest
  have hlong : ¬ (n = 0 ∨ (head ++ rest).length ≤ n) := by
    rw [List.length_append]
    omega
  rw [chunks, if_neg hlong, List.take_left' hhead, List.drop_left' hhead]

omit [DecidableEq α] in
theorem flatten_chunks (n : ℕ) (l : List α) : (chunks n l).flatten = l := by
  induction l using chunks.induct n with
  | case1 l h => rw [chunks, if_pos h, List.flatten_singleton]
  | case2 l h ih => rw [chunks, if_neg h, List.flatten_cons, ih, List.take_append_drop]

omit [DecidableEq α] in
theorem length_of_mem_chunks (hn : 0 < n) (l : List α) : ∀ c ∈ chunks n l, c.length ≤ n := by
  induction l using chunks.induct n with
  | case1 l h =>
    rw [chunks, if_pos h]
    intro c hc
    rw [List.mem_singleton.mp hc]
    omega
  | case2 l h ih =>
    rw [chunks, if_neg h]
    intro c hc
    rcases List.mem_cons.mp hc with rfl | hc
    · exact List.length_take_le n l
    · exact ih c hc

theorem lines_append (h : sep ∉ head) (hl : l ≠ []) :
    ∃ first more, lines sep l = first :: more ∧ lines sep (head ++ l) = (head ++ first) :: more ∧
      (l.head? ≠ some sep → first ≠ []) := by
  rcases line_cases sep l with ⟨-, -, hmem⟩ | ⟨rest, -, hparts, hmem⟩
  · refine ⟨l, [], lines_of_not_mem hmem hl, lines_of_not_mem ?_ (by simp [hl]), fun _ => hl⟩
    rw [List.mem_append]
    exact not_or.mpr ⟨h, hmem⟩
  · have hboth : sep ∉ head ++ l.takeWhile (· ≠ sep) := by
      rw [List.mem_append]
      exact not_or.mpr ⟨h, hmem⟩
    refine ⟨l.takeWhile (· ≠ sep), lines sep rest, ?_, ?_, fun hhead hfirst => hhead ?_⟩
    · conv_lhs => rw [hparts]
      exact lines_cons hmem
    · conv_lhs => rw [hparts, ← List.append_assoc]
      exact lines_cons hboth
    · rw [hparts, hfirst]
      rfl

/-- A loop over a text with a buffer of `n` places, on elements that are `good`: it puts out the
buffer at a separator, before an element that does not fit, and at the end if it is not empty. -/
structure Wraps (sep : α) (n : ℕ) (good : α → Prop) (loop : List α → List α → List (List α)) :
    Prop where
  finish : ∀ buf, (∀ x ∈ buf, good x) → loop buf [] = if buf = [] then [] else [buf]
  newline : ∀ buf rest, (∀ x ∈ buf, good x) → loop buf (sep :: rest) = buf :: loop [] rest
  full : ∀ buf c rest, (∀ x ∈ buf, good x) → c ≠ sep → n ≤ buf.length →
    loop buf (c :: rest) = buf :: loop [c] rest
  put : ∀ buf c rest, (∀ x ∈ buf, good x) → c ≠ sep → buf.length < n →
    loop buf (c :: rest) = loop (buf ++ [c]) rest

theorem Wraps.eq {good : α → Prop} {loop : List α → List α → List (List α)} {buf : List α}
    (h : Wraps sep n good loop) (hn : 0 < n) (hbuf : buf.length ≤ n) (hsep : sep ∉ buf)
    (hgood : ∀ x ∈ buf ++ l, good x) :
    loop buf l = (lines sep (buf ++ l)).flatMap (chunks n) := by
  induction l generalizing buf with
  | nil =>
    rw [List.append_nil] at hgood ⊢
    rw [h.finish buf hgood]
    split_ifs with hnil
    · rw [hnil, lines_nil, List.flatMap_nil]
    · rw [lines_of_not_mem hsep hnil, List.flatMap_singleton, chunks_of_le hbuf]
  | cons c rest ih =>
    have hgood' : ∀ x ∈ buf, good x := fun x hx => hgood x (List.mem_append_left _ hx)
    by_cases hc : c = sep
    · subst hc
      have hrest : ∀ x ∈ [] ++ rest, good x := fun x hx =>
        hgood x (List.mem_append_right _ (List.mem_cons_of_mem c hx))
      have hloop : loop [] rest = (lines c rest).flatMap (chunks n) :=
        ih (by simp) (by simp) hrest
      rw [h.newline buf rest hgood', lines_cons hsep, List.flatMap_cons, chunks_of_le hbuf, hloop]
      rfl
    · by_cases hfull : n ≤ buf.length
      · have hone : ∀ x ∈ [c] ++ rest, good x := fun x hx => hgood x (List.mem_append_right _ hx)
        have hloop : loop [c] rest = (lines sep (c :: rest)).flatMap (chunks n) :=
          ih hn (by simpa using Ne.symm hc) hone
        obtain ⟨first, more, hlines, hall, hfirst⟩ :=
          lines_append hsep (List.cons_ne_nil c rest)
        have hne : first ≠ [] := hfirst (by simpa using hc)
        rw [h.full buf c rest hgood' hc hfull, hloop, hlines, hall, List.flatMap_cons,
          List.flatMap_cons, chunks_append hn (le_antisymm hbuf hfull) hne]
        rfl
      · have hsnoc : buf ++ c :: rest = buf ++ [c] ++ rest := by simp
        rw [h.put buf c rest hgood' hc (not_le.mp hfull), hsnoc]
        rw [hsnoc] at hgood
        refine ih ?_ ?_ hgood
        · rw [List.length_append, List.length_singleton]
          omega
        · simpa [hsep] using Ne.symm hc

end OpenKernel.Lines
