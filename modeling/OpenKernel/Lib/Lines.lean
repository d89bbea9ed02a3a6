import Mathlib.Data.List.Forall2
import Mathlib.Data.List.TakeWhile
import Mathlib.Tactic.SplitIfs

/-!
# Texts made of lines

A list is read as lines that end at a separator; a separator at the very end opens
no further line. `pieces` is how a loop that replaces one line passes on the
text: line by line, with the separators in between.
-/

namespace OpenKernel.Lines

variable {α : Type*} [DecidableEq α] (sep : α)

/-- The text from line `k` on, counted from 0. -/
def drop : ℕ → List α → List α
  | 0, l => l
  | k + 1, l => drop k (l.dropWhile (· ≠ sep)).tail

def line (k : ℕ) (l : List α) : List α := (drop sep k l).takeWhile (· ≠ sep)

/-- The lines of `l` and their separators, with `text` in place of line `k`. A negative `k` stands
for no line; every round shortens `l`. -/
def pieces (text : List α) : ℕ → ℤ → List α → List (List α)
  | 0, _, _ => []
  | rounds + 1, k, l =>
    if l = [] then []
    else
      (if k = 0 then text else l.takeWhile (· ≠ sep)) ::
        match l.dropWhile (· ≠ sep) with
        | [] => []
        | _ :: rest => [sep] :: pieces text rounds (k - 1) rest

/-- The same pieces, except that some are missing. -/
def Thinned : List (List α) → List (List α) → Prop := List.Forall₂ fun q p => q = p ∨ q = []

/-- The number of lines of a text that is not empty. -/
def count (l : List α) : ℕ := l.count sep + if l.getLast? = some sep then 0 else 1

variable {sep} {l text : List α} {k rounds : ℕ}

omit [DecidableEq α] in
theorem span_append {p : α → Bool} {tail : List α} (hl : ∀ x ∈ l, p x = true)
    (htail : ∀ x, tail.head? = some x → p x = false) :
    (l ++ tail).takeWhile p = l ∧ (l ++ tail).dropWhile p = tail := by
  rw [List.takeWhile_append_of_pos hl, List.dropWhile_append_of_pos hl]
  cases tail with
  | nil => simp
  | cons x tail => simp [htail x rfl]

theorem sep_not_mem_takeWhile : sep ∉ l.takeWhile (· ≠ sep) := by
  intro hmem
  simpa using List.mem_takeWhile_imp hmem

theorem takeWhile_of_not_mem (h : sep ∉ l) : l.takeWhile (· ≠ sep) = l := by
  rw [List.takeWhile_eq_self_iff]
  intro x hx
  exact decide_eq_true fun he => h (he ▸ hx)

theorem sep_not_mem_line : sep ∉ line sep k l := sep_not_mem_takeWhile

/-- The first line, and what is behind it. -/
theorem line_cases (sep : α) (l : List α) :
    (l.dropWhile (· ≠ sep) = [] ∧ l.takeWhile (· ≠ sep) = l ∧ sep ∉ l) ∨
    ∃ rest, l.dropWhile (· ≠ sep) = sep :: rest ∧ l = l.takeWhile (· ≠ sep) ++ sep :: rest ∧
      sep ∉ l.takeWhile (· ≠ sep) := by
  have hparts : l.takeWhile (· ≠ sep) ++ l.dropWhile (· ≠ sep) = l :=
    List.takeWhile_append_dropWhile
  have hline : sep ∉ l.takeWhile (· ≠ sep) := sep_not_mem_takeWhile
  cases hd : l.dropWhile (· ≠ sep) with
  | nil =>
    rw [hd, List.append_nil] at hparts
    exact Or.inl ⟨rfl, hparts, fun hmem => hline (by rwa [hparts])⟩
  | cons c rest =>
    have hc : c = sep := by
      have hhead := List.head?_dropWhile_not (· ≠ sep) l
      rw [hd] at hhead
      simpa using hhead
    subst hc
    rw [hd] at hparts
    exact Or.inr ⟨rest, rfl, hparts.symm, hline⟩

theorem length_lt_of_dropWhile {rest : List α} (h : l.dropWhile (· ≠ sep) = sep :: rest) :
    rest.length < l.length := by
  have hle := (List.dropWhile_sublist (· ≠ sep) (l := l)).length_le
  rw [h, List.length_cons] at hle
  omega

theorem pieces_nil {k : ℤ} : pieces sep text (rounds + 1) k [] = [] := by rw [pieces, if_pos rfl]

theorem pieces_last {k : ℤ} (hl : l ≠ []) (h : l.dropWhile (· ≠ sep) = []) :
    pieces sep text (rounds + 1) k l = [if k = 0 then text else l.takeWhile (· ≠ sep)] := by
  rw [pieces, if_neg hl, h]

theorem pieces_line {k : ℤ} {rest : List α} (h : l.dropWhile (· ≠ sep) = sep :: rest) :
    pieces sep text (rounds + 1) k l =
      (if k = 0 then text else l.takeWhile (· ≠ sep)) ::
        [sep] :: pieces sep text rounds (k - 1) rest := by
  have hl : l ≠ [] := by
    rintro rfl
    cases h
  rw [pieces, if_neg hl, h]

theorem flatten_pieces_of_neg {k : ℤ} (hk : k < 0) (hrounds : l.length < rounds) :
    (pieces sep text rounds k l).flatten = l := by
  induction rounds generalizing k l with
  | zero => omega
  | succ rounds ih =>
    by_cases hnil : l = []
    · rw [hnil, pieces_nil, List.flatten_nil]
    rcases line_cases sep l with ⟨hd, hline, -⟩ | ⟨rest, hd, hparts, -⟩
    · rw [pieces_last hnil hd, if_neg (by omega), hline, List.flatten_singleton]
    · have hlen := length_lt_of_dropWhile hd
      rw [pieces_line hd, if_neg (by omega), List.flatten_cons, List.flatten_cons,
        ih (k := k - 1) (by omega) (by omega)]
      exact hparts.symm

theorem pieces_congr_of_neg {k k' : ℤ} {text' : List α} (hk : k < 0) (hk' : k' < 0) :
    pieces sep text rounds k l = pieces sep text' rounds k' l := by
  induction rounds generalizing k k' l with
  | zero => rfl
  | succ rounds ih =>
    by_cases hnil : l = []
    · rw [hnil, pieces_nil, pieces_nil]
    rcases line_cases sep l with ⟨hd, -⟩ | ⟨rest, hd, -⟩
    · rw [pieces_last hnil hd, pieces_last hnil hd, if_neg (by omega), if_neg (by omega)]
    · have hrest : pieces sep text rounds (k - 1) rest = pieces sep text' rounds (k' - 1) rest :=
        ih (by omega) (by omega)
      rw [pieces_line hd, pieces_line hd, if_neg (by omega), if_neg (by omega), hrest]

theorem drop_succ_of_dropWhile {rest : List α} (h : l.dropWhile (· ≠ sep) = sep :: rest) :
    drop sep (k + 1) l = drop sep k rest := by
  rw [drop, h, List.tail_cons]

@[simp] theorem drop_nil : drop sep k [] = [] := by
  induction k with
  | zero => rfl
  | succ k ih => exact ih

theorem drop_succ_of_last (h : l.dropWhile (· ≠ sep) = []) : drop sep (k + 1) l = [] := by
  rw [drop, h, List.tail_nil, drop_nil]

theorem count_of_not_mem (h : sep ∉ l) : count sep l = 1 := by
  have hlast : l.getLast? ≠ some sep := fun he => h (List.mem_of_getLast? he)
  rw [count, List.count_eq_zero_of_not_mem h, if_neg hlast]

omit [DecidableEq α] in
theorem getLast?_append_cons {head rest : List α} (hrest : rest ≠ []) :
    (head ++ sep :: rest).getLast? = rest.getLast? := by
  rw [List.getLast?_append, List.getLast?_cons, List.getLast?_eq_some_getLast hrest]
  simp

theorem count_append_cons {head rest : List α} (h : sep ∉ head) :
    count sep (head ++ sep :: rest) = if rest = [] then 1 else count sep rest + 1 := by
  rw [count, List.count_append, List.count_eq_zero_of_not_mem h, List.count_cons_self]
  by_cases hrest : rest = []
  · simp [hrest]
  · rw [getLast?_append_cons hrest, if_neg hrest, count]
    omega

theorem drop_ne_nil (hl : l ≠ []) (hk : k < count sep l) : drop sep k l ≠ [] := by
  induction k generalizing l with
  | zero => exact hl
  | succ k ih =>
    rcases line_cases sep l with ⟨-, -, hmem⟩ | ⟨rest, hd, hparts, hmem⟩
    · rw [count_of_not_mem hmem] at hk
      omega
    · rw [hparts, count_append_cons hmem] at hk
      rw [drop_succ_of_dropWhile hd]
      split_ifs at hk with hrest
      · omega
      · exact ih hrest (by omega)

/-- Replacing a line by itself replaces no line. -/
theorem pieces_line_self (hrounds : l.length < rounds) :
    pieces sep (line sep k l) rounds k l = pieces sep text rounds (-1) l := by
  induction rounds generalizing k l with
  | zero => rfl
  | succ rounds ih =>
    by_cases hnil : l = []
    · rw [hnil, pieces_nil, pieces_nil]
    rcases line_cases sep l with ⟨hd, -⟩ | ⟨rest, hd, -⟩
    · rw [pieces_last hnil hd, pieces_last hnil hd]
      cases k with
      | zero => rfl
      | succ k => rw [if_neg (by omega), if_neg (by omega)]
    · have hlen := length_lt_of_dropWhile hd
      rw [pieces_line hd, pieces_line hd]
      cases k with
      | zero =>
        have hrest : pieces sep (line sep 0 l) rounds (((0 : ℕ) : ℤ) - 1) rest =
            pieces sep text rounds (-1 - 1) rest := pieces_congr_of_neg (by omega) (by omega)
        rw [hrest]
        rfl
      | succ k =>
        have hline : line sep (k + 1) l = line sep k rest := by
          rw [line, drop_succ_of_dropWhile hd, line]
        have hk : ((k + 1 : ℕ) : ℤ) - 1 = k := by omega
        have hrest : pieces sep text rounds (-1) rest = pieces sep text rounds (-1 - 1) rest :=
          pieces_congr_of_neg (by omega) (by omega)
        rw [hline, hk, ih (by omega), if_neg (by omega), if_neg (by omega), hrest]

/-- Replacing a line changes the length by what the line differs. -/
theorem length_flatten_pieces (hrounds : l.length < rounds) (hk : drop sep k l ≠ []) :
    (pieces sep text rounds k l).flatten.length + (line sep k l).length =
      l.length + text.length := by
  induction rounds generalizing k l with
  | zero => omega
  | succ rounds ih =>
    have hnil : l ≠ [] := by
      rintro rfl
      exact hk drop_nil
    rcases line_cases sep l with ⟨hd, hline, -⟩ | ⟨rest, hd, hparts, -⟩
    · cases k with
      | zero =>
        rw [pieces_last hnil hd, if_pos (by rfl), List.flatten_singleton, line, drop, hline]
        omega
      | succ k => exact absurd (drop_succ_of_last hd) hk
    · have hlen := length_lt_of_dropWhile hd
      have hsum := congrArg List.length hparts
      rw [List.length_append, List.length_cons] at hsum
      rw [pieces_line hd, List.flatten_cons, List.flatten_cons]
      cases k with
      | zero =>
        have hrest : (pieces sep text rounds (((0 : ℕ) : ℤ) - 1) rest).flatten = rest :=
          flatten_pieces_of_neg (by omega) (by omega)
        rw [if_pos (by rfl), line, drop, hrest]
        simp only [List.length_append, List.length_singleton]
        omega
      | succ k =>
        have hrest := ih (l := rest) (k := k) (by omega) (by
          rwa [drop_succ_of_dropWhile hd] at hk)
        have hline : line sep (k + 1) l = line sep k rest := by
          rw [line, drop_succ_of_dropWhile hd, line]
        have hk' : ((k + 1 : ℕ) : ℤ) - 1 = k := by omega
        rw [hline, hk', if_neg (by omega)]
        simp only [List.length_append, List.length_singleton]
        omega

/-! ### Missing pieces -/

section Thinned

variable {qs ps : List (List α)}

omit [DecidableEq α] in
theorem Thinned.flatten_sublist (h : Thinned qs ps) : qs.flatten.Sublist ps.flatten := by
  induction h with
  | nil => exact List.Sublist.refl _
  | @cons q p qs ps hq _ ih =>
    have hsub : q.Sublist p := by
      rcases hq with rfl | rfl
      · exact List.Sublist.refl _
      · exact List.nil_sublist _
    exact hsub.append ih

omit [DecidableEq α] in
theorem append_sep_inj {a b m : List α} (ha : sep ∉ a) (hb : sep ∉ b)
    (h : a ++ sep :: l = b ++ sep :: m) : a = b ∧ l = m := by
  induction a generalizing b with
  | nil =>
    cases b with
    | nil => exact ⟨rfl, List.tail_eq_of_cons_eq h⟩
    | cons c b =>
      refine absurd ?_ hb
      rw [List.head_eq_of_cons_eq h]
      exact List.mem_cons_self
  | cons c a ih =>
    cases b with
    | nil =>
      refine absurd ?_ ha
      rw [← List.head_eq_of_cons_eq h]
      exact List.mem_cons_self
    | cons d b =>
      obtain ⟨hab, hlm⟩ := ih (fun hm => ha (List.mem_cons_of_mem _ hm))
        (fun hm => hb (List.mem_cons_of_mem _ hm)) (List.tail_eq_of_cons_eq h)
      exact ⟨congrArg₂ List.cons (List.head_eq_of_cons_eq h) hab, hlm⟩

theorem sep_not_mem_piece {k : ℤ} (htext : sep ∉ text) :
    sep ∉ (if k = 0 then text else l.takeWhile (· ≠ sep)) := by
  split_ifs
  · exact htext
  · exact sep_not_mem_takeWhile

theorem count_flatten_pieces_le {k : ℤ} (htext : sep ∉ text) :
    (pieces sep text rounds k l).flatten.count sep ≤ l.count sep := by
  induction rounds generalizing k l with
  | zero => exact Nat.zero_le _
  | succ rounds ih =>
    by_cases hnil : l = []
    · rw [hnil, pieces_nil, List.flatten_nil]
    have hpiece : sep ∉ (if k = 0 then text else l.takeWhile (· ≠ sep)) := sep_not_mem_piece htext
    rcases line_cases sep l with ⟨hd, -⟩ | ⟨rest, hd, hparts, -⟩
    · rw [pieces_last hnil hd, List.flatten_singleton, List.count_eq_zero_of_not_mem hpiece]
      exact Nat.zero_le _
    · have hrest := ih (k := k - 1) (l := rest)
      have hcount : l.count sep = (l.takeWhile (· ≠ sep)).count sep + (rest.count sep + 1) := by
        conv_lhs => rw [hparts]
        rw [List.count_append, List.count_cons_self]
      rw [pieces_line hd, List.flatten_cons, List.flatten_cons, List.count_append,
        List.count_append, List.count_eq_zero_of_not_mem hpiece, List.count_singleton_self]
      omega

/-- If the text comes out although pieces are missing, then every line comes out. -/
theorem eq_pieces_of_thinned {k : ℤ} (htext : sep ∉ text) (hrounds : l.length < rounds)
    (h : Thinned qs (pieces sep text rounds k l)) (hl : qs.flatten = l) :
    qs = pieces sep [] rounds (-1) l := by
  induction rounds generalizing k l qs with
  | zero => omega
  | succ rounds ih =>
    by_cases hnil : l = []
    · rw [hnil, pieces_nil] at h ⊢
      exact List.forall₂_nil_right_iff.mp h
    have hpiece : sep ∉ (if k = 0 then text else l.takeWhile (· ≠ sep)) := sep_not_mem_piece htext
    rcases line_cases sep l with ⟨hd, hline, -⟩ | ⟨rest, hd, hparts, hmem⟩
    · rw [pieces_last hnil hd] at h
      rw [pieces_last hnil hd, if_neg (by omega), hline]
      obtain ⟨q, qs', -, hqs', rfl⟩ := List.forall₂_cons_right_iff.mp h
      obtain rfl := List.forall₂_nil_right_iff.mp hqs'
      rw [List.flatten_singleton] at hl
      rw [hl]
    · have hlen := length_lt_of_dropWhile hd
      rw [pieces_line hd] at h
      obtain ⟨q, qs', hq, hqs', rfl⟩ := List.forall₂_cons_right_iff.mp h
      obtain ⟨z, qs, hz, hqs, rfl⟩ := List.forall₂_cons_right_iff.mp hqs'
      have hq : sep ∉ q := by
        rcases hq with rfl | rfl
        · exact hpiece
        · exact List.not_mem_nil
      rw [List.flatten_cons, List.flatten_cons] at hl
      rcases hz with rfl | rfl
      · obtain ⟨hhead, hrest⟩ := append_sep_inj hq hmem (hl.trans hparts)
        have hneg : pieces sep [] rounds (-1) rest = pieces sep [] rounds (-1 - 1) rest :=
          pieces_congr_of_neg (by omega) (by omega)
        rw [pieces_line hd, if_neg (by omega), ih (by omega) hqs hrest, hhead, hneg]
      · -- a missing separator is not made up for by what follows
        have hle := (Thinned.flatten_sublist hqs).count_le sep
        have hmax : (pieces sep text rounds (k - 1) rest).flatten.count sep ≤ rest.count sep :=
          count_flatten_pieces_le htext
        have hcount := congrArg (List.count sep) (hl.trans hparts)
        rw [List.count_append, List.nil_append, List.count_append, List.count_cons_self,
          List.count_eq_zero_of_not_mem hq] at hcount
        omega

end Thinned

end OpenKernel.Lines
