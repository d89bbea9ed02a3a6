import Mathlib.Data.List.InsertIdx

/-!
# A text with a cursor

The model of a line that is being edited: a list, and a place in it. What is typed goes in
front of the cursor, unless the text is as long as it may be.
-/

namespace OpenKernel

/-- A text, and a place in it or at its end. -/
structure TextCursor (α : Type*) where
  text : List α
  cursor : ℕ
  le : cursor ≤ text.length

namespace TextCursor

variable {α : Type*} (t : TextCursor α)

def typed (a : α) : TextCursor α :=
  ⟨t.text.insertIdx t.cursor a, t.cursor + 1, by
    rw [List.length_insertIdx_of_le_length t.le]
    exact Nat.succ_le_succ t.le⟩

def insert (capacity : ℕ) (a : α) : TextCursor α :=
  if t.text.length < capacity then t.typed a else t

def backspace : TextCursor α :=
  if h : 0 < t.cursor then
    ⟨t.text.eraseIdx (t.cursor - 1), t.cursor - 1, by
      have hle := t.le
      rw [List.length_eraseIdx_of_lt (by omega)]
      omega⟩
  else t

def delete : TextCursor α :=
  if h : t.cursor < t.text.length then
    ⟨t.text.eraseIdx t.cursor, t.cursor, by
      rw [List.length_eraseIdx_of_lt h]
      omega⟩
  else t

def left : TextCursor α := ⟨t.text, t.cursor - 1, Nat.le_trans (Nat.sub_le _ _) t.le⟩

def right : TextCursor α :=
  if h : t.cursor < t.text.length then ⟨t.text, t.cursor + 1, h⟩ else t

/-! ### What an edit may bring into the text -/

section Mem

variable {t} {a x : α}

theorem mem_of_mem_typed (h : x ∈ (t.typed a).text) : x = a ∨ x ∈ t.text :=
  List.eq_or_mem_of_mem_insertIdx h

theorem mem_of_mem_insert {capacity : ℕ} (h : x ∈ (t.insert capacity a).text) :
    x = a ∨ x ∈ t.text := by
  unfold insert at h
  split_ifs at h
  · exact mem_of_mem_typed h
  · exact Or.inr h

theorem mem_of_mem_backspace (h : x ∈ t.backspace.text) : x ∈ t.text := by
  unfold backspace at h
  split_ifs at h
  · exact List.mem_of_mem_eraseIdx h
  · exact h

theorem mem_of_mem_delete (h : x ∈ t.delete.text) : x ∈ t.text := by
  unfold delete at h
  split_ifs at h
  · exact List.mem_of_mem_eraseIdx h
  · exact h

theorem mem_of_mem_right (h : x ∈ t.right.text) : x ∈ t.text := by
  unfold right at h
  split_ifs at h
  · exact h
  · exact h

end Mem

/-! ### A text behind another -/

/-- The same cursor with more text in front of it. -/
def after (front : List α) : TextCursor α :=
  ⟨front ++ t.text, front.length + t.cursor, by
    rw [List.length_append]
    exact Nat.add_le_add_left t.le _⟩

def atEnd (l : List α) : TextCursor α := ⟨l, l.length, Nat.le_refl _⟩

theorem insertIdx_behind (front l : List α) (i : ℕ) (a : α) :
    (front ++ l).insertIdx (front.length + i) a = front ++ l.insertIdx i a := by
  induction front with
  | nil => rw [List.length_nil, Nat.zero_add, List.nil_append, List.nil_append]
  | cons x front ih =>
    rw [List.length_cons, Nat.add_right_comm, List.cons_append, List.insertIdx_succ_cons,
      List.cons_append, ih]

theorem typed_after (front : List α) (a : α) :
    (t.after front).typed a = (t.typed a).after front := by
  unfold typed after
  congr 1
  exact insertIdx_behind front t.text t.cursor a

theorem after_nil : t.after [] = t := by
  obtain ⟨text, cursor, hle⟩ := t
  unfold after
  congr 1
  exact Nat.zero_add _

theorem after_append (front front' : List α) :
    t.after (front ++ front') = (t.after front').after front := by
  unfold after
  congr 1
  · exact List.append_assoc _ _ _
  · rw [List.length_append, Nat.add_assoc]

variable {t} in
theorem eq_atEnd (h : t.cursor = t.text.length) : t = atEnd t.text := by
  obtain ⟨text, cursor, hle⟩ := t
  obtain rfl : cursor = text.length := h
  rfl

theorem typed_atEnd (l : List α) (a : α) : (atEnd l).typed a = atEnd (l ++ [a]) := by
  unfold typed atEnd
  congr 1
  · exact List.insertIdx_length_self
  · rw [List.length_append, List.length_singleton]

theorem after_atEnd (front l : List α) : (atEnd l).after front = atEnd (front ++ l) := by
  unfold after atEnd
  congr 1
  rw [List.length_append]

end TextCursor

end OpenKernel
