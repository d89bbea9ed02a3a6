import Mathlib.Algebra.Group.Defs
import Mathlib.Data.List.Basic
import Mathlib.Logic.Function.Basic
import Mathlib.Tactic.SplitIfs

/-!
# Arrays that are filled from the start

An array has a size and a next place to write; a write behind its end fails. A string
in an array is followed by a zero, and has none in it. A buffer that shows a list takes
exactly as many more elements as there is room for, and with a zero behind it the list
is read back as a string.
-/

namespace OpenKernel

variable {α : Type*}

/-- `data[i] = a` in an array of `size` elements. -/
def writeAt (size : ℕ) (data : ℕ → α) (i : ℕ) (a : α) : Option (ℕ → α) :=
  if i < size then some (Function.update data i a) else none

/-- The first elements are those of the list. -/
def StartsWith (data : ℕ → α) (l : List α) : Prop := ∀ i a, l[i]? = some a → data i = a

/-- An array and the place of the next write. -/
structure Buffer (α : Type*) where
  data : ℕ → α
  pos : ℕ

namespace Buffer

/-- `data[pos++] = a` -/
def push (size : ℕ) (b : Buffer α) (a : α) : Option (Buffer α) :=
  (writeAt size b.data b.pos a).map fun data => ⟨data, b.pos + 1⟩

def pushAll (size : ℕ) (b : Buffer α) (l : List α) : Option (Buffer α) := l.foldlM (push size) b

structure Shows (b : Buffer α) (l : List α) : Prop where
  pos : b.pos = l.length
  data : StartsWith b.data l

end Buffer

section Writing

variable {size : ℕ} {data : ℕ → α} {b : Buffer α} {l k : List α} {a : α}

theorem StartsWith.nil (data : ℕ → α) : StartsWith data [] := by
  intro i a ha
  rw [List.getElem?_nil] at ha
  cases ha

theorem StartsWith.update (h : StartsWith data l) (a : α) :
    StartsWith (Function.update data l.length a) (l ++ [a]) := by
  intro i c hc
  rw [List.getElem?_append] at hc
  split_ifs at hc with hi
  · rw [Function.update_of_ne (Nat.ne_of_lt hi)]
    exact h i c hc
  · obtain ⟨hlt, heq⟩ := List.getElem?_eq_some_iff.mp hc
    rw [List.length_singleton] at hlt
    have hlast : i = l.length := by omega
    subst hlast
    rw [Function.update_self, ← heq, List.getElem_singleton]

theorem StartsWith.of_append (h : StartsWith data (l ++ k)) : StartsWith data l := by
  intro i a ha
  obtain ⟨hi, -⟩ := List.getElem?_eq_some_iff.mp ha
  exact h i a (by rwa [List.getElem?_append_left hi])

theorem StartsWith.map_range (h : StartsWith data l) : (List.range l.length).map data = l := by
  apply List.ext_getElem
  · rw [List.length_map, List.length_range]
  · intro i hi hi'
    rw [List.getElem_map, List.getElem_range]
    exact h i _ (List.getElem?_eq_getElem hi')

theorem Buffer.shows_nil (data : ℕ → α) : (⟨data, 0⟩ : Buffer α).Shows [] := ⟨rfl, .nil data⟩

theorem Buffer.Shows.push (h : b.Shows l) (hroom : l.length < size) (a : α) :
    ∃ b', b.push size a = some b' ∧ b'.Shows (l ++ [a]) := by
  refine ⟨⟨Function.update b.data b.pos a, b.pos + 1⟩, ?_, ?_, ?_⟩
  · rw [Buffer.push, writeAt, if_pos (h.pos ▸ hroom)]
    rfl
  · rw [List.length_append, List.length_singleton, ← h.pos]
  · rw [h.pos]
    exact h.data.update a

theorem Buffer.Shows.pushAll (h : b.Shows l) (size : ℕ) (k : List α)
    (hroom : l.length + k.length ≤ size) :
    ∃ b', b.pushAll size k = some b' ∧ b'.Shows (l ++ k) := by
  induction k generalizing b l with
  | nil => exact ⟨b, rfl, by rwa [List.append_nil]⟩
  | cons a k ih =>
    rw [List.length_cons] at hroom
    obtain ⟨b₁, hpush, hshows⟩ := h.push (show l.length < size by omega) a
    obtain ⟨b₂, hall, hshows₂⟩ := ih hshows (by
      rw [List.length_append, List.length_singleton]
      omega)
    refine ⟨b₂, ?_, by rwa [List.append_assoc] at hshows₂⟩
    rw [Buffer.pushAll, List.foldlM_cons, hpush]
    exact hall

theorem Buffer.pushAll_eq_none (hpos : b.pos ≤ size) (hroom : size < b.pos + k.length) :
    b.pushAll size k = none := by
  induction k generalizing b with
  | nil =>
    rw [List.length_nil] at hroom
    omega
  | cons a k ih =>
    rw [List.length_cons] at hroom
    rw [Buffer.pushAll, List.foldlM_cons]
    by_cases hlt : b.pos < size
    · rw [Buffer.push, writeAt, if_pos hlt]
      exact ih (by exact hlt) (by change size < b.pos + 1 + k.length; omega)
    · rw [Buffer.push, writeAt, if_neg hlt]
      rfl

end Writing

/-! ### Strings -/

section Strings

variable [Zero α] {size : ℕ} {data : ℕ → α} {b : Buffer α} {text : List α}

/-- The array holds the string `text` and its terminator. -/
structure HoldsString (data : ℕ → α) (text : List α) : Prop where
  data : StartsWith data (text ++ [0])
  no_zero : 0 ∉ text

/-- The length of the string in an array; without a terminator the search leaves the array. -/
def stringLength [DecidableEq α] (size : ℕ) (data : ℕ → α) : Option ℕ :=
  (List.range size).find? fun i => data i = 0

theorem HoldsString.zero_at (h : HoldsString data text) : data text.length = 0 :=
  h.data _ _ (by rw [List.getElem?_append_right (Nat.le_refl _), Nat.sub_self]; rfl)

theorem HoldsString.startsWith (h : HoldsString data text) : StartsWith data text :=
  h.data.of_append

theorem HoldsString.ne_zero (h : HoldsString data text) {i : ℕ} (hi : i < text.length) :
    data i ≠ 0 := by
  rw [h.startsWith i _ (List.getElem?_eq_getElem hi)]
  exact fun h0 => h.no_zero (h0 ▸ List.getElem_mem hi)

theorem holdsString_getD (h : 0 ∉ text) : HoldsString (fun i => text.getD i 0) text := by
  refine ⟨fun i a ha => ?_, h⟩
  rw [List.getElem?_append] at ha
  split_ifs at ha with hi
  · rw [List.getD_eq_getElem?_getD, ha]
    rfl
  · obtain ⟨hlt, hzero⟩ := List.getElem?_eq_some_iff.mp ha
    rw [List.getElem_singleton] at hzero
    rw [← hzero, List.getD_eq_getElem?_getD, List.getElem?_eq_none (Nat.le_of_not_lt hi)]
    rfl

theorem HoldsString.getLast?_eq (h : HoldsString data text) (hne : text ≠ []) :
    text.getLast? = some (data (text.length - 1)) := by
  have hlt : text.length - 1 < text.length := Nat.sub_one_lt (mt List.length_eq_zero_iff.mp hne)
  rw [List.getLast?_eq_getElem?, List.getElem?_eq_getElem hlt,
    h.startsWith _ _ (List.getElem?_eq_getElem hlt)]

theorem HoldsString.stringLength [DecidableEq α] (h : HoldsString data text)
    (hsize : text.length < size) : stringLength size data = some text.length := by
  rw [OpenKernel.stringLength, List.find?_range_eq_some]
  refine ⟨?_, List.mem_range.mpr hsize, ?_⟩
  · rw [h.zero_at]
    exact decide_eq_true rfl
  · intro i hi
    have hne := h.ne_zero hi
    simpa using hne

theorem Buffer.Shows.terminate (h : b.Shows text) (size : ℕ) (hroom : text.length < size)
    (hzero : 0 ∉ text) : ∃ data, writeAt size b.data b.pos 0 = some data ∧ HoldsString data text := by
  refine ⟨Function.update b.data b.pos 0, ?_, ?_, hzero⟩
  · rw [writeAt, if_pos (h.pos ▸ hroom)]
  · rw [h.pos]
    exact h.data.update 0

theorem HoldsString.takeWhile_eq [DecidableEq α] (h : HoldsString data text)
    (hsize : text.length < size) : ((List.range size).map data).takeWhile (· ≠ 0) = text := by
  obtain ⟨k, rfl⟩ : ∃ k, size = text.length + (k + 1) := ⟨size - text.length - 1, by omega⟩
  have hne : ∀ c ∈ text, decide (c ≠ 0) = true := fun c hc =>
    decide_eq_true fun h0 => h.no_zero (h0 ▸ hc)
  rw [List.range_add, List.map_append, h.startsWith.map_range, List.range_succ_eq_map,
    List.map_cons, List.map_cons, Nat.add_zero, h.zero_at, List.takeWhile_append_of_pos hne,
    List.takeWhile_cons_of_neg (by simp), List.append_nil]

theorem HoldsString.shows (h : HoldsString data text) :
    (⟨data, text.length⟩ : Buffer α).Shows text :=
  ⟨rfl, h.startsWith⟩

end Strings

end OpenKernel
