import Mathlib.Data.Fintype.Card
import Mathlib.Data.List.Nodup
import Mathlib.Data.Set.Basic
import Mathlib.Logic.Function.Basic

/-!
# Singly linked structures

Cells of an arbitrary type carry one link each, given by `next : α → Option α`;
`none` is the null pointer. `Seg` reads off the cells between two pointers,
null-terminated lists and circular rings are its two uses, and a closed set of
cells bounds what can be reached from a pointer. Relinking a cell is
`Function.update next`.
-/

namespace OpenKernel.Linked

variable {α : Type*} {next next' : α → Option α}

/-- Following `next` from `p` visits exactly the cells `l` and arrives at `q`. -/
def Seg (next : α → Option α) : Option α → List α → Option α → Prop
  | p, [], q => p = q
  | p, a :: l, q => p = some a ∧ Seg next (next a) l q

@[simp] theorem seg_nil {p q : Option α} : Seg next p [] q ↔ p = q := Iff.rfl

@[simp] theorem seg_cons {p q : Option α} {a : α} {l : List α} :
    Seg next p (a :: l) q ↔ p = some a ∧ Seg next (next a) l q := Iff.rfl

theorem seg_append {p q : Option α} {l₁ l₂ : List α} :
    Seg next p (l₁ ++ l₂) q ↔ ∃ m, Seg next p l₁ m ∧ Seg next m l₂ q := by
  induction l₁ generalizing p with
  | nil => simp
  | cons a l ih => simp [ih, and_assoc]

theorem Seg.congr {p q : Option α} {l : List α} (h : Seg next p l q)
    (heq : ∀ a ∈ l, next' a = next a) : Seg next' p l q := by
  induction l generalizing p with
  | nil => exact h
  | cons a l ih =>
    refine ⟨h.1, ?_⟩
    rw [heq a (by simp)]
    exact ih h.2 fun b hb => heq b (by simp [hb])

theorem Seg.unique {p : Option α} {l l' : List α} (h : Seg next p l none)
    (h' : Seg next p l' none) : l = l' := by
  induction l generalizing p l' with
  | nil =>
    obtain rfl := h
    cases l' with
    | nil => rfl
    | cons a l' => cases h'.1
  | cons a l ih =>
    obtain ⟨rfl, h⟩ := h
    cases l' with
    | nil => cases h'
    | cons b l' =>
      obtain ⟨hab, h'⟩ := h'
      obtain rfl := Option.some.inj hab
      rw [ih h h']

variable [DecidableEq α]

theorem Seg.update {p q v : Option α} {l : List α} {a : α} (h : Seg next p l q) (ha : a ∉ l) :
    Seg (Function.update next a v) p l q := by
  refine h.congr fun b hb => Function.update_of_ne ?_ _ _
  rintro rfl
  exact ha hb

theorem Seg.concat {p q : Option α} {l : List α} {a : α} (h : Seg next p l (some a))
    (ha : a ∉ l) : Seg (Function.update next a q) p (l ++ [a]) q :=
  seg_append.mpr ⟨some a, h.update ha, by simp⟩

theorem Seg.redirect {p q v : Option α} {l : List α} {a : α} (h : Seg next p (l ++ [a]) q)
    (ha : a ∉ l) : Seg (Function.update next a v) p (l ++ [a]) v := by
  obtain ⟨m, hl, hm⟩ := seg_append.mp h
  obtain ⟨rfl, -⟩ := seg_cons.mp hm
  exact hl.concat ha

section Ring

omit [DecidableEq α] in
/-- A circular list entered at `head`: its cells, each once, lead back to `head`. -/
def Ring (next : α → Option α) (head : Option α) (l : List α) : Prop :=
  Seg next head l l.head? ∧ l.Nodup

omit [DecidableEq α] in
theorem Ring.head_eq {head : Option α} {l : List α} (h : Ring next head l) : head = l.head? := by
  cases l with
  | nil => exact h.1
  | cons a l => exact h.1.1

omit [DecidableEq α] in
theorem Ring.eq_none_iff {head : Option α} {l : List α} (h : Ring next head l) :
    head = none ↔ l = [] := by
  rw [h.head_eq, List.head?_eq_none_iff]

omit [DecidableEq α] in
theorem Ring.length_le_card [Fintype α] {head : Option α} {l : List α} (h : Ring next head l) :
    l.length ≤ Fintype.card α :=
  h.2.length_le_card

omit [DecidableEq α] in
theorem ring_nil : Ring next none [] := ⟨rfl, List.nodup_nil⟩

theorem ring_singleton (a : α) : Ring (Function.update next a (some a)) (some a) [a] := by
  simp [Ring]

theorem Ring.insert {h a : α} {l : List α} (hr : Ring next (some h) (h :: l))
    (ha : a ∉ h :: l) :
    Ring (Function.update (Function.update next a (next h)) h (some a)) (some h) (h :: a :: l) := by
  obtain ⟨⟨-, hs⟩, hn⟩ := hr
  have hne : a ≠ h := fun e => ha (by simp [e])
  have hh : h ∉ l := (List.nodup_cons.mp hn).1
  have hal : a ∉ l := fun e => ha (by simp [e])
  refine ⟨⟨rfl, ?_⟩, ?_⟩
  · simp only [Function.update_self, seg_cons, true_and]
    rw [Function.update_of_ne hne, Function.update_self]
    exact (hs.update hal).update hh
  · simp only [List.nodup_cons, List.mem_cons, not_or]
    exact ⟨⟨hne.symm, hh⟩, hal, (List.nodup_cons.mp hn).2⟩

omit [DecidableEq α] in
theorem exists_predecessor {h a : α} {l : List α} (ha : a ∈ l) :
    ∃ l₁ b l₂, h :: l = l₁ ++ b :: a :: l₂ := by
  obtain ⟨as, bs, rfl⟩ := List.append_of_mem ha
  obtain hnil | ⟨l₁, b, hb⟩ := List.eq_nil_or_concat (h :: as)
  · cases hnil
  · exact ⟨l₁, b, bs, by rw [← List.cons_append, hb]; simp⟩

/-- Unlinking a cell other than the entry cell through its predecessor. -/
theorem Ring.unlink {h b a : α} {l₁ l₂ : List α} {v : Option α}
    (hr : Ring next (some h) (l₁ ++ b :: a :: l₂)) :
    Ring (Function.update (Function.update next b (next a)) a v) (some h) (l₁ ++ b :: l₂) := by
  obtain ⟨hs, hn⟩ := hr
  obtain ⟨m, hl₁, hm⟩ := seg_append.mp hs
  obtain ⟨rfl, hb, hl₂⟩ := hm
  have hsub : (l₁ ++ b :: l₂).Sublist (l₁ ++ b :: a :: l₂) := by simp
  have hn' : (l₁ ++ b :: l₂).Nodup := hn.sublist hsub
  have hab : a ∉ l₁ ++ b :: l₂ := by
    have hp : (a :: (l₁ ++ b :: l₂)).Nodup := by
      refine (List.Perm.nodup_iff ?_).mp hn
      exact (List.perm_append_comm_assoc l₁ [b, a] l₂).trans
        ((List.Perm.swap a b _).trans (((List.perm_append_comm_assoc [b] l₁ l₂)).cons a))
    exact (List.nodup_cons.mp hp).1
  have hbl : b ∉ l₁ ∧ b ∉ l₂ := by
    have := List.nodup_middle.mp hn'
    simpa using (List.nodup_cons.mp this).1
  have hhead : (l₁ ++ b :: l₂).head? = (l₁ ++ b :: a :: l₂).head? := by
    cases l₁ <;> rfl
  refine ⟨?_, hn'⟩
  apply Seg.update _ hab
  rw [hhead]
  refine seg_append.mpr ⟨some b, hl₁.update hbl.1, rfl, ?_⟩
  rw [Function.update_self]
  exact hl₂.update hbl.2

end Ring

section Reach

omit [DecidableEq α]

/-- The cells met when following `next` from `p`. -/
inductive Reach (next : α → Option α) (p : Option α) : α → Prop
  | root {a : α} : p = some a → Reach next p a
  | step {a b : α} : Reach next p a → next a = some b → Reach next p b

/-- No link of a cell in `R` leaves `R`. -/
def Closed (next : α → Option α) (R : Set α) : Prop :=
  ∀ a ∈ R, ∀ b, next a = some b → b ∈ R

theorem closed_reach (next : α → Option α) (p : Option α) : Closed next {a | Reach next p a} :=
  fun _ ha _ hb => Reach.step ha hb

theorem Closed.reach_subset {R : Set α} {p : Option α} (hR : Closed next R)
    (hp : ∀ a, p = some a → a ∈ R) {a : α} (ha : Reach next p a) : a ∈ R := by
  induction ha with
  | root h => exact hp _ h
  | step _ hb ih => exact hR _ ih _ hb

theorem not_reach_none (a : α) : ¬ Reach next none a := by
  intro h
  have hR : Closed next (∅ : Set α) := fun _ ha => ha.elim
  exact hR.reach_subset (by simp) h

theorem Reach.of_next {a b : α} (h : Reach next (next a) b) : Reach next (some a) b := by
  induction h with
  | root h => exact .step (.root rfl) h
  | step _ hb ih => exact .step ih hb

theorem Reach.exists_seg {p : Option α} {a : α} (h : Reach next p a) :
    ∃ l, Seg next p l (some a) ∧ a ∉ l ∧ l.Nodup := by
  induction h with
  | root h => exact ⟨[], h, by simp, List.nodup_nil⟩
  | @step a b _ hb ih =>
    obtain ⟨l, hs, ha, hl⟩ := ih
    have hsb : Seg next p (l ++ [a]) (some b) := seg_append.mpr ⟨some a, hs, rfl, hb⟩
    have hlb : (l ++ [a]).Nodup := by
      simpa using hl.concat ha
    by_cases hm : b ∈ l ++ [a]
    · -- the way comes past `b` already: stop there
      obtain ⟨l₁, l₂, hl₁, hb₁⟩ := List.eq_append_cons_of_mem hm
      rw [hl₁] at hsb hlb
      obtain ⟨m, hs₁, rfl, -⟩ := seg_append.mp hsb
      exact ⟨l₁, hs₁, hb₁, hlb.of_append_left⟩
    · exact ⟨l ++ [a], hsb, hm, hlb⟩

theorem Seg.reach {p q : Option α} {l : List α} (h : Seg next p l q) {a : α} (ha : a ∈ l) :
    Reach next p a := by
  obtain ⟨l₁, l₂, rfl⟩ := List.append_of_mem ha
  clear ha
  induction l₁ generalizing p with
  | nil => exact .root h.1
  | cons b l₁ ih =>
    obtain ⟨rfl, h⟩ := h
    exact (ih h).of_next

theorem Seg.next_mem {p q : Option α} {l : List α} (h : Seg next p l q) {a b : α} (ha : a ∈ l)
    (hb : next a = some b) : b ∈ l ∨ q = some b := by
  induction l generalizing p with
  | nil => cases ha
  | cons c l ih =>
    rcases List.mem_cons.mp ha with rfl | ha
    · cases l with
      | nil => exact Or.inr ((seg_nil.mp h.2).symm.trans hb)
      | cons d l =>
        have hd := h.2.1
        rw [hb] at hd
        simp [Option.some.inj hd]
    · exact (ih h.2 ha).imp_left (List.mem_cons_of_mem _)

theorem Seg.mem_of_reach {p : Option α} {l : List α} (h : Seg next p l none) {a : α}
    (ha : Reach next p a) : a ∈ l := by
  have hclosed : Closed next {a | a ∈ l} := fun a ha b hb => (h.next_mem ha hb).resolve_right nofun
  refine hclosed.reach_subset (fun b hb => ?_) ha
  cases l with
  | nil => cases h.symm.trans hb
  | cons c l =>
    obtain rfl := Option.some.inj (h.1.symm.trans hb)
    simp

theorem Closed.update [DecidableEq α] {R : Set α} {a : α} {v : Option α} (hR : Closed next R)
    (hv : ∀ b, v = some b → b ∈ R) : Closed (Function.update next a v) R := by
  intro c hc b hb
  by_cases hca : c = a
  · subst hca
    rw [Function.update_self] at hb
    exact hv b hb
  · rw [Function.update_of_ne hca] at hb
    exact hR c hc b hb

theorem Closed.insert {R : Set α} {a : α} (hR : Closed next R)
    (ha : ∀ b, next a = some b → b ∈ R ∨ b = a) : Closed next (insert a R) := by
  rintro c (rfl | hc) b hb
  · exact (ha b hb).elim Or.inr Or.inl
  · exact Or.inr (hR c hc b hb)

theorem Ring.closed {head : Option α} {l : List α} (h : Ring next head l) :
    Closed next {a | a ∈ l} := by
  intro a ha b hb
  rcases h.1.next_mem ha hb with hl | hl
  · exact hl
  · exact List.mem_of_head? hl

end Reach

end OpenKernel.Linked
