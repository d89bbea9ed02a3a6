import Mathlib.Data.List.Basic
import Mathlib.Data.List.Induction

/-!
# Labelled walks from a root

A path is a list of labels, followed from the root edge by edge. In a tree every
node is at the end of one path only; adding or removing a leaf adds or removes
exactly the path to that leaf.
-/

namespace OpenKernel

variable {ν κ : Type*}

/-- The path `p` leads from `root` to a node. -/
inductive Walk (edge : ν → κ → ν → Prop) (root : ν) : List κ → ν → Prop
  | nil : Walk edge root [] root
  | snoc {p : List κ} {u v : ν} {k : κ} :
      Walk edge root p u → edge u k v → Walk edge root (p ++ [k]) v

/-- The edges of a tree: one child for each label, one incoming edge for each node, and none
into the root. -/
structure IsTree (edge : ν → κ → ν → Prop) (root : ν) : Prop where
  child : ∀ u k v w, edge u k v → edge u k w → v = w
  parent : ∀ u k u' k' v, edge u k v → edge u' k' v → u = u' ∧ k = k'
  root : ∀ u k, ¬ edge u k root

namespace Walk

variable {edge edge' : ν → κ → ν → Prop} {root : ν} {p q : List κ} {k : κ} {u v : ν}

theorem nil_iff : Walk edge root [] v ↔ v = root := by
  constructor
  · intro h
    generalize hp : ([] : List κ) = p at h
    cases h with
    | nil => rfl
    | snoc _ _ => simp at hp
  · rintro rfl
    exact .nil

theorem snoc_iff : Walk edge root (p ++ [k]) v ↔ ∃ u, Walk edge root p u ∧ edge u k v := by
  constructor
  · intro h
    generalize hp : p ++ [k] = q at h
    cases h with
    | nil => simp at hp
    | snoc hu he =>
      obtain ⟨rfl, hk⟩ := List.append_inj' hp rfl
      obtain rfl : k = _ := List.singleton_inj.mp hk
      exact ⟨_, hu, he⟩
  · rintro ⟨u, hu, he⟩
    exact .snoc hu he

theorem functional (ht : IsTree edge root) (hu : Walk edge root p u) (hv : Walk edge root p v) :
    u = v := by
  induction hu generalizing v with
  | nil => exact (nil_iff.mp hv).symm
  | snoc _ he ih =>
    obtain ⟨w, hw, he'⟩ := snoc_iff.mp hv
    obtain rfl := ih hw
    exact ht.child _ _ _ _ he he'

theorem path_unique (ht : IsTree edge root) (hp : Walk edge root p v) (hq : Walk edge root q v) :
    p = q := by
  induction hp generalizing q with
  | nil =>
    cases hq with
    | nil => rfl
    | snoc _ he => exact absurd he (ht.root _ _)
  | snoc _ he ih =>
    cases hq with
    | nil => exact absurd he (ht.root _ _)
    | snoc hw he' =>
      obtain ⟨rfl, rfl⟩ := ht.parent _ _ _ _ _ he he'
      rw [ih hw]

theorem mono (himp : ∀ u k v, edge u k v → edge' u k v) (h : Walk edge root p v) :
    Walk edge' root p v := by
  induction h with
  | nil => exact .nil
  | snoc _ he ih => exact .snoc ih (himp _ _ _ he)

/-- A new leaf `b` below `a` adds the path to `b`. -/
theorem add_leaf {a b : ν} {c : κ}
    (hedge : ∀ u k v, edge' u k v ↔ edge u k v ∨ u = a ∧ k = c ∧ v = b)
    (hout : ∀ k v, ¬ edge b k v) (hab : a ≠ b) (hb : b ≠ root)
    (hin : ∀ u k, ¬ edge u k b) (ht : IsTree edge root) (ha : Walk edge root p a) :
    Walk edge' root q v ↔ Walk edge root q v ∨ q = p ++ [c] ∧ v = b := by
  have hnot : ∀ q, ¬ Walk edge root q b := by
    intro q hq
    cases hq with
    | nil => exact hb rfl
    | snoc _ he => exact hin _ _ he
  have hmono : ∀ {q v}, Walk edge root q v → Walk edge' root q v :=
    fun h => h.mono fun u k v he => (hedge u k v).mpr (Or.inl he)
  constructor
  · intro h
    induction h with
    | nil => exact Or.inl .nil
    | @snoc q u v k _ he ih =>
      rcases (hedge u k v).mp he with he | ⟨rfl, rfl, rfl⟩
      · rcases ih with hu | ⟨-, rfl⟩
        · exact Or.inl (.snoc hu he)
        · exact absurd he (hout _ _)
      · rcases ih with hu | ⟨-, rfl⟩
        · exact Or.inr ⟨by rw [path_unique ht ha hu], rfl⟩
        · exact absurd rfl hab
  · rintro (h | ⟨rfl, rfl⟩)
    · exact hmono h
    · exact .snoc (hmono ha) ((hedge _ _ _).mpr (Or.inr ⟨rfl, rfl, rfl⟩))

theorem remove_leaf {b : ν} (hedge : ∀ u k v, edge' u k v ↔ edge u k v ∧ v ≠ b)
    (hout : ∀ k v, ¬ edge b k v) (hb : b ≠ root) :
    Walk edge' root q v ↔ Walk edge root q v ∧ v ≠ b := by
  constructor
  · intro h
    induction h with
    | nil => exact ⟨.nil, hb.symm⟩
    | snoc _ he ih =>
      obtain ⟨he, hv⟩ := (hedge _ _ _).mp he
      exact ⟨.snoc ih.1 he, hv⟩
  · rintro ⟨h, hv⟩
    induction h with
    | nil => exact .nil
    | snoc _ he ih =>
      refine .snoc (ih ?_) ((hedge _ _ _).mpr ⟨he, hv⟩)
      rintro rfl
      exact hout _ _ he

theorem exists_path (good : ν → Prop) (depth : ν → ℕ)
    (hparent : ∀ v, good v → v ≠ root → ∃ u k, good u ∧ depth u < depth v ∧ edge u k v)
    (hv : good v) : ∃ p, Walk edge root p v := by
  induction hd : depth v using Nat.strongRecOn generalizing v with
  | ind d ih =>
    by_cases hroot : v = root
    · rw [hroot]
      exact ⟨[], .nil⟩
    · obtain ⟨u, k, hu, hlt, he⟩ := hparent v hv hroot
      obtain ⟨p, hp⟩ := ih (depth u) (hd ▸ hlt) hu rfl
      exact ⟨p ++ [k], .snoc hp he⟩

end Walk

end OpenKernel
