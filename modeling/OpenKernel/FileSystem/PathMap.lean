import Mathlib.Data.Set.Card
import Mathlib.Logic.Function.Basic

/-!
# A bounded map from paths

What a file system with a fixed table of entries is for: a finite map from paths
to directories and files. A path is the list of its names and the root is the empty
path. Requests are allowed or not, and what an allowed request does is one update.
-/

namespace OpenKernel

open Function

inductive Entry (β : Type*)
  | dir
  | file (bytes : List β)

abbrev PathMap (κ β : Type*) := List κ → Option (Entry β)

namespace PathMap

variable {κ β : Type*}

inductive Request (κ β : Type*)
  | cd (p : List κ)
  | mkdir (p : List κ)
  | touch (p : List κ)
  | rm (p : List κ)
  | write (p : List κ) (bytes : List β)
  | append (p : List κ) (bytes : List β)

/-- How many entries there may be besides the root, and the names for new entries and files. -/
structure Rules (κ : Type*) where
  capacity : ℕ
  newName : κ → Prop
  fileName : κ → Prop

def entries (m : PathMap κ β) : Set (List κ) := {p | p ≠ [] ∧ m p ≠ none}

def IsFile (m : PathMap κ β) (p : List κ) : Prop := ∃ bytes, m p = some (.file bytes)

/-- A new entry fits at `p`, in an existing directory. -/
def Creatable (rules : Rules κ) (m : PathMap κ β) (p : List κ) (named : κ → Prop) : Prop :=
  m p = none ∧ (entries m).ncard < rules.capacity ∧
    ∃ q c, p = q ++ [c] ∧ m q = some .dir ∧ rules.newName c ∧ named c

def Allowed (rules : Rules κ) (m : PathMap κ β) : Request κ β → Prop
  | .cd p => m p = some .dir
  | .mkdir p => Creatable rules m p fun _ => True
  | .touch p => IsFile m p ∨ Creatable rules m p rules.fileName
  | .rm p => IsFile m p ∨ p ≠ [] ∧ m p = some .dir ∧ ∀ c, m (p ++ [c]) = none
  | .write p _ => IsFile m p ∨ Creatable rules m p rules.fileName
  | .append p _ => IsFile m p

/-- The bytes of the file at `p`, none for a file that is still to be created. -/
def bytesAt (m : PathMap κ β) (p : List κ) : List β :=
  match m p with
  | some (.file bytes) => bytes
  | _ => []

/-- Every entry is in a directory, and there are no more than there may be. -/
structure WellFormed (rules : Rules κ) (m : PathMap κ β) : Prop where
  root : m [] = some .dir
  parent : ∀ p c, m (p ++ [c]) ≠ none → m p = some .dir
  finite : (entries m).Finite
  room : (entries m).ncard ≤ rules.capacity

namespace WellFormed

variable {rules : Rules κ} {m : PathMap κ β} {p : List κ}

theorem ne_nil_of_isFile (h : WellFormed rules m) (hp : IsFile m p) : p ≠ [] := by
  rintro rfl
  obtain ⟨bytes, hb⟩ := hp
  rw [h.root] at hb
  cases hb

theorem child_of_isFile (h : WellFormed rules m) (hp : IsFile m p) (c : κ) :
    m (p ++ [c]) = none := by
  by_contra hc
  obtain ⟨bytes, hb⟩ := hp
  rw [h.parent p c hc] at hb
  cases hb

end WellFormed

def rootOnly : PathMap κ β
  | [] => some .dir
  | _ => none

theorem entries_rootOnly : entries (rootOnly : PathMap κ β) = ∅ := by
  ext p
  cases p <;> simp [entries, rootOnly]

theorem wellFormed_rootOnly (rules : Rules κ) : WellFormed rules (rootOnly : PathMap κ β) := by
  refine ⟨rfl, fun p c hc => ?_, ?_, ?_⟩
  · cases p <;> exact absurd rfl hc
  · rw [entries_rootOnly]
    exact Set.finite_empty
  · rw [entries_rootOnly, Set.ncard_empty]
    exact Nat.zero_le _

section Effects

variable [DecidableEq κ]

theorem entries_update_some (m : PathMap κ β) {p : List κ} (hp : p ≠ []) (e : Entry β) :
    entries (update m p (some e)) = insert p (entries m) := by
  ext q
  by_cases hq : q = p
  · simp [entries, hq, hp]
  · simp [entries, hq]

theorem ncard_update_some_le (m : PathMap κ β) {p : List κ} (hp : p ≠ []) (e : Entry β) :
    (entries (update m p (some e))).ncard ≤ (entries m).ncard + 1 := by
  rw [entries_update_some m hp]
  exact Set.ncard_insert_le _ _

def effect (m : PathMap κ β) : Request κ β → PathMap κ β
  | .cd _ => m
  | .mkdir p => update m p (some .dir)
  | .touch p => update m p (some (.file (bytesAt m p)))
  | .rm p => update m p none
  | .write p bytes => update m p (some (.file bytes))
  | .append p bytes => update m p (some (.file (bytesAt m p ++ bytes)))

open Classical in
/-- The map after a request; one that is not allowed changes nothing. -/
noncomputable def after (rules : Rules κ) (m : PathMap κ β) (req : Request κ β) : PathMap κ β :=
  if Allowed rules m req then effect m req else m

theorem after_of_allowed {rules : Rules κ} {m : PathMap κ β} {req : Request κ β}
    (h : Allowed rules m req) : after rules m req = effect m req := if_pos h

theorem after_of_not_allowed {rules : Rules κ} {m : PathMap κ β} {req : Request κ β}
    (h : ¬ Allowed rules m req) : after rules m req = m := if_neg h

namespace WellFormed

variable {rules : Rules κ} {m : PathMap κ β} {p : List κ}

theorem overwrite (h : WellFormed rules m) (hp : IsFile m p) (bytes : List β) :
    WellFormed rules (update m p (some (.file bytes))) := by
  have hnil := h.ne_nil_of_isFile hp
  have hentries : entries (update m p (some (.file bytes))) = entries m := by
    obtain ⟨old, hold⟩ := hp
    rw [entries_update_some m hnil]
    exact Set.insert_eq_of_mem ⟨hnil, by simp [hold]⟩
  refine ⟨?_, fun q c hc => ?_, hentries ▸ h.finite, hentries ▸ h.room⟩
  · rw [update_of_ne hnil.symm]
    exact h.root
  · have hchild : m (q ++ [c]) ≠ none := by
      by_cases hqc : q ++ [c] = p
      · obtain ⟨old, hold⟩ := hp
        simp [hqc, hold]
      · rwa [update_of_ne hqc] at hc
    have hq : q ≠ p := by
      rintro rfl
      exact hchild (h.child_of_isFile hp c)
    rw [update_of_ne hq]
    exact h.parent q c hchild

theorem insert {named : κ → Prop} (h : WellFormed rules m) (hp : Creatable rules m p named)
    (e : Entry β) : WellFormed rules (update m p (some e)) := by
  obtain ⟨hnone, hroom, q, c, rfl, hq, -, -⟩ := hp
  have hentries := entries_update_some m (p := q ++ [c]) (by simp) e
  have hchild : ∀ d, m (q ++ [c] ++ [d]) = none := by
    intro d
    by_contra hd
    rw [h.parent _ d hd] at hnone
    cases hnone
  refine ⟨?_, fun p d hd => ?_, ?_, ?_⟩
  · rw [update_of_ne (by simp)]
    exact h.root
  · have hp : p ≠ q ++ [c] := by
      rintro rfl
      rw [update_of_ne (by simp), hchild d] at hd
      exact hd rfl
    rw [update_of_ne hp]
    by_cases hpd : p ++ [d] = q ++ [c]
    · rw [(List.append_inj' hpd rfl).1]
      exact hq
    · rw [update_of_ne hpd] at hd
      exact h.parent p d hd
  · rw [hentries]
    exact h.finite.insert _
  · exact (ncard_update_some_le m (by simp) e).trans hroom

theorem erase (h : WellFormed rules m) (hp : p ≠ []) (hleaf : ∀ c, m (p ++ [c]) = none) :
    WellFormed rules (update m p none) := by
  have hsub : entries (update m p none) ⊆ entries m := by
    intro q hq
    by_cases hqp : q = p
    · exact absurd (by simp [hqp]) hq.2
    · exact ⟨hq.1, by simpa [hqp] using hq.2⟩
  refine ⟨?_, fun q c hc => ?_, h.finite.subset hsub, ?_⟩
  · rw [update_of_ne hp.symm]
    exact h.root
  · have hqc : q ++ [c] ≠ p := by
      intro hqc
      exact hc (by simp [hqc])
    rw [update_of_ne hqc] at hc
    have hq : q ≠ p := by
      rintro rfl
      exact hc (hleaf c)
    rw [update_of_ne hq]
    exact h.parent q c hc
  · exact (Set.ncard_le_ncard hsub h.finite).trans h.room

theorem after (h : WellFormed rules m) (req : Request κ β) :
    WellFormed rules (after rules m req) := by
  by_cases hallowed : Allowed rules m req
  · rw [after_of_allowed hallowed]
    cases req with
    | cd p => exact h
    | mkdir p => exact h.insert hallowed .dir
    | touch p =>
      rcases hallowed with hfile | hnew
      · exact h.overwrite hfile _
      · exact h.insert hnew _
    | rm p =>
      rcases hallowed with hfile | ⟨hp, -, hleaf⟩
      · exact h.erase (h.ne_nil_of_isFile hfile) (h.child_of_isFile hfile)
      · exact h.erase hp hleaf
    | write p bytes =>
      rcases hallowed with hfile | hnew
      · exact h.overwrite hfile bytes
      · exact h.insert hnew _
    | append p bytes => exact h.overwrite hallowed _
  · rw [after_of_not_allowed hallowed]
    exact h

end WellFormed

end Effects

end PathMap

end OpenKernel
