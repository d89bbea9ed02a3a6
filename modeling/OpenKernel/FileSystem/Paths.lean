import OpenKernel.FileSystem.Model
import Mathlib.Data.List.TakeWhile

/-!
# Path resolution

`fs_resolve` enters the non-empty components of its path one after the other,
and `fs_resolve_parent` does so with all but what follows the last slash.
-/

namespace OpenKernel.FileSystem

/-- The non-empty parts of a path between slashes. -/
def components (path : Bytes) : List Bytes := (path.splitOn slash).filter (· ≠ [])

/-- A round of `fs_resolve`. -/
def enterComponent (s : Okfs) (cur : Slot) (component : Bytes) : Except FsError Slot :=
  if fsMaxName - 1 < component.length then .error .invalid else fsEnter s cur component

section Components

variable {xs path : Bytes}

theorem components_append (xs ys : Bytes) :
    components (xs ++ slash :: ys) = components xs ++ components ys := by
  unfold components
  rw [List.splitOn_append_cons_self, List.filter_append]

@[simp] theorem components_nil : components [] = [] := by
  simp [components]

theorem components_slash : components (slash :: path) = components path := by
  have h := components_append [] path
  simpa using h

theorem components_of_not_mem (h : slash ∉ xs) (hne : xs ≠ []) : components xs = [xs] := by
  unfold components
  rw [List.splitOn_eq_singleton h]
  simp [hne]

theorem components_dropWhile : components (path.dropWhile (· = slash)) = components path := by
  induction path with
  | nil => rfl
  | cons c path ih =>
    by_cases hc : c = slash
    · subst hc
      rw [components_slash, ← ih]
      simp
    · simp [hc]

theorem not_mem_takeWhile : slash ∉ path.takeWhile (· ≠ slash) := by
  intro h
  have hs := List.mem_takeWhile_imp h
  simp at hs

/-- The first component and the rest behind its slashes. -/
theorem components_eq_cons (path : Bytes) :
    components path = (if path.takeWhile (· ≠ slash) = [] then []
      else [path.takeWhile (· ≠ slash)]) ++
      components ((path.dropWhile (· ≠ slash)).dropWhile (· = slash)) := by
  have hsplit := List.takeWhile_append_dropWhile (p := fun c => decide (c ≠ slash)) (l := path)
  have hfirst : components (path.takeWhile (· ≠ slash)) =
      if path.takeWhile (· ≠ slash) = [] then [] else [path.takeWhile (· ≠ slash)] := by
    split_ifs with h
    · rw [h, components_nil]
    · exact components_of_not_mem not_mem_takeWhile h
  rw [components_dropWhile, ← hfirst]
  cases hd : path.dropWhile (· ≠ slash) with
  | nil =>
    rw [hd, List.append_nil] at hsplit
    rw [hsplit, components_nil, List.append_nil]
  | cons c rest =>
    have hc : c = slash := by
      have hhead := List.head?_dropWhile_not (fun c => decide (c ≠ slash)) path
      rw [hd] at hhead
      simpa using hhead
    subst hc
    rw [hd] at hsplit
    rw [components_slash, ← components_append, hsplit]

theorem length_rest_lt (hne : path ≠ []) :
    ((path.dropWhile (· ≠ slash)).dropWhile (· = slash)).length < path.length := by
  obtain ⟨c, rest, rfl⟩ := List.exists_cons_of_ne_nil hne
  by_cases hc : c = slash
  · rw [List.dropWhile_cons_of_neg (by simp [hc]), List.dropWhile_cons_of_pos (by simp [hc])]
    exact Nat.lt_succ_of_le (List.length_dropWhile_le _ rest)
  · rw [List.dropWhile_cons_of_pos (by simp [hc])]
    exact Nat.lt_succ_of_le
      ((List.length_dropWhile_le _ _).trans (List.length_dropWhile_le _ rest))

end Components

section Resolve

variable {s : Okfs} {cur start : Slot} {path : Bytes}

/-- The loop enters the components in order. -/
theorem fsResolveLoop_eq {rounds : ℕ} (hr : path.length < rounds) :
    fsResolveLoop s rounds cur path = (components path).foldlM (enterComponent s) cur := by
  induction rounds generalizing cur path with
  | zero => simp at hr
  | succ rounds ih =>
    by_cases hne : path = []
    · simp [fsResolveLoop, hne, pure, Except.pure]
    have hlen := length_rest_lt hne
    have hrec : ∀ next, fsResolveLoop s rounds next
        ((path.dropWhile (· ≠ slash)).dropWhile (· = slash)) =
        (components ((path.dropWhile (· ≠ slash)).dropWhile (· = slash))).foldlM
          (enterComponent s) next :=
      fun next => ih (by omega)
    rw [fsResolveLoop, if_neg hne, components_eq_cons]
    dsimp only
    by_cases hc : path.takeWhile (· ≠ slash) = []
    · rw [if_pos hc, hc]
      simpa [fsEnter] using hrec cur
    · rw [if_neg hc, List.foldlM_append, List.foldlM_cons]
      simp only [List.foldlM_nil, bind_pure, enterComponent]
      split_ifs
      · rfl
      · cases fsEnter s cur (path.takeWhile (· ≠ slash)) with
        | error err => rfl
        | ok next => exact hrec next

theorem fsResolve_eq (hne : path ≠ []) (wantDir : Bool) :
    fsResolve s start path wantDir =
      (components path).foldlM (enterComponent s) (if path.head? = some slash then 0 else start) >>=
        fun id => if wantDir ∧ (s.nodes id).type ≠ .dir then .error .notDir else .ok id := by
  have hlen := List.length_dropWhile_le (fun c => decide (c = slash)) path
  rw [fsResolve, if_neg hne]
  dsimp only
  rw [fsResolveLoop_eq (by omega), components_dropWhile]
  cases (components path).foldlM (enterComponent s)
    (if path.head? = some slash then 0 else start) <;> rfl

theorem fsResolve_congr {t : Okfs} (hn : t.nodes = s.nodes) (start : Slot) (path : Bytes)
    (wantDir : Bool) :
    fsResolve t start path wantDir = fsResolve s start path wantDir := by
  have henter : enterComponent t = enterComponent s := by
    funext cur c
    unfold enterComponent fsEnter fsFindChild
    rw [hn]
  by_cases hne : path = []
  · simp [fsResolve, hne]
  · rw [fsResolve_eq hne, fsResolve_eq hne, henter, hn]

theorem fsResolveParent_congr {t : Okfs} (hn : t.nodes = s.nodes) (hcwd : t.cwd = s.cwd)
    (path : Bytes) : fsResolveParent t path = fsResolveParent s path := by
  unfold fsResolveParent
  rw [hcwd]
  simp only [fsResolve_congr hn]

theorem foldlM_enterComponent (p : Slot → Prop)
    (henter : ∀ cur c next, p cur → enterComponent s cur c = .ok next → p next)
    {comps : List Bytes} {id : Slot} (hcur : p cur)
    (h : comps.foldlM (enterComponent s) cur = .ok id) : p id := by
  induction comps generalizing cur with
  | nil =>
    cases h
    exact hcur
  | cons c comps ih =>
    rw [List.foldlM_cons] at h
    cases hc : enterComponent s cur c with
    | error err =>
      rw [hc] at h
      cases h
    | ok next =>
      rw [hc] at h
      exact ih (henter cur c next hcur hc) h

theorem fsResolve_ok {wantDir : Bool} {id : Slot} (p : Slot → Prop)
    (henter : ∀ cur c next, p cur → enterComponent s cur c = .ok next → p next)
    (h0 : p 0) (hstart : p start) (h : fsResolve s start path wantDir = .ok id) :
    p id ∧ (wantDir = true → (s.nodes id).type = .dir) := by
  by_cases hne : path = []
  · simp [fsResolve, hne] at h
  rw [fsResolve_eq hne] at h
  cases hw : (components path).foldlM (enterComponent s)
      (if path.head? = some slash then 0 else start) with
  | error err =>
    rw [hw] at h
    cases h
  | ok end_ =>
    rw [hw] at h
    have hp : p end_ := by
      refine foldlM_enterComponent p henter ?_ hw
      split_ifs
      · exact h0
      · exact hstart
    change (if _ then _ else _) = _ at h
    split_ifs at h with hd
    cases h
    refine ⟨hp, fun hw => ?_⟩
    by_contra hdir
    exact hd ⟨hw, hdir⟩

theorem fsStrcpy_of_lt {name : Bytes} {max : ℕ} (hlen : name.length < max) :
    fsStrcpy name max = name :=
  List.take_of_length_le (by omega)

def lastName (path : Bytes) : Bytes := (path.reverse.takeWhile (· ≠ slash)).reverse

theorem all_ne_slash (h : slash ∉ path) : ∀ x ∈ path.reverse, decide (x ≠ slash) = true := by
  intro x hx
  apply decide_eq_true
  rintro rfl
  exact h (List.mem_reverse.mp hx)

theorem lastName_of_not_mem (h : slash ∉ path) : lastName path = path := by
  unfold lastName
  rw [List.takeWhile_eq_self_iff.mpr (all_ne_slash h), List.reverse_reverse]

theorem slash_not_mem_lastName : slash ∉ lastName path := by
  intro h
  exact not_mem_takeWhile (List.mem_reverse.mp h)

/-- A path is a name, or something in front of its last slash and a name. -/
theorem eq_lastName_or_append (path : Bytes) :
    slash ∉ path ∨ ∃ front, path = front ++ slash :: lastName path := by
  have hsplit := List.takeWhile_append_dropWhile (p := fun c => decide (c ≠ slash))
    (l := path.reverse)
  cases hd : path.reverse.dropWhile (· ≠ slash) with
  | nil =>
    left
    rw [hd, List.append_nil] at hsplit
    intro h
    rw [← List.mem_reverse, ← hsplit] at h
    exact not_mem_takeWhile h
  | cons c rest =>
    right
    have hc : c = slash := by
      have hhead := List.head?_dropWhile_not (fun c => decide (c ≠ slash)) path.reverse
      rw [hd] at hhead
      simpa using hhead
    subst hc
    rw [hd] at hsplit
    refine ⟨rest.reverse, ?_⟩
    have hrev := congrArg List.reverse hsplit
    rw [List.reverse_append, List.reverse_reverse, List.reverse_cons, List.append_assoc] at hrev
    exact hrev.symm

theorem fsResolveParent_of_not_mem (h : slash ∉ path) (hlen : path.length < fsMaxPath) :
    fsResolveParent s path = .ok (s.cwd, fsStrcpy path fsMaxName) := by
  have hall := all_ne_slash h
  rw [fsResolveParent, if_neg (by omega), List.takeWhile_eq_self_iff.mpr hall,
    List.dropWhile_eq_nil_iff.mpr hall, List.reverse_reverse]

/-- `fs_resolve_parent` walks down the components in front of the last slash. -/
theorem fsResolveParent_append {front name : Bytes} (h : slash ∉ name)
    (hlen : (front ++ slash :: name).length < fsMaxPath) :
    fsResolveParent s (front ++ slash :: name) =
      (components front).foldlM (enterComponent s)
        (if (front ++ slash :: name).head? = some slash then 0 else s.cwd) >>= fun id =>
          if (s.nodes id).type ≠ .dir then .error .notDir
          else .ok (id, fsStrcpy name fsMaxName) := by
  have hrev : (front ++ slash :: name).reverse = name.reverse ++ slash :: front.reverse := by
    simp
  have hall := all_ne_slash h
  have htake : (front ++ slash :: name).reverse.takeWhile (· ≠ slash) = name.reverse := by
    rw [hrev, List.takeWhile_append_of_pos hall]
    simp
  have hdrop : (front ++ slash :: name).reverse.dropWhile (· ≠ slash) = slash :: front.reverse := by
    rw [hrev, List.dropWhile_append_of_pos hall]
    simp
  have hresolve : fsResolve s (if (front ++ slash :: name).head? = some slash then 0 else s.cwd)
      (if front.reverse = [] then [slash] else front.reverse.reverse) true =
        (components front).foldlM (enterComponent s)
          (if (front ++ slash :: name).head? = some slash then 0 else s.cwd) >>= fun id =>
            if (s.nodes id).type ≠ .dir then .error .notDir else .ok id := by
    cases front with
    | nil =>
      have hroot : components [slash] = components [] := components_slash
      rw [if_pos List.reverse_nil, fsResolve_eq (by simp), hroot]
      simp
    | cons c front =>
      have hne : (c :: front).reverse ≠ [] := by simp
      rw [if_neg hne, List.reverse_reverse, fsResolve_eq (by simp)]
      by_cases hc : c = slash
      · simp [hc]
      · simp [hc]
  rw [fsResolveParent, if_neg (by omega), htake, hdrop]
  dsimp only
  rw [hresolve, List.reverse_reverse]
  cases (components front).foldlM (enterComponent s)
      (if (front ++ slash :: name).head? = some slash then 0 else s.cwd) with
  | error err => rfl
  | ok id =>
    by_cases hdir : (s.nodes id).type = .dir
    · simp [bind, Except.bind, hdir]
    · simp [bind, Except.bind, hdir]

/-- A path that is entered to its end has short components only. -/
theorem length_of_foldlM {comps : List Bytes} {id : Slot}
    (h : comps.foldlM (enterComponent s) cur = .ok id) : ∀ c ∈ comps, c.length < fsMaxName := by
  induction comps generalizing cur with
  | nil =>
    intro c hc
    cases hc
  | cons d comps ih =>
    rw [List.foldlM_cons] at h
    cases hd : enterComponent s cur d with
    | error err =>
      rw [hd] at h
      cases h
    | ok next =>
      rw [hd] at h
      intro c hc
      rcases List.mem_cons.mp hc with rfl | hc
      · unfold enterComponent at hd
        split_ifs at hd with hlong
        unfold fsMaxName at hlong ⊢
        omega
      · exact ih h c hc

theorem length_of_fsResolve {wantDir : Bool} {id : Slot}
    (h : fsResolve s start path wantDir = .ok id) :
    ∀ c ∈ components path, c.length < fsMaxName := by
  by_cases hne : path = []
  · simp [hne]
  rw [fsResolve_eq hne] at h
  cases hw : (components path).foldlM (enterComponent s)
      (if path.head? = some slash then 0 else start) with
  | error err =>
    rw [hw] at h
    cases h
  | ok id => exact length_of_foldlM hw

theorem length_lastName_le (path rest : Bytes) (hne : lastName path ≠ []) :
    ∃ c ∈ components (path ++ rest), (lastName path).length ≤ c.length := by
  have hstart : ∃ c ∈ components (lastName path ++ rest), (lastName path).length ≤ c.length := by
    have hall : ∀ x ∈ lastName path, decide (x ≠ slash) = true := by
      intro x hx
      apply decide_eq_true
      rintro rfl
      exact slash_not_mem_lastName hx
    refine ⟨lastName path ++ rest.takeWhile (· ≠ slash), ?_, by simp⟩
    rw [components_eq_cons, List.takeWhile_append_of_pos hall, if_neg (by simp [hne])]
    exact List.mem_append_left _ (List.mem_singleton_self _)
  obtain ⟨c, hc, hlen⟩ := hstart
  rcases eq_lastName_or_append path with hslash | ⟨front, hfront⟩
  · rw [lastName_of_not_mem hslash] at hc hlen ⊢
    exact ⟨c, hc, hlen⟩
  · refine ⟨c, ?_, hlen⟩
    rw [hfront, List.append_assoc, List.cons_append, components_append]
    exact List.mem_append_right _ hc

theorem length_lastName_lt (rest : Bytes)
    (hcomps : ∀ c ∈ components (path ++ rest), c.length < fsMaxName) :
    (lastName path).length < fsMaxName := by
  by_cases hne : lastName path = []
  · rw [hne]
    decide
  · obtain ⟨c, hc, hle⟩ := length_lastName_le path rest hne
    exact hle.trans_lt (hcomps c hc)

end Resolve

abbrev Path := List Bytes

/-- The components that are looked up as they are. -/
structure CleanName (c : Bytes) : Prop where
  ne_nil : c ≠ []
  length_lt : c.length < fsMaxName
  ne_dot : c ≠ dot
  ne_dotDot : c ≠ dotDot
  no_slash : slash ∉ c

/-- The text of a path: its names, each behind a slash, or one slash for the root. -/
def pathText (p : Path) : Bytes := if p = [] then [slash] else p.flatMap fun c => slash :: c

/-- An absolute path without empty components and without a slash at its end. -/
structure CleanPath (path : Bytes) : Prop where
  text : path = pathText (components path)
  length_lt : path.length < fsMaxPath
  name : ∀ c ∈ components path, c.length < fsMaxName ∧ c ≠ dot ∧ c ≠ dotDot

instance (path : Bytes) : Decidable (CleanPath path) :=
  decidable_of_iff (path = pathText (components path) ∧ path.length < fsMaxPath ∧
      ∀ c ∈ components path, c.length < fsMaxName ∧ c ≠ dot ∧ c ≠ dotDot)
    ⟨fun h => ⟨h.1, h.2.1, h.2.2⟩, fun h => ⟨h.text, h.length_lt, h.name⟩⟩

section Clean

variable {path c : Bytes} {p : Path}

theorem mem_components (hc : c ∈ components path) : c ≠ [] ∧ slash ∉ c := by
  induction hn : path.length using Nat.strongRecOn generalizing path with
  | ind n ih =>
    by_cases hne : path = []
    · simp [hne] at hc
    rw [components_eq_cons, List.mem_append] at hc
    rcases hc with hc | hc
    · split_ifs at hc with htake
      · cases hc
      · obtain rfl := List.mem_singleton.mp hc
        exact ⟨htake, not_mem_takeWhile⟩
    · exact ih _ (hn ▸ length_rest_lt hne) hc rfl

theorem CleanPath.cleanName (h : CleanPath path) (hc : c ∈ components path) : CleanName c := by
  obtain ⟨hlen, hdot, hdotDot⟩ := h.name c hc
  obtain ⟨hne, hslash⟩ := mem_components hc
  exact ⟨hne, hlen, hdot, hdotDot, hslash⟩

theorem components_flatMap (hp : ∀ c ∈ p, CleanName c) :
    components (p.flatMap fun c => slash :: c) = p := by
  induction p with
  | nil => simp
  | cons c p ih =>
    have hc := hp c List.mem_cons_self
    have hcomp := components_of_not_mem hc.no_slash hc.ne_nil
    have hrest := ih fun d hd => hp d (List.mem_cons_of_mem c hd)
    rw [List.flatMap_cons, List.cons_append, components_slash]
    cases p with
    | nil => simpa using hcomp
    | cons d p =>
      rw [List.flatMap_cons, List.cons_append, components_slash] at hrest
      rw [List.flatMap_cons, List.cons_append, components_append, hcomp, hrest]
      rfl

theorem components_pathText (hp : ∀ c ∈ p, CleanName c) : components (pathText p) = p := by
  unfold pathText
  split_ifs with hnil
  · rw [hnil, components_slash, components_nil]
  · exact components_flatMap hp

theorem head_pathText : ∃ rest, pathText p = slash :: rest := by
  unfold pathText
  cases p with
  | nil => exact ⟨[], rfl⟩
  | cons c p => exact ⟨c ++ p.flatMap fun c => slash :: c, by simp⟩

end Clean

end OpenKernel.FileSystem
