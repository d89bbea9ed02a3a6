import OpenKernel.FileSystem.Ownership
import OpenKernel.FileSystem.View
import Mathlib.Data.Nat.Digits.Lemmas

/-!
# Listing a directory

`fs_ls` emits a line for every child of a directory, put together in buffers of
fixed size. The names and sizes that entries can have fit into these buffers, so
that no line is cut, and the names that can be read off the lines are exactly those
that `fs_find_child` finds.
-/

namespace OpenKernel.FileSystem

/-- A loop that copies `part` behind `line` while there are fewer than `limit` bytes. -/
def copyUpTo (limit : ℕ) (line part : Bytes) : Bytes := line ++ part.take (limit - line.length)

/-- The digits of `v`, the last one first, as `num` holds them. -/
def sizeDigits : ℕ → ℕ → Bytes
  | 0, _ => []
  | rounds + 1, v =>
    if 0 < v then (digitZero + (v % 10).toUInt8) :: sizeDigits rounds (v / 10) else []

def fsEmitSizeLine (pfx name : Bytes) (size : ℕ) : Bytes :=
  let line := copyUpTo 90 [] pfx
  let line := copyUpTo 90 line name
  let line := copyUpTo 90 line (ascii " (")
  let num := if size = 0 then [digitZero] else sizeDigits 15 size
  let line := copyUpTo 90 line num.reverse
  copyUpTo 90 line (ascii " bytes)")

/-- The loop of `fs_ls` over the rest of the slots. -/
def lsLoop (s : Okfs) (dir : Slot) : Bool → List Slot → List Bytes
  | found, [] => if !found then [ascii "(empty)"] else []
  | found, i :: slots =>
    if !(s.nodes i).used ∨ (s.nodes i).parent ≠ some dir then lsLoop s dir found slots
    else
      let line :=
        if (s.nodes i).type = .dir then
          copyUpTo (fsMaxName + 16 - 1) (ascii "[DIR]  ") (s.nodes i).name
        else fsEmitSizeLine (ascii "[FILE] ") (s.nodes i).name (s.nodes i).size
      line :: lsLoop s dir true slots

def fsLs (s : Okfs) (path : Option Bytes) : Except FsError Unit × List Bytes :=
  let dir : Except FsError Slot :=
    match path with
    | none => .ok s.cwd
    | some path =>
      if path = [] ∨ path = dot ∨ path = ascii "./" then .ok s.cwd
      else fsResolve s s.cwd path true
  match dir with
  | .error err => (.error err, [])
  | .ok dir =>
    if (s.nodes dir).type ≠ .dir then (.error .notDir, [])
    else (.ok (), lsLoop s dir false entrySlots)

def decimalText (n : ℕ) : Bytes :=
  if n = 0 then [digitZero] else ((Nat.digits 10 n).map fun d => digitZero + d.toUInt8).reverse

def dirLine (name : Bytes) : Bytes := ascii "[DIR]  " ++ name

def fileLine (name : Bytes) (size : ℕ) : Bytes :=
  ascii "[FILE] " ++ name ++ ascii " (" ++ decimalText size ++ ascii " bytes)"

/-- The line of an entry: its kind and name, and the number of its bytes if it is a file. -/
def entryLine (s : Okfs) (i : Slot) : Bytes :=
  match (s.nodes i).type with
  | .dir => dirLine (s.nodes i).name
  | .file => fileLine (s.nodes i).name (fileBytes s i).length

/-- The line is that of an entry called `name`. -/
def Shows (line name : Bytes) : Prop := line = dirLine name ∨ ∃ size, line = fileLine name size

section Lines

variable {line part name name' : Bytes} {limit size size' : ℕ}

theorem copyUpTo_of_le (h : line.length + part.length ≤ limit) :
    copyUpTo limit line part = line ++ part := by
  rw [copyUpTo, List.take_of_length_le (by omega)]

theorem sizeDigits_eq {rounds v : ℕ} (hv : v < 10 ^ rounds) :
    sizeDigits rounds v = (Nat.digits 10 v).map fun d => digitZero + d.toUInt8 := by
  induction rounds generalizing v with
  | zero =>
    obtain rfl : v = 0 := by simpa using hv
    simp [sizeDigits]
  | succ rounds ih =>
    rw [sizeDigits]
    split_ifs with hpos
    · rw [Nat.digits_def' (by decide) hpos, List.map_cons, ih]
      rw [Nat.pow_succ] at hv
      exact Nat.div_lt_of_lt_mul (by omega)
    · obtain rfl : v = 0 := by omega
      simp

theorem length_decimalText_le {k : ℕ} (hk : 0 < k) (hsize : size < 10 ^ k) :
    (decimalText size).length ≤ k := by
  unfold decimalText
  split_ifs with hzero
  · exact hk
  · rw [List.length_reverse, List.length_map]
    exact (Nat.digits_length_le_iff (by decide) size).mpr hsize

theorem paren_not_mem_decimalText : (40 : UInt8) ∉ decimalText size := by
  have hdigit : ∀ d : ℕ, d < 10 → (40 : UInt8) ≠ digitZero + d.toUInt8 := by decide
  unfold decimalText
  split_ifs
  · decide
  · rw [List.mem_reverse, List.mem_map]
    rintro ⟨d, hd, hparen⟩
    exact hdigit d (Nat.digits_lt_base (by decide) hd) hparen.symm

/-- A name and a size below the limits fit into the line. -/
theorem fsEmitSizeLine_eq (hname : name.length < fsMaxName) (hsize : size ≤ fsMaxFileSize) :
    fsEmitSizeLine (ascii "[FILE] ") name size = fileLine name size := by
  have hnum : (if size = 0 then [digitZero] else sizeDigits 15 size).reverse =
      decimalText size := by
    unfold decimalText
    split_ifs
    · rfl
    · rw [sizeDigits_eq (by unfold fsMaxFileSize at hsize; omega)]
  have hlen : (decimalText size).length ≤ 5 :=
    length_decimalText_le (by decide) (by unfold fsMaxFileSize at hsize; omega)
  have hpfx : (ascii "[FILE] ").length = 7 := by decide
  have hmid : (ascii " (").length = 2 := by decide
  have htail : (ascii " bytes)").length = 7 := by decide
  unfold fsMaxName at hname
  have hstart : copyUpTo 90 [] (ascii "[FILE] ") = ascii "[FILE] " := by decide
  have hnamed : copyUpTo 90 (ascii "[FILE] ") name = ascii "[FILE] " ++ name :=
    copyUpTo_of_le (by omega)
  have hopened : copyUpTo 90 (ascii "[FILE] " ++ name) (ascii " (") =
      ascii "[FILE] " ++ name ++ ascii " (" :=
    copyUpTo_of_le (by rw [List.length_append]; omega)
  have hsized : copyUpTo 90 (ascii "[FILE] " ++ name ++ ascii " (") (decimalText size) =
      ascii "[FILE] " ++ name ++ ascii " (" ++ decimalText size :=
    copyUpTo_of_le (by simp only [List.length_append]; omega)
  unfold fsEmitSizeLine
  dsimp only
  rw [hnum, hstart, hnamed, hopened, hsized]
  exact copyUpTo_of_le (by simp only [List.length_append]; omega)

theorem dirLine_injective (h : dirLine name = dirLine name') : name = name' :=
  List.append_cancel_left h

theorem dirLine_ne_fileLine : dirLine name ≠ fileLine name' size := by
  intro h
  have hhead := congrArg (List.take 2) h
  simp only [dirLine, fileLine, List.append_assoc, List.take_append_of_le_length,
    show 2 ≤ (ascii "[DIR]  ").length by decide, show 2 ≤ (ascii "[FILE] ").length by decide]
    at hhead
  exact absurd hhead (by decide)

/-- The name ends before the last parenthesis of the line. -/
theorem fileLine_injective (h : fileLine name size = fileLine name' size') : name = name' := by
  have hparts : ∀ (name : Bytes) (size : ℕ), fileLine name size =
      ascii "[FILE] " ++ ((name ++ [space]) ++ 40 :: decimalText size) ++ ascii " bytes)" := by
    intro name size
    have hopen : ascii " (" = [space, 40] := by decide
    simp [fileLine, hopen]
  have hdrop : ∀ (name : Bytes) (size : ℕ),
      ((name ++ [space]) ++ 40 :: decimalText size).reverse.dropWhile (· ≠ 40) =
        40 :: space :: name.reverse := by
    intro name size
    have hall : ∀ x ∈ (decimalText size).reverse, decide (x ≠ 40) = true := by
      intro x hx
      apply decide_eq_true
      rintro rfl
      exact paren_not_mem_decimalText (List.mem_reverse.mp hx)
    rw [List.reverse_append, List.reverse_cons, List.append_assoc,
      List.dropWhile_append_of_pos hall]
    simp
  rw [hparts, hparts] at h
  have hmid := List.append_cancel_left (List.append_cancel_right h)
  have hnames := hdrop name size
  rw [hmid, hdrop name' size'] at hnames
  simpa using hnames.symm

end Lines

/-- The children of a directory, in the order of their slots. -/
def children (s : Okfs) (dir : Slot) : List Slot :=
  entrySlots.filter fun i => (s.nodes i).used && (s.nodes i).parent = some dir

section Children

variable {s : Okfs} {dir i : Slot} {path name line : Bytes}

theorem mem_children : i ∈ children s dir ↔ ∃ name, IsChild s dir name i := by
  simp only [children, List.mem_filter, mem_entrySlots, Bool.and_eq_true, decide_eq_true_eq]
  constructor
  · rintro ⟨h0, hu, hp⟩
    exact ⟨(s.nodes i).name, h0, hu, hp, rfl⟩
  · rintro ⟨name, h0, hu, hp, -⟩
    exact ⟨h0, hu, hp⟩

theorem nodup_children : (children s dir).Nodup :=
  ((List.nodup_finRange fsMaxNodes).sublist (List.tail_sublist _)).filter _

theorem listedLine_eq (h : TreeInv s) (hs : StorageInv s) (hi : i ≠ 0)
    (hu : (s.nodes i).used = true) :
    (if (s.nodes i).type = .dir then
        copyUpTo (fsMaxName + 16 - 1) (ascii "[DIR]  ") (s.nodes i).name
      else fsEmitSizeLine (ascii "[FILE] ") (s.nodes i).name (s.nodes i).size) = entryLine s i := by
  have hname : (s.nodes i).name.length < fsMaxName := (h.name i hi hu).length_lt
  unfold entryLine
  cases (s.nodes i).type with
  | dir =>
    have hpfx : (ascii "[DIR]  ").length = 7 := by decide
    exact copyUpTo_of_le (by unfold fsMaxName at *; omega)
  | file =>
    have hbacked := hs.backed i hu
    dsimp only
    rw [hs.length_fileBytes hu]
    exact fsEmitSizeLine_eq hname (hbacked.size_le.trans hbacked.cap_le)

theorem lsLoop_eq (h : TreeInv s) (hs : StorageInv s) (found : Bool) (slots : List Slot)
    (hslots : ∀ i ∈ slots, i ≠ 0) {l : List Slot}
    (hl : l = slots.filter fun i => (s.nodes i).used && (s.nodes i).parent = some dir) :
    lsLoop s dir found slots =
      l.map (entryLine s) ++ if l = [] ∧ found = false then [ascii "(empty)"] else [] := by
  induction slots generalizing found l with
  | nil =>
    subst hl
    cases found <;> simp [lsLoop]
  | cons i slots ih =>
    have hrest := fun j hj => hslots j (List.mem_cons_of_mem i hj)
    rw [lsLoop]
    by_cases hchild : (s.nodes i).used = true ∧ (s.nodes i).parent = some dir
    · rw [List.filter_cons_of_pos (by simp [hchild])] at hl
      subst hl
      rw [if_neg (by simp [hchild]), ih true hrest rfl]
      dsimp only
      rw [listedLine_eq h hs (hslots i List.mem_cons_self) hchild.1]
      simp
    · rw [List.filter_cons_of_neg (by simpa using hchild)] at hl
      have hskip : (!(s.nodes i).used) = true ∨ (s.nodes i).parent ≠ some dir := by
        by_contra hnot
        push Not at hnot
        exact hchild ⟨by simpa using hnot.1, hnot.2⟩
      rw [if_pos hskip, ih found hrest hl]

/-- The special cases of `fs_ls` are paths that `fs_resolve` resolves to the same directory. -/
theorem fsLs_of_resolved (h : TreeInv s) (hr : fsResolve s s.cwd path true = .ok dir) :
    fsLs s (some path) = (.ok (), lsLoop s dir false entrySlots) := by
  have hdir : (s.nodes dir).type = .dir := (h.fsResolve h.cwd_used hr).2 rfl
  have hcwd : (s.nodes s.cwd).type = .dir := h.cwd_dir
  have htarget : (if path = [] ∨ path = dot ∨ path = ascii "./" then .ok s.cwd
      else fsResolve s s.cwd path true) = .ok dir := by
    split_ifs with hspecial
    · rw [← hr]
      rcases hspecial with rfl | rfl | rfl
      · cases hr
      · rw [fsResolve_eq (by decide), show components dot = [dot] by decide]
        simp [enterComponent, fsEnter, fsMaxName, dot, slash, bind, Except.bind, pure, Except.pure,
          hcwd]
      · rw [fsResolve_eq (by decide), show components (ascii "./") = [dot] by decide,
          if_neg (by decide)]
        simp [enterComponent, fsEnter, fsMaxName, dot, bind, Except.bind, pure, Except.pure, hcwd]
    · exact hr
  unfold fsLs
  dsimp only
  rw [htarget]
  simp [hdir]

theorem shows_entryLine_iff : Shows (entryLine s i) name ↔ (s.nodes i).name = name := by
  unfold Shows entryLine
  cases (s.nodes i).type with
  | dir =>
    constructor
    · rintro (hline | ⟨size, hline⟩)
      · exact dirLine_injective hline
      · exact absurd hline dirLine_ne_fileLine
    · rintro rfl
      exact Or.inl rfl
  | file =>
    constructor
    · rintro (hline | ⟨size, hline⟩)
      · exact absurd hline.symm dirLine_ne_fileLine
      · exact fileLine_injective hline
    · rintro rfl
      exact Or.inr ⟨_, rfl⟩

theorem not_shows_empty : ¬ Shows (ascii "(empty)") name := by
  have hparen : (ascii "(empty)").head? = some 40 := by decide
  rintro (hline | ⟨size, hline⟩)
  · rw [hline] at hparen
    cases hparen
  · rw [hline, fileLine, List.append_assoc, List.append_assoc, List.append_assoc] at hparen
    cases hparen

end Children

/-- In every reachable state, for every path that leads to a directory: `fs_ls` emits one line for
each child, with its kind, its name and the number of its bytes, or the line for an empty
directory; and the names on the lines are those that `fs_find_child` finds. -/
theorem listing_complete {alloc : Allocator} {calls : List Call} {s : Okfs} {path : Bytes}
    {dir : Slot} (hrun : Run (step alloc) anyCall (fsInit alloc boot) calls s)
    (hr : fsResolve s s.cwd path true = .ok dir) :
    (children s dir).Nodup ∧ (∀ i, i ∈ children s dir ↔ ∃ name, IsChild s dir name i) ∧
    fsLs s (some path) = (.ok (), if children s dir = [] then [ascii "(empty)"]
      else (children s dir).map (entryLine s)) ∧
    ∀ name, (∃ line ∈ (fsLs s (some path)).2, Shows line name) ↔
      fsFindChild s dir name ≠ none := by
  obtain ⟨htree, howned⟩ := invariants_of_run hrun
  have hls : fsLs s (some path) = (.ok (), if children s dir = [] then [ascii "(empty)"]
      else (children s dir).map (entryLine s)) := by
    rw [fsLs_of_resolved htree hr, lsLoop_eq htree howned.storageInv false entrySlots
      (fun i hi => mem_entrySlots.mp hi) (l := children s dir) rfl]
    split_ifs <;> simp_all
  refine ⟨nodup_children, fun i => mem_children, hls, fun name => ?_⟩
  rw [hls]
  constructor
  · rintro ⟨line, hline, hshows⟩
    dsimp only at hline
    split_ifs at hline with hnil
    · rw [List.mem_singleton.mp hline] at hshows
      exact absurd hshows not_shows_empty
    · obtain ⟨i, hi, rfl⟩ := List.mem_map.mp hline
      obtain ⟨name', hchild⟩ := mem_children.mp hi
      have hname : name' = name := hchild.2.2.2.symm.trans (shows_entryLine_iff.mp hshows)
      rw [htree.fsFindChild_iff.mpr (hname ▸ hchild)]
      simp
  · intro hne
    obtain ⟨i, hi⟩ := Option.ne_none_iff_exists'.mp hne
    have hchild := htree.fsFindChild_iff.mp hi
    have hmem := mem_children.mpr ⟨name, hchild⟩
    refine ⟨entryLine s i, ?_, shows_entryLine_iff.mpr hchild.2.2.2⟩
    dsimp only
    rw [if_neg (List.ne_nil_of_mem hmem)]
    exact List.mem_map_of_mem hmem

/-- The root directory at the start. -/
theorem listing_complete_root :
    fsResolve (fsInit clearedAlloc boot) 0 (ascii "/") true = .ok 0 ∧
    (children (fsInit clearedAlloc boot) 0).Nodup ∧
    fsLs (fsInit clearedAlloc boot) (some (ascii "/")) =
      (.ok (), if children (fsInit clearedAlloc boot) 0 = [] then [ascii "(empty)"]
        else (children (fsInit clearedAlloc boot) 0).map (entryLine (fsInit clearedAlloc boot))) ∧
    ∀ name, (∃ line ∈ (fsLs (fsInit clearedAlloc boot) (some (ascii "/"))).2, Shows line name) ↔
      fsFindChild (fsInit clearedAlloc boot) 0 name ≠ none := by
  have hr : fsResolve (fsInit clearedAlloc boot) 0 (ascii "/") true = .ok 0 := by
    rw [fsInit_cleared]
    rfl
  have hcwd : (fsInit clearedAlloc boot).cwd = 0 := by
    rw [fsInit_cleared]
    rfl
  have hdir : fsResolve (fsInit clearedAlloc boot) (fsInit clearedAlloc boot).cwd (ascii "/") true =
      .ok 0 := by
    rw [hcwd]
    exact hr
  obtain ⟨hnodup, -, hls, hnames⟩ := listing_complete (.nil _) hdir
  exact ⟨hr, hnodup, hls, hnames⟩

end OpenKernel.FileSystem
