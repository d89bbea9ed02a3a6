import Mathlib.Data.UInt
import OpenKernel.FileSystem.WorkingDirectory
import OpenKernel.Lib.Buffer
import OpenKernel.Lib.SplitLines

/-!
# Rebuilding the path in its buffer

`fs_rebuild_cwd_path` once more, with its arrays: the stack of 128 nodes, the buffer of
256 bytes and the names, each a string in an array of 48 bytes. A write behind an array,
or a string without a terminator, makes it fail. In a tree it never does, and it leaves
the text that the list of names gives: some of the names from the root on, whole and
with a slash between them.
-/

namespace OpenKernel.FileSystem

/-! ### The code -/

/-- The loop that climbs to the root, with the number of rounds that `depth < FS_MAX_NODES`
leaves. -/
def climbStack (nodes : Slot → Node) : ℕ → Slot → Buffer Slot → Option (Buffer Slot)
  | 0, _, stack => some stack
  | rounds + 1, cur, stack =>
    if cur = 0 then some stack
    else do
      let stack ← stack.push fsMaxNodes cur
      match (nodes cur).parent with
      | none => some stack
      | some parent => climbStack nodes rounds parent stack

/-- The slash behind the path, where it needs one. -/
def putSeparator (path : ℕ → UInt8) (pos : ℕ) : Option (Buffer UInt8) :=
  if pos > 0 ∧ path (pos - 1) ≠ slash then do
    let b ← if pos < fsMaxPath - 1 then Buffer.push fsMaxPath ⟨path, pos⟩ slash
      else some ⟨path, pos⟩
    let path ← writeAt fsMaxPath b.data b.pos 0
    some ⟨path, b.pos⟩
  else some ⟨path, pos⟩

def joinLoop (names : Slot → ℕ → UInt8) (stack : ℕ → Slot) :
    ℕ → (ℕ → UInt8) → Option (ℕ → UInt8)
  | 0, path => some path
  | i + 1, path => do
    let pos ← stringLength fsMaxPath path
    let b ← putSeparator path pos
    let name := names (stack i)
    let nlen ← stringLength fsMaxName name
    if b.pos + nlen ≥ fsMaxPath - 1 then some b.data
    else do
      let b ← b.pushAll fsMaxPath ((List.range nlen).map name)
      let path ← writeAt fsMaxPath b.data b.pos 0
      joinLoop names stack i path

def putRoot (path : ℕ → UInt8) : Option (ℕ → UInt8) := do
  let path ← writeAt fsMaxPath path 0 slash
  writeAt fsMaxPath path 1 0

/-- `fs_rebuild_cwd_path`, where `stack` and `path` are what the arrays hold before. -/
def rebuildCwdPath (nodes : Slot → Node) (names : Slot → ℕ → UInt8) (cwd : Slot)
    (stack : ℕ → Slot) (path : ℕ → UInt8) : Option (ℕ → UInt8) :=
  if cwd = 0 then putRoot path
  else do
    let stack ← climbStack nodes fsMaxNodes cwd ⟨stack, 0⟩
    let path ← writeAt fsMaxPath path 0 0
    let path ← joinLoop names stack.data stack.pos path
    if path 0 = 0 then putRoot path else some path

/-- The names with a slash between them. -/
def joined (p : Path) : Bytes := [slash].intercalate p

/-! ### The climb -/

theorem climbStack_eq (nodes : Slot → Node) (rounds : ℕ) (cur : Slot) (stack : Buffer Slot) :
    climbStack nodes rounds cur stack = stack.pushAll fsMaxNodes (climb nodes rounds cur) := by
  induction rounds generalizing cur stack with
  | zero => rfl
  | succ rounds ih =>
    unfold climbStack climb
    by_cases h0 : cur = 0
    · rw [if_pos h0, if_pos h0]
      rfl
    · rw [if_neg h0, if_neg h0]
      cases (nodes cur).parent with
      | none =>
        rw [Buffer.pushAll, List.foldlM_cons]
        rfl
      | some parent =>
        rw [Buffer.pushAll, List.foldlM_cons]
        exact Option.bind_congr fun stack' _ => ih parent stack'

theorem length_climb_le (nodes : Slot → Node) (rounds : ℕ) (cur : Slot) :
    (climb nodes rounds cur).length ≤ rounds := by
  induction rounds generalizing cur with
  | zero => exact Nat.le_refl 0
  | succ rounds ih =>
    unfold climb
    split_ifs
    · exact Nat.zero_le _
    · cases (nodes cur).parent with
      | none => exact Nat.succ_le_succ (Nat.zero_le rounds)
      | some parent => exact Nat.succ_le_succ (ih parent)

section Tree

variable {s : Okfs} {p : Path} {v : Slot}

theorem ancestor_ne_root (hp : Walk (IsChild s) 0 p v) :
    ∀ k < p.length, ancestor s k v ≠ some 0 := by
  induction hp with
  | nil => exact fun k hk => absurd hk (Nat.not_lt_zero k)
  | snoc _ he ih =>
    obtain ⟨h0, -, hparent, -⟩ := he
    change (s.nodes _).parent = some _ at hparent
    intro k hk
    cases k with
    | zero => exact fun heq => h0 (Option.some.inj heq)
    | succ k =>
      rw [List.length_append, List.length_singleton] at hk
      change (s.nodes _).parent.bind (ancestor s k) ≠ some 0
      rw [hparent]
      exact ih k (Nat.lt_of_succ_lt_succ hk)

theorem TreeInv.length_walk_lt (h : TreeInv s) (hp : Walk (IsChild s) 0 p v) :
    p.length < fsMaxNodes := by
  obtain ⟨k, hk, hroot⟩ := h.reaches_root (h.used_of_walk hp)
  exact Nat.lt_of_not_le fun hle =>
    ancestor_ne_root hp k (Nat.lt_of_lt_of_le hk hle) hroot

theorem TreeInv.of_mem_climb (h : TreeInv s) (hv : (s.shape v).used = true) {rounds : ℕ}
    {id : Slot} (hid : id ∈ climb s.nodes rounds v) : id ≠ 0 ∧ (s.shape id).used = true := by
  induction rounds generalizing v with
  | zero => cases hid
  | succ rounds ih =>
    unfold climb at hid
    by_cases h0 : v = 0
    · rw [if_pos h0] at hid
      cases hid
    · rw [if_neg h0] at hid
      obtain ⟨parent, hparent, hused, -⟩ := h.parent v h0 hv
      change (s.nodes v).parent = some parent at hparent
      rw [hparent] at hid
      rcases List.mem_cons.mp hid with rfl | hid
      · exact ⟨h0, hv⟩
      · exact ih hused hid

end Tree

/-! ### The loop in its buffer -/

/-- The text with a slash behind it, where it needs one. -/
def separated (path : Bytes) : Bytes :=
  if path ≠ [] ∧ path.getLast? ≠ some slash then
    if path.length < fsMaxPath - 1 then path ++ [slash] else path
  else path

theorem joinNames_cons (path name : Bytes) (rest : List Bytes) :
    joinNames path (name :: rest) =
      if fsMaxPath - 1 ≤ (separated path).length + name.length then separated path
      else joinNames (separated path ++ name) rest := rfl

section Buffers

variable {path : ℕ → UInt8} {text : Bytes}

theorem needs_separator_iff (h : HoldsString path text) :
    (text.length > 0 ∧ path (text.length - 1) ≠ slash) ↔
      text ≠ [] ∧ text.getLast? ≠ some slash := by
  rw [gt_iff_lt, List.length_pos_iff]
  refine and_congr_right fun hne => ?_
  rw [h.getLast?_eq hne, Ne, Ne, Option.some_inj]

theorem putSeparator_holds (h : HoldsString path text) (hlength : text.length < fsMaxPath) :
    ∃ b, putSeparator path text.length = some b ∧ b.pos = (separated text).length ∧
      HoldsString b.data (separated text) ∧ b.pos < fsMaxPath := by
  unfold putSeparator separated
  by_cases hsep : text ≠ [] ∧ text.getLast? ≠ some slash
  · rw [if_pos ((needs_separator_iff h).mpr hsep), if_pos hsep]
    split_ifs with hroom
    · have hroom' : text.length + 1 < fsMaxPath := by
        unfold fsMaxPath at hroom ⊢
        omega
      have hzero : 0 ∉ text ++ [slash] := by
        rw [List.mem_append, List.mem_singleton, not_or]
        exact ⟨h.no_zero, by decide⟩
      obtain ⟨b, hpush, hshows⟩ := h.shows.push hlength slash
      obtain ⟨data, hdata, hholds⟩ := hshows.terminate fsMaxPath (by simpa using hroom') hzero
      have hpos : b.pos = (text ++ [slash]).length := hshows.pos
      refine ⟨⟨data, b.pos⟩, ?_, hpos, hholds, ?_⟩
      · rw [hpush]
        change (writeAt fsMaxPath b.data b.pos 0 >>= _) = _
        rw [hdata]
        rfl
      · change b.pos < fsMaxPath
        rw [hpos, List.length_append, List.length_singleton]
        exact hroom'
    · obtain ⟨data, hdata, hholds⟩ := h.shows.terminate fsMaxPath hlength h.no_zero
      refine ⟨⟨data, text.length⟩, ?_, rfl, hholds, hlength⟩
      change (writeAt fsMaxPath path text.length 0 >>= _) = _
      change writeAt fsMaxPath path text.length 0 = some data at hdata
      rw [hdata]
      rfl
  · rw [if_neg (mt (needs_separator_iff h).mp hsep), if_neg hsep]
    exact ⟨⟨path, text.length⟩, rfl, rfl, h, hlength⟩

/-- The loop does in the buffer what joining the names does. -/
theorem joinLoop_holds {names : Slot → ℕ → UInt8} {nameOf : Slot → Bytes} {stack : ℕ → Slot}
    {ids : List Slot} (hstack : StartsWith stack ids)
    (hnames : ∀ id ∈ ids, HoldsString (names id) (nameOf id) ∧ (nameOf id).length < fsMaxName)
    (h : HoldsString path text) (hlength : text.length < fsMaxPath) :
    ∃ path', joinLoop names stack ids.length path = some path' ∧
      HoldsString path' (joinNames text (ids.reverse.map nameOf)) ∧
      (joinNames text (ids.reverse.map nameOf)).length < fsMaxPath := by
  induction ids using List.reverseRecOn generalizing path text with
  | nil => exact ⟨path, rfl, h, hlength⟩
  | append_singleton ids id ih =>
    have hid : stack ids.length = id :=
      hstack _ _ (by rw [List.getElem?_append_right (Nat.le_refl _), Nat.sub_self]; rfl)
    obtain ⟨hname, hnlen⟩ := hnames id (by simp)
    obtain ⟨b, hb, hpos, hholds, hlt⟩ := putSeparator_holds h hlength
    rw [List.reverse_append, List.reverse_singleton, List.singleton_append, List.map_cons,
      joinNames_cons, List.length_append, List.length_singleton]
    unfold joinLoop
    rw [h.stringLength hlength]
    change ∃ path', (putSeparator path text.length >>= _) = some path' ∧ _
    rw [hb, hid]
    change ∃ path', (stringLength fsMaxName (names id) >>= _) = some path' ∧ _
    rw [hname.stringLength hnlen, ← hpos]
    change ∃ path', (if b.pos + (nameOf id).length ≥ fsMaxPath - 1 then some b.data else _) =
      some path' ∧ _
    by_cases hfull : fsMaxPath - 1 ≤ b.pos + (nameOf id).length
    · rw [if_pos hfull, if_pos hfull]
      exact ⟨b.data, rfl, hholds, hpos ▸ hlt⟩
    · have hshows : b.Shows (separated text) := ⟨hpos, hholds.startsWith⟩
      have hroom : (separated text ++ nameOf id).length < fsMaxPath := by
        rw [List.length_append, ← hpos]
        unfold fsMaxPath at hfull ⊢
        omega
      have hzero : 0 ∉ separated text ++ nameOf id := by
        rw [List.mem_append, not_or]
        exact ⟨hholds.no_zero, hname.no_zero⟩
      obtain ⟨b₁, hall, hshows₁⟩ := hshows.pushAll fsMaxPath (nameOf id)
        (by rw [← List.length_append]; exact Nat.le_of_lt hroom)
      obtain ⟨path₁, hpath₁, hholds₁⟩ := hshows₁.terminate fsMaxPath hroom hzero
      rw [if_neg hfull, if_neg hfull, hname.startsWith.map_range, hall]
      change ∃ path', (writeAt fsMaxPath b₁.data b₁.pos 0 >>= _) = some path' ∧ _
      rw [hpath₁]
      exact ih hstack.of_append (fun j hj => hnames j (List.mem_append_left _ hj)) hholds₁ hroom

theorem putRoot_holds (path : ℕ → UInt8) :
    ∃ path', putRoot path = some path' ∧ HoldsString path' [slash] :=
  ⟨_, rfl, ((StartsWith.nil path).update slash).update 0, by decide⟩

/-- The buffer gets the text that the names of the nodes give. -/
theorem rebuildCwdPath_holds {s : Okfs} {cwd : Slot} {names : Slot → ℕ → UInt8}
    (hnames : ∀ id ∈ climb s.nodes fsMaxNodes cwd,
      HoldsString (names id) (s.nodes id).name ∧ (s.nodes id).name.length < fsMaxName)
    (stack : ℕ → Slot) (path : ℕ → UInt8) :
    ∃ path', rebuildCwdPath s.nodes names cwd stack path = some path' ∧
      HoldsString path' (fsRebuildCwdPath { s with cwd := cwd }).cwdPath ∧
      (fsRebuildCwdPath { s with cwd := cwd }).cwdPath.length < fsMaxPath := by
  unfold rebuildCwdPath fsRebuildCwdPath
  dsimp only
  by_cases h0 : cwd = 0
  · obtain ⟨path', hroot, hholds⟩ := putRoot_holds path
    rw [if_pos h0, if_pos h0, if_neg (List.cons_ne_nil slash [])]
    exact ⟨path', hroot, hholds, by decide⟩
  · have hdepth := length_climb_le s.nodes fsMaxNodes cwd
    obtain ⟨b, hclimb, hshows⟩ := (Buffer.shows_nil stack).pushAll fsMaxNodes
      (climb s.nodes fsMaxNodes cwd) (by rwa [List.length_nil, Nat.zero_add])
    rw [List.nil_append] at hshows
    have hempty : HoldsString (Function.update path 0 0) [] :=
      ⟨(StartsWith.nil path).update 0, List.not_mem_nil⟩
    obtain ⟨path', hjoin, hholds, hlength⟩ :=
      joinLoop_holds hshows.data hnames hempty (by decide)
    rw [if_neg h0, if_neg h0, climbStack_eq, hclimb]
    change ∃ path', (joinLoop names b.data b.pos (Function.update path 0 0) >>= _) = some path' ∧ _
    rw [hshows.pos, hjoin]
    change ∃ path'', (if path' 0 = 0 then putRoot path' else some path') = some path'' ∧ _
    by_cases hnil : joinNames [] ((climb s.nodes fsMaxNodes cwd).reverse.map
        fun id => (s.nodes id).name) = []
    · obtain ⟨path'', hroot, hslash⟩ := putRoot_holds path'
      have hzero : path' 0 = 0 := by
        have hend := hholds.zero_at
        rwa [hnil] at hend
      rw [if_pos hzero, if_pos hnil]
      exact ⟨path'', hroot, hslash, by decide⟩
    · rw [if_neg (hholds.ne_zero (List.length_pos_iff.mpr hnil)), if_neg hnil]
      exact ⟨path', rfl, hholds, hlength⟩

end Buffers

/-! ### The text -/

section Text

variable {p q : Path} {c : Bytes}

theorem joined_concat (hne : p ≠ []) (c : Bytes) :
    joined (p ++ [c]) = joined p ++ slash :: c := by
  induction p with
  | nil => exact absurd rfl hne
  | cons d p ih =>
    have hrest : p ++ [c] ≠ [] := List.append_ne_nil_of_right_ne_nil p (List.cons_ne_nil c [])
    rw [joined, List.cons_append, Lines.intercalate_cons hrest, ← joined]
    by_cases hnil : p = []
    · subst hnil
      rw [joined, joined, List.nil_append, List.intercalate_singleton, List.intercalate_singleton]
    · rw [ih hnil, joined, joined, Lines.intercalate_cons hnil, List.append_assoc,
        List.cons_append]

theorem joined_ends (hp : ∀ c ∈ p, CleanName c) (hne : p ≠ []) :
    joined p ≠ [] ∧ (joined p).getLast? ≠ some slash := by
  induction p using List.reverseRecOn with
  | nil => exact absurd rfl hne
  | append_singleton p c _ =>
    have hc := hp c (by simp)
    have hlast : ∀ l : Bytes, (l ++ c).getLast? ≠ some slash := by
      intro l
      rw [List.getLast?_append_of_ne_nil _ hc.ne_nil]
      exact fun hs => hc.no_slash (List.mem_of_getLast? hs)
    cases p with
    | nil =>
      rw [List.nil_append, joined, List.intercalate_singleton]
      exact ⟨hc.ne_nil, hlast []⟩
    | cons d p =>
      rw [joined_concat (List.cons_ne_nil d p)]
      refine ⟨by simp, ?_⟩
      have hsplit : joined (d :: p) ++ slash :: c = (joined (d :: p) ++ [slash]) ++ c := by simp
      rw [hsplit]
      exact hlast _

theorem separated_joined (hp : ∀ c ∈ p, CleanName c) (hne : p ≠ [])
    (hlength : (joined p).length < fsMaxPath - 1) :
    separated (joined p) = joined p ++ [slash] := by
  rw [separated, if_pos (joined_ends hp hne), if_pos hlength]

/-- Names are taken whole: the text is that of the first ones, perhaps with a slash behind it. -/
theorem joinNames_prefix (hp : ∀ c ∈ p ++ q, CleanName c)
    (hlength : (joined p).length < fsMaxPath - 1) :
    ∃ r, r <+: p ++ q ∧ (joinNames (joined p) q = joined r ∨
      joinNames (joined p) q = joined r ++ [slash]) := by
  induction q generalizing p with
  | nil => exact ⟨p, List.prefix_append p [], Or.inl rfl⟩
  | cons c q ih =>
    have hsplit : p ++ c :: q = (p ++ [c]) ++ q := by simp
    rw [joinNames_cons]
    by_cases hnil : p = []
    · subst hnil
      have hc := (hp c (by simp)).length_lt
      have hshort : ¬fsMaxPath - 1 ≤ c.length := by
        unfold fsMaxPath
        unfold fsMaxName at hc
        omega
      have hsep : separated (joined []) = [] := rfl
      rw [hsep, List.length_nil, Nat.zero_add, if_neg hshort, List.nil_append]
      have hone : joined [c] = c := List.intercalate_singleton
      have hrest := ih (p := [c]) hp (by rw [hone]; omega)
      rwa [hone] at hrest
    · have hsep := separated_joined (fun d hd => hp d (List.mem_append_left _ hd)) hnil hlength
      rw [hsep]
      split_ifs with hfull
      · exact ⟨p, List.prefix_append p _, Or.inr rfl⟩
      · have hgrow : joined p ++ [slash] ++ c = joined (p ++ [c]) := by
          rw [joined_concat hnil, List.append_assoc, List.singleton_append]
        have hroom : (joined (p ++ [c])).length < fsMaxPath - 1 := by
          rw [← hgrow, List.length_append]
          omega
        rw [hgrow, hsplit]
        exact ih (fun d hd => hp d (hsplit ▸ hd)) hroom

end Text

/-- The path is that of the root, or made from the names. -/
theorem cwdPath_cases {s : Okfs} {cwd : Slot} {p : Path}
    (hclimb : (climb s.nodes fsMaxNodes cwd).reverse.map (fun id => (s.nodes id).name) = p) :
    (fsRebuildCwdPath { s with cwd := cwd }).cwdPath = [slash] ∨
      (fsRebuildCwdPath { s with cwd := cwd }).cwdPath ≠ [] ∧
        (fsRebuildCwdPath { s with cwd := cwd }).cwdPath = joinNames [] p := by
  unfold fsRebuildCwdPath
  dsimp only
  rw [hclimb]
  by_cases h0 : cwd = 0
  · rw [if_pos h0, if_neg (List.cons_ne_nil slash [])]
    exact Or.inl rfl
  · rw [if_neg h0]
    split_ifs with hnil
    · exact Or.inl rfl
    · exact Or.inr ⟨hnil, rfl⟩

/-- In every tree and for every current directory, the path is rebuilt within its arrays, and is a
string of some of the names from the root on. -/
theorem rebuildCwdPath_safe {s : Okfs} (htree : TreeInv s) {cwd : Slot}
    (hused : (s.shape cwd).used = true) {names : Slot → ℕ → UInt8}
    (hnames : ∀ i, (s.shape i).used = true → HoldsString (names i) (s.shape i).name)
    (stack : ℕ → Slot) (path₀ : ℕ → UInt8) :
    ∃ p path text, Walk (IsChild s) 0 p cwd ∧
      rebuildCwdPath s.nodes names cwd stack path₀ = some path ∧ HoldsString path text ∧
      text ≠ [] ∧ text.length < fsMaxPath ∧
      text = (fsRebuildCwdPath { s with cwd := cwd }).cwdPath ∧
      ∃ q, q <+: p ∧ (text = joined q ∨ text = slash :: joined q ∨ text = joined q ++ [slash]) := by
  obtain ⟨p, hp⟩ := htree.exists_walk hused
  have hclimb := names_climb hp (Nat.le_of_lt (htree.length_walk_lt hp))
  have hclimbed : ∀ id ∈ climb s.nodes fsMaxNodes cwd,
      HoldsString (names id) (s.nodes id).name ∧ (s.nodes id).name.length < fsMaxName := by
    intro id hid
    obtain ⟨h0, hid⟩ := htree.of_mem_climb hused hid
    exact ⟨hnames id hid, (htree.name id h0 hid).length_lt⟩
  obtain ⟨path, hpath, hholds, hlength⟩ := rebuildCwdPath_holds hclimbed stack path₀
  obtain ⟨q, hq, htext⟩ := joinNames_prefix (p := []) (q := p) (htree.cleanName_of_walk hp)
    (by decide)
  rcases cwdPath_cases hclimb with hroot | ⟨hne, hjoin⟩
  · refine ⟨p, path, _, hp, hpath, hholds, ?_, hlength, rfl, [], List.nil_prefix, ?_⟩
    · rw [hroot]
      exact List.cons_ne_nil slash []
    · exact Or.inr (Or.inl hroot)
  · refine ⟨p, path, _, hp, hpath, hholds, hne, hlength, rfl, q, hq, ?_⟩
    rw [hjoin]
    exact htext.imp_right Or.inr

/-- The directory that is there at the start, in arrays that held other bytes. -/
theorem rebuildCwdPath_safe_docs :
    ∃ p path text, Walk (IsChild started) 0 p 1 ∧
      rebuildCwdPath started.nodes (fun i j => (started.nodes i).name.getD j 0) 1
        (fun _ => 7) (fun _ => 0xFF) = some path ∧ HoldsString path text ∧
      text ≠ [] ∧ text.length < fsMaxPath ∧
      text = (fsRebuildCwdPath { started with cwd := 1 }).cwdPath ∧
      ∃ q, q <+: p ∧ (text = joined q ∨ text = slash :: joined q ∨ text = joined q ++ [slash]) :=
  rebuildCwdPath_safe (by rw [← fsInit_cleared]; exact treeInv_fsInit clearedAlloc boot) rfl
    (fun i _ => holdsString_getD (show 0 ∉ (started.nodes i).name by revert i; decide)) _ _

end OpenKernel.FileSystem
