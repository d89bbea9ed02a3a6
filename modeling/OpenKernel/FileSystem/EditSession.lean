import OpenKernel.FileSystem.LineReplacement
import OpenKernel.FileSystem.Saving

/-!
# The state of the editor

The variables of the editor fit together between any two calls: there is a buffer
exactly while there is text, nothing is left behind when a session ends, and the
target line is a line of the text. The operations on files never touch
any of them, and a handled line sets a target only for the very next one.
-/

namespace OpenKernel.FileSystem

open Function

/-- `t` has the session of `s`, with the same text in the edit buffer. -/
structure SameSession (s t : Okfs) : Prop where
  active : t.editActive = s.editActive
  path : t.editPath = s.editPath
  buf : t.editBuf = s.editBuf
  len : t.editLen = s.editLen
  cap : t.editCap = s.editCap
  pending : t.editPendingLine = s.editPendingLine
  valid : t.editPendingLineValid = s.editPendingLineValid
  target : t.editTargetLine = s.editTargetLine
  live : ∀ p, s.editBuf = some p → t.heap.live p = s.heap.live p

/-! ### Operations on files -/

section Files

variable {alloc : Allocator} {s t u : Okfs} {old : Holding} {id : Slot}

theorem SameSession.trans (h : SameSession s t) (h' : SameSession t u) : SameSession s u where
  active := h'.active.trans h.active
  path := h'.path.trans h.path
  buf := h'.buf.trans h.buf
  len := h'.len.trans h.len
  cap := h'.cap.trans h.cap
  pending := h'.pending.trans h.pending
  valid := h'.valid.trans h.valid
  target := h'.target.trans h.target
  live p hp := (h'.live p (h.buf.trans hp)).trans (h.live p hp)

theorem sameSession_of_heap {nodes : Slot → Node} {cwd : Slot} {cwdPath : Bytes} {heap : Buffers}
    (hlive : ∀ p, s.editBuf = some p → heap.live p = s.heap.live p) :
    SameSession s { s with nodes := nodes, cwd := cwd, cwdPath := cwdPath, heap := heap } :=
  ⟨rfl, rfl, rfl, rfl, rfl, rfl, rfl, rfl, hlive⟩

theorem SameSession.refl (s : Okfs) : SameSession s s := sameSession_of_heap fun _ _ => rfl

theorem SameSession.editText (h : SameSession s t) : editText t = editText s := by
  unfold FileSystem.editText Buffers.read
  rw [h.buf, h.len]
  cases hb : s.editBuf with
  | none => rfl
  | some p => rw [Option.bind_some, Option.bind_some, h.live p hb]

section Accounts

variable (a : Accounts s.heap (holdings s old)) (hu : (s.nodes id).used = true)

include a hu

theorem editBuf_ne {p q : ℕ} (hp : s.editBuf = some p) (hq : (s.nodes id).data = some q) :
    p ≠ q := by
  rintro rfl
  have hnode : (holdings s old (.node id)).data = some p := OwnershipInv.data_holdings hu hq
  cases a.owns.injective (.node id) .editor p hnode hp

/-- A larger buffer for a file is no buffer of the editor. -/
theorem sameSession_growFile (alloc : Allocator) {newSize : ℕ} (hmax : newSize ≤ fsMaxFileSize)
    (append : Bool) : SameSession s (growFile alloc s id newSize append).1 := by
  by_cases hfit : newSize ≤ (s.nodes id).cap
  · rw [growFile_of_fits hfit]
    exact SameSession.refl s
  cases ha : alloc s.heap.calls (nextCap (s.nodes id).cap newSize) with
  | none =>
    rw [growFile_of_null (not_le.mp hfit) ha]
    exact sameSession_of_heap fun _ _ => rfl
  | some fill =>
    have hid : Held s.heap ⟨(s.nodes id).data, (s.nodes id).size, (s.nodes id).cap⟩ := by
      rw [← holding_of_used hu]
      exact a.held (.node id)
    have hsize : (s.nodes id).size ≤ (s.nodes id).cap := hid.size_le
    have hlength : (s.heap.read (s.nodes id).data).length = (s.nodes id).cap := hid.length_read
    have hcap : newSize ≤ nextCap (s.nodes id).cap newSize := newSize_le_nextCap hmax
    obtain ⟨heap, he, hheap⟩ := growFile_of_some append (not_le.mp hfit) ha (by omega) (by omega)
      fun hd => lt_irrefl _ (hid.live _ hd).1
    rw [he]
    refine sameSession_of_heap fun p hp => hheap.other p (fun hd => ?_) ?_
    · exact editBuf_ne a hu hp hd rfl
    · exact ((a.held .editor).live p hp).1.ne

theorem sameSession_storeFile (bytes : Bytes) (newSize : ℕ) (append : Bool) :
    SameSession s (storeFile s id bytes newSize append) := by
  refine sameSession_of_heap fun p hp => ?_
  cases hd : (s.nodes id).data with
  | none => rfl
  | some q => exact Buffers.live_write_of_ne (editBuf_ne a hu hp hd)

theorem sameSession_fsSetFileData (alloc : Allocator) (data : Bytes) (len : ℕ) (append : Bool) :
    SameSession s (fsSetFileData alloc s id data len append).1 := by
  by_cases hfits : Fits alloc s id len append
  · obtain ⟨t, hg, he⟩ := fsSetFileData_of_fits hfits data
    have hsession := sameSession_growFile a hu alloc hfits.2.1 append
    have haccounts := a.growFile alloc hu hfits.2.1 append
    have htree : SameTree s (growFile alloc s id (sizeAfter s id len append) append).1 :=
      sameTree_growFile _ append
    rw [hg] at hsession haccounts htree
    have hused : (t.nodes id).used = true := (congrArg Shape.used (congrFun htree.1 id)).trans hu
    rw [he]
    exact hsession.trans (sameSession_storeFile haccounts hused _ _ _)
  · obtain ⟨n, -, he⟩ := fsSetFileData_of_not_fits hfits data
    rw [he]
    exact sameSession_of_heap fun _ _ => rfl

end Accounts

namespace OwnershipInv

theorem sameSession_entry (h : OwnershipInv s old) (parent : Slot) (name : Bytes) (type : FsType)
    (hid : fsAllocNode s = some id) :
    OwnershipInv (FileSystem.withEntry s id parent name type) old ∧
      SameSession s (FileSystem.withEntry s id parent name type) :=
  ⟨h.withEntry (fsAllocNode_some hid).2 parent name type, sameSession_of_heap fun _ _ => rfl⟩

theorem sameSession_fsWriteFile (h : OwnershipInv s old) (alloc : Allocator) (path : Bytes)
    (data : Option Bytes) (len : ℕ) :
    SameSession s (FileSystem.fsWriteFile alloc s path data len).1 := by
  refine (fsWriteFile_rule (fun t => OwnershipInv t old ∧ SameSession s t)
    ⟨h, SameSession.refl s⟩ ?_ ?_ data len).2
  · intro id parent name type he
    exact h.sameSession_entry parent name type he.slot
  · rintro u id data len ⟨hu, hsame⟩ hused hfile
    exact ⟨hu.fsSetFileData hused hfile data len false,
      hsame.trans (sameSession_fsSetFileData hu.accounts hused alloc data len false)⟩

theorem sameSession_removeNode (h : OwnershipInv s old) (hu : (s.nodes id).used = true)
    {parent : Slot} (hp : (s.nodes id).parent = some parent) :
    SameSession s (FileSystem.removeNode s id).1 := by
  have hlive : ∀ p, s.editBuf = some p → (s.heap.without (s.nodes id).data).live p =
      s.heap.live p := by
    intro p hb
    exact Buffers.live_without_of_ne fun hd => editBuf_ne h.accounts hu hb hd rfl
  unfold FileSystem.removeNode
  dsimp only
  by_cases hc : s.cwd = id
  · rw [if_pos hc, hp]
    exact sameSession_of_heap hlive
  · rw [if_neg hc]
    exact sameSession_of_heap hlive

theorem sameSession_run (h : OwnershipInv s old) (hs : TreeInv s) (alloc : Allocator) (op : Op) :
    SameSession s (op.run alloc s).1 := by
  refine (run_rule (fun t => OwnershipInv t old ∧ SameSession s t)
    ⟨h, SameSession.refl s⟩ ?_ ?_ ?_ ?_ ?_ op).2
  · intro path id hr
    exact (hs.fsResolve hs.cwd_used hr).1
  · intro path target _
    exact ⟨h.congr rfl rfl rfl, sameSession_of_heap fun _ _ => rfl⟩
  · intro path id parent name type he
    exact h.sameSession_entry parent name type he.slot
  · rintro u id data len append ⟨hu, hsame⟩ hused hfile
    exact ⟨hu.fsSetFileData hused hfile data len append,
      hsame.trans (sameSession_fsSetFileData hu.accounts hused alloc data len append)⟩
  · intro id hid hused _
    obtain ⟨parent, hp, -⟩ := hs.parent id hid hused
    exact ⟨h.removeNode hused hp, h.sameSession_removeNode hused hp⟩

end OwnershipInv

end Files

/-! ### Lines -/

/-- The command that a line stands for: one that is no command goes into the target line. -/
def asCommand (s : Okfs) (line : Bytes) : Bytes :=
  if 0 < s.editTargetLine ∧ line.head? ≠ some colon then
    (ascii ":e " ++ decimal 10 s.editTargetLine.toNat ++ [space] ++ line).take (fsCmdTextMax - 2)
  else line

/-- The variables of the editor between two calls. -/
structure EditorInv (s : Okfs) : Prop where
  null : s.editLen = 0 → s.editBuf = none
  idle : s.editActive = false →
    s.editBuf = none ∧ s.editTargetLine = 0 ∧ s.editPendingLineValid = false
  target : s.editTargetLine ≠ 0 → ∃ n : ℕ, HasLine s n ∧ s.editTargetLine = n

section Lines

variable {alloc : Allocator} {s t : Okfs} {n : ℕ} {line : Bytes}

/-- Everything that `:e` can do. -/
theorem OwnershipInv.editCommand_cases (h : OwnershipInv s .empty) (hactive : s.editActive = true)
    (alloc : Allocator) (arg : Bytes) :
    (∃ out, FileSystem.editCommand alloc s arg = (s, .error .invalid, out)) ∨
    (∃ n, HasLine s n ∧ FileSystem.editCommand alloc s arg = (fetched s n, .ok (), [])) ∨
    ∃ n text, HasLine s n ∧ FileSystem.editCommand alloc s arg =
      (FileSystem.replaceLine alloc s (n - 1 : ℕ) text, .ok (), [ascii "Line updated."]) := by
  by_cases hno : ∀ n : ℕ, HasLine s n → (parseNumber 0 arg).1 ≠ n
  · exact Or.inl (HasLine.editCommand_of_no_line alloc h hactive hno)
  push Not at hno
  obtain ⟨n, hline, hn⟩ := hno
  cases hp : parseNumber 0 arg with
  | mk ln p =>
    rw [hp] at hn
    obtain rfl : ln = n := hn
    cases p with
    | nil => exact Or.inr (Or.inl ⟨n, hline, hline.editCommand_of_fetch hp⟩)
    | cons c text =>
      by_cases hc : c = space
      · rw [hc] at hp
        exact Or.inr (Or.inr ⟨n, text, hline, hline.editCommand_of_text hp⟩)
      · refine Or.inl ⟨_, hline.editCommand_of_junk hp hc⟩

theorem HasLine.congr (h : HasLine s n) (hinv : OwnershipInv t .empty)
    (hactive : t.editActive = s.editActive) (htext : editText t = editText s) : HasLine t n := by
  refine ⟨hinv, hactive.trans h.active, ?_, h.pos, ?_⟩
  · rw [htext]
    exact h.text
  · rw [htext]
    exact h.le

namespace EditorInv

theorem sameSession (h : EditorInv s) (hinv : OwnershipInv t .empty) (hsame : SameSession s t) :
    EditorInv t where
  null := by
    rw [hsame.len, hsame.buf]
    exact h.null
  idle := by
    rw [hsame.active, hsame.buf, hsame.target, hsame.valid]
    exact h.idle
  target := by
    rw [hsame.target]
    intro hne
    obtain ⟨n, hline, he⟩ := h.target hne
    exact ⟨n, hline.congr hinv hsame.active hsame.editText, he⟩

theorem closeSession (s : Okfs) : EditorInv (closeSession s) :=
  ⟨fun _ => rfl, fun _ => ⟨rfl, rfl, rfl⟩, fun hne => absurd rfl hne⟩

theorem fsEditHandleLine_eq (h : EditorInv s) (hactive : s.editActive = true)
    (alloc : Allocator) (line : Bytes) :
    fsEditHandleLine alloc s line =
      handleCommand alloc { s with editTargetLine := 0 } (asCommand s line) := by
  unfold fsEditHandleLine asCommand
  rw [if_neg (by simp [hactive])]
  by_cases htarget : 0 < s.editTargetLine
  · rw [if_pos htarget]
    by_cases hcolon : line.head? = some colon
    · rw [if_neg (not_not.mpr hcolon), if_neg fun hand => hand.2 hcolon]
    · rw [if_pos hcolon, if_pos ⟨htarget, hcolon⟩]
  · have hzero : s.editTargetLine = 0 := by
      by_contra hne
      obtain ⟨n, hline, he⟩ := h.target hne
      have hpos := hline.pos
      omega
    rw [if_neg htarget, if_neg fun hand => htarget hand.1, ← hzero]

theorem of_no_target (hnull : s.editLen = 0 → s.editBuf = none) (hactive : s.editActive = true)
    (htarget : s.editTargetLine = 0) : EditorInv s :=
  ⟨hnull, fun hidle => absurd (hactive.symm.trans hidle) (by decide),
    fun hne => absurd htarget hne⟩

theorem editCommand (hnull : s.editLen = 0 → s.editBuf = none) (hinv : OwnershipInv s .empty)
    (hactive : s.editActive = true) (htarget : s.editTargetLine = 0) (arg : Bytes) :
    EditorInv (FileSystem.editCommand alloc s arg).1 := by
  rcases hinv.editCommand_cases hactive alloc arg with ⟨out, he⟩ | ⟨n, hline, he⟩ |
    ⟨n, text, -, he⟩
  · rw [he]
    exact of_no_target hnull hactive htarget
  · rw [he]
    have hfetched : HasLine (fetched s n) n := hline.congr (hinv.congr rfl rfl rfl) rfl rfl
    exact ⟨hnull, fun hidle => absurd (hactive.symm.trans hidle) (by decide),
      fun _ => ⟨n, hfetched, rfl⟩⟩
  · have hedit : Editing s s.editPath := ⟨hactive, rfl, hnull⟩
    have hreplaced : Editing (replaceLine alloc s (n - 1 : ℕ) text) s.editPath :=
      hedit.replaceLine _ text
    obtain ⟨heap, buf, len, cap, hbuffer⟩ :
        BufferOnly s (replaceLine alloc s (n - 1 : ℕ) text) := bufferOnly_replaceLine _ text
    rw [he]
    refine of_no_target hreplaced.null hreplaced.active ?_
    rw [hbuffer]
    exact htarget

theorem handleCommand (hnull : s.editLen = 0 → s.editBuf = none) (hinv : OwnershipInv s .empty)
    (hactive : s.editActive = true) (htarget : s.editTargetLine = 0) (line : Bytes) :
    EditorInv (FileSystem.handleCommand alloc s line).1 := by
  have h : EditorInv s := of_no_target hnull hactive htarget
  by_cases hline : line ∈ closing
  · rcases mem_closing.mp hline with hsave | hquit
    · have hsame := hinv.sameSession_fsWriteFile alloc s.editPath
        (s.editBuf.map fun p => s.heap.read (some p)) s.editLen
      have hkept := hinv.fsWriteFile alloc s.editPath
        (s.editBuf.map fun p => s.heap.read (some p)) s.editLen
      unfold FileSystem.handleCommand
      rw [if_pos hsave]
      cases hr : fsWriteFile alloc s s.editPath (s.editBuf.map fun p => s.heap.read (some p))
          s.editLen with
      | mk t r =>
        rw [hr] at hsame hkept
        cases r with
        | error err => exact h.sameSession hkept hsame
        | ok _ => exact closeSession t
    · rw [handleCommand_of_quit hquit]
      exact closeSession s
  by_cases hedit : line.take 3 = ascii ":e "
  · rw [← List.take_append_drop 3 line, hedit, HasLine.handleCommand_edit]
    exact editCommand hnull hinv hactive htarget _
  · have hediting : Editing (FileSystem.handleCommand alloc s line).1 s.editPath :=
      Editing.handleCommand ⟨hactive, rfl, hnull⟩ hline
    refine of_no_target hediting.null hediting.active ?_
    apply handleCommand_rule fun t => t.editTargetLine = 0
    · exact htarget
    · intro u text hu
      obtain ⟨heap, buf, len, cap, hbuffer⟩ : BufferOnly u (editBufAppend alloc u text).1 :=
        bufferOnly_editBufAppend text
      rw [hbuffer]
      exact hu
    · exact fun he => absurd he hedit
    · exact hline

theorem fsEditHandleLine (h : EditorInv s) (hinv : OwnershipInv s .empty) (line : Bytes) :
    EditorInv (FileSystem.fsEditHandleLine alloc s line).1 := by
  by_cases hactive : s.editActive = true
  · have hcleared : OwnershipInv { s with editTargetLine := 0 } .empty := hinv.congr rfl rfl rfl
    rw [h.fsEditHandleLine_eq hactive]
    exact handleCommand (s := { s with editTargetLine := 0 }) h.null hcleared hactive rfl _
  · unfold FileSystem.fsEditHandleLine
    rw [if_pos (by simpa using hactive)]
    exact h

theorem fsEditBegin (h : EditorInv s) (hinv : OwnershipInv s .empty) (path : Bytes) :
    EditorInv (FileSystem.fsEditBegin alloc s path).1 := by
  have hopened : Editing (opened s path) (fsStrcpy path fsMaxPath) := ⟨rfl, rfl, fun _ => rfl⟩
  have hcleared : OwnershipInv (opened s path) .empty := hinv.editBufFree.congr rfl rfl rfl
  rcases fsEditBegin_cases alloc s path with ⟨err, he⟩ | he | ⟨text, t, hr, he⟩ |
    ⟨text, t, err, hr, he⟩
  · rw [he]
    exact h
  · rw [he]
    exact of_no_target (fun _ => rfl) rfl rfl
  · have htext : Editing t (fsStrcpy path fsMaxPath) := by
      have happend : Editing (editBufAppend alloc (opened s path) text).1
          (fsStrcpy path fsMaxPath) := hopened.editBufAppend text
      rw [hr] at happend
      exact happend
    obtain ⟨heap, buf, len, cap, hbuffer⟩ : BufferOnly (opened s path) t := by
      have happend : BufferOnly (opened s path) (editBufAppend alloc (opened s path) text).1 :=
        bufferOnly_editBufAppend text
      rw [hr] at happend
      exact happend
    rw [he]
    refine of_no_target htext.null htext.active ?_
    rw [hbuffer]
    rfl
  · -- the failed append leaves the session without a buffer
    rw [he]
    rcases hcleared.editBufAppend_cases alloc text with ⟨-, he⟩ | ⟨-, -, u, he, -⟩ | ⟨-, -, he⟩
    · rw [← show opened s path = t from congrArg Prod.fst (he.symm.trans hr)]
      exact ⟨fun _ => rfl, fun _ => ⟨rfl, rfl, rfl⟩, fun hne => absurd rfl hne⟩
    · cases congrArg Prod.snd (he.symm.trans hr)
    · rw [← show _ = t from congrArg Prod.fst (he.symm.trans hr)]
      exact ⟨fun _ => rfl, fun _ => ⟨rfl, rfl, rfl⟩, fun hne => absurd rfl hne⟩

theorem fsEditGetPendingLine (h : EditorInv s) (hinv : OwnershipInv s .empty) :
    EditorInv (fsEditGetPendingLine s).1 := by
  unfold FileSystem.fsEditGetPendingLine
  split_ifs
  · refine ⟨h.null, fun hidle => ?_, fun hne => ?_⟩
    · exact ⟨(h.idle hidle).1, (h.idle hidle).2.1, rfl⟩
    · obtain ⟨n, hline, he⟩ := h.target hne
      exact ⟨n, hline.congr (hinv.congr rfl rfl rfl) rfl rfl, he⟩
  · exact h

end EditorInv

end Lines

/-! ### Whole runs -/

section Runs

variable {alloc : Allocator} {calls : List Call} {s t : Okfs}

theorem EditorInv.step {call : Call} (h : EditorInv s) (hs : TreeInv s)
    (hinv : OwnershipInv s .empty) (hst : step alloc s call = some t) : EditorInv t := by
  have hkept := hinv.step hs hst
  cases call with
  | op op =>
    obtain rfl := Option.some.inj hst
    exact h.sameSession hkept (hinv.sameSession_run hs alloc op)
  | editBegin path =>
    obtain rfl := Option.some.inj hst
    exact h.fsEditBegin hinv path
  | editHandleLine line =>
    obtain rfl := Option.some.inj hst
    exact h.fsEditHandleLine hinv line
  | editGetPendingLine =>
    obtain rfl := Option.some.inj hst
    exact h.fsEditGetPendingLine hinv

theorem editorInv_fsInit (alloc : Allocator) : EditorInv (fsInit alloc boot) := by
  have hmkdir := ownershipInv_clearNodes.fsMkdir (ascii "/docs")
  have hreadme := hmkdir.fsWriteFile alloc (ascii "/readme.txt") (some readmeText) 0
  have hsame : SameSession (clearNodes boot) (fsInit alloc boot) := by
    refine SameSession.trans ?_ (hreadme.sameSession_fsWriteFile alloc _ _ _)
    refine SameSession.trans ?_ (hmkdir.sameSession_fsWriteFile alloc _ _ _)
    exact ownershipInv_clearNodes.sameSession_run (treeInv_clearNodes boot) alloc
      (.mkdir (ascii "/docs"))
  refine EditorInv.sameSession ?_ (ownershipInv_fsInit alloc) hsame
  exact ⟨fun _ => rfl, fun _ => ⟨rfl, rfl, rfl⟩, fun hne => absurd rfl hne⟩

theorem editorInv_of_run (hrun : Run (FileSystem.step alloc) anyCall (fsInit alloc boot) calls s) :
    EditorInv s := by
  have hall : (TreeInv s ∧ OwnershipInv s .empty) ∧ EditorInv s := by
    refine hrun.invariant (fun s => (TreeInv s ∧ OwnershipInv s .empty) ∧ EditorInv s) ?_
      ⟨⟨treeInv_fsInit alloc boot, ownershipInv_fsInit alloc⟩, editorInv_fsInit alloc⟩
    rintro s call t ⟨⟨hs, hinv⟩, h⟩ _ hst
    exact ⟨⟨hs.treeStep (hs.step hst), hinv.step hs hst⟩, h.step hs hinv hst⟩
  exact hall.2

end Runs

/-- In every state reached by calls of the shell and of the editor, wherever `kmalloc` fails: there
is a buffer exactly while there is text, with a capacity that no file exceeds; nothing is left of
a session that has ended; and a target line is a line of the text, so that the replacement of it
succeeds. -/
theorem editor_state {alloc : Allocator} {calls : List Call} {s : Okfs}
    (hrun : Run (step alloc) anyCall (fsInit alloc boot) calls s) :
    ((s.editLen = 0 ↔ s.editBuf = none) ∧ (s.editBuf = none ↔ s.editCap = 0)) ∧
      (s.editLen ≤ s.editCap ∧ s.editCap ≤ fsMaxFileSize) ∧
      (s.editActive = false →
        s.editBuf = none ∧ s.editTargetLine = 0 ∧ s.editPendingLineValid = false) ∧
      (s.editTargetLine ≠ 0 →
        1 ≤ s.editTargetLine ∧ s.editTargetLine ≤ (Lines.lines newline (editText s)).length ∧
          ∀ line : Bytes, line.head? ≠ some colon →
            (fsEditHandleLine alloc s line).2 = (.ok (), [ascii "Line updated."])) := by
  have hinv : OwnershipInv s .empty := (invariants_of_run hrun).2
  have h : EditorInv s := editorInv_of_run hrun
  have hheld : Held s.heap s.editing := hinv.accounts.held .editor
  have hcap : s.editBuf = none ↔ s.editCap = 0 := hheld.null
  have hle : s.editLen ≤ s.editCap := hheld.size_le
  refine ⟨⟨⟨h.null, ?_⟩, hcap⟩, ⟨hle, hheld.cap_le⟩, h.idle, ?_⟩
  · intro hnone
    have hzero := hcap.mp hnone
    omega
  · intro htarget
    obtain ⟨n, hline, hn⟩ := h.target htarget
    have hpos := hline.pos
    have hlast := hline.le
    rw [totalLines_eq hline.text] at hlast
    refine ⟨by omega, by omega, fun line hcolon => ?_⟩
    rw [hline.handle_target hn hcolon]

/-- The second line of the file that `fs_init` writes is loaded. -/
theorem editor_state_readme :
    ∃ s, Run (step clearedAlloc) anyCall (fsInit clearedAlloc boot)
        [.editBegin (ascii "/readme.txt"), .editHandleLine (ascii ":e 2")] s ∧
      s.editTargetLine = 2 ∧
      (fsEditHandleLine clearedAlloc s (ascii "b")).2 = (.ok (), [ascii "Line updated."]) := by
  obtain ⟨s, hs, htarget⟩ :
      ∃ s, [.editBegin (ascii "/readme.txt"), .editHandleLine (ascii ":e 2")].foldlM
        (step clearedAlloc) (fsInit clearedAlloc boot) = some s ∧ s.editTargetLine = 2 := by
    rw [fsInit_cleared]
    exact ⟨_, rfl, rfl⟩
  have hrun : Run (step clearedAlloc) anyCall (fsInit clearedAlloc boot)
      [.editBegin (ascii "/readme.txt"), .editHandleLine (ascii ":e 2")] s := Run.of_foldlM hs
  obtain ⟨-, -, -, hvalid⟩ := editor_state hrun
  have hhandled := (hvalid (by rw [htarget]; decide)).2.2
  exact ⟨s, hrun, htarget, hhandled (ascii "b") (by decide)⟩

end OpenKernel.FileSystem
