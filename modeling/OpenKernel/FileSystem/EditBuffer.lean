import OpenKernel.FileSystem.Ownership
import OpenKernel.Lib.Lines

/-!
# What the edit buffer holds

`edit_buf_append` adds its text at the end or, if there is no room to be had, leaves
the buffer as it is; the loop of `:e` does not look at which of the two
happened. It rebuilds the whole text piece by piece, so that the text comes out
as it was exactly when each of its lines does.
-/

namespace OpenKernel.FileSystem

/-! ### Making room -/

/-- A buffer of `cap` bytes holds `need` bytes, or `kmalloc` grants a larger one. -/
def roomFor (alloc : Allocator) (calls cap need : ℕ) : Bool :=
  need ≤ cap || (alloc calls (nextCap cap need)).isSome

def grownCap (cap need : ℕ) : ℕ := if need ≤ cap then cap else nextCap cap need

def grownCalls (calls cap need : ℕ) : ℕ := if need ≤ cap then calls else calls + 1

section Granted

variable (alloc : Allocator)

/-- What of the pieces gets into a buffer with `len` bytes in it when they are appended one after
the other: a piece for which there is no room is left out. -/
def granted : ℕ → ℕ → ℕ → List Bytes → List Bytes
  | _, _, _, [] => []
  | calls, cap, len, piece :: pieces =>
    let need := len + piece.length
    if fsMaxFileSize < need then [] :: granted calls cap len pieces
    else if roomFor alloc calls cap need then
      piece :: granted (grownCalls calls cap need) (grownCap cap need) need pieces
    else [] :: granted (calls + 1) cap len pieces

theorem thinned_granted (calls cap len : ℕ) (pieces : List Bytes) :
    Lines.Thinned (granted alloc calls cap len pieces) pieces := by
  induction pieces generalizing calls cap len with
  | nil => exact List.Forall₂.nil
  | cons piece pieces ih =>
    rw [granted]
    split_ifs
    · exact List.Forall₂.cons (Or.inr rfl) (ih _ _ _)
    · exact List.Forall₂.cons (Or.inl rfl) (ih _ _ _)
    · exact List.Forall₂.cons (Or.inr rfl) (ih _ _ _)

/-- Each of the pieces finds room when they are appended one after the other: none exceeds the size
of a file, and no call of `kmalloc` fails. -/
def hasRoom : ℕ → ℕ → ℕ → List Bytes → Bool
  | _, _, _, [] => true
  | calls, cap, len, piece :: pieces =>
    let need := len + piece.length
    need ≤ fsMaxFileSize && roomFor alloc calls cap need &&
      hasRoom (grownCalls calls cap need) (grownCap cap need) need pieces

variable {alloc} {calls cap len : ℕ} {piece : Bytes} {pieces : List Bytes}

theorem hasRoom_cons : hasRoom alloc calls cap len (piece :: pieces) = true ↔
    len + piece.length ≤ fsMaxFileSize ∧ roomFor alloc calls cap (len + piece.length) = true ∧
      hasRoom alloc (grownCalls calls cap (len + piece.length)) (grownCap cap (len + piece.length))
        (len + piece.length) pieces = true := by
  simp [hasRoom, and_assoc]

theorem granted_of_hasRoom (h : hasRoom alloc calls cap len pieces = true) :
    granted alloc calls cap len pieces = pieces := by
  induction pieces generalizing calls cap len with
  | nil => rfl
  | cons piece pieces ih =>
    obtain ⟨hmax, hroom, hrest⟩ := hasRoom_cons.mp h
    rw [granted, if_neg (not_lt.mpr hmax), if_pos hroom, ih hrest]

theorem hasRoom_of_alloc (halloc : ∀ k ≥ calls, ∀ size, alloc k size ≠ none)
    (hmax : len + pieces.flatten.length ≤ fsMaxFileSize) :
    hasRoom alloc calls cap len pieces = true := by
  induction pieces generalizing calls cap len with
  | nil => rfl
  | cons piece pieces ih =>
    rw [List.flatten_cons, List.length_append] at hmax
    have hroom : roomFor alloc calls cap (len + piece.length) = true := by
      simp [roomFor, Option.isSome_iff_ne_none, halloc calls le_rfl]
    have hcalls : calls ≤ grownCalls calls cap (len + piece.length) := by
      unfold grownCalls
      split_ifs <;> omega
    refine hasRoom_cons.mpr ⟨by omega, hroom, ?_⟩
    exact ih (fun k hk => halloc k (hcalls.trans hk)) (by omega)

theorem granted_eq_self (halloc : ∀ k ≥ calls, ∀ size, alloc k size ≠ none)
    (hmax : len + pieces.flatten.length ≤ fsMaxFileSize) :
    granted alloc calls cap len pieces = pieces :=
  granted_of_hasRoom (hasRoom_of_alloc halloc hmax)

end Granted

section Append

variable {alloc : Allocator} {s t : Okfs} {old : Holding} {text : Bytes}

theorem snd_growEditBuf (alloc : Allocator) (s : Okfs) (need : ℕ) :
    (growEditBuf alloc s need).2 = roomFor alloc s.heap.calls s.editCap need := by
  unfold growEditBuf roomFor
  by_cases hfit : need ≤ s.editCap
  · simp [hfit]
  · rw [if_neg hfit]
    cases ha : alloc s.heap.calls (nextCap s.editCap need) <;> simp [Buffers.kmalloc, ha, hfit]

/-- The text was added at the end. -/
structure Appended (s t : Okfs) (text : Bytes) : Prop where
  bytes : editText t = editText s ++ text
  len : t.editLen = s.editLen + text.length
  cap : t.editCap = grownCap s.editCap (s.editLen + text.length)
  calls : t.heap.calls = grownCalls s.heap.calls s.editCap (s.editLen + text.length)

namespace OwnershipInv

theorem editText_growEditBuf (h : OwnershipInv s old) {need : ℕ} (hmax : need ≤ fsMaxFileSize)
    (hg : FileSystem.growEditBuf alloc s need = (t, true)) :
    editText t = editText s ∧ t.editLen = s.editLen ∧ t.editCap = grownCap s.editCap need ∧
      t.heap.calls = grownCalls s.heap.calls s.editCap need := by
  have hedit : Held s.heap s.editing := h.accounts.held .editor
  unfold grownCap grownCalls
  rcases growEditBuf_cases alloc hedit hmax with ⟨he, hfit⟩ | he | ⟨heap, hlt, he, hheap⟩
  · obtain ⟨rfl, -⟩ := Prod.mk.inj (he.symm.trans hg)
    rw [if_pos hfit, if_pos hfit]
    exact ⟨rfl, rfl, rfl, rfl⟩
  · cases (Prod.mk.inj (he.symm.trans hg)).2
  · obtain ⟨rfl, -⟩ := Prod.mk.inj (he.symm.trans hg)
    obtain ⟨buf, hbuf, -, hcopy⟩ := hheap.fresh
    have hread : heap.read (some s.heap.calls) = buf := by simp [Buffers.read, hbuf]
    rw [if_neg (not_le.mpr hlt), if_neg (not_le.mpr hlt)]
    refine ⟨?_, rfl, rfl, hheap.calls⟩
    unfold editText
    dsimp only
    rw [hread]
    exact hcopy rfl

theorem growEditBuf_of_no_room (h : OwnershipInv s old) {need : ℕ} (hmax : need ≤ fsMaxFileSize)
    (hg : FileSystem.growEditBuf alloc s need = (t, false)) :
    t = { s with heap := { s.heap with calls := s.heap.calls + 1 } } := by
  rcases growEditBuf_cases alloc (h.accounts.held .editor) hmax with ⟨he, -⟩ | he | ⟨heap, -, he, -⟩
  · cases (Prod.mk.inj (he.symm.trans hg)).2
  · exact (Prod.mk.inj (he.symm.trans hg)).1.symm
  · cases (Prod.mk.inj (he.symm.trans hg)).2

theorem editText_write (h : OwnershipInv s old) (hfit : s.editLen + text.length ≤ s.editCap) :
    editText { s with
      heap := s.heap.write s.editBuf s.editLen text, editLen := s.editLen + text.length } =
      editText s ++ text := by
  have hedit : Held s.heap s.editing := h.accounts.held .editor
  cases hb : s.editBuf with
  | none =>
    have hcap : s.editCap = 0 := hedit.null.mp hb
    have hnil : text = [] := List.length_eq_zero_iff.mp (by omega)
    simp [editText, hb, Buffers.read, hnil]
  | some p =>
    obtain ⟨-, buf, hlive, hlen⟩ := hedit.live p hb
    have hroom : s.editLen + text.length ≤ buf.length := hfit.trans (ge_of_eq hlen)
    have hwrite := Buffers.live_write_self s.editLen text hlive
    simp only [editText, hb, Buffers.read, Option.bind_some, hwrite, hlive, Option.getD_some]
    exact take_overwrite hroom

/-- Everything that an append can do. -/
theorem editBufAppend_cases (h : OwnershipInv s old) (alloc : Allocator) (text : Bytes) :
    (fsMaxFileSize < s.editLen + text.length ∧
      FileSystem.editBufAppend alloc s text = (s, .error .noSpace)) ∨
    (s.editLen + text.length ≤ fsMaxFileSize ∧
      roomFor alloc s.heap.calls s.editCap (s.editLen + text.length) = true ∧
      ∃ t, FileSystem.editBufAppend alloc s text = (t, .ok ()) ∧ Appended s t text) ∨
    (s.editLen + text.length ≤ fsMaxFileSize ∧
      roomFor alloc s.heap.calls s.editCap (s.editLen + text.length) = false ∧
      FileSystem.editBufAppend alloc s text =
        ({ s with heap := { s.heap with calls := s.heap.calls + 1 } }, .error .noSpace)) := by
  unfold FileSystem.editBufAppend
  dsimp only
  by_cases hmax : fsMaxFileSize < s.editLen + text.length
  · rw [if_pos hmax]
    exact Or.inl ⟨hmax, rfl⟩
  rw [if_neg hmax]
  have hmax := not_lt.mp hmax
  have hsnd := snd_growEditBuf alloc s (s.editLen + text.length)
  refine Or.inr ?_
  cases hg : FileSystem.growEditBuf alloc s (s.editLen + text.length) with
  | mk t ok =>
    rw [hg] at hsnd
    cases ok with
    | false =>
      rw [h.growEditBuf_of_no_room hmax hg]
      exact Or.inr ⟨hmax, hsnd.symm, rfl⟩
    | true =>
      obtain ⟨hinv, -, hroom⟩ := h.growEditBuf hmax hg
      obtain ⟨htext, hlen, hcap, hcalls⟩ := h.editText_growEditBuf hmax hg
      have hfit : t.editLen + text.length ≤ t.editCap := by
        rw [hlen]
        exact hroom rfl
      have hwritten := hinv.editText_write hfit
      rw [htext] at hwritten
      refine Or.inl ⟨hmax, hsnd.symm, _, rfl, ?_, rfl, hcap, ?_⟩
      · rw [← hwritten, hlen]
      · rw [← hcalls]
        exact Buffers.calls_write _

end OwnershipInv

end Append

/-! ### Piece by piece -/

section Pieces

variable {alloc : Allocator} {s : Okfs} {old : Holding}

/-- The pieces are appended one after the other, whether or not there is room. -/
def appendAll (alloc : Allocator) (s : Okfs) (pieces : List Bytes) : Okfs :=
  pieces.foldl (fun s piece => (editBufAppend alloc s piece).1) s

theorem appendAll_cons (piece : Bytes) (pieces : List Bytes) :
    appendAll alloc s (piece :: pieces) =
      appendAll alloc (editBufAppend alloc s piece).1 pieces := rfl

theorem replaceLoop_eq (alloc : Allocator) (idx : ℤ) (text : Bytes) (rounds : ℕ) (s : Okfs)
    (cur : ℤ) (lines : Bytes) :
    replaceLoop alloc idx text rounds s cur lines =
      appendAll alloc s (Lines.pieces newline text rounds (idx - cur) lines) := by
  induction rounds generalizing s cur lines with
  | zero => rfl
  | succ rounds ih =>
    have hpiece : (if idx - cur = 0 then text else lines.takeWhile (· ≠ newline)) =
        if cur = idx then text else lines.takeWhile (· ≠ newline) := by
      by_cases he : cur = idx
      · rw [if_pos he, if_pos (by omega)]
      · rw [if_neg he, if_neg (by omega)]
    have hnext : idx - cur - 1 = idx - (cur + 1) := by omega
    rw [replaceLoop]
    by_cases hnil : lines = []
    · rw [if_pos hnil, hnil, Lines.pieces_nil]
      rfl
    rw [if_neg hnil]
    rcases Lines.line_cases newline lines with ⟨hd, -⟩ | ⟨rest, hd, -⟩
    · rw [Lines.pieces_last hnil hd, hpiece, hd]
      rfl
    · rw [Lines.pieces_line hd, hpiece, hd, hnext, appendAll_cons, appendAll_cons]
      exact ih _ _ _

namespace OwnershipInv

theorem editText_appendAll (h : OwnershipInv s old) (alloc : Allocator) (pieces : List Bytes) :
    editText (FileSystem.appendAll alloc s pieces) =
      editText s ++ (granted alloc s.heap.calls s.editCap s.editLen pieces).flatten := by
  induction pieces generalizing s with
  | nil => exact (List.append_nil _).symm
  | cons piece pieces ih =>
    have hrest := ih (h.editBufAppend alloc piece)
    rw [appendAll_cons, hrest, granted]
    rcases h.editBufAppend_cases alloc piece with ⟨hlt, he⟩ | ⟨hmax, hroom, t, he, happ⟩ |
      ⟨hmax, hroom, he⟩
    · rw [he, if_pos hlt]
      rfl
    · rw [he, if_neg (not_lt.mpr hmax), hroom, if_pos rfl]
      dsimp only
      rw [happ.bytes, happ.len, happ.cap, happ.calls, List.flatten_cons, List.append_assoc]
    · rw [he, if_neg (not_lt.mpr hmax), hroom, if_neg Bool.false_ne_true]
      rfl

end OwnershipInv

/-! ### Replacing a line -/

/-- When the text is built again with `text` in place of line `idx`, every line is granted as it
was: `text` is that line, or the line is empty and there is no room for `text`. -/
def Replaces (alloc : Allocator) (s : Okfs) (idx : ℤ) (text : Bytes) : Prop :=
  granted alloc s.heap.calls 0 0
      (Lines.pieces newline text ((editText s).length + 1) idx (editText s)) =
    Lines.pieces newline [] ((editText s).length + 1) (-1) (editText s)

/-- `kmalloc` grants every buffer that is needed to build the text again, line by line. -/
def Rebuilds (alloc : Allocator) (s : Okfs) : Prop := Replaces alloc s (-1) []

namespace OwnershipInv

/-- Freeing the old buffer does not concern the new one. -/
theorem editText_replaceLine (h : OwnershipInv s .empty) (alloc : Allocator) (idx : ℤ)
    (text : Bytes) :
    editText (FileSystem.replaceLine alloc s idx text) =
      editText (FileSystem.appendAll alloc { s with editBuf := none, editLen := 0, editCap := 0 }
        (Lines.pieces newline text ((editText s).length + 1) idx (editText s))) := by
  have hloop := h.detachBuffer.replaceLoop alloc idx text ((editText s).length + 1) 0 (editText s)
  rw [replaceLoop_eq, Int.sub_zero] at hloop
  unfold FileSystem.replaceLine
  dsimp only
  rw [replaceLoop_eq, Int.sub_zero]
  generalize FileSystem.appendAll alloc { s with editBuf := none, editLen := 0, editCap := 0 }
    (Lines.pieces newline text ((editText s).length + 1) idx (editText s)) = u at hloop
  cases hb : s.editBuf with
  | none => rfl
  | some buf =>
    have howner : Owner.replaced ≠ Owner.editor := by decide
    have hne : u.editBuf ≠ some buf := hloop.accounts.ne_of_ne howner hb
    unfold editText
    dsimp only
    cases hu : u.editBuf with
    | none => rfl
    | some p =>
      have hp : p ≠ buf := fun he => hne (hu.trans (congrArg some he))
      simp [Buffers.read, Buffers.kfree, Function.update_of_ne hp]

theorem editText_replaceLine_granted (h : OwnershipInv s .empty) (alloc : Allocator) (idx : ℤ)
    (text : Bytes) :
    editText (FileSystem.replaceLine alloc s idx text) =
      (granted alloc s.heap.calls 0 0
        (Lines.pieces newline text ((editText s).length + 1) idx (editText s))).flatten := by
  rw [h.editText_replaceLine, h.detachBuffer.editText_appendAll]
  rfl

theorem editText_replaceLine_eq_iff (h : OwnershipInv s .empty) (alloc : Allocator) (idx : ℤ)
    {text : Bytes} (htext : newline ∉ text) :
    editText (FileSystem.replaceLine alloc s idx text) = editText s ↔
      Replaces alloc s idx text := by
  rw [h.editText_replaceLine_granted]
  constructor
  · exact Lines.eq_pieces_of_thinned htext (Nat.lt_succ_self _) (thinned_granted ..)
  · intro hr
    rw [hr]
    exact Lines.flatten_pieces_of_neg (by decide) (Nat.lt_succ_self _)

end OwnershipInv

theorem OwnershipInv.rebuilds (h : OwnershipInv s old) (halloc : ∀ k size, alloc k size ≠ none) :
    Rebuilds alloc s := by
  have hmax := h.editLen_le_editCap.trans h.editCap_le
  have hflatten : (Lines.pieces newline [] ((editText s).length + 1) (-1) (editText s)).flatten =
      editText s := Lines.flatten_pieces_of_neg (by decide) (Nat.lt_succ_self _)
  apply granted_eq_self fun k _ => halloc k
  rw [hflatten, h.length_editText]
  omega

theorem replaces_line_self (k : ℕ) :
    Replaces alloc s k (Lines.line newline k (editText s)) ↔ Rebuilds alloc s := by
  unfold Rebuilds Replaces
  rw [Lines.pieces_line_self (Nat.lt_succ_self _)]

theorem replaces_line_iff {k : ℕ} {text : Bytes} (hk : Lines.drop newline k (editText s) ≠ [])
    (htext : text <+: Lines.line newline k (editText s)) :
    Replaces alloc s k text ↔ text = Lines.line newline k (editText s) ∧ Rebuilds alloc s := by
  constructor
  · intro hr
    have hsame : text = Lines.line newline k (editText s) := by
      have hle := (thinned_granted alloc s.heap.calls 0 0 (Lines.pieces newline text
        ((editText s).length + 1) k (editText s))).flatten_sublist.length_le
      have hsum : (Lines.pieces newline text ((editText s).length + 1) k
          (editText s)).flatten.length + (Lines.line newline k (editText s)).length =
          (editText s).length + text.length := Lines.length_flatten_pieces (Nat.lt_succ_self _) hk
      have hflatten : (Lines.pieces newline [] ((editText s).length + 1) (-1)
          (editText s)).flatten = editText s :=
        Lines.flatten_pieces_of_neg (by decide) (Nat.lt_succ_self _)
      rw [hr, hflatten] at hle
      exact htext.eq_of_length_le (by omega)
    rw [hsame] at hr
    exact ⟨hsame, (replaces_line_self k).mp hr⟩
  · rintro ⟨rfl, hr⟩
    exact (replaces_line_self k).mpr hr

end Pieces

end OpenKernel.FileSystem
