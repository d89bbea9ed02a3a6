import OpenKernel.Boot.Multiboot
import OpenKernel.FileSystem.Model
import OpenKernel.Lib.Buffer

/-!
# The lines of `os.bootinfo`

`kernel_main` saves what the boot loader has told it, and the command `os.bootinfo`
formats that in three buffers of 64 bytes without any check. The saved name has at most
63 bytes, but the buffer of its line has room for 55 behind the words in front of it.
-/

namespace OpenKernel.Boot

open FileSystem (ascii)

/-- The `saved_*` variables of `kernel.c`. -/
structure SavedInfo where
  magic : UInt32
  flags : UInt32
  memLower : UInt32
  memUpper : UInt32
  bootLoader : ℕ → UInt8
  bootLoaderValid : Bool

def bootLoaderSize : ℕ := 64

def lineSize : ℕ := 64

/-! ### Saving -/

/-- The loop that copies the name, with the number of rounds that `i < 63` leaves. -/
def saveLoop (m : ByteMemory) (name : ℕ) : ℕ → Buffer UInt8 → Option (Buffer UInt8)
  | 0, saved => some saved
  | rounds + 1, saved =>
    if m.byte (name + saved.pos) ≠ 0 then do
      let saved ← saved.push bootLoaderSize (m.byte (name + saved.pos))
      saveLoop m name rounds saved
    else some saved

/-- `kernel_main`, where `saved_boot_loader` has been `bootLoader` before. -/
def saveBootInfo (m : ByteMemory) (magic : UInt32) (mbd : Info) (bootLoader : ℕ → UInt8) :
    Option SavedInfo := do
  let info : SavedInfo :=
    { magic := magic
      flags := mbd.flags.toUInt32
      memLower := mbd.memLower.toUInt32
      memUpper := mbd.memUpper.toUInt32
      bootLoader := bootLoader
      bootLoaderValid := false }
  if mbd.bootLoaderName ≠ 0 then
    let saved ← saveLoop m mbd.bootLoaderName 63 ⟨bootLoader, 0⟩
    let bootLoader ← writeAt bootLoaderSize saved.data saved.pos 0
    some { info with bootLoader := bootLoader, bootLoaderValid := true }
  else some info

/-! ### Formatting -/

/-- The loop over the digits of a word, `0123456789abcdef`. -/
def hexLoop (v : UInt32) : List UInt8 :=
  ([28, 24, 20, 16, 12, 8, 4, 0] : List UInt32).map fun si =>
    (ascii "0123456789abcdef").getD ((v >>> si) &&& 0xF).toNat 0

/-- The loop that fills `t`, with the number of rounds that `ti < 15` leaves. -/
def decimalLoop : ℕ → UInt32 → List UInt8
  | 0, _ => []
  | rounds + 1, v =>
    if v > 0 then (48 + (v % 10).toUInt8) :: decimalLoop rounds (v / 10) else []

/-- What is written from `t`, from its end. -/
def decimal (v : UInt32) : List UInt8 := if v = 0 then [48] else (decimalLoop 15 v).reverse

/-- A line buffer with the pieces and a terminator. -/
def putLine (b : ℕ → UInt8) (pieces : List (List UInt8)) : Option (ℕ → UInt8) := do
  let b ← pieces.foldlM (Buffer.pushAll lineSize) ⟨b, 0⟩
  writeAt lineSize b.data b.pos 0

def magicLine (info : SavedInfo) (b : ℕ → UInt8) : Option (ℕ → UInt8) :=
  putLine b [ascii "Magic: 0x", hexLoop info.magic, ascii " Flags: 0x", hexLoop info.flags]

def memoryLine (info : SavedInfo) (b : ℕ → UInt8) : Option (ℕ → UInt8) :=
  putLine b [ascii "Memory: ", decimal info.memLower, ascii " KB", ascii " lower, ",
    decimal info.memUpper, ascii " KB", ascii " upper"]

/-- The loop that copies the saved name, with the number of bytes of `saved_boot_loader` that are
left. -/
def loaderLoop (saved : ℕ → UInt8) : ℕ → ℕ → Buffer UInt8 → Option (Buffer UInt8)
  | 0, _, _ => none
  | left + 1, i, b =>
    if saved i ≠ 0 then do
      let b ← b.push lineSize (saved i)
      loaderLoop saved left (i + 1) b
    else some b

def loaderLine (info : SavedInfo) (b : ℕ → UInt8) : Option (ℕ → UInt8) := do
  let b ← Buffer.pushAll lineSize ⟨b, 0⟩ (ascii "Loader: ")
  let b ← loaderLoop info.bootLoader bootLoaderSize 0 b
  writeAt lineSize b.data b.pos 0

/-- The lines that are logged behind the heading; `stack` is what their buffers hold before. -/
def osBootinfo (info : SavedInfo) (stack : ℕ → ℕ → UInt8) : Option (List (ℕ → UInt8)) := do
  let magic ← magicLine info (stack 0)
  let memory ← memoryLine info (stack 1)
  if info.bootLoaderValid then
    let loader ← loaderLine info (stack 2)
    some [magic, memory, loader]
  else some [magic, memory]

/-! ### What is saved -/

section Saving

variable {m : ByteMemory} {name limit : ℕ}

theorem length_cString_le (m : ByteMemory) (name limit : ℕ) :
    (cString m name limit).length ≤ limit := by
  induction limit generalizing name with
  | zero => exact Nat.le_refl 0
  | succ limit ih =>
    unfold cString
    split_ifs
    · exact Nat.zero_le _
    · rw [List.length_cons]
      exact Nat.succ_le_succ (ih _)

theorem zero_notMem_cString : 0 ∉ cString m name limit := by
  induction limit generalizing name with
  | zero => exact List.not_mem_nil
  | succ limit ih =>
    unfold cString
    split_ifs with hzero
    · exact List.not_mem_nil
    · rw [List.mem_cons, not_or]
      exact ⟨fun h => hzero h.symm, ih⟩

/-- A string is short if its terminator comes early. -/
theorem length_cString_le_iff {k : ℕ} (hk : k < limit) :
    (cString m name limit).length ≤ k ↔ ∃ n ≤ k, m.byte (name + n) = 0 := by
  induction limit generalizing name k with
  | zero => exact absurd hk (Nat.not_lt_zero k)
  | succ limit ih =>
    unfold cString
    split_ifs with hzero
    · exact iff_of_true (Nat.zero_le k) ⟨0, Nat.zero_le k, hzero⟩
    · rw [List.length_cons]
      cases k with
      | zero =>
        refine iff_of_false (Nat.not_succ_le_zero _) ?_
        rintro ⟨n, hn, hbyte⟩
        obtain rfl := Nat.le_zero.mp hn
        exact hzero hbyte
      | succ k =>
        rw [Nat.succ_le_succ_iff, ih (Nat.lt_of_succ_lt_succ hk)]
        constructor
        · rintro ⟨n, hn, hbyte⟩
          exact ⟨n + 1, Nat.succ_le_succ hn, by rwa [Nat.add_right_comm] at hbyte⟩
        · rintro ⟨n, hn, hbyte⟩
          cases n with
          | zero => exact absurd hbyte hzero
          | succ n => exact ⟨n, Nat.le_of_succ_le_succ hn, by rwa [Nat.add_right_comm]⟩

theorem saveLoop_eq (rounds : ℕ) (saved : Buffer UInt8) :
    saveLoop m name rounds saved =
      saved.pushAll bootLoaderSize (cString m (name + saved.pos) rounds) := by
  induction rounds generalizing saved with
  | zero => rfl
  | succ rounds ih =>
    unfold saveLoop cString
    by_cases hzero : m.byte (name + saved.pos) = 0
    · rw [if_neg (not_not.mpr hzero), if_pos hzero]
      rfl
    · rw [if_pos hzero, if_neg hzero, Buffer.pushAll, List.foldlM_cons]
      refine Option.bind_congr fun saved' hpush => ?_
      obtain ⟨data, -, rfl⟩ := Option.map_eq_some_iff.mp hpush
      exact ih _

/-- The name is saved up to its 63rd byte, with a terminator, as the boot information has it. -/
theorem exists_saveBootInfo (m : ByteMemory) (magic : UInt32) (mbd : Info)
    (bootLoader : ℕ → UInt8) : ∃ info, saveBootInfo m magic mbd bootLoader = some info ∧
      info.bootLoaderValid = decide (mbd.bootLoaderName ≠ 0) ∧
      (mbd.bootLoaderName ≠ 0 →
        HoldsString info.bootLoader (cString m mbd.bootLoaderName 63)) := by
  unfold saveBootInfo
  by_cases hname : mbd.bootLoaderName = 0
  · rw [if_neg (not_not.mpr hname)]
    exact ⟨_, rfl, (decide_eq_false (not_not.mpr hname)).symm, fun h => absurd hname h⟩
  · have hlength := length_cString_le m mbd.bootLoaderName 63
    have hroom : ([] : List UInt8).length +
        (cString m mbd.bootLoaderName 63).length ≤ bootLoaderSize := by
      rw [List.length_nil, bootLoaderSize]
      omega
    obtain ⟨saved, hsaved, hshows⟩ := (Buffer.shows_nil bootLoader).pushAll bootLoaderSize _ hroom
    rw [List.nil_append] at hshows
    obtain ⟨data, hdata, hholds⟩ := hshows.terminate bootLoaderSize
      (by rw [bootLoaderSize]; omega) zero_notMem_cString
    rw [if_pos hname, saveLoop_eq, Nat.add_zero, hsaved]
    change ∃ info, (writeAt bootLoaderSize saved.data saved.pos 0 >>= _) = some info ∧ _
    rw [hdata]
    exact ⟨_, rfl, (decide_eq_true hname).symm, fun _ => hholds⟩

end Saving

/-! ### The two lines of numbers -/

section Numbers

theorem length_hexLoop (v : UInt32) : (hexLoop v).length = 8 := rfl

theorem length_decimalLoop_le {k : ℕ} (rounds : ℕ) {v : UInt32} (hv : v.toNat < 10 ^ k) :
    (decimalLoop rounds v).length ≤ k := by
  induction rounds generalizing v k with
  | zero => exact Nat.zero_le k
  | succ rounds ih =>
    unfold decimalLoop
    split_ifs with hpos
    · cases k with
      | zero =>
        have hlt := UInt32.lt_iff_toNat_lt.mp hpos
        change 0 < v.toNat at hlt
        rw [Nat.pow_zero] at hv
        omega
      | succ k =>
        rw [List.length_cons]
        refine Nat.succ_le_succ (ih ?_)
        rw [UInt32.toNat_div]
        change v.toNat / 10 < 10 ^ k
        rw [Nat.pow_succ] at hv
        omega
    · exact Nat.zero_le _

theorem length_decimal_le (v : UInt32) : (decimal v).length ≤ 10 := by
  unfold decimal
  split_ifs
  · decide
  · have hv := v.toNat_lt
    rw [List.length_reverse]
    exact length_decimalLoop_le 15 (by omega)

theorem foldlM_pushAll {size : ℕ} (pieces : List (List UInt8)) (b : Buffer UInt8) :
    pieces.foldlM (Buffer.pushAll size) b = b.pushAll size pieces.flatten := by
  induction pieces generalizing b with
  | nil => rfl
  | cons piece pieces ih =>
    rw [List.flatten_cons, Buffer.pushAll, List.foldlM_append, List.foldlM_cons]
    exact Option.bind_congr fun b' _ => ih b'

theorem exists_putLine (b : ℕ → UInt8) {pieces : List (List UInt8)}
    (h : pieces.flatten.length < lineSize) : ∃ line, putLine b pieces = some line := by
  obtain ⟨b', hpush, hshows⟩ := (Buffer.shows_nil b).pushAll lineSize pieces.flatten
    (by rw [List.length_nil, Nat.zero_add]; exact Nat.le_of_lt h)
  rw [List.nil_append] at hshows
  refine ⟨Function.update b'.data b'.pos 0, ?_⟩
  unfold putLine
  rw [foldlM_pushAll, hpush]
  exact if_pos (hshows.pos ▸ h)

theorem exists_magicLine (info : SavedInfo) (b : ℕ → UInt8) :
    ∃ line, magicLine info b = some line := by
  refine exists_putLine b ?_
  simp only [List.flatten_cons, List.flatten_nil, List.length_append, List.length_nil,
    length_hexLoop]
  decide

theorem exists_memoryLine (info : SavedInfo) (b : ℕ → UInt8) :
    ∃ line, memoryLine info b = some line := by
  have hlower := length_decimal_le info.memLower
  have hupper := length_decimal_le info.memUpper
  refine exists_putLine b ?_
  simp only [List.flatten_cons, List.flatten_nil, List.length_append, List.length_nil]
  change 8 + ((decimal info.memLower).length + (3 + (8 + ((decimal info.memUpper).length +
    (3 + (6 + 0)))))) < 64
  omega

end Numbers

/-! ### The line of the name -/

section Loader

variable {saved : ℕ → UInt8} {text rest : List UInt8} {b : Buffer UInt8} {info : SavedInfo}

/-- The copy goes up to the terminator. -/
theorem loaderLoop_eq (h : HoldsString saved text) (done : List UInt8) {left : ℕ}
    (b : Buffer UInt8) (htext : text = done ++ rest) (hleft : rest.length < left) :
    loaderLoop saved left done.length b = b.pushAll lineSize rest := by
  induction rest generalizing left done b with
  | nil =>
    obtain ⟨left, rfl⟩ := Nat.exists_eq_succ_of_ne_zero (Nat.ne_of_gt hleft)
    rw [List.append_nil] at htext
    have hzero : saved done.length = 0 := htext ▸ h.zero_at
    unfold loaderLoop
    rw [if_neg (not_not.mpr hzero)]
    rfl
  | cons c rest ih =>
    rw [List.length_cons] at hleft
    obtain ⟨left, rfl⟩ := Nat.exists_eq_succ_of_ne_zero (Nat.ne_of_gt (Nat.zero_lt_of_lt hleft))
    have hget : text[done.length]? = some c := by
      rw [htext, List.getElem?_append_right (Nat.le_refl _), Nat.sub_self]
      rfl
    have hbyte : saved done.length = c := h.startsWith _ _ hget
    have hne : saved done.length ≠ 0 := h.ne_zero (List.getElem?_eq_some_iff.mp hget).1
    have htext' : text = (done ++ [c]) ++ rest := by
      rw [htext, List.append_assoc, List.singleton_append]
    unfold loaderLoop
    rw [if_pos hne, hbyte, Buffer.pushAll, List.foldlM_cons]
    refine Option.bind_congr fun b' _ => ?_
    have hrest := ih _ b' htext' (Nat.lt_of_succ_lt_succ hleft)
    rwa [List.length_append, List.length_singleton] at hrest

/-- The name fits behind the first eight bytes. -/
theorem loaderLine_isSome_iff (h : HoldsString info.bootLoader text)
    (hlength : text.length < bootLoaderSize) (b : ℕ → UInt8) :
    (loaderLine info b).isSome ↔ text.length ≤ 55 := by
  have hwords : (ascii "Loader: ").length = 8 := rfl
  obtain ⟨b₁, hb₁, hshows⟩ := (Buffer.shows_nil b).pushAll lineSize (ascii "Loader: ")
    (by decide)
  rw [List.nil_append] at hshows
  have hpos : b₁.pos = 8 := hshows.pos
  have hloop : loaderLoop info.bootLoader bootLoaderSize 0 b₁ = b₁.pushAll lineSize text :=
    loaderLoop_eq h [] b₁ (List.nil_append text).symm hlength
  unfold loaderLine
  rw [hb₁]
  change (loaderLoop info.bootLoader bootLoaderSize 0 b₁ >>= _).isSome ↔ _
  rw [hloop]
  by_cases hfits : 8 + text.length ≤ lineSize
  · obtain ⟨b₂, hb₂, hshows₂⟩ := hshows.pushAll lineSize text hfits
    have hpos₂ : b₂.pos = 8 + text.length := by
      rw [hshows₂.pos, List.length_append, hwords]
    rw [hb₂]
    change (writeAt lineSize b₂.data b₂.pos 0).isSome ↔ _
    rw [writeAt, hpos₂, lineSize]
    split_ifs with hlt
    · exact iff_of_true rfl (by omega)
    · exact iff_of_false Bool.noConfusion (by omega)
  · rw [lineSize] at hfits
    rw [Buffer.pushAll_eq_none (hpos ▸ by decide) (by rw [hpos, lineSize]; omega)]
    exact iff_of_false Bool.noConfusion (by omega)

end Loader

/-- Whatever the boot loader supplies, formatting its information stays in the buffers exactly if
there is no name or it has at most 55 bytes. -/
theorem bootinfo_inside_iff (m : ByteMemory) (magic : UInt32) (mbd : Info)
    (bootLoader : ℕ → UInt8) (stack : ℕ → ℕ → UInt8) :
    (∃ info, saveBootInfo m magic mbd bootLoader = some info ∧ (osBootinfo info stack).isSome) ↔
      mbd.bootLoaderName = 0 ∨ ∃ n ≤ 55, m.byte (mbd.bootLoaderName + n) = 0 := by
  obtain ⟨info, hinfo, hvalid, hholds⟩ := exists_saveBootInfo m magic mbd bootLoader
  have hlines : (∃ info', saveBootInfo m magic mbd bootLoader = some info' ∧
      (osBootinfo info' stack).isSome) ↔ (osBootinfo info stack).isSome := by
    rw [hinfo]
    constructor
    · rintro ⟨info', heq, hsome⟩
      exact Option.some.inj heq ▸ hsome
    · exact fun hsome => ⟨info, rfl, hsome⟩
  obtain ⟨magicText, hmagic⟩ := exists_magicLine info (stack 0)
  obtain ⟨memoryText, hmemory⟩ := exists_memoryLine info (stack 1)
  rw [hlines]
  unfold osBootinfo
  rw [hmagic, hmemory, hvalid]
  by_cases hname : mbd.bootLoaderName = 0
  · exact iff_of_true (by simp [hname]) (Or.inl hname)
  · rw [or_iff_right hname, ← length_cString_le_iff (show 55 < 63 by decide)]
    have hlength := length_cString_le m mbd.bootLoaderName 63
    rw [← loaderLine_isSome_iff (hholds hname) (by rw [bootLoaderSize]; omega) (stack 2)]
    cases hline : loaderLine info (stack 2) with
    | none => simp [hname]
    | some line => simp [hname]

/-- A name of 56 bytes at `0x1000`. -/
def namedMemory : ByteMemory where
  byte a := if 0x1000 ≤ a ∧ a < 0x1000 + 56 then 65 else 0
  written := []

def namedInfo : Info := ⟨0, 640, 64512, 0, 0x1000, 0, 0, 0, 0, 0, 0, 0⟩

/-- The terminator of a line with a name of 56 bytes is written behind its buffer. -/
theorem not_bootinfo_inside :
    namedMemory.byte (0x1000 + 56) = 0 ∧
      ∃ info, saveBootInfo namedMemory 0x2BADB002 namedInfo (fun _ => 0) = some info ∧
        (osBootinfo info fun _ _ => 0) = none := by
  obtain ⟨info, hinfo, hvalid, hholds⟩ :=
    exists_saveBootInfo namedMemory 0x2BADB002 namedInfo fun _ => 0
  have hname : namedInfo.bootLoaderName ≠ 0 := by decide
  have hlength : (cString namedMemory namedInfo.bootLoaderName 63).length = 56 := by decide
  have hline : loaderLine info (fun _ => 0) = none := by
    rw [← Option.not_isSome_iff_eq_none,
      loaderLine_isSome_iff (hholds hname) (by rw [hlength]; decide), hlength]
    decide
  obtain ⟨magicText, hmagic⟩ := exists_magicLine info fun _ => 0
  obtain ⟨memoryText, hmemory⟩ := exists_memoryLine info fun _ => 0
  refine ⟨by decide, info, hinfo, ?_⟩
  unfold osBootinfo
  rw [hmagic, hmemory, hvalid, hline]
  rfl

end OpenKernel.Boot
