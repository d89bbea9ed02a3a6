import OpenKernel.Console.Model
import Mathlib.Data.List.Basic
import Mathlib.Data.Nat.Digits.Defs

/-!
# Formatting by `printk`

`printk` from the start: the loop over the format, which writes into a buffer of
512 bytes on the stack, and the output of that buffer. A write behind the buffer
and a read behind the terminator of the format make it fail. The arguments are
the words on the stack, whether the caller has put them there or not; `long` has
32 bits.
-/

namespace OpenKernel.Console

/-- A write outside `buffer` or `temp`, or a read behind the end of the format. -/
inductive PrintkFault
  | buffer
  | temp
  | format
  deriving DecidableEq

/-- `buffer[buf_idx++] = c`, where `buf_idx` is the number of bytes written so far. -/
def put (buffer : List UInt8) (c : UInt8) : Except PrintkFault (List UInt8) :=
  if buffer.length < 512 then .ok (buffer ++ [c]) else .error .buffer

/-- A write under the test `buf_idx < 511`. -/
def putGuarded (buffer : List UInt8) (c : UInt8) : Except PrintkFault (List UInt8) :=
  if buffer.length < 511 then put buffer c else .ok buffer

/-- The loop that fills `temp` with the digits of `uvalue`, with the slots that are left. -/
def fillTemp : ℕ → ℕ → Except PrintkFault (List UInt8)
  | room, uvalue =>
    if uvalue = 0 then .ok []
    else
      match room with
      | 0 => .error .temp
      | room + 1 => do
        let temp ← fillTemp room (uvalue / 10)
        .ok ((48 + (uvalue % 10).toUInt8) :: temp)

/-- `%d`. The loop that empties `temp` does so from its end. -/
def putDecimal (buffer : List UInt8) (value : UInt32) : Except PrintkFault (List UInt8) := do
  let (buffer, uvalue) ←
    if value.toInt32 < 0 ∧ buffer.length < 511 then do
      let buffer ← put buffer 45
      pure (buffer, -value)
    else pure (buffer, value)
  if uvalue = 0 ∧ buffer.length < 511 then put buffer 48
  else do
    let temp ← fillTemp 16 uvalue.toNat
    temp.reverse.foldlM putGuarded buffer

/-- The string `"0123456789abcdef"`. -/
def hexDigits : List UInt8 := [48, 49, 50, 51, 52, 53, 54, 55, 56, 57, 97, 98, 99, 100, 101, 102]

/-- `%x`. -/
def putHex (buffer : List UInt8) (value : UInt32) : Except PrintkFault (List UInt8) :=
  ([28, 24, 20, 16, 12, 8, 4, 0] : List UInt32).foldlM
    (fun buffer i => putGuarded buffer (hexDigits.getD ((value >>> i) &&& 0xF).toNat 0)) buffer

/-- `%s`, with the number of rounds that `buf_idx < 511` leaves. -/
def putString (mem : UInt32 → UInt8) : ℕ → List UInt8 → UInt32 → Except PrintkFault (List UInt8)
  | 0, buffer, _ => .ok buffer
  | rounds + 1, buffer, str =>
    if mem str ≠ 0 then do
      let buffer ← put buffer (mem str)
      putString mem rounds buffer (str + 1)
    else .ok buffer

/-- The `switch` over the character behind `%`, with the number of arguments taken so far. -/
def directive (mem : UInt32 → UInt8) (args : ℕ → UInt32) (n : ℕ) (buffer : List UInt8) (d : UInt8) :
    Except PrintkFault (List UInt8 × ℕ) :=
  -- `'d'`, `'x'`, `'s'` and `'%'`
  if d = 100 then (putDecimal buffer (args n)).map fun buffer => (buffer, n + 1)
  else if d = 120 then (putHex buffer (args n)).map fun buffer => (buffer, n + 1)
  else if d = 115 then
    (putString mem (511 - buffer.length) buffer (args n)).map fun buffer => (buffer, n + 1)
  else if d = 37 then (put buffer 37).map fun buffer => (buffer, n)
  else do
    let buffer ← put buffer 37
    let buffer ← put buffer d
    .ok (buffer, n)

def formatLoop (mem : UInt32 → UInt8) (args : ℕ → UInt32) :
    ℕ → List UInt8 → List UInt8 → Except PrintkFault (List UInt8)
  | _, buffer, [] => .ok buffer
  | n, buffer, c :: rest =>
    if buffer.length < 511 then
      if c = 37 then
        match rest with
        | [] => do
          -- the terminator is taken for an unknown directive and stepped over
          let buffer ← put buffer 37
          let _ ← put buffer 0
          .error .format
        | d :: rest => do
          let (buffer, n) ← directive mem args n buffer d
          formatLoop mem args n buffer rest
      else do
        let buffer ← put buffer c
        formatLoop mem args n buffer rest
    else .ok buffer

/-- The buffer with its terminator; `format` is the format without its own. -/
def formatText (mem : UInt32 → UInt8) (args : ℕ → UInt32) (format : List UInt8) :
    Except PrintkFault (List UInt8) := do
  let buffer ← formatLoop mem args 0 [] format
  put buffer 0

def printk (s : Terminal) (mem : UInt32 → UInt8) (args : ℕ → UInt32) (format : List UInt8) :
    Except PrintkFault Terminal :=
  (formatText mem args format).map s.printk

/-! ### The reference expansion -/

/-- A step through the format: a character that stands for itself, or a directive. -/
inductive Token
  | char (c : UInt8)
  | decimal
  | hex
  | string
  | percent
  | unknown (d : UInt8)
  | trailing
  deriving DecidableEq

/-- The directive that a character behind `%` makes. -/
def tokenOf (d : UInt8) : Token :=
  if d = 100 then .decimal
  else if d = 120 then .hex
  else if d = 115 then .string
  else if d = 37 then .percent
  else .unknown d

def tokenize : List UInt8 → List Token
  | [] => []
  | c :: rest =>
    if c = 37 then
      match rest with
      | [] => [.trailing]
      | d :: rest => tokenOf d :: tokenize rest
    else .char c :: tokenize rest

/-- The number `n` in decimal, without leading zeros. -/
def decimalDigits (n : ℕ) : List UInt8 := (Nat.toDigits 10 n).map Char.toUInt8

/-- The word as a signed number in decimal. -/
def decimalOf (value : UInt32) : List UInt8 :=
  (if value.toInt32.toInt < 0 then [45] else []) ++ decimalDigits value.toInt32.toInt.natAbs

/-- The word in eight hexadecimal digits of lower case. -/
def hexOf (value : UInt32) : List UInt8 :=
  (List.range 8).map fun i => (Nat.digitChar (value.toNat / 16 ^ (7 - i) % 16)).toUInt8

/-- The string at `str`, cut to `n` bytes. -/
def stringAt (mem : UInt32 → UInt8) : ℕ → UInt32 → List UInt8
  | 0, _ => []
  | n + 1, str => if mem str = 0 then [] else mem str :: stringAt mem n (str + 1)

namespace Token

/-- What a step adds to the text, where `word` is the next argument. Only the first
511 bytes of a string can matter. -/
def output (mem : UInt32 → UInt8) (word : UInt32) : Token → List UInt8
  | char c => [c]
  | decimal => decimalOf word
  | hex => hexOf word
  | string => stringAt mem 511 word
  | percent => [37]
  | unknown d => [37, d]
  | trailing => [37]

/-- The number of arguments that a step takes. -/
def taken : Token → ℕ
  | decimal | hex | string => 1
  | _ => 0

end Token

/-- The text of a list of steps, with the number of arguments taken before it. -/
def expansion (mem : UInt32 → UInt8) (args : ℕ → UInt32) : ℕ → List Token → List UInt8
  | _, [] => []
  | n, t :: ts => t.output mem (args n) ++ expansion mem args (n + t.taken) ts

/-- Whether a step behind `len` characters stays within the buffer and the format. The
loop ends before a step behind 511 characters. -/
def Token.Fits (len : ℕ) : Token → Prop
  | .unknown _ => len ≠ 510
  | .trailing => 511 ≤ len
  | _ => True

/-- Every step fits where it stands, behind the text of the steps before it and `len`
further characters. -/
def FitFrom (mem : UInt32 → UInt8) (args : ℕ → UInt32) (n len : ℕ) (ts : List Token) : Prop :=
  ∀ before t behind, ts = before ++ t :: behind →
    t.Fits (len + (expansion mem args n before).length)

/-- No unknown directive stands behind 510 characters of text, and no lone `%` ends a format
whose text has at most 510. -/
def Contained (mem : UInt32 → UInt8) (args : ℕ → UInt32) (format : List UInt8) : Prop :=
  FitFrom mem args 0 0 (tokenize format)

/-! ### What each branch writes -/

section Branches

variable {mem : UInt32 → UInt8} {args : ℕ → UInt32} {n : ℕ} {buffer : List UInt8}

theorem length_append_one_le {c : UInt8} (hlen : buffer.length < 511) :
    (buffer ++ [c]).length ≤ 511 := by
  rw [List.length_append, List.length_singleton]
  exact hlen

theorem put_of_lt (c : UInt8) (hlen : buffer.length < 511) :
    put buffer c = .ok ((buffer ++ [c]).take 511) := by
  rw [put, if_pos (by omega), List.take_of_length_le (length_append_one_le hlen)]

theorem foldlM_putGuarded (cs : List UInt8) (hlen : buffer.length ≤ 511) :
    cs.foldlM putGuarded buffer = .ok ((buffer ++ cs).take 511) := by
  induction cs generalizing buffer with
  | nil =>
    rw [List.foldlM_nil, List.append_nil, List.take_of_length_le hlen]
    rfl
  | cons c cs ih =>
    rw [List.foldlM_cons, putGuarded]
    by_cases hroom : buffer.length < 511
    · have hnext : (buffer ++ [c]).length ≤ 511 := length_append_one_le hroom
      rw [if_pos hroom, put_of_lt c hroom, List.take_of_length_le hnext]
      change List.foldlM putGuarded (buffer ++ [c]) cs = _
      rw [ih hnext, List.append_assoc, List.singleton_append]
    · have hfull : 511 ≤ buffer.length := by omega
      rw [if_neg hroom]
      change List.foldlM putGuarded buffer cs = _
      rw [ih hlen, List.take_append_of_le_length hfull, List.take_append_of_le_length hfull]

@[simp] theorem fillTemp_zero (room : ℕ) : fillTemp room 0 = .ok [] := by
  cases room <;> rfl

theorem decimalDigits_of_le {uvalue : ℕ} (hten : 10 ≤ uvalue) :
    decimalDigits uvalue =
      decimalDigits (uvalue / 10) ++ [(Nat.digitChar (uvalue % 10)).toUInt8] := by
  rw [decimalDigits, Nat.toDigits_of_base_le (by decide) hten, List.map_append]
  rfl

theorem fillTemp_eq {room uvalue : ℕ} (hpos : 0 < uvalue) (hroom : uvalue < 10 ^ room) :
    fillTemp room uvalue = .ok (decimalDigits uvalue).reverse := by
  have hdigit : ∀ d, d < 10 → (Nat.digitChar d).toUInt8 = 48 + d.toUInt8 := by decide
  induction room generalizing uvalue with
  | zero =>
    rw [Nat.pow_zero] at hroom
    omega
  | succ room ih =>
    rw [fillTemp, if_neg (by omega)]
    by_cases hlast : uvalue < 10
    · rw [Nat.div_eq_of_lt hlast, Nat.mod_eq_of_lt hlast, fillTemp_zero, ← hdigit uvalue hlast,
        decimalDigits, Nat.toDigits_of_lt_base hlast]
      rfl
    · have hdiv : uvalue / 10 < 10 ^ room := by rw [Nat.pow_succ] at hroom; omega
      have hmod : uvalue % 10 < 10 := Nat.mod_lt _ (by decide)
      have hlow := decimalDigits_of_le (show 10 ≤ uvalue by omega)
      rw [ih (by omega) hdiv, hlow, List.reverse_append, hdigit _ hmod]
      rfl

theorem toInt_word (value : UInt32) : value.toInt32.toInt =
    if 2 * value.toNat < 2 ^ 32 then (value.toNat : ℤ) else value.toNat - 2 ^ 32 :=
  BitVec.toInt_eq_toNat_cond value.toBitVec

theorem toNat_neg_word {value : UInt32} (hneg : value.toInt32.toInt < 0) :
    (-value).toNat = value.toInt32.toInt.natAbs := by
  have hlt := value.toNat_lt
  have hsize : UInt32.size = 2 ^ 32 := rfl
  rw [toInt_word] at hneg ⊢
  rw [UInt32.toNat_neg, hsize]
  split_ifs at hneg ⊢ <;> omega

theorem toNat_nonneg_word {value : UInt32} (hnonneg : ¬value.toInt32.toInt < 0) :
    value.toNat = value.toInt32.toInt.natAbs := by
  have hlt := value.toNat_lt
  rw [toInt_word] at hnonneg ⊢
  split_ifs at hnonneg ⊢ <;> omega

theorem foldlM_fillTemp {uvalue : UInt32} (hpos : uvalue ≠ 0) (hlen : buffer.length ≤ 511) :
    (fillTemp 16 uvalue.toNat >>= fun temp => temp.reverse.foldlM putGuarded buffer) =
      .ok ((buffer ++ decimalDigits uvalue.toNat).take 511) := by
  have hnat : uvalue.toNat ≠ 0 := fun h => hpos (UInt32.toNat.inj h)
  have hlt : uvalue.toNat < 10 ^ 16 := Nat.lt_trans uvalue.toNat_lt (by decide)
  rw [fillTemp_eq (by omega) hlt]
  change List.foldlM putGuarded buffer (decimalDigits uvalue.toNat).reverse.reverse = _
  rw [List.reverse_reverse, foldlM_putGuarded _ hlen]

theorem putDecimal_eq (value : UInt32) (hlen : buffer.length < 511) :
    putDecimal buffer value = .ok ((buffer ++ decimalOf value).take 511) := by
  unfold putDecimal decimalOf
  simp only [Int32.lt_iff_toInt_lt, Int32.toInt_zero, hlen, and_true]
  by_cases hneg : value.toInt32.toInt < 0
  · have hnext : (buffer ++ [45]).length ≤ 511 := length_append_one_le hlen
    have hpos : -value ≠ 0 := by
      intro hzero
      have hnat := toNat_neg_word hneg
      rw [hzero] at hnat
      change 0 = _ at hnat
      omega
    rw [if_pos hneg, if_pos hneg, put_of_lt 45 hlen, List.take_of_length_le hnext,
      ← toNat_neg_word hneg, ← List.append_assoc, ← foldlM_fillTemp hpos hnext]
    change (if -value = 0 ∧ (buffer ++ [45]).length < 511 then _ else _) = _
    rw [if_neg fun h => hpos h.1]
  · rw [if_neg hneg, if_neg hneg, ← toNat_nonneg_word hneg, List.nil_append]
    change (if value = 0 ∧ buffer.length < 511 then _ else _) = _
    by_cases hzero : value = 0
    · subst hzero
      rw [if_pos ⟨rfl, hlen⟩, put_of_lt 48 hlen]
      rfl
    · rw [if_neg fun h => hzero h.1, ← foldlM_fillTemp hzero hlen.le]

theorem hexDigit_eq (value : UInt32) {k : ℕ} (hk : k < 8) :
    hexDigits.getD ((value >>> (4 * k).toUInt32) &&& 0xF).toNat 0 =
      (Nat.digitChar (value.toNat / 16 ^ k % 16)).toUInt8 := by
  have htable : ∀ d, d < 16 → hexDigits.getD d 0 = (Nat.digitChar d).toUInt8 := by decide
  have hshift : (4 * k).toUInt32.toNat % 32 = 4 * k := by
    rw [Nat.toUInt32, UInt32.toNat_ofNat']
    omega
  have hnat : ((value >>> (4 * k).toUInt32) &&& 0xF).toNat = value.toNat / 16 ^ k % 16 := by
    rw [UInt32.toNat_and, UInt32.toNat_shiftRight, hshift, Nat.shiftRight_eq_div_pow, Nat.pow_mul]
    exact Nat.and_two_pow_sub_one_eq_mod _ 4
  rw [hnat, htable _ (Nat.mod_lt _ (by decide))]

theorem shifts_eq : ([28, 24, 20, 16, 12, 8, 4, 0] : List UInt32) =
    (List.range 8).map fun i => (4 * (7 - i)).toUInt32 := by
  decide

theorem putHex_eq (value : UInt32) (hlen : buffer.length ≤ 511) :
    putHex buffer value = .ok ((buffer ++ hexOf value).take 511) := by
  have hdigits : hexOf value = ([28, 24, 20, 16, 12, 8, 4, 0] : List UInt32).map
      fun i => hexDigits.getD ((value >>> i) &&& 0xF).toNat 0 := by
    rw [shifts_eq, List.map_map, hexOf]
    refine List.map_congr_left fun i hi => ?_
    rw [List.mem_range] at hi
    exact (hexDigit_eq value (show 7 - i < 8 by omega)).symm
  rw [hdigits, ← foldlM_putGuarded _ hlen, List.foldlM_map]
  rfl

theorem putString_eq (rounds : ℕ) (str : UInt32) (hlen : buffer.length + rounds ≤ 511) :
    putString mem rounds buffer str = .ok (buffer ++ stringAt mem rounds str) := by
  induction rounds generalizing buffer str with
  | zero => rw [putString, stringAt, List.append_nil]
  | succ rounds ih =>
    rw [putString, stringAt]
    by_cases hend : mem str = 0
    · rw [if_neg (not_not.mpr hend), if_pos hend, List.append_nil]
    · have hnext := length_append_one_le (c := mem str) (show buffer.length < 511 by omega)
      rw [if_pos hend, if_neg hend, put_of_lt _ (by omega), List.take_of_length_le hnext]
      change putString mem rounds (buffer ++ [mem str]) (str + 1) = _
      rw [ih _ (by rw [List.length_append, List.length_singleton]; omega), List.append_assoc,
        List.singleton_append]

theorem take_stringAt {k m : ℕ} (str : UInt32) (hkm : k ≤ m) :
    (stringAt mem m str).take k = stringAt mem k str := by
  induction k generalizing m str with
  | zero => rfl
  | succ k ih =>
    obtain ⟨m, rfl⟩ : ∃ m', m = m' + 1 := ⟨m - 1, by omega⟩
    rw [stringAt, stringAt]
    by_cases hend : mem str = 0
    · rw [if_pos hend, if_pos hend, List.take_nil]
    · rw [if_neg hend, if_neg hend, List.take_succ_cons, ih _ (by omega)]

theorem putString_cut (str : UInt32) (hlen : buffer.length < 511) :
    putString mem (511 - buffer.length) buffer str =
      .ok ((buffer ++ stringAt mem 511 str).take 511) := by
  rw [putString_eq _ _ (by omega), List.take_append, List.take_of_length_le hlen.le,
    take_stringAt _ (by omega)]

theorem put_unknown (d : UInt8) (hlen : buffer.length < 511) :
    (do
      let buffer ← put buffer 37
      let buffer ← put buffer d
      .ok (buffer, n) : Except PrintkFault (List UInt8 × ℕ)) = .ok (buffer ++ [37, d], n) := by
  have hnext : (buffer ++ [37]).length ≤ 511 := length_append_one_le hlen
  rw [put_of_lt _ hlen, List.take_of_length_le hnext]
  change (put (buffer ++ [37]) d >>= fun buffer => .ok (buffer, n)) = _
  rw [put, if_pos (by omega), List.append_assoc]
  rfl

/-- A directive that fits leaves the text cut to 511. -/
theorem directive_eq {d : UInt8} (hlen : buffer.length < 511)
    (hfits : (tokenOf d).Fits buffer.length) :
    directive mem args n buffer d = .ok
      ((buffer ++ (tokenOf d).output mem (args n)).take 511, n + (tokenOf d).taken) := by
  unfold tokenOf at hfits ⊢
  unfold directive
  split_ifs at hfits ⊢ with hdecimal hhex hstring hpercent
  · rw [putDecimal_eq _ hlen]
    rfl
  · rw [putHex_eq _ hlen.le]
    rfl
  · rw [putString_cut _ hlen]
    rfl
  · rw [put_of_lt _ hlen]
    rfl
  · have hshort : (buffer ++ [37, d]).length ≤ 511 := by
      rw [List.length_append]
      change buffer.length ≠ 510 at hfits
      change buffer.length + 2 ≤ 511
      omega
    rw [put_unknown d hlen]
    change _ = Except.ok ((buffer ++ [37, d]).take 511, n)
    rw [List.take_of_length_le hshort]

theorem directive_of_not_fits (mem : UInt32 → UInt8) (args : ℕ → UInt32) (n : ℕ) {d : UInt8}
    (hlen : buffer.length < 511)
    (hfits : ¬(tokenOf d).Fits buffer.length) :
    directive mem args n buffer d = .ok (buffer ++ [37, d], n) ∧ buffer.length = 510 := by
  unfold tokenOf at hfits
  unfold directive
  split_ifs at hfits ⊢ with hdecimal hhex hstring hpercent
  · exact absurd trivial hfits
  · exact absurd trivial hfits
  · exact absurd trivial hfits
  · exact absurd trivial hfits
  · exact ⟨put_unknown d hlen, not_not.mp hfits⟩

end Branches

/-! ### The loop -/

theorem take_append_congr {α : Type*} {a a' b b' : List α} {k : ℕ} (ha : a.take k = a'.take k)
    (hb : b.take k = b'.take k) : (a ++ b).take k = (a' ++ b').take k := by
  have hlen := congrArg List.length ha
  rw [List.length_take, List.length_take] at hlen
  by_cases hk : k ≤ a.length
  · rw [List.take_append_of_le_length hk, List.take_append_of_le_length (by omega), ha]
  · rw [List.take_of_length_le (by omega), List.take_of_length_le (by omega)] at ha
    have hcut : b.take (k - a'.length) = b'.take (k - a'.length) := by
      rw [← min_eq_left (Nat.sub_le k a'.length), ← List.take_take, hb, List.take_take]
    rw [ha, List.take_append, List.take_append, hcut]

section Loop

variable {mem : UInt32 → UInt8} {args : ℕ → UInt32} {n len k : ℕ} {buffer format : List UInt8}
variable {t : Token} {ts : List Token}

theorem Token.fits_of_le (hlen : 511 ≤ len) : t.Fits len := by
  cases t with
  | unknown d =>
    change len ≠ 510
    omega
  | trailing => exact hlen
  | _ => trivial

theorem fitFrom_of_le (hlen : 511 ≤ len) : FitFrom mem args n len ts :=
  fun _ _ _ _ => Token.fits_of_le (Nat.le_add_right_of_le hlen)

theorem fitFrom_nil : FitFrom mem args n len [] := by
  intro before t behind h
  exact absurd h (List.append_ne_nil_of_right_ne_nil _ (List.cons_ne_nil _ _)).symm

theorem fitFrom_cons : FitFrom mem args n len (t :: ts) ↔ t.Fits len ∧
    FitFrom mem args (n + t.taken) (len + (t.output mem (args n)).length) ts := by
  constructor
  · intro h
    constructor
    · exact h [] t ts rfl
    · rintro before u behind rfl
      have hu := h (t :: before) u behind rfl
      rw [expansion, List.length_append, ← Nat.add_assoc] at hu
      exact hu
  · rintro ⟨ht, hts⟩ before u behind heq
    cases before with
    | nil =>
      obtain ⟨rfl, rfl⟩ := List.cons.inj heq
      exact ht
    | cons v before =>
      obtain ⟨rfl, hrest⟩ := List.cons.inj heq
      rw [expansion, List.length_append, ← Nat.add_assoc]
      exact hts before u behind hrest

theorem fitFrom_min : FitFrom mem args n (min 511 len) ts ↔ FitFrom mem args n len ts := by
  rcases le_total len 511 with hle | hle
  · rw [min_eq_right hle]
  · exact iff_of_true (fitFrom_of_le (by omega)) (fitFrom_of_le hle)

theorem formatLoop_of_le (hfull : 511 ≤ buffer.length) :
    formatLoop mem args n buffer format = .ok buffer := by
  cases format with
  | nil => rw [formatLoop]
  | cons c rest =>
    rw [formatLoop.eq_def]
    exact if_neg (by omega)

theorem formatLoop_char {c : UInt8} (hc : c ≠ 37) (hlen : buffer.length < 511) :
    formatLoop mem args n buffer (c :: format) =
      formatLoop mem args n ((buffer ++ [c]).take 511) format := by
  rw [formatLoop.eq_def]
  simp only [if_pos hlen, if_neg hc, put_of_lt _ hlen]
  rfl

theorem formatLoop_trailing (hlen : buffer.length < 511) (text : List UInt8) :
    formatLoop mem args n buffer [37] ≠ .ok text := by
  intro htext
  rw [formatLoop, if_pos hlen, if_pos rfl, put_of_lt _ hlen] at htext
  change (put _ 0 >>= fun _ => .error .format) = _ at htext
  cases hput : put ((buffer ++ [37]).take 511) 0 with
  | error fault => rw [hput] at htext; cases htext
  | ok buffer => rw [hput] at htext; cases htext

theorem formatLoop_directive {d : UInt8} (hlen : buffer.length < 511)
    (hfits : (tokenOf d).Fits buffer.length) : formatLoop mem args n buffer (37 :: d :: format) =
      formatLoop mem args (n + (tokenOf d).taken)
        ((buffer ++ (tokenOf d).output mem (args n)).take 511) format := by
  rw [formatLoop, if_pos hlen, if_pos rfl, directive_eq hlen hfits]
  rfl

/-- Behind a directive that does not fit the buffer is full up to its last place. -/
theorem formatLoop_overrun {d : UInt8} (hlen : buffer.length < 511)
    (hfits : ¬(tokenOf d).Fits buffer.length) :
    formatLoop mem args n buffer (37 :: d :: format) = .ok (buffer ++ [37, d]) ∧
      (buffer ++ [37, d]).length = 512 := by
  obtain ⟨hdirective, hlast⟩ := directive_of_not_fits mem args n hlen hfits
  have hover : (buffer ++ [37, d]).length = 512 := by
    rw [List.length_append, hlast]
    rfl
  refine ⟨?_, hover⟩
  rw [formatLoop, if_pos hlen, if_pos rfl, hdirective]
  exact formatLoop_of_le (by omega)

/-- One round of the loop: a step that fits adds its text, any other takes the place of the
terminator or leaves the format. -/
theorem formatLoop_step (mem : UInt32 → UInt8) (args : ℕ → UInt32) (n : ℕ)
    (hformat : tokenize format = t :: ts) (hlen : buffer.length < 511) :
    ∃ rest, tokenize rest = ts ∧
      (t.Fits buffer.length → formatLoop mem args n buffer format =
        formatLoop mem args (n + t.taken) ((buffer ++ t.output mem (args n)).take 511) rest) ∧
      (¬t.Fits buffer.length →
        ∀ text, formatLoop mem args n buffer format = .ok text → text.length = 512) := by
  cases format with
  | nil => cases hformat
  | cons c rest =>
    rw [tokenize.eq_def] at hformat
    dsimp only at hformat
    by_cases hc : c = 37
    · subst hc
      rw [if_pos rfl] at hformat
      cases rest with
      | nil =>
        obtain ⟨rfl, rfl⟩ := List.cons.inj hformat
        exact ⟨[], rfl, fun hfits => absurd hfits (Nat.not_le.mpr hlen),
          fun _ text htext => absurd htext (formatLoop_trailing hlen text)⟩
      | cons d rest =>
        obtain ⟨rfl, rfl⟩ := List.cons.inj hformat
        refine ⟨rest, rfl, formatLoop_directive hlen, fun hfits text htext => ?_⟩
        obtain ⟨hover, hlast⟩ := formatLoop_overrun hlen hfits
        rw [← Except.ok.inj (hover.symm.trans htext), hlast]
    · rw [if_neg hc] at hformat
      obtain ⟨rfl, rfl⟩ := List.cons.inj hformat
      exact ⟨rest, rfl, fun _ => formatLoop_char hc hlen, fun hfits => absurd trivial hfits⟩

theorem eq_nil_of_tokenize (hformat : tokenize format = []) : format = [] := by
  cases format with
  | nil => rfl
  | cons c rest =>
    rw [tokenize.eq_def] at hformat
    dsimp only at hformat
    split_ifs at hformat with hc
    cases rest <;> cases hformat

theorem fitFrom_next : FitFrom mem args n ((buffer ++ format).take 511).length ts ↔
    FitFrom mem args n (buffer.length + format.length) ts := by
  rw [List.length_take, List.length_append, fitFrom_min]

theorem formatLoop_eq (hformat : tokenize format = ts) (hlen : buffer.length ≤ 511)
    (hfits : FitFrom mem args n buffer.length ts) :
    formatLoop mem args n buffer format =
      .ok ((buffer ++ expansion mem args n ts).take 511) := by
  induction ts generalizing n buffer format with
  | nil =>
    obtain rfl := eq_nil_of_tokenize hformat
    rw [formatLoop, expansion, List.append_nil, List.take_of_length_le hlen]
  | cons t ts ih =>
    by_cases hfull : 511 ≤ buffer.length
    · rw [formatLoop_of_le hfull, List.take_append_of_le_length hfull,
        List.take_of_length_le hlen]
    · obtain ⟨rest, hrest, hstep, -⟩ :=
        formatLoop_step mem args n hformat (Nat.lt_of_not_le hfull)
      rw [fitFrom_cons] at hfits
      rw [hstep hfits.1, expansion, ih hrest (List.length_take_le _ _) (fitFrom_next.mpr hfits.2),
        ← List.append_assoc]
      exact congrArg _ (take_append_congr (List.take_take.trans (by rw [min_self])) rfl)

theorem length_of_formatLoop (hformat : tokenize format = ts)
    (hfits : ¬FitFrom mem args n buffer.length ts) {text : List UInt8}
    (hok : formatLoop mem args n buffer format = .ok text) : text.length = 512 := by
  induction ts generalizing n buffer format with
  | nil => exact absurd fitFrom_nil hfits
  | cons t ts ih =>
    by_cases hfull : 511 ≤ buffer.length
    · exact absurd (fitFrom_of_le hfull) hfits
    · obtain ⟨rest, hrest, hstep, hlast⟩ :=
        formatLoop_step mem args n hformat (Nat.lt_of_not_le hfull)
      by_cases ht : t.Fits buffer.length
      · refine ih hrest (fun h => hfits ?_) (hstep ht ▸ hok)
        exact fitFrom_cons.mpr ⟨ht, fitFrom_next.mp h⟩
      · exact hlast ht text hok

end Loop

/-! ### The whole text -/

section Text

variable {mem : UInt32 → UInt8} {args : ℕ → UInt32} {format : List UInt8}

theorem formatText_eq (hfits : Contained mem args format) : formatText mem args format =
    .ok ((expansion mem args 0 (tokenize format)).take 511 ++ [0]) := by
  have hloop : formatLoop mem args 0 [] format =
      .ok ((expansion mem args 0 (tokenize format)).take 511) :=
    formatLoop_eq rfl (Nat.zero_le _) hfits
  have hlen : ((expansion mem args 0 (tokenize format)).take 511).length < 512 :=
    Nat.lt_succ_of_le (List.length_take_le _ _)
  rw [formatText, hloop]
  exact if_pos hlen

/-- `printk` stays within its buffer and its format exactly if every directive fits. -/
theorem printk_inBounds_iff (s : Terminal) (mem : UInt32 → UInt8) (args : ℕ → UInt32)
    (format : List UInt8) :
    (∃ s', printk s mem args format = .ok s') ↔ Contained mem args format := by
  constructor
  · rintro ⟨s', hok⟩
    by_contra hfits
    rw [printk, formatText] at hok
    cases hloop : formatLoop mem args 0 [] format with
    | error fault =>
      rw [hloop] at hok
      cases hok
    | ok text =>
      have hlast : ¬FitFrom mem args 0 ([] : List UInt8).length (tokenize format) := hfits
      have hlen : text.length = 512 := length_of_formatLoop rfl hlast hloop
      have hput : put text 0 = .error .buffer := if_neg (by omega)
      rw [hloop] at hok
      change (put text 0).map s.printk = .ok s' at hok
      rw [hput] at hok
      cases hok
  · intro hfits
    rw [printk, formatText_eq hfits]
    exact ⟨_, rfl⟩

/-- A format that is a lone `%` is read behind its terminator. -/
theorem not_inBounds_percent : ¬∃ s', printk (bootTerminal fun _ => 0) (fun _ => 0) (fun _ => 0)
    [37] = .ok s' := by
  rintro ⟨s', hok⟩
  cases hok

/-- 510 characters and an unknown directive leave no place for the terminator. -/
example : (formatText (fun _ => 0) (fun _ => 0) (List.replicate 510 97 ++ [37, 113])).isOk =
    false := by
  decide +kernel

end Text

/-! ### Formats with matching arguments -/

/-- An argument as its caller means it. -/
inductive Arg
  | int (word : UInt32)
  | str (s : List UInt8)

/-- The bytes `s` and a terminator stand at `p`. -/
def IsString (mem : UInt32 → UInt8) : UInt32 → List UInt8 → Prop
  | p, [] => mem p = 0
  | p, c :: s => mem p = c ∧ c ≠ 0 ∧ IsString mem (p + 1) s

/-- The word on the stack that passes the argument. -/
def Arg.PassedAs (mem : UInt32 → UInt8) (word : UInt32) : Arg → Prop
  | .int value => word = value
  | .str s => IsString mem word s

/-- The words from the `n`th on pass the arguments. -/
def Passed (mem : UInt32 → UInt8) (args : ℕ → UInt32) : ℕ → List Arg → Prop
  | _, [] => True
  | n, value :: values => value.PassedAs mem (args n) ∧ Passed mem args (n + 1) values

/-- The reference expansion, for formats with the four directives and arguments of their
kinds only. -/
def reference : List Token → List Arg → Option (List UInt8)
  | [], _ => some []
  | .char c :: ts, values => (reference ts values).map ([c] ++ ·)
  | .percent :: ts, values => (reference ts values).map ([37] ++ ·)
  | .decimal :: ts, .int value :: values => (reference ts values).map (decimalOf value ++ ·)
  | .hex :: ts, .int value :: values => (reference ts values).map (hexOf value ++ ·)
  | .string :: ts, .str s :: values => (reference ts values).map (s ++ ·)
  | _, _ => none

section Matching

variable {mem : UInt32 → UInt8} {args : ℕ → UInt32} {n : ℕ} {format e : List UInt8}
variable {t : Token} {ts : List Token} {values : List Arg}

theorem zero_not_mem_decimalOf (value : UInt32) : (0 : UInt8) ∉ decimalOf value := by
  have hdigits : (0 : UInt8) ∉ decimalDigits value.toInt32.toInt.natAbs := by
    intro hmem
    obtain ⟨c, hc, hzero⟩ := List.mem_map.mp hmem
    have hdigit := Nat.isDigit_of_mem_toDigits (by decide) (by decide) hc
    have hnat : c.toUInt8.toNat = c.val.toNat % 256 := UInt32.toNat_toUInt8 _
    have hval : 48 ≤ c.val.toNat ∧ c.val.toNat ≤ 57 := by
      rw [Char.isDigit, Bool.and_eq_true] at hdigit
      exact ⟨of_decide_eq_true hdigit.1, of_decide_eq_true hdigit.2⟩
    rw [hzero] at hnat
    change 0 = _ at hnat
    omega
  unfold decimalOf
  split_ifs
  · exact fun hmem => (List.mem_cons.mp hmem).elim (by decide) hdigits
  · exact hdigits

theorem zero_not_mem_hexOf (value : UInt32) : (0 : UInt8) ∉ hexOf value := by
  have htable : ∀ d, d < 16 → (Nat.digitChar d).toUInt8 ≠ 0 := by decide
  intro hmem
  obtain ⟨i, -, hzero⟩ := List.mem_map.mp hmem
  exact htable _ (Nat.mod_lt _ (by decide)) hzero

theorem stringAt_of_isString {s : List UInt8} {p : UInt32} (m : ℕ) (hs : IsString mem p s) :
    stringAt mem m p = s.take m := by
  induction m generalizing p s with
  | zero => rfl
  | succ m ih =>
    cases s with
    | nil => exact if_pos hs
    | cons c s =>
      obtain ⟨rfl, hc, hs⟩ := hs
      rw [stringAt, if_neg hc, ih hs, List.take_succ_cons]

theorem IsString.zero_not_mem {s : List UInt8} {p : UInt32} (hs : IsString mem p s) :
    (0 : UInt8) ∉ s := by
  induction s generalizing p with
  | nil => exact List.not_mem_nil
  | cons c s ih =>
    intro hmem
    rcases List.mem_cons.mp hmem with h | h
    · exact hs.2.1 h.symm
    · exact ih hs.2.2 h

/-- A step with its reference text: it is what the code puts out, as far as that can matter. -/
theorem reference_cons (href : reference (t :: ts) values = some e)
    (hpassed : Passed mem args n values) :
    ∃ text e' values', e = text ++ e' ∧ reference ts values' = some e' ∧
      Passed mem args (n + t.taken) values' ∧
      (t.output mem (args n)).take 511 = text.take 511 ∧ (∀ len, t.Fits len) ∧
      (t ≠ .char 0 → (0 : UInt8) ∉ text) := by
  cases t with
  | char c =>
    obtain ⟨e', hrest, rfl⟩ := Option.map_eq_some_iff.mp href
    refine ⟨[c], e', values, rfl, hrest, hpassed, rfl, fun _ => trivial, fun hc hmem => hc ?_⟩
    rw [List.mem_singleton.mp hmem]
  | percent =>
    obtain ⟨e', hrest, rfl⟩ := Option.map_eq_some_iff.mp href
    exact ⟨[37], e', values, rfl, hrest, hpassed, rfl, fun _ => trivial, fun _ => by decide⟩
  | decimal =>
    rcases values with _ | ⟨value | s, values⟩
    · cases href
    · obtain ⟨e', hrest, rfl⟩ := Option.map_eq_some_iff.mp href
      obtain ⟨hword, hpassed⟩ := hpassed
      refine ⟨_, e', values, rfl, hrest, hpassed, ?_, fun _ => trivial,
        fun _ => zero_not_mem_decimalOf value⟩
      rw [← show args n = value from hword]
      rfl
    · cases href
  | hex =>
    rcases values with _ | ⟨value | s, values⟩
    · cases href
    · obtain ⟨e', hrest, rfl⟩ := Option.map_eq_some_iff.mp href
      obtain ⟨hword, hpassed⟩ := hpassed
      refine ⟨_, e', values, rfl, hrest, hpassed, ?_, fun _ => trivial,
        fun _ => zero_not_mem_hexOf value⟩
      rw [← show args n = value from hword]
      rfl
    · cases href
  | string =>
    rcases values with _ | ⟨value | s, values⟩
    · cases href
    · cases href
    · obtain ⟨e', hrest, rfl⟩ := Option.map_eq_some_iff.mp href
      obtain ⟨hs, hpassed⟩ := hpassed
      have hs : IsString mem (args n) s := hs
      refine ⟨s, e', values, rfl, hrest, hpassed, ?_, fun _ => trivial, fun _ => hs.zero_not_mem⟩
      rw [Token.output, stringAt_of_isString _ hs, List.take_take, min_self]
  | unknown d => cases href
  | trailing => cases href

theorem tokenOf_ne_char {c d : UInt8} : tokenOf d ≠ .char c := by
  unfold tokenOf
  split_ifs <;> exact Token.noConfusion

theorem zero_not_mem_tokenize (hformat : (0 : UInt8) ∉ format) :
    Token.char 0 ∉ tokenize format := by
  intro hmem
  induction format using tokenize.induct with
  | case1 => exact List.not_mem_nil hmem
  | case2 => cases List.mem_singleton.mp hmem
  | case3 d rest ih =>
    rcases List.mem_cons.mp hmem with h | h
    · exact tokenOf_ne_char h.symm
    · exact ih (fun h0 => hformat (List.mem_cons_of_mem _ (List.mem_cons_of_mem _ h0))) h
  | case4 c rest hc ih =>
    rw [tokenize.eq_def] at hmem
    simp only [if_neg hc] at hmem
    rcases List.mem_cons.mp hmem with h | h
    · exact hformat (Token.char.inj h ▸ List.mem_cons_self)
    · exact ih (fun h0 => hformat (List.mem_cons_of_mem _ h0)) h

theorem reference_spec (href : reference ts values = some e) (hpassed : Passed mem args n values)
    (hzero : Token.char 0 ∉ ts) :
    (expansion mem args n ts).take 511 = e.take 511 ∧ (∀ len, FitFrom mem args n len ts) ∧
      (0 : UInt8) ∉ e := by
  induction ts generalizing n values e with
  | nil =>
    obtain rfl := Option.some.inj href
    exact ⟨rfl, fun _ => fitFrom_nil, List.not_mem_nil⟩
  | cons t ts ih =>
    obtain ⟨text, e', values', rfl, hrest, hpassed', htext, hfits, hmem⟩ :=
      reference_cons href hpassed
    obtain ⟨hne, hzero⟩ := not_or.mp (mt List.mem_cons.mpr hzero)
    obtain ⟨hexp, hfit, hmem'⟩ := ih hrest hpassed' hzero
    refine ⟨take_append_congr htext hexp, fun len => fitFrom_cons.mpr ⟨hfits len, hfit _⟩, ?_⟩
    exact fun h => (List.mem_append.mp h).elim (hmem (Ne.symm hne)) hmem'

/-- `printk` sends the first 511 characters of the reference expansion to the console and
refreshes it. -/
theorem printk_reference (s : Terminal) (values : List Arg) (hformat : (0 : UInt8) ∉ format)
    (hpassed : Passed mem args 0 values) (href : reference (tokenize format) values = some e) :
    (formatText mem args format).map cString = .ok (e.take 511) ∧
      printk s mem args format =
        .ok (((e.take 511).foldl Terminal.vgaPutcharWithScrollback s).vgaRefresh) := by
  obtain ⟨hexp, hfits, hzero⟩ := reference_spec href hpassed (zero_not_mem_tokenize hformat)
  have htext := formatText_eq (hfits 0)
  have hsent : cString (e.take 511 ++ [0]) = e.take 511 := by
    have hne : ∀ c ∈ e.take 511, decide (c ≠ 0) = true :=
      fun c hc => decide_eq_true fun h => hzero (h ▸ List.mem_of_mem_take hc)
    rw [cString, List.takeWhile_append_of_pos hne]
    exact List.append_nil _
  rw [hexp] at htext
  constructor
  · rw [htext, Except.map, hsent]
  · rw [printk, htext, Except.map, Terminal.printk, hsent]

/-- All four directives, with the least integer: `-2147483648 0000beef ok%`. -/
theorem printk_reference_least :
    let mem : UInt32 → UInt8 := fun p => if p = 0x1000 then 111 else if p = 0x1001 then 107 else 0
    let args : ℕ → UInt32 := fun n => [0x80000000, 0xBEEF, 0x1000].getD n 0
    let format : List UInt8 := [37, 100, 32, 37, 120, 32, 37, 115, 37, 37]
    let text : List UInt8 := [45, 50, 49, 52, 55, 52, 56, 51, 54, 52, 56, 32,
      48, 48, 48, 48, 98, 101, 101, 102, 32, 111, 107, 37]
    (formatText mem args format).map cString = .ok (text.take 511) ∧
      printk (bootTerminal fun _ => 0) mem args format = .ok
        (((text.take 511).foldl Terminal.vgaPutcharWithScrollback
          (bootTerminal fun _ => 0)).vgaRefresh) :=
  printk_reference _ [.int 0x80000000, .int 0xBEEF, .str [111, 107]] (by decide)
    ⟨rfl, rfl, ⟨by decide, by decide, by decide, by decide, rfl⟩, trivial⟩ (by decide)

end Matching

end OpenKernel.Console
