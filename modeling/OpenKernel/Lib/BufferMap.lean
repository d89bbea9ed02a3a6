import Mathlib.Data.List.Basic
import Mathlib.Logic.Function.Basic
import Mathlib.Tactic.SplitIfs

/-!
# Maps from pointers to buffers

What an allocator is for: each live pointer leads to a buffer of its own, whose elements
have the addresses from the pointer on. Allocating adds a buffer with any contents under a
pointer that was not live, freeing takes one away, and a write to an address changes
the buffers that this address is in. If the buffers are apart, that is one at most, and a
loop that writes elements one after the other replaces a part of a single buffer. Owners
with a pointer each see only what they hold, whatever the others do.
-/

namespace OpenKernel

open Function

variable {β : Type*}

/-- The contents of the live buffers. -/
abbrev BufferMap (β : Type*) := ℕ → Option (List β)

namespace BufferMap

/-- `src` in place of the elements from `off` on. -/
def overwrite (off : ℕ) (src buf : List β) : List β :=
  buf.take off ++ src ++ buf.drop (off + src.length)

/-- A write to the address `a`. -/
def poke (s : BufferMap β) (a : ℕ) (v : β) : BufferMap β := fun p =>
  (s p).map fun buf => if p ≤ a then buf.set (a - p) v else buf

/-- Writes from the address `a` on. -/
def pokeAll (s : BufferMap β) (a : ℕ) : List β → BufferMap β
  | [] => s
  | v :: src => pokeAll (s.poke a v) (a + 1) src

def write (s : BufferMap β) (p off : ℕ) (src : List β) : BufferMap β :=
  update s p ((s p).map (overwrite off src))

inductive Access (β : Type*)
  | alloc (size : ℕ)
  | free (p : ℕ)
  | poke (a : ℕ) (v : β)

/-- What an access may do to the buffers, and the pointer it may return. -/
inductive Step (s : BufferMap β) : Access β → Option ℕ → BufferMap β → Prop
  | refused {n : ℕ} : Step s (.alloc n) none s
  | fresh {n p : ℕ} {buf : List β} (hp : s p = none) (hlen : buf.length = n) :
      Step s (.alloc n) (some p) (update s p (some buf))
  | free {p : ℕ} : Step s (.free p) none (update s p none)
  | poke {a : ℕ} {v : β} : Step s (.poke a v) none (s.poke a v)

/-- Accesses one after the other, each with what it returns. -/
inductive Steps : BufferMap β → List (Access β × Option ℕ) → BufferMap β → Prop
  | nil (s : BufferMap β) : Steps s [] s
  | cons {s t u : BufferMap β} {x : Access β} {r : Option ℕ}
      {xs : List (Access β × Option ℕ)} :
      Step s x r t → Steps t xs u → Steps s ((x, r) :: xs) u

/-- No address is in two buffers. -/
def Apart (s : BufferMap β) : Prop :=
  ∀ p q buf buf', s p = some buf → s q = some buf' → p ≠ q →
    p + buf.length ≤ q ∨ q + buf'.length ≤ p

variable {s : BufferMap β} {p q a off : ℕ} {v : β} {src buf buf' : List β}

theorem length_overwrite (h : off + src.length ≤ buf.length) :
    (overwrite off src buf).length = buf.length := by
  unfold overwrite
  simp only [List.length_append, List.length_take, List.length_drop]
  omega

theorem poke_of_some (hbuf : s p = some buf) :
    s.poke a v p = some (if p ≤ a then buf.set (a - p) v else buf) := by
  rw [poke, hbuf, Option.map_some]

theorem length_poke (hbuf : s.poke a v p = some buf) :
    ∃ old, s p = some old ∧ old.length = buf.length := by
  unfold poke at hbuf
  obtain ⟨old, hold, rfl⟩ := Option.map_eq_some_iff.mp hbuf
  refine ⟨old, hold, ?_⟩
  split_ifs
  · exact List.length_set.symm
  · rfl

theorem Apart.poke (h : Apart s) : Apart (s.poke a v) := by
  intro p q buf buf' hp hq hne
  obtain ⟨old, hold, hlen⟩ := length_poke hp
  obtain ⟨old', hold', hlen'⟩ := length_poke hq
  have hdisjoint := h p q old old' hold hold' hne
  omega

theorem Apart.poke_of_ne (h : Apart s) (hbuf : s p = some buf) (hlo : p ≤ a)
    (hhi : a < p + buf.length) (hne : q ≠ p) : s.poke a v q = s q := by
  cases hq : s q with
  | none => rw [BufferMap.poke, hq, Option.map_none]
  | some buf' =>
    rw [poke_of_some hq]
    have hdisjoint := h q p buf' buf hq hbuf hne
    split_ifs with hle
    · rw [List.set_eq_of_length_le (by omega)]
    · rfl

theorem poke_eq_write (h : Apart s) (hbuf : s p = some buf) (hoff : off < buf.length) :
    s.poke (p + off) v = s.write p off [v] := by
  funext q
  by_cases hq : q = p
  · subst hq
    rw [poke_of_some hbuf, write, update_self, hbuf, Option.map_some, if_pos (Nat.le_add_right _ _),
      Nat.add_sub_cancel_left, overwrite, List.set_eq_take_append_cons_drop, if_pos hoff]
    simp
  · rw [h.poke_of_ne hbuf (Nat.le_add_right _ _) (by omega) hq, write, update_of_ne hq]

theorem overwrite_nil (off : ℕ) (buf : List β) : overwrite off [] buf = buf := by
  simp [overwrite]

theorem overwrite_cons (h : off < buf.length) :
    overwrite (off + 1) src (overwrite off [v] buf) = overwrite off (v :: src) buf := by
  have hlen : (buf.take off ++ [v]).length = off + 1 := by
    rw [List.length_append, List.length_take_of_le (Nat.le_of_lt h), List.length_singleton]
  unfold overwrite
  rw [List.length_singleton, List.length_cons, List.take_append_of_le_length (by omega),
    List.take_of_length_le (by omega), List.drop_append, List.drop_eq_nil_of_le (by omega), hlen,
    List.nil_append, List.drop_drop]
  have hoff : off + 1 + (off + 1 + src.length - (off + 1)) = off + (src.length + 1) := by omega
  rw [hoff, List.append_assoc (buf.take off), List.singleton_append]

theorem overwrite_append {src' : List β} (h : off + src.length + src'.length ≤ buf.length) :
    overwrite off src (overwrite (off + src.length) src' buf) =
      overwrite off (src ++ src') buf := by
  have hlen : (buf.take (off + src.length)).length = off + src.length :=
    List.length_take_of_le (by omega)
  unfold overwrite
  rw [List.append_assoc (buf.take _) src', List.take_append_of_le_length (by omega),
    List.take_take, Nat.min_eq_left (Nat.le_add_right _ _), List.drop_append, hlen, Nat.sub_self,
    List.drop_eq_nil_of_le (Nat.le_of_eq hlen), List.length_append, Nat.add_assoc]
  simp

theorem slice_overwrite (h : off + src.length ≤ buf.length) :
    ((overwrite off src buf).drop off).take src.length = src := by
  have hlen : (buf.take off).length = off := List.length_take_of_le (by omega)
  unfold overwrite
  rw [List.append_assoc, List.drop_append, hlen, Nat.sub_self,
    List.drop_eq_nil_of_le (Nat.le_of_eq hlen)]
  simp

theorem drop_overwrite (h : off + src.length ≤ buf.length) :
    (overwrite off src buf).drop (off + src.length) = buf.drop (off + src.length) := by
  have hlen : (buf.take off ++ src).length = off + src.length := by
    rw [List.length_append, List.length_take_of_le (by omega)]
  unfold overwrite
  rw [List.drop_append, hlen, Nat.sub_self, List.drop_eq_nil_of_le (Nat.le_of_eq hlen)]
  simp

theorem write_nil (hbuf : s p = some buf) : s.write p off [] = s := by
  rw [write, hbuf, Option.map_some, overwrite_nil, ← hbuf, update_eq_self]

theorem pokeAll_eq_write (h : Apart s) (hbuf : s p = some buf)
    (hfit : off + src.length ≤ buf.length) : s.pokeAll (p + off) src = s.write p off src := by
  induction src generalizing s off buf with
  | nil => rw [pokeAll, write_nil hbuf]
  | cons v src ih =>
    rw [List.length_cons] at hfit
    have hoff : off < buf.length := by omega
    have hpoke := poke_eq_write (v := v) h hbuf hoff
    have hnew : s.poke (p + off) v p = some (overwrite off [v] buf) := by
      rw [hpoke, write, update_self, hbuf, Option.map_some]
    have hlen : (overwrite off [v] buf).length = buf.length := length_overwrite hoff
    rw [pokeAll, Nat.add_assoc, ih h.poke hnew (by omega), write, hnew, hpoke, write, update_idem,
      write, hbuf, Option.map_some, Option.map_some, overwrite_cons hoff]

theorem write_write {src' : List β} (hbuf : s p = some buf)
    (h : off + src.length + src'.length ≤ buf.length) :
    (s.write p (off + src.length) src').write p off src = s.write p off (src ++ src') := by
  rw [write, write, write, update_self, update_idem, hbuf, Option.map_some, Option.map_some,
    Option.map_some, overwrite_append h]

theorem Step.alloc_cases {r : Option ℕ} {n : ℕ} {t : BufferMap β} (h : Step s (.alloc n) r t) :
    (r = none ∧ t = s) ∨ ∃ p buf, r = some p ∧ s p = none ∧ buf.length = n ∧
      t = update s p (some buf) := by
  generalize hx : Access.alloc n = x at h
  cases h with
  | refused => exact Or.inl ⟨rfl, rfl⟩
  | fresh hp hlen =>
    cases hx
    exact Or.inr ⟨_, _, rfl, hp, hlen, rfl⟩
  | free => cases hx
  | poke => cases hx

/-! ### Owners -/

section Owners

variable {ι : Type*} {o : ι → Option ℕ} {i : ι} {s' : BufferMap β} {x : Access β}
  {r : Option ℕ}

/-- What each owner holds. -/
def held (s : BufferMap β) (o : ι → Option ℕ) (i : ι) : Option (List β) := (o i).bind s

/-- Every owner holds a buffer of its own or none. -/
structure Holders (s : BufferMap β) (o : ι → Option ℕ) : Prop where
  live : ∀ i p, o i = some p → s p ≠ none
  distinct : ∀ i j p, o i = some p → o j = some p → i = j

def Foreign (s : BufferMap β) (o : ι → Option ℕ) : Access β → Prop
  | .alloc _ => True
  | .free p => ∀ i, o i ≠ some p
  | .poke a _ => ∀ i p buf, o i = some p → s p = some buf → a < p ∨ p + buf.length ≤ a

theorem held_of_some (hi : o i = some p) : held s o i = s p := by
  rw [held, hi, Option.bind_some]

namespace Holders

theorem held_eq_none_iff (h : Holders s o) : held s o i = none ↔ o i = none := by
  cases hi : o i with
  | none => simp [held, hi]
  | some p => simpa [held, hi] using h.live i p hi

theorem congr (h : Holders s o) (hkept : ∀ i p, o i = some p → s' p = s p) :
    Holders s' o ∧ held s' o = held s o := by
  refine ⟨⟨?_, h.distinct⟩, ?_⟩
  · intro i p hi
    rw [hkept i p hi]
    exact h.live i p hi
  · funext i
    cases hi : o i with
    | none => simp [held, hi]
    | some p => rw [held_of_some hi, held_of_some hi, hkept i p hi]

/-- What others do with the buffers goes unnoticed. -/
theorem foreign (h : Holders s o) (hstep : Step s x r s') (hx : Foreign s o x) :
    Holders s' o ∧ held s' o = held s o := by
  apply h.congr
  intro i p hi
  have hlive := h.live i p hi
  cases hstep with
  | refused => rfl
  | fresh hp _ =>
    refine update_of_ne ?_ _ _
    rintro rfl
    exact hlive hp
  | free =>
    refine update_of_ne ?_ _ _
    rintro rfl
    exact hx i hi
  | poke =>
    obtain ⟨buf, hbuf⟩ := Option.ne_none_iff_exists'.mp hlive
    rw [poke_of_some hbuf, hbuf]
    have hout := hx i p buf hi hbuf
    split_ifs
    · rw [List.set_eq_of_length_le (by omega)]
    · rfl

theorem poke_outside {buf : List β} (hbuf : s p = some buf) (hout : a < p ∨ p + buf.length ≤ a) :
    s.poke a v p = some buf := by
  rw [poke_of_some hbuf]
  split_ifs
  · rw [List.set_eq_of_length_le (by omega)]
  · rfl

theorem poke (h : Holders s o) (a : ℕ) (v : β) : Holders (s.poke a v) o := by
  refine ⟨fun i p hi => ?_, h.distinct⟩
  rw [BufferMap.poke, ne_eq, Option.map_eq_none_iff]
  exact h.live i p hi

theorem forget (h : Holders s o) {o' : ι → Option ℕ} (hsub : ∀ i p, o' i = some p → o i = some p) :
    Holders s o' :=
  ⟨fun i p hi => h.live i p (hsub i p hi),
    fun i j p hi hj => h.distinct i j p (hsub i p hi) (hsub j p hj)⟩

variable [DecidableEq ι]

/-- An owner exchanges its buffer, if any, for one that nobody holds. -/
theorem exchange (h : Holders s o) (i : ι) (hp : ∀ j, o j ≠ some p) (hbuf : s' p = some buf)
    (hkept : ∀ q, q ≠ p → o i ≠ some q → s' q = s q) :
    Holders s' (update o i (some p)) ∧
      held s' (update o i (some p)) = update (held s o) i (some buf) := by
  have hother : ∀ j q, j ≠ i → o j = some q → s' q = s q := by
    intro j q hji hj
    refine hkept q ?_ fun hi => hji (h.distinct j i q hj hi)
    rintro rfl
    exact hp j hj
  refine ⟨⟨?_, ?_⟩, ?_⟩
  · intro j q hj
    by_cases hji : j = i
    · rw [hji, update_self, Option.some.injEq] at hj
      rw [← hj, hbuf]
      exact Option.some_ne_none _
    · rw [update_of_ne hji] at hj
      rw [hother j q hji hj]
      exact h.live j q hj
  · intro j k q hj hk
    by_cases hji : j = i
    · by_cases hki : k = i
      · rw [hji, hki]
      · rw [hji, update_self] at hj
        rw [update_of_ne hki, ← hj] at hk
        exact absurd hk (hp k)
    · rw [update_of_ne hji] at hj
      by_cases hki : k = i
      · rw [hki, update_self] at hk
        rw [← hk] at hj
        exact absurd hj (hp j)
      · rw [update_of_ne hki] at hk
        exact h.distinct j k q hj hk
  · funext j
    by_cases hji : j = i
    · rw [hji, held_of_some (update_self ..), update_self, hbuf]
    · rw [update_of_ne hji, held, held, update_of_ne hji]
      cases hj : o j with
      | none => rfl
      | some q => rw [Option.bind_some, Option.bind_some, hother j q hji hj]

theorem acquire (h : Holders s o) (i : ι) (hp : ∀ j, o j ≠ some p) (buf : List β) :
    Holders (update s p (some buf)) (update o i (some p)) ∧
      held (update s p (some buf)) (update o i (some p)) = update (held s o) i (some buf) :=
  h.exchange i hp (update_self ..) fun _ hq _ => update_of_ne hq _ _

theorem replace (h : Holders s o) {old : ℕ} (hi : o i = some old) (hp : ∀ j, o j ≠ some p)
    (buf src : List β) :
    Holders (update (BufferMap.write (update s p (some buf)) p 0 src) old none)
        (update o i (some p)) ∧
      held (update (BufferMap.write (update s p (some buf)) p 0 src) old none)
          (update o i (some p)) =
        update (held s o) i (some (overwrite 0 src buf)) := by
  have hne : p ≠ old := by
    rintro rfl
    exact hp i hi
  apply h.exchange i hp
  · rw [update_of_ne hne, BufferMap.write, update_self, update_self, Option.map_some]
  · intro q hq hqi
    have hqold : q ≠ old := by
      rintro rfl
      exact hqi hi
    rw [update_of_ne hqold, BufferMap.write, update_of_ne hq, update_of_ne hq]

/-- An owner gives up its buffer. -/
theorem release (h : Holders s o) (hi : o i = some p) :
    Holders (update s p none) (update o i none) ∧
      held (update s p none) (update o i none) = update (held s o) i none := by
  have hne : ∀ j q, j ≠ i → o j = some q → q ≠ p := by
    rintro j q hji hj rfl
    exact hji (h.distinct j i q hj hi)
  have hold : ∀ j q, update o i none j = some q → j ≠ i ∧ o j = some q := by
    intro j q hj
    by_cases hji : j = i
    · rw [hji, update_self] at hj
      cases hj
    · rw [update_of_ne hji] at hj
      exact ⟨hji, hj⟩
  refine ⟨⟨?_, ?_⟩, ?_⟩
  · intro j q hj
    obtain ⟨hji, hj⟩ := hold j q hj
    rw [update_of_ne (hne j q hji hj)]
    exact h.live j q hj
  · intro j k q hj hk
    exact h.distinct j k q (hold j q hj).2 (hold k q hk).2
  · funext j
    by_cases hji : j = i
    · rw [hji, held, update_self, update_self, Option.bind_none]
    · rw [update_of_ne hji, held, held, update_of_ne hji]
      cases hj : o j with
      | none => rfl
      | some q => rw [Option.bind_some, Option.bind_some, update_of_ne (hne j q hji hj)]

/-- An owner writes into its buffer. -/
theorem write (h : Holders s o) (hi : o i = some p) (off : ℕ) (src : List β) :
    Holders (s.write p off src) o ∧
      held (s.write p off src) o = update (held s o) i ((s p).map (overwrite off src)) := by
  refine ⟨⟨?_, h.distinct⟩, ?_⟩
  · intro j q hj
    have hlive := h.live j q hj
    by_cases hq : q = p
    · subst hq
      rwa [BufferMap.write, update_self, ne_eq, Option.map_eq_none_iff]
    · rwa [BufferMap.write, update_of_ne hq]
  · funext j
    by_cases hji : j = i
    · subst hji
      rw [held_of_some hi, update_self, BufferMap.write, update_self]
    · rw [update_of_ne hji]
      cases hj : o j with
      | none => simp [held, hj]
      | some q =>
        have hq : q ≠ p := by
          rintro rfl
          exact hji (h.distinct j i q hj hi)
        rw [held_of_some hj, held_of_some hj, BufferMap.write, update_of_ne hq]

end Holders

/-- What nobody holds stays as it is, and nobody takes it over. -/
def Spares (s s' : BufferMap β) (o o' : ι → Option ℕ) : Prop :=
  ∀ p, s p ≠ none → (∀ i, o i ≠ some p) → (∀ i, o' i ≠ some p) ∧ s' p = s p

namespace Spares

variable {s'' : BufferMap β} {o' o'' : ι → Option ℕ}

theorem refl (s : BufferMap β) (o : ι → Option ℕ) : Spares s s o o := fun _ _ ho => ⟨ho, rfl⟩

theorem trans (h : Spares s s' o o') (h' : Spares s' s'' o' o'') : Spares s s'' o o'' := by
  intro p hp ho
  obtain ⟨ho', hsame⟩ := h p hp ho
  obtain ⟨ho'', hsame'⟩ := h' p (by rwa [hsame]) ho'
  exact ⟨ho'', hsame'.trans hsame⟩

theorem owner [DecidableEq ι] {n : Option ℕ} (i : ι) (hn : ∀ p, n = some p → s p = none ∨ o i = n)
    (hkept : ∀ q, n ≠ some q → o i ≠ some q → s' q = s q) : Spares s s' o (update o i n) := by
  intro p hp ho
  have hnp : n ≠ some p := by
    intro h
    rcases hn p h with hfree | hi
    · exact hp hfree
    · exact ho i (hi.trans h)
  refine ⟨fun j => ?_, hkept p hnp (ho i)⟩
  by_cases hji : j = i
  · rwa [hji, update_self]
  · rw [update_of_ne hji]
    exact ho j

end Spares

end Owners

end BufferMap

end OpenKernel
