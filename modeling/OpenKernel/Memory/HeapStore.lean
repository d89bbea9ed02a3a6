import OpenKernel.Lib.BufferMap
import OpenKernel.Memory.HeapSafety
import OpenKernel.Memory.Alignment

/-!
# What the heap stores

The live pointers of the heap with the bytes behind them are a map from pointers to
buffers. A call of `kmalloc` adds a buffer or does nothing, a call of `kfree` takes one
away, and every other buffer keeps its bytes. Headers are written between the buffers only.
-/

namespace OpenKernel.Memory

open ByteMemory Function

def contents (m : ByteMemory) (p n : ℕ) : List UInt8 := (List.range n).map fun i => m.byte (p + i)

/-- The buffers that `kmalloc` has handed out. -/
def stored (h : Heap) : BufferMap UInt8 := fun p => (h.live.lookup p).map (contents h.mem p)

def Call.access : Call → BufferMap.Access UInt8
  | .kmalloc size => .alloc size
  | .kfree ptr => .free ptr
  | .poke addr value => .poke addr value

section Logged

variable {m m' m'' : ByteMemory} {a v x : ℕ}

/-- All that changes from `m` to `m'` is recorded. -/
def Logged (m m' : ByteMemory) : Prop :=
  ∀ x, x ∉ m'.written → x ∉ m.written ∧ m'.byte x = m.byte x

theorem Logged.refl (m : ByteMemory) : Logged m m := fun _ hx => ⟨hx, rfl⟩

theorem Logged.store (h : Logged m m') (a v : ℕ) : Logged m (m'.store a v) := by
  intro x hx
  rw [mem_written_store, not_or] at hx
  obtain ⟨hold, hbyte⟩ := h x hx.2
  refine ⟨hold, ?_⟩
  rw [← hbyte]
  exact if_neg hx.1

theorem Logged.takeBlock (h : Logged m m') (bestFit size : ℕ) :
    Logged m (takeBlock m' bestFit size) := by
  unfold Memory.takeBlock setFree setNext setSize
  dsimp only
  split_ifs
  · exact (((((h.store _ _).store _ _).store _ _).store _ _).store _ _).store _ _
  · exact h.store _ _

theorem Logged.kfree (h : Logged m m') (ptr : ℕ) : Logged m (kfree m' ptr) := by
  unfold Memory.kfree setFree setNext setSize
  dsimp only
  split_ifs
  · exact h
  · exact ((h.store _ _).store _ _).store _ _
  · exact h.store _ _

theorem Logged.kmalloc {start size p : ℕ} (hcall : kmalloc m start size = some (m', p)) :
    Logged m m' := by
  unfold Memory.kmalloc at hcall
  split_ifs at hcall
  · cases hcall
    exact Logged.refl m
  · obtain ⟨bestFit, -, he⟩ := Option.map_eq_some_iff.mp hcall
    split_ifs at he
    · cases he
      exact Logged.refl m
    · cases he
      exact (Logged.refl m).takeBlock _ _

theorem byte_of_not_written {h t : Heap} {call : Call} (hstep : step h call = some t)
    (hx : x ∉ t.mem.written) : t.mem.byte x = h.mem.byte x := by
  have hlog : Logged h.mem.clearLog t.mem := by
    cases call with
    | kmalloc n =>
      obtain ⟨⟨m, p⟩, hcall, rfl⟩ := Option.map_eq_some_iff.mp hstep
      exact Logged.kmalloc hcall
    | kfree p =>
      obtain rfl := Option.some.inj hstep
      exact (Logged.refl _).kfree p
    | poke a v =>
      obtain rfl := Option.some.inj hstep
      intro x hx
      simp only [storeByte, List.mem_cons, not_or] at hx
      exact ⟨hx.2, update_of_ne hx.1 _ _⟩
  exact (hlog x hx).2

end Logged

section Lookup

variable {live : List (ℕ × ℕ)} {p n : ℕ}

theorem lookup_eq_some_iff (hnodup : (live.map Prod.fst).Nodup) :
    live.lookup p = some n ↔ (p, n) ∈ live := by
  induction live with
  | nil => simp
  | cons e live ih =>
    obtain ⟨q, k⟩ := e
    obtain ⟨hq, hnodup⟩ := List.nodup_cons.mp hnodup
    rw [List.lookup_cons]
    by_cases hpq : p = q
    · subst hpq
      have hnot : (p, n) ∉ live := fun hm => hq (List.mem_map.mpr ⟨_, hm, rfl⟩)
      simp [hnot, eq_comm]
    · have hbeq : (p == q) = false := beq_eq_false_iff_ne.mpr hpq
      simp [hbeq, ih hnodup, hpq]

theorem lookup_filter_ne (live : List (ℕ × ℕ)) (p q : ℕ) :
    (live.filter (·.1 ≠ q)).lookup p = if p = q then none else live.lookup p := by
  induction live with
  | nil => simp
  | cons e live ih =>
    obtain ⟨r, k⟩ := e
    rw [List.filter_cons, List.lookup_cons]
    by_cases hr : r = q
    · subst hr
      by_cases hp : p = r
      · simpa [hp] using ih
      · have hbeq : (p == r) = false := beq_eq_false_iff_ne.mpr hp
        simpa [hp, hbeq] using ih
    · by_cases hp : p = r
      · subst hp
        simp [hr]
      · have hbeq : (p == r) = false := beq_eq_false_iff_ne.mpr hp
        simp only [hr, not_false_eq_true, decide_true, if_true, ne_eq]
        rw [List.lookup_cons, hbeq]
        simpa using ih

end Lookup

section Stored

variable {h t : Heap} {l : List Block} {p n : ℕ} {buf : List UInt8}

theorem length_contents (m : ByteMemory) (p n : ℕ) : (contents m p n).length = n := by
  simp [contents]

theorem contents_congr {m m' : ByteMemory} (hbyte : ∀ i < n, m'.byte (p + i) = m.byte (p + i)) :
    contents m' p n = contents m p n :=
  List.map_congr_left fun i hi => hbyte i (List.mem_range.mp hi)

theorem stored_of_mem (hi : HeapInv h l) (hm : (p, n) ∈ h.live) :
    stored h p = some (contents h.mem p n) := by
  rw [stored, (lookup_eq_some_iff hi.nodup).mpr hm, Option.map_some]

theorem stored_eq_some_iff (hi : HeapInv h l) :
    stored h p = some buf ↔ ∃ n, (p, n) ∈ h.live ∧ contents h.mem p n = buf := by
  unfold stored
  rw [Option.map_eq_some_iff]
  simp only [lookup_eq_some_iff hi.nodup]

theorem stored_eq_none_iff (hi : HeapInv h l) : stored h p = none ↔ ∀ n, (p, n) ∉ h.live := by
  rw [stored, Option.map_eq_none_iff, Option.eq_none_iff_forall_ne_some]
  exact forall_congr' fun n => not_congr (lookup_eq_some_iff hi.nodup)

/-- A write of one byte is seen by the buffer it is in. -/
theorem stored_poke (h : Heap) (a : ℕ) (v : UInt8) :
    stored { h with mem := h.mem.clearLog.storeByte a v } = (stored h).poke a v := by
  funext p
  unfold stored BufferMap.poke
  rw [Option.map_map]
  refine congrArg (fun f => Option.map f (h.live.lookup p)) (funext fun n => ?_)
  apply List.ext_getElem
  · simp only [comp_apply]
    split_ifs <;> simp [length_contents]
  · intro i hlt _
    rw [length_contents] at hlt
    simp only [contents, comp_apply, List.getElem_map, List.getElem_range]
    by_cases ha : p + i = a
    · subst ha
      simp [storeByte]
    · have hne : (h.mem.clearLog.storeByte a v).byte (p + i) = h.mem.byte (p + i) :=
        update_of_ne ha _ _
      rw [hne]
      split_ifs with hle
      · have hsub : a - p ≠ i := by omega
        rw [List.getElem_set_of_ne hsub]
        simp
      · simp

theorem apart_stored (hi : HeapInv h l) : (stored h).Apart := by
  intro p q buf buf' hp hq hne
  obtain ⟨n, hpn, rfl⟩ := (stored_eq_some_iff hi).mp hp
  obtain ⟨k, hqk, rfl⟩ := (stored_eq_some_iff hi).mp hq
  obtain ⟨b, hb, rfl, -, hn⟩ := hi.live p n hpn
  obtain ⟨c, hc, rfl, -, hk⟩ := hi.live q k hqk
  have hbc : b ≠ c := by
    rintro rfl
    exact hne rfl
  have hd := hi.laid.tiles.disjoint hb hc hbc
  rw [length_contents, length_contents]
  unfold Block.fin Block.payload at *
  omega

theorem contents_kept {call : Call} (hi : HeapInv h l) (hok : HeapOk h call)
    (hstep : step h call = some t) (hpoke : ∀ a v, call ≠ .poke a v) (hm : (p, n) ∈ h.live)
    (hfree : call ≠ .kfree p) : contents t.mem p n = contents h.mem p n := by
  obtain ⟨u, hu, -, hwritten⟩ := hi.step hok
  obtain rfl := Option.some.inj (hstep.symm.trans hu)
  obtain ⟨b, hb, rfl, hused, hn⟩ := hi.live p n hm
  apply contents_congr
  intro i hlt
  apply byte_of_not_written hstep
  refine hwritten hpoke b hb hused hfree _ ⟨Nat.le_add_right _ _, ?_⟩
  unfold Block.fin Block.payload at *
  omega

/-- What a successful or refused request adds. -/
theorem stored_kmalloc (hi : HeapInv h l) (hok : HeapOk h (.kmalloc n))
    (hstep : step h (.kmalloc n) = some t) (hresult : result h (.kmalloc n) = some p) :
    (p = 0 ∧ stored t = stored h) ∨ (p ≠ 0 ∧ stored h p = none ∧
      ∃ buf, buf.length = n ∧ stored t = update (stored h) p (some buf)) := by
  have hlive : t.live = if p = 0 then h.live else (p, n) :: h.live := by
    obtain ⟨⟨m, q⟩, hcall, rfl⟩ := Option.map_eq_some_iff.mp hstep
    rw [result, hcall] at hresult
    obtain rfl := Option.some.inj hresult
    rfl
  have hkept : ∀ q k, (q, k) ∈ h.live → contents t.mem q k = contents h.mem q k :=
    fun q k hm => contents_kept hi hok hstep (by simp) hm (by simp)
  have hold : ∀ q, (h.live.lookup q).map (contents t.mem q) = stored h q := by
    intro q
    cases hq : h.live.lookup q with
    | none => rw [stored, hq, Option.map_none, Option.map_none]
    | some k =>
      rw [stored, hq, Option.map_some, Option.map_some,
        hkept q k ((lookup_eq_some_iff hi.nodup).mp hq)]
  by_cases hp : p = 0
  · rw [if_pos hp] at hlive
    refine Or.inl ⟨hp, ?_⟩
    funext q
    rw [← hold, stored, hlive]
  · rw [if_neg hp] at hlive
    obtain ⟨u, hu, hinv, -⟩ := hi.step hok
    obtain rfl := Option.some.inj (hstep.symm.trans hu)
    have hnodup := hinv.nodup
    rw [hlive, List.map_cons, List.nodup_cons] at hnodup
    refine Or.inr ⟨hp, ?_, contents t.mem p n, length_contents _ _ _, ?_⟩
    · rw [stored_eq_none_iff hi]
      exact fun k hm => hnodup.1 (List.mem_map.mpr ⟨_, hm, rfl⟩)
    · funext q
      by_cases hq : q = p
      · subst hq
        rw [stored, hlive, List.lookup_cons_self, Option.map_some, update_self]
      · have hbeq : (q == p) = false := beq_eq_false_iff_ne.mpr hq
        rw [update_of_ne hq, ← hold, stored, hlive, List.lookup_cons, hbeq]

theorem stored_kfree (hi : HeapInv h l) (hok : HeapOk h (.kfree p))
    (hstep : step h (.kfree p) = some t) : stored t = update (stored h) p none := by
  have hlive : t.live = h.live.filter (·.1 ≠ p) := by
    obtain rfl := Option.some.inj hstep
    rfl
  funext q
  rw [stored, hlive, lookup_filter_ne]
  by_cases hq : q = p
  · rw [if_pos hq, hq, update_self, Option.map_none]
  · rw [if_neg hq, update_of_ne hq]
    cases hk : h.live.lookup q with
    | none => rw [stored, hk, Option.map_none, Option.map_none]
    | some k =>
      have hcall : Call.kfree p ≠ .kfree q := by
        intro he
        exact hq (Call.kfree.inj he).symm
      rw [stored, hk, Option.map_some, Option.map_some, contents_kept hi hok hstep (by simp)
        ((lookup_eq_some_iff hi.nodup).mp hk) hcall]

def answer (h : Heap) (call : Call) : Option ℕ := (result h call).bind pointer

/-- One call of the heap is one access to the buffers. -/
theorem stored_step {call : Call} (hi : HeapInv h l) (hok : HeapOk h call)
    (hstep : step h call = some t) :
    BufferMap.Step (stored h) call.access (answer h call) (stored t) := by
  cases call with
  | kmalloc n =>
    obtain ⟨⟨m, p⟩, hcall, -⟩ := Option.map_eq_some_iff.mp hstep
    have hresult : result h (.kmalloc n) = some p := by rw [result, hcall, Option.map_some]
    rw [answer, hresult, Option.bind_some, pointer]
    rcases stored_kmalloc hi hok hstep hresult with ⟨hp, he⟩ | ⟨hp, hnone, buf, hlen, he⟩
    · rw [if_pos hp, he]
      exact .refused
    · rw [if_neg hp, he]
      exact .fresh hnone hlen
  | kfree p =>
    rw [stored_kfree hi hok hstep]
    exact .free
  | poke a v =>
    obtain rfl := Option.some.inj hstep
    rw [stored_poke]
    exact .poke

end Stored

/-- The calls with what they return. -/
def accesses (h : Heap) : List Call → List (BufferMap.Access UInt8 × Option ℕ)
  | [] => []
  | call :: calls =>
    match step h call with
    | none => []
    | some t => (call.access, answer h call) :: accesses t calls

theorem stored_run {h t : Heap} {l : List Block} {calls : List Call} (hi : HeapInv h l)
    (hrun : Run step HeapOk h calls t) :
    BufferMap.Steps (stored h) (accesses h calls) (stored t) ∧ ∃ l', HeapInv t l' := by
  induction hrun generalizing l with
  | nil h => exact ⟨.nil _, l, hi⟩
  | cons hok hstep _ ih =>
    obtain ⟨u, hu, hinv, -⟩ := hi.step hok
    obtain rfl := Option.some.inj (hu.symm.trans hstep)
    obtain ⟨hsteps, hl⟩ := ih hinv
    refine ⟨?_, hl⟩
    simp only [accesses, hstep]
    exact .cons (stored_step hi hok hstep) hsteps

/-- Every run of the heap from boot on is a run of the map of its buffers, which start out
empty and stay apart; a live pointer leads to as many bytes as were asked for. -/
theorem heap_refines_bufferMap {mem : ByteMemory} {calls : List Call} {t : Heap}
    (hrun : Run step HeapOk (heapInit mem) calls t) :
    BufferMap.Steps (fun _ => none) (accesses (heapInit mem) calls) (stored t) ∧
      (stored t).Apart ∧ ∀ p n, (p, n) ∈ t.live → ∃ buf, stored t p = some buf ∧
        buf.length = n := by
  obtain ⟨hsteps, l, hi⟩ := stored_run (heapInv_heapInit mem) hrun
  refine ⟨hsteps, apart_stored hi, fun p n hm => ?_⟩
  exact ⟨_, stored_of_mem hi hm, length_contents _ _ _⟩

/-- The first 100 bytes allocated after boot, of which one is written. -/
theorem heap_refines_bufferMap_first : ∃ t buf,
    Run step HeapOk (heapInit ⟨fun _ => 0, []⟩) [.kmalloc 100, .poke 0xE0000010 7] t ∧
      BufferMap.Steps (fun _ => none)
        (accesses (heapInit ⟨fun _ => 0, []⟩) [.kmalloc 100, .poke 0xE0000010 7]) (stored t) ∧
      stored t 0xE000000C = some buf ∧ buf.length = 100 := by
  obtain ⟨t, ht, -, hlive, -⟩ := step_kmalloc [] [] (n := 100)
    (heapInv_heapInit ⟨fun _ => 0, []⟩).laid rfl (by decide) (by decide)
  obtain ⟨u, hu⟩ : ∃ u, step t (.poke 0xE0000010 7) = some u := ⟨_, rfl⟩
  have hpoke : HeapOk t (.poke 0xE0000010 7) :=
    Or.inl ⟨0xE000000C, 100, hlive ▸ List.mem_cons_self .., by decide, by decide⟩
  have hrun : Run step HeapOk (heapInit ⟨fun _ => 0, []⟩) [.kmalloc 100, .poke 0xE0000010 7] u :=
    .cons ⟨by decide, by decide⟩ ht (.cons hpoke hu (.nil u))
  have hmem : (0xE000000C, 100) ∈ u.live := by
    obtain rfl := Option.some.inj hu
    exact hlive ▸ List.mem_cons_self ..
  obtain ⟨hsteps, -, hbuf⟩ := heap_refines_bufferMap hrun
  obtain ⟨buf, hstored, hlen⟩ := hbuf _ _ hmem
  exact ⟨u, buf, hrun, hsteps, hstored, hlen⟩

/-! ### Calls and loops of kernel code -/

namespace Heap

variable (h : Heap)

/-- The call of `kmalloc` with the pointer it returns, none for null. -/
def kmalloc (size : ℕ) : Option (Option ℕ × Heap) :=
  (step h (.kmalloc size)).map fun t => (answer h (.kmalloc size), t)

def kfree (ptr : ℕ) : Heap :=
  { h with mem := Memory.kfree h.mem.clearLog ptr, live := h.live.filter (·.1 ≠ ptr) }

def poke (addr : ℕ) (value : UInt8) : Heap := { h with mem := h.mem.clearLog.storeByte addr value }

/-- A loop that copies the bytes of a string to `dst`. -/
def copyIn (h : Heap) (dst : ℕ) : List UInt8 → Heap
  | [] => h
  | c :: src => copyIn (h.poke dst c) (dst + 1) src

/-- A loop that copies `n` bytes from `src` to `dst`, one at a time. -/
def copyFrom (h : Heap) (dst src : ℕ) : ℕ → Heap
  | 0 => h
  | n + 1 => copyFrom (h.poke dst (h.mem.byte src)) (dst + 1) (src + 1) n

/-- The heap is in good order. -/
def Sound : Prop := ∃ l, HeapInv h l

end Heap

section Calls

variable {h : Heap} {p off n : ℕ} {buf src : List UInt8}

theorem sound_heapInit (mem : ByteMemory) : (heapInit mem).Sound := ⟨_, heapInv_heapInit mem⟩

theorem Heap.Sound.apart (hs : h.Sound) : (stored h).Apart := apart_stored hs.choose_spec

theorem Heap.Sound.step (hs : h.Sound) {c : Call} (hok : HeapOk h c) :
    ∃ t, Memory.step h c = some t ∧ t.Sound ∧
      BufferMap.Step (stored h) c.access (answer h c) (stored t) := by
  obtain ⟨l, hi⟩ := hs
  obtain ⟨t, ht, hinv, -⟩ := hi.step hok
  exact ⟨t, ht, ⟨_, hinv⟩, stored_step hi hok ht⟩

theorem Heap.Sound.kmalloc (hs : h.Sound) (hpos : 0 < n) (hn : n ≤ heapSize) :
    ∃ r t, h.kmalloc n = some (r, t) ∧ t.Sound ∧
      BufferMap.Step (stored h) (.alloc n) r (stored t) := by
  obtain ⟨t, ht, hsound, hstep⟩ := hs.step (c := .kmalloc n) ⟨hpos, hn⟩
  exact ⟨_, t, by rw [Heap.kmalloc, ht, Option.map_some], hsound, hstep⟩

theorem Heap.Sound.kfree (hs : h.Sound) (hp : stored h p ≠ none) :
    (h.kfree p).Sound ∧ stored (h.kfree p) = update (stored h) p none := by
  obtain ⟨l, hi⟩ := hs
  obtain ⟨buf, hbuf⟩ := Option.ne_none_iff_exists'.mp hp
  obtain ⟨n, hm, -⟩ := (stored_eq_some_iff hi).mp hbuf
  have hok : HeapOk h (.kfree p) := Or.inr ⟨n, hm⟩
  obtain ⟨t, ht, hinv, -⟩ := hi.step hok
  obtain rfl := Option.some.inj ht
  exact ⟨⟨_, hinv⟩, stored_kfree hi hok ht⟩

theorem Heap.Sound.poke (hs : h.Sound) {a : ℕ} (v : UInt8) (hbuf : stored h p = some buf)
    (hlo : p ≤ a) (hhi : a < p + buf.length) : (h.poke a v).Sound := by
  obtain ⟨l, hi⟩ := hs
  obtain ⟨n, hm, rfl⟩ := (stored_eq_some_iff hi).mp hbuf
  rw [length_contents] at hhi
  exact ⟨l, hi.poke (Or.inl ⟨p, n, hm, hlo, hhi⟩)⟩

theorem stored_copyIn (h : Heap) (a : ℕ) (src : List UInt8) :
    stored (h.copyIn a src) = (stored h).pokeAll a src := by
  induction src generalizing h a with
  | nil => rfl
  | cons c src ih =>
    rw [Heap.copyIn, ih, BufferMap.pokeAll, Heap.poke, stored_poke]

theorem Heap.Sound.copyIn (hs : h.Sound) (hbuf : stored h p = some buf) (off : ℕ)
    (src : List UInt8) (hfit : off + src.length ≤ buf.length) :
    (h.copyIn (p + off) src).Sound ∧
      stored (h.copyIn (p + off) src) = (stored h).write p off src := by
  refine ⟨?_, by rw [stored_copyIn, BufferMap.pokeAll_eq_write hs.apart hbuf hfit]⟩
  induction src generalizing h off buf with
  | nil => exact hs
  | cons c src ih =>
    rw [List.length_cons] at hfit
    have hpoke := hs.poke c hbuf (Nat.le_add_right p off) (by omega)
    have hnew : stored (h.poke (p + off) c) p = some (buf.set off c) := by
      rw [Heap.poke, stored_poke, BufferMap.poke_of_some hbuf, if_pos (Nat.le_add_right _ _),
        Nat.add_sub_cancel_left]
    exact ih hpoke hnew (off + 1) (by rw [List.length_set]; omega)

theorem Heap.Sound.bounds (hs : h.Sound) (hp : stored h p = some buf) :
    heapStart ≤ p ∧ p + buf.length ≤ heapLimit := by
  obtain ⟨l, hi⟩ := hs
  obtain ⟨n, hm, rfl⟩ := (stored_eq_some_iff hi).mp hp
  obtain ⟨b, hb, rfl, -, hn⟩ := hi.live p n hm
  obtain ⟨hlo, hhi⟩ := hi.laid.tiles.bounds hb
  rw [length_contents]
  unfold Block.fin Block.payload at *
  omega

theorem Heap.Sound.poke_outside (hs : h.Sound) {a : ℕ} (v : UInt8)
    (hout : a < heapStart ∨ heapLimit ≤ a) :
    (h.poke a v).Sound ∧ stored (h.poke a v) = stored h := by
  have hkept : stored (h.poke a v) = stored h := by
    rw [Heap.poke, stored_poke]
    funext p
    cases hp : stored h p with
    | none => rw [BufferMap.poke, hp, Option.map_none]
    | some buf =>
      obtain ⟨hlo, hhi⟩ := hs.bounds hp
      exact BufferMap.Holders.poke_outside hp (by omega)
  obtain ⟨l, hi⟩ := hs
  exact ⟨⟨l, hi.poke (Or.inr hout)⟩, hkept⟩

theorem Heap.Sound.copyIn_outside (hs : h.Sound) {a : ℕ} (src : List UInt8)
    (hout : a + src.length ≤ heapStart ∨ heapLimit ≤ a) :
    (h.copyIn a src).Sound ∧ stored (h.copyIn a src) = stored h := by
  induction src generalizing h a with
  | nil => exact ⟨hs, rfl⟩
  | cons c src ih =>
    rw [List.length_cons] at hout
    obtain ⟨hsound, hstored⟩ := hs.poke_outside (a := a) c (by omega)
    obtain ⟨hsound', hstored'⟩ := ih hsound (a := a + 1) (by omega)
    exact ⟨hsound', hstored'.trans hstored⟩

theorem copyFrom_eq {dst s : ℕ} (hapart : dst + n ≤ s ∨ s + n ≤ dst) :
    h.copyFrom dst s n = h.copyIn dst (contents h.mem s n) := by
  induction n generalizing h dst s with
  | zero => rfl
  | succ n ih =>
    have hrest : contents (h.poke dst (h.mem.byte s)).mem (s + 1) n =
        contents h.mem (s + 1) n := by
      apply contents_congr
      intro i hi
      exact update_of_ne (by omega) _ _
    have hcons : contents h.mem s (n + 1) = h.mem.byte s :: contents h.mem (s + 1) n := by
      simp only [contents, List.range_succ_eq_map, List.map_cons, List.map_map, Nat.add_zero]
      refine congrArg _ (List.map_congr_left fun i _ => ?_)
      simp only [comp_apply, Nat.succ_eq_add_one]
      rw [Nat.add_assoc, Nat.add_comm 1 i]
    rw [Heap.copyFrom, ih (by omega), hrest, hcons, Heap.copyIn]

/-- A buffer is copied to the front of another one, which takes its place. -/
theorem Heap.Sound.replace (hs : h.Sound) {old : ℕ} {obuf : List UInt8}
    (hp : stored h p = some buf) (hold : stored h old = some obuf) (hne : p ≠ old)
    (hn : n ≤ buf.length) (hn' : n ≤ obuf.length) :
    ((h.copyFrom p old n).kfree old).Sound ∧
      stored ((h.copyFrom p old n).kfree old) =
        update ((stored h).write p 0 (obuf.take n)) old none := by
  have hapart := hs.apart p old buf obuf hp hold hne
  have hcontents : contents h.mem old n = obuf.take n := by
    obtain ⟨l, hi⟩ := hs
    obtain ⟨k, -, rfl⟩ := (stored_eq_some_iff hi).mp hold
    rw [length_contents] at hn'
    unfold contents
    rw [← List.map_take, List.take_range, min_eq_left hn']
  rw [copyFrom_eq (by omega), hcontents]
  have hlen : (obuf.take n).length = n := List.length_take_of_le hn'
  obtain ⟨hsound, hstored⟩ := hs.copyIn hp 0 (obuf.take n) (by omega)
  rw [Nat.add_zero] at hsound hstored
  obtain ⟨hfree, he⟩ := hsound.kfree (p := old) (by
    rw [hstored, BufferMap.write, update_of_ne hne.symm, hold]
    exact Option.some_ne_none _)
  exact ⟨hfree, by rw [he, hstored]⟩

end Calls

end OpenKernel.Memory
