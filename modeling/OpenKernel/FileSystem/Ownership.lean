import OpenKernel.Lib.Ownership
import OpenKernel.FileSystem.Storage
import OpenKernel.FileSystem.Tree

/-!
# Who owns the buffers

The buffers that `fs.c` has allocated and not freed are owned by the used nodes and
by the editor, one each. While `:e` rebuilds the edit buffer, its loop owns the old
one. Allocation may fail at any point.
-/

namespace OpenKernel.FileSystem

open Function

inductive Owner
  | node (i : Slot)
  | editor
  /-- The local variable `old` of the command `:e`. -/
  | replaced
  deriving DecidableEq

/-- A buffer with its fill level and its size. -/
structure Holding where
  data : Option ℕ
  size : ℕ
  cap : ℕ

def Holding.empty : Holding := ⟨none, 0, 0⟩

def Node.holding (n : Node) : Holding := if n.used then ⟨n.data, n.size, n.cap⟩ else .empty

def Okfs.editing (s : Okfs) : Holding := ⟨s.editBuf, s.editLen, s.editCap⟩

def holdings (s : Okfs) (old : Holding) : Owner → Holding
  | .node i => (s.nodes i).holding
  | .editor => s.editing
  | .replaced => old

/-- The buffer is live and has the room it claims to have. -/
structure Held (h : Buffers) (x : Holding) : Prop where
  size_le : x.size ≤ x.cap
  cap_le : x.cap ≤ fsMaxFileSize
  null : x.data = none ↔ x.cap = 0
  live : ∀ p, x.data = some p → p < h.calls ∧ ∃ buf, h.live p = some buf ∧ buf.length = x.cap

/-- Every holding is backed, the live buffers are exactly the held ones, and no other has been
freed. -/
structure Accounts (h : Buffers) (f : Owner → Holding) : Prop where
  held : ∀ o, Held h (f o)
  owns : Owns (fun o => (f o).data) fun p => h.live p ≠ none
  clean : h.clean = true

theorem held_empty (h : Buffers) : Held h .empty :=
  ⟨le_rfl, Nat.zero_le _, iff_of_true rfl rfl, fun p hp => by cases hp⟩

theorem Held.congr {h h' : Buffers} {x : Holding} (hx : Held h x) (hcalls : h.calls ≤ h'.calls)
    (hlive : ∀ p, x.data = some p → h'.live p = h.live p) : Held h' x := by
  refine ⟨hx.size_le, hx.cap_le, hx.null, ?_⟩
  intro p hp
  obtain ⟨hlt, buf, hbuf, hlen⟩ := hx.live p hp
  exact ⟨hlt.trans_le hcalls, buf, (hlive p hp).trans hbuf, hlen⟩

theorem Held.length_read {h : Buffers} {x : Holding} (hx : Held h x) :
    (h.read x.data).length = x.cap := by
  cases hd : x.data with
  | none => simp [Buffers.read, hx.null.mp hd]
  | some p =>
    obtain ⟨-, buf, hlive, hlen⟩ := hx.live p hd
    simp [Buffers.read, hlive, hlen]

namespace Accounts

variable {h h' : Buffers} {f : Owner → Holding} {o o' : Owner}

theorem ne_of_ne (a : Accounts h f) (hne : o' ≠ o) {p : ℕ} (hp : (f o').data = some p) :
    (f o).data ≠ some p :=
  fun hp' => hne (a.owns.injective o' o p hp hp')

theorem data_update (f : Owner → Holding) (o : Owner) (x : Holding) :
    (fun k => (update f o x k).data) = update (fun k => (f k).data) o x.data := by
  funext k
  by_cases hk : k = o
  · subst hk
    rw [update_self, update_self]
  · rw [update_of_ne hk, update_of_ne hk]

theorem fail (a : Accounts h f) {n : ℕ} (hn : h.calls ≤ n) :
    Accounts { h with calls := n } f :=
  ⟨fun o => (a.held o).congr hn fun _ _ => rfl, a.owns, a.clean⟩

/-- An owner frees its buffer. -/
theorem release (a : Accounts h f) (o : Owner) :
    Accounts (h.without (f o).data) (update f o .empty) := by
  refine ⟨?_, ?_, (Buffers.clean_without fun _ hp => a.owns.live_of_held hp).trans a.clean⟩
  · intro k
    by_cases hk : k = o
    · subst hk
      rw [update_self]
      exact held_empty _
    · rw [update_of_ne hk]
      refine (a.held k).congr (by simp) ?_
      intro p hp
      exact Buffers.live_without_of_ne (a.ne_of_ne hk hp)
  · rw [data_update]
    cases hd : (f o).data with
    | none =>
      have hsame : update (fun k => (f k).data) o Holding.empty.data = fun k => (f k).data := by
        rw [show Holding.empty.data = (f o).data from hd.symm, update_eq_self]
      rw [hsame]
      exact a.owns
    | some p =>
      refine a.owns.release hd ?_
      intro q
      by_cases hq : q = p
      · subst hq
        simp [Buffers.without, Buffers.kfree]
      · simp [Buffers.without, Buffers.kfree, hq]

/-- An owner exchanges its buffer for a new one. -/
theorem regrow (a : Accounts h f) (o : Owner) {n : Node} {newCap : ℕ} {append : Bool}
    (hr : Regrown h h' n newCap append) (hn : n.data = (f o).data) (hsize : (f o).size ≤ newCap)
    (hpos : 0 < newCap) (hmax : newCap ≤ fsMaxFileSize) :
    Accounts h' (update f o ⟨some h.calls, (f o).size, newCap⟩) := by
  obtain ⟨buf, hbuf, hlen, -⟩ := hr.fresh
  have hold : ∀ k p, (f k).data = some p → p ≠ h.calls := by
    intro k p hp
    exact ((a.held k).live p hp).1.ne
  have hclean : h'.clean = h.clean := hr.clean fun _ hp => a.owns.live_of_held (hn ▸ hp)
  refine ⟨?_, ?_, hclean.trans a.clean⟩
  · intro k
    by_cases hk : k = o
    · subst hk
      rw [update_self]
      refine ⟨hsize, hmax, iff_of_false (by simp) hpos.ne', ?_⟩
      intro p hp
      obtain rfl := Option.some.inj hp
      exact ⟨by rw [hr.calls]; omega, buf, hbuf, hlen⟩
    · rw [update_of_ne hk]
      refine (a.held k).congr (by rw [hr.calls]; omega) ?_
      intro p hp
      exact hr.other p (hn ▸ a.ne_of_ne hk hp) (hold k p hp)
  · have hfresh : h.live h.calls = none := by
      by_contra hne
      obtain ⟨k, hk⟩ := (a.owns.live_iff _).mp hne
      exact hold k _ hk rfl
    have hreleased := (a.release o).owns
    rw [data_update] at hreleased ⊢
    have hacquired : (∀ q, h'.live q ≠ none ↔
        (h.without (f o).data).live q ≠ none ∨ q = h.calls) →
        Owns (update (update (fun k => (f k).data) o none) o (some h.calls))
          fun p => h'.live p ≠ none := by
      apply hreleased.acquire (update_self ..)
      rw [not_not]
      by_cases hd : (f o).data = some h.calls
      · exact Buffers.live_without_self hd
      · rw [Buffers.live_without_of_ne hd]
        exact hfresh
    rw [update_idem] at hacquired
    apply hacquired
    intro q
    by_cases hq : q = h.calls
    · subst hq
      simp [hbuf]
    · by_cases hd : (f o).data = some q
      · rw [hr.freed q (hn.trans hd), Buffers.live_without_self hd]
        simp [hq]
      · rw [hr.other q (hn ▸ hd) hq, Buffers.live_without_of_ne hd]
        simp [hq]

/-- An owner writes to its buffer. -/
theorem store (a : Accounts h f) (o : Owner) (bytes : Bytes) (off newSize : ℕ)
    (hfit : off + bytes.length ≤ (f o).cap) (hsize : newSize ≤ (f o).cap) :
    Accounts (h.write (f o).data off bytes) (update f o { f o with size := newSize }) := by
  have hlive : ∀ p, (f o).data ≠ some p → (h.write (f o).data off bytes).live p = h.live p := by
    intro p hp
    cases hd : (f o).data with
    | none => rfl
    | some q =>
      rw [hd] at hp
      exact Buffers.live_write_of_ne fun e => hp (congrArg some e.symm)
  have hown : ∀ p buf, (f o).data = some p → h.live p = some buf →
      (h.write (f o).data off bytes).live p =
        some (buf.take off ++ bytes ++ buf.drop (off + bytes.length)) := by
    intro p buf hp hbuf
    rw [hp]
    exact Buffers.live_write_self off bytes hbuf
  refine ⟨?_, ?_, (Buffers.clean_write _).trans a.clean⟩
  · intro k
    by_cases hk : k = o
    · subst hk
      rw [update_self]
      refine ⟨hsize, (a.held k).cap_le, (a.held k).null, ?_⟩
      intro p hp
      obtain ⟨hlt, buf, hbuf, hlen⟩ := (a.held k).live p hp
      exact ⟨by simpa using hlt, _, hown p buf hp hbuf,
        (length_overwrite (by omega)).trans hlen⟩
    · rw [update_of_ne hk]
      refine (a.held k).congr (by simp) ?_
      intro p hp
      exact hlive p (a.ne_of_ne hk hp)
  · rw [data_update]
    have hsame : update (fun k => (f k).data) o ({ f o with size := newSize } : Holding).data =
        fun k => (f k).data := update_eq_self o _
    rw [hsame]
    refine a.owns.congr ?_
    intro p
    by_cases hp : (f o).data = some p
    · obtain ⟨-, buf, hbuf, -⟩ := (a.held o).live p hp
      rw [hown p buf hp hbuf, hbuf]
      simp
    · rw [hlive p hp]

theorem move (a : Accounts h f) (o o' : Owner) (hne : o ≠ o') (hempty : f o' = .empty) :
    Accounts h (update (update f o .empty) o' (f o)) := by
  refine ⟨?_, ?_, a.clean⟩
  · intro k
    by_cases hk' : k = o'
    · subst hk'
      rw [update_self]
      exact a.held o
    · rw [update_of_ne hk']
      by_cases hk : k = o
      · subst hk
        rw [update_self]
        exact held_empty h
      · rw [update_of_ne hk]
        exact a.held k
  · rw [data_update, data_update]
    exact a.owns.move hne (by rw [hempty]; rfl)

end Accounts

section Files

variable {alloc : Allocator} {s t : Okfs} {id : Slot} {old : Holding}

theorem holdings_of_node {n : Node} (hn : t.nodes = update s.nodes id n)
    (he : t.editing = s.editing) :
    holdings t old = update (holdings s old) (.node id) n.holding := by
  funext o
  cases o with
  | node i =>
    change (t.nodes i).holding = _
    rw [hn]
    by_cases hi : i = id
    · subst hi
      rw [update_self, update_self]
    · have ho : Owner.node i ≠ .node id := fun e => hi (Owner.node.inj e)
      rw [update_of_ne hi, update_of_ne ho]
      rfl
  | editor => exact he
  | replaced => rfl

theorem holdings_of_editing (hn : t.nodes = s.nodes) :
    holdings t old = update (holdings s old) .editor t.editing := by
  funext o
  cases o with
  | node i =>
    unfold holdings
    rw [hn]
    rfl
  | editor => rfl
  | replaced => rfl

theorem Accounts.of_node {n : Node} {h : Buffers}
    (a : Accounts h (update (holdings s old) (.node id) n.holding)) (hh : t.heap = h)
    (hn : t.nodes = update s.nodes id n) (he : t.editing = s.editing) :
    Accounts t.heap (holdings t old) := by
  rw [hh, holdings_of_node hn he]
  exact a

theorem Accounts.of_editing {h : Buffers}
    (a : Accounts h (update (holdings s old) .editor t.editing)) (hh : t.heap = h)
    (hn : t.nodes = s.nodes) : Accounts t.heap (holdings t old) := by
  rw [hh, holdings_of_editing hn]
  exact a

theorem holding_of_used {n : Node} (hu : n.used = true) : n.holding = ⟨n.data, n.size, n.cap⟩ :=
  if_pos hu

theorem Accounts.of_used (n : Node) {h : Buffers}
    (a : Accounts h (update (holdings s old) (.node id) ⟨n.data, n.size, n.cap⟩)) (hh : t.heap = h)
    (hn : t.nodes = update s.nodes id n) (hu : n.used = true) (he : t.editing = s.editing) :
    Accounts t.heap (holdings t old) := by
  rw [← holding_of_used hu] at a
  exact a.of_node hh hn he

theorem Accounts.congr (a : Accounts s.heap (holdings s old)) (hh : t.heap = s.heap)
    (hn : t.nodes = s.nodes) (he : t.editing = s.editing) :
    Accounts t.heap (holdings t old) := by
  have hsame : holdings t old = holdings s old := by
    rw [holdings_of_editing hn, he]
    exact update_eq_self Owner.editor (holdings s old)
  rw [hh, hsame]
  exact a

theorem cap_growFile {newSize : ℕ} {append : Bool} (hmax : newSize ≤ fsMaxFileSize)
    (hg : growFile alloc s id newSize append = (t, true)) :
    newSize ≤ (t.nodes id).cap ∧ (t.nodes id).size = (s.nodes id).size := by
  unfold FileSystem.growFile at hg
  dsimp only at hg
  by_cases hfit : newSize ≤ (s.nodes id).cap
  · rw [if_pos hfit] at hg
    obtain rfl := congrArg Prod.fst hg
    exact ⟨hfit, rfl⟩
  · rw [if_neg hfit] at hg
    cases hk : s.heap.kmalloc alloc (nextCap (s.nodes id).cap newSize) with
    | mk p heap =>
      rw [hk] at hg
      cases p with
      | none => cases congrArg Prod.snd hg
      | some nbuf =>
        obtain rfl := congrArg Prod.fst hg
        dsimp only
        rw [update_self]
        exact ⟨newSize_le_nextCap hmax, rfl⟩

theorem Accounts.growFile (a : Accounts s.heap (holdings s old)) (alloc : Allocator)
    (hu : (s.nodes id).used = true) {newSize : ℕ} (hmax : newSize ≤ fsMaxFileSize) (append : Bool) :
    Accounts (growFile alloc s id newSize append).1.heap
      (holdings (growFile alloc s id newSize append).1 old) := by
  by_cases hfit : newSize ≤ (s.nodes id).cap
  · rw [growFile_of_fits hfit]
    exact a
  have hid := a.held (.node id)
  have hholding : holdings s old (.node id) = ⟨(s.nodes id).data, (s.nodes id).size,
    (s.nodes id).cap⟩ := holding_of_used hu
  rw [hholding] at hid
  have hsize := hid.size_le
  have hcap : newSize ≤ nextCap (s.nodes id).cap newSize := newSize_le_nextCap hmax
  dsimp only at hsize
  cases ha : alloc s.heap.calls (nextCap (s.nodes id).cap newSize) with
  | none =>
    rw [growFile_of_null (not_le.mp hfit) ha]
    exact a.fail (Nat.le_succ _)
  | some fill =>
    have hfresh : (s.nodes id).data ≠ some s.heap.calls := by
      intro hd
      exact lt_irrefl _ (hid.live _ hd).1
    have hlength := hid.length_read
    dsimp only at hlength
    obtain ⟨heap, he, hheap⟩ := growFile_of_some append (not_le.mp hfit) ha
      (by omega) (by omega) hfresh
    have hregrown := a.regrow (.node id) hheap (by rw [hholding])
      (by rw [hholding]; dsimp only; omega) (by omega) (min_le_right _ _)
    rw [hholding] at hregrown
    rw [he]
    exact Accounts.of_used { s.nodes id with
      data := some s.heap.calls, cap := nextCap (s.nodes id).cap newSize } hregrown rfl rfl hu rfl

theorem Accounts.storeFile (a : Accounts s.heap (holdings s old)) (hu : (s.nodes id).used = true)
    {bytes : Bytes} {newSize : ℕ} {append : Bool}
    (hsize : newSize = (if append then (s.nodes id).size else 0) + bytes.length)
    (hfit : newSize ≤ (s.nodes id).cap) :
    Accounts (storeFile s id bytes newSize append).heap
      (holdings (storeFile s id bytes newSize append) old) := by
  have hholding : holdings s old (.node id) = ⟨(s.nodes id).data, (s.nodes id).size,
    (s.nodes id).cap⟩ := holding_of_used hu
  have hstored := a.store (.node id) bytes (if append then (s.nodes id).size else 0) newSize
    (by rw [hholding]; dsimp only; omega) (by rw [hholding]; exact hfit)
  rw [hholding] at hstored
  exact Accounts.of_used { s.nodes id with size := newSize } hstored rfl rfl hu rfl

theorem Accounts.fsSetFileData (a : Accounts s.heap (holdings s old))
    (hu : (s.nodes id).used = true) (data : Bytes) (len : ℕ) (append : Bool) :
    Accounts (fsSetFileData alloc s id data len append).1.heap
      (holdings (fsSetFileData alloc s id data len append).1 old) := by
  by_cases hfits : Fits alloc s id len append
  · obtain ⟨t, hg, he⟩ := fsSetFileData_of_fits hfits data
    have hgrown := a.growFile alloc hu hfits.2.1 append
    have htree : SameTree s (FileSystem.growFile alloc s id (sizeAfter s id len append) append).1 :=
      sameTree_growFile _ append
    obtain ⟨hcap, hsize⟩ := cap_growFile hfits.2.1 hg
    rw [hg] at hgrown htree
    have hused : (t.nodes id).used = true := (congrArg Shape.used (congrFun htree.1 id)).trans hu
    rw [he]
    refine hgrown.storeFile hused ?_ hcap
    rw [hsize, length_readBytes]
    cases append <;> simp [sizeAfter]
  · obtain ⟨n, hn, he⟩ := fsSetFileData_of_not_fits hfits data
    rw [he]
    exact a.fail hn

/-- Storing data in a file leaves the other nodes alone. -/
theorem nodes_fsSetFileData (data : Bytes) (len : ℕ) (append : Bool) {j : Slot} (hj : j ≠ id) :
    (fsSetFileData alloc s id data len append).1.nodes j = s.nodes j := by
  have hgrow : ∀ newSize,
      (FileSystem.growFile alloc s id newSize append).1.nodes j = s.nodes j := by
    intro newSize
    unfold FileSystem.growFile
    dsimp only
    by_cases hfit : newSize ≤ (s.nodes id).cap
    · rw [if_pos hfit]
    · rw [if_neg hfit]
      cases s.heap.kmalloc alloc (nextCap (s.nodes id).cap newSize) with
      | mk p heap =>
        cases p with
        | none => rfl
        | some nbuf => exact update_of_ne hj ..
  by_cases hfits : Fits alloc s id len append
  · obtain ⟨t, hg, he⟩ := fsSetFileData_of_fits hfits data
    have hnodes := hgrow (sizeAfter s id len append)
    rw [hg] at hnodes
    rw [he]
    exact (update_of_ne hj ..).trans hnodes
  · obtain ⟨n, -, he⟩ := fsSetFileData_of_not_fits hfits data
    rw [he]

end Files

/-- The buffers are accounted for, and directories hold none. -/
structure OwnershipInv (s : Okfs) (old : Holding) : Prop where
  accounts : Accounts s.heap (holdings s old)
  dirs : ∀ i, (s.nodes i).used = true → (s.nodes i).type = .dir → (s.nodes i).data = none

namespace OwnershipInv

variable {alloc : Allocator} {s t : Okfs} {id : Slot} {old : Holding}

theorem congr (h : OwnershipInv s old) (hh : t.heap = s.heap) (hn : t.nodes = s.nodes)
    (he : t.editing = s.editing) : OwnershipInv t old := by
  refine ⟨h.accounts.congr hh hn he, ?_⟩
  rw [hn]
  exact h.dirs

theorem fsSetFileData (h : OwnershipInv s old) (hu : (s.nodes id).used = true)
    (hfile : (s.nodes id).type = .file) (data : Bytes) (len : ℕ) (append : Bool) :
    OwnershipInv (fsSetFileData alloc s id data len append).1 old := by
  refine ⟨h.accounts.fsSetFileData hu data len append, ?_⟩
  intro i hi hdir
  by_cases hid : i = id
  · subst hid
    have htree : SameTree s (FileSystem.fsSetFileData alloc s i data len append).1 :=
      sameTree_fsSetFileData data len append
    have htype := congrArg Shape.type (congrFun htree.1 i)
    rw [show (FileSystem.fsSetFileData alloc s i data len append).1.shape i =
      ((FileSystem.fsSetFileData alloc s i data len append).1.nodes i).shape from rfl] at htype
    unfold Node.shape at htype
    dsimp only at htype
    rw [hdir] at htype
    cases htype.trans hfile
  · rw [nodes_fsSetFileData data len append hid] at hi hdir ⊢
    exact h.dirs i hi hdir

theorem withEntry (h : OwnershipInv s old) (hfree : (s.nodes id).used = false) (parent : Slot)
    (name : Bytes) (type : FsType) : OwnershipInv (withEntry s id parent name type) old := by
  refine ⟨?_, ?_⟩
  · refine Accounts.of_used ⟨true, some parent, type, fsStrcpy name fsMaxName, none, 0, 0⟩ ?_
      rfl rfl rfl rfl
    have hempty : holdings s old (.node id) = ⟨none, 0, 0⟩ := by
      change (s.nodes id).holding = _
      unfold Node.holding
      rw [hfree]
      rfl
    rw [← hempty, update_eq_self]
    exact h.accounts
  · intro i hi hdir
    unfold FileSystem.withEntry at hi hdir ⊢
    dsimp only at hi hdir ⊢
    by_cases hii : i = id
    · subst hii
      rw [update_self]
    · rw [update_of_ne hii] at hi hdir ⊢
      exact h.dirs i hi hdir

theorem removeNode (h : OwnershipInv s old) (hu : (s.nodes id).used = true) {parent : Slot}
    (hp : (s.nodes id).parent = some parent) : OwnershipInv (removeNode s id).1 old := by
  have hrel := h.accounts.release (.node id)
  have hholding : holdings s old (.node id) = ⟨(s.nodes id).data, (s.nodes id).size,
    (s.nodes id).cap⟩ := holding_of_used hu
  rw [hholding] at hrel
  have hediting : (FileSystem.removeNode s id).1.editing = s.editing := by
    unfold FileSystem.removeNode
    dsimp only
    split_ifs
    · rw [hp]
      rfl
    · rfl
  obtain ⟨t, ht, hnodes, -, hheap⟩ := removeNode_eq hp
  rw [ht] at hediting ⊢
  refine ⟨Accounts.of_node hrel hheap hnodes hediting, ?_⟩
  intro i hi hdir
  dsimp only at hi hdir ⊢
  rw [hnodes] at hi hdir ⊢
  by_cases hii : i = id
  · subst hii
    rw [update_self]
  · rw [update_of_ne hii] at hi hdir ⊢
    exact h.dirs i hi hdir

theorem fsMkdir (h : OwnershipInv s old) (path : Bytes) : OwnershipInv (fsMkdir s path).1 old := by
  apply fsMkdir_rule (fun s => OwnershipInv s old) h
  intro id parent name type he
  exact h.withEntry (fsAllocNode_some he.slot).2 parent name type

theorem fsWriteFile (h : OwnershipInv s old) (alloc : Allocator) (path : Bytes)
    (data : Option Bytes) (len : ℕ) :
    OwnershipInv (fsWriteFile alloc s path data len).1 old := by
  apply fsWriteFile_rule fun s => OwnershipInv s old
  · exact h
  · intro id parent name type he
    exact h.withEntry (fsAllocNode_some he.slot).2 parent name type
  · intro u id data len hu hused hfile
    exact hu.fsSetFileData hused hfile data len false

theorem run (h : OwnershipInv s old) (hs : TreeInv s) (op : Op) :
    OwnershipInv (op.run alloc s).1 old := by
  apply run_rule fun s => OwnershipInv s old
  · exact h
  · intro path id hr
    exact (hs.fsResolve hs.cwd_used hr).1
  · intro path target _
    exact h.congr rfl rfl rfl
  · intro path id parent name type he
    exact h.withEntry (fsAllocNode_some he.slot).2 parent name type
  · intro u id data len append hu hused hfile
    exact hu.fsSetFileData hused hfile data len append
  · intro id hid hused _
    obtain ⟨parent, hp, -⟩ := hs.parent id hid hused
    exact h.removeNode hused hp

end OwnershipInv

/-! ### The editor -/

section Editor

variable {alloc : Allocator} {s t : Okfs} {need : ℕ}

def editNode (s : Okfs) : Node := ⟨true, none, .file, [], s.editBuf, s.editLen, s.editCap⟩

/-- Everything that making room in the edit buffer can do. -/
theorem growEditBuf_cases (alloc : Allocator) (hedit : Held s.heap s.editing)
    (hmax : need ≤ fsMaxFileSize) :
    (growEditBuf alloc s need = (s, true) ∧ need ≤ s.editCap) ∨
    growEditBuf alloc s need =
      ({ s with heap := { s.heap with calls := s.heap.calls + 1 } }, false) ∨
    ∃ heap, s.editCap < need ∧ growEditBuf alloc s need =
      ({ s with
        heap := heap, editBuf := some s.heap.calls, editCap := nextCap s.editCap need }, true) ∧
      Regrown s.heap heap (editNode s) (nextCap s.editCap need) true := by
  have hcap : need ≤ nextCap s.editCap need := newSize_le_nextCap hmax
  have hsize := hedit.size_le
  have hread := hedit.length_read
  unfold Okfs.editing at hsize hread
  dsimp only at hsize hread
  have hfresh : s.editBuf ≠ some s.heap.calls := by
    intro hd
    exact lt_irrefl _ (hedit.live _ hd).1
  unfold growEditBuf
  by_cases hfit : need ≤ s.editCap
  · rw [if_pos hfit]
    exact Or.inl ⟨rfl, hfit⟩
  rw [if_neg hfit]
  right
  cases ha : alloc s.heap.calls (nextCap s.editCap need) with
  | none =>
    left
    simp only [Buffers.kmalloc, ha]
  | some fill =>
    right
    simp only [Buffers.kmalloc, ha]
    refine ⟨_, not_le.mp hfit, rfl, ?_⟩
    have hroom : s.editLen ≤ nextCap s.editCap need := by omega
    have hfull : s.editLen ≤ (s.heap.read s.editBuf).length := by omega
    have hlen : ((List.range (nextCap s.editCap need)).map fill).length =
        nextCap s.editCap need := by
      simp
    have hregrown : Regrown s.heap _ (editNode s) (nextCap s.editCap need) true :=
      regrown_of_copy True (fun _ _ _ => trivial) hlen hfull hroom hfresh rfl
    rw [if_pos trivial] at hregrown
    exact hregrown

variable {old : Holding}

namespace OwnershipInv

theorem growEditBuf (h : OwnershipInv s old) (hmax : need ≤ fsMaxFileSize) {ok : Bool}
    (hg : growEditBuf alloc s need = (t, ok)) :
    OwnershipInv t old ∧ t.editLen = s.editLen ∧ (ok = true → need ≤ t.editCap) := by
  have hedit : Held s.heap s.editing := h.accounts.held .editor
  have hcap : need ≤ nextCap s.editCap need := newSize_le_nextCap hmax
  have hsize : s.editLen ≤ s.editCap := hedit.size_le
  rcases growEditBuf_cases alloc hedit hmax with ⟨he, hfit⟩ | he |
    ⟨heap, hlt, he, hheap⟩
  · obtain ⟨rfl, rfl⟩ := Prod.mk.inj (he.symm.trans hg)
    exact ⟨h, rfl, fun _ => hfit⟩
  · obtain ⟨rfl, rfl⟩ := Prod.mk.inj (he.symm.trans hg)
    refine ⟨⟨h.accounts.fail (Nat.le_succ _), h.dirs⟩, rfl, fun hf => ?_⟩
    cases hf
  · obtain ⟨rfl, rfl⟩ := Prod.mk.inj (he.symm.trans hg)
    have hroom : s.editLen ≤ nextCap s.editCap need := by omega
    have hpos : 0 < nextCap s.editCap need := by omega
    refine ⟨⟨Accounts.of_editing (s := s) ?_ rfl rfl, h.dirs⟩, rfl, fun _ => hcap⟩
    exact h.accounts.regrow .editor hheap rfl hroom hpos (min_le_right _ _)

theorem editBufAppend (h : OwnershipInv s old) (alloc : Allocator) (text : Bytes) :
    OwnershipInv (editBufAppend alloc s text).1 old := by
  unfold FileSystem.editBufAppend
  dsimp only
  by_cases hmax : fsMaxFileSize < s.editLen + text.length
  · rw [if_pos hmax]
    exact h
  rw [if_neg hmax]
  cases hg : FileSystem.growEditBuf alloc s (s.editLen + text.length) with
  | mk t ok =>
    obtain ⟨ht, hlen, hcap⟩ := h.growEditBuf (not_lt.mp hmax) hg
    cases ok with
    | false => exact ht
    | true =>
      have hfit := hcap rfl
      rw [← hlen] at hfit
      refine ⟨Accounts.of_editing (s := t) ?_ rfl rfl, ht.dirs⟩
      exact ht.accounts.store .editor text t.editLen (s.editLen + text.length) hfit (hcap rfl)

theorem editBufFree (h : OwnershipInv s old) : OwnershipInv (editBufFree s) old :=
  ⟨Accounts.of_editing (s := s) (h.accounts.release .editor) rfl rfl, h.dirs⟩

theorem closeSession (h : OwnershipInv s old) : OwnershipInv (closeSession s) old :=
  editBufFree (h.congr (t := { s with editActive := false, editPath := [] }) rfl rfl rfl)

theorem fsEditBegin (h : OwnershipInv s old) (path : Bytes) :
    OwnershipInv (fsEditBegin alloc s path).1 old := by
  have hopened : OwnershipInv (opened s path) old := h.editBufFree.congr rfl rfl rfl
  rcases fsEditBegin_cases alloc s path with ⟨err, he⟩ | he | ⟨text, t, hr, he⟩ |
    ⟨text, t, err, hr, he⟩
  · rw [he]
    exact h
  · rw [he]
    exact hopened
  · have htext := hopened.editBufAppend alloc text
    rw [hr] at htext
    rw [he]
    exact htext
  · have htext := hopened.editBufAppend alloc text
    rw [hr] at htext
    rw [he]
    exact htext.congr rfl rfl rfl

theorem replaceLoop (h : OwnershipInv s old) (alloc : Allocator) (idx : ℤ) (text : Bytes)
    (rounds : ℕ) (cur : ℤ) (lines : Bytes) :
    OwnershipInv (replaceLoop alloc idx text rounds s cur lines) old := by
  induction rounds generalizing s cur lines with
  | zero => exact h
  | succ rounds ih =>
    unfold FileSystem.replaceLoop
    by_cases hnil : lines = []
    · rw [if_pos hnil]
      exact h
    rw [if_neg hnil]
    dsimp only
    have hline := h.editBufAppend alloc
      (if cur = idx then text else lines.takeWhile (· ≠ newline))
    cases lines.dropWhile (· ≠ newline) with
    | nil => exact hline
    | cons c rest => exact ih (hline.editBufAppend alloc [newline]) (cur + 1) rest

theorem detachBuffer (h : OwnershipInv s .empty) :
    OwnershipInv { s with editBuf := none, editLen := 0, editCap := 0 } s.editing := by
  refine ⟨?_, h.dirs⟩
  have hmoved := h.accounts.move .editor .replaced (by decide) rfl
  have hsame : holdings { s with editBuf := none, editLen := 0, editCap := 0 } s.editing =
      update (update (holdings s .empty) .editor .empty) .replaced s.editing := by
    funext o
    cases o <;> rfl
  rw [hsame]
  exact hmoved

theorem freeReplaced (h : OwnershipInv s old) :
    OwnershipInv { s with heap := s.heap.without old.data } .empty := by
  refine ⟨?_, h.dirs⟩
  have hsame : holdings { s with heap := s.heap.without old.data } .empty =
      update (holdings s old) .replaced .empty := by
    funext o
    cases o <;> rfl
  rw [hsame]
  exact h.accounts.release .replaced

theorem replaceLine (h : OwnershipInv s .empty) (idx : ℤ) (text : Bytes) :
    OwnershipInv (replaceLine alloc s idx text) .empty := by
  have hloop := (h.detachBuffer.replaceLoop alloc idx text ((editText s).length + 1) 0
    (editText s)).freeReplaced
  unfold FileSystem.replaceLine
  dsimp only
  cases hb : s.editBuf with
  | none =>
    unfold Okfs.editing at hloop
    rw [hb] at hloop
    exact hloop
  | some buf =>
    unfold Okfs.editing at hloop
    rw [hb] at hloop
    exact hloop

theorem editCommand (h : OwnershipInv s .empty) (arg : Bytes) :
    OwnershipInv (editCommand alloc s arg).1 .empty := by
  apply editCommand_rule fun s => OwnershipInv s .empty
  · exact h
  · intro line ln
    exact h.congr rfl rfl rfl
  · intro idx text
    exact h.replaceLine idx text

theorem handleCommand (h : OwnershipInv s .empty) (line : Bytes) :
    OwnershipInv (handleCommand alloc s line).1 .empty := by
  by_cases hline : line ∈ closing
  · rcases mem_closing.mp hline with hsave | hquit
    · have hw := h.fsWriteFile alloc s.editPath
        (s.editBuf.map fun p => s.heap.read (some p)) s.editLen
      unfold FileSystem.handleCommand
      rw [if_pos hsave]
      cases hr : FileSystem.fsWriteFile alloc s s.editPath
          (s.editBuf.map fun p => s.heap.read (some p)) s.editLen with
      | mk t r =>
        rw [hr] at hw
        cases r with
        | error err => exact hw
        | ok _ => exact hw.closeSession
    · rw [handleCommand_of_quit hquit]
      exact h.closeSession
  · apply handleCommand_rule fun s => OwnershipInv s .empty
    · exact h
    · intro u text hu
      exact hu.editBufAppend alloc text
    · intro _
      exact h.editCommand _
    · exact hline

theorem fsEditHandleLine (h : OwnershipInv s .empty) (line : Bytes) :
    OwnershipInv (fsEditHandleLine alloc s line).1 .empty := by
  have htarget : OwnershipInv { s with editTargetLine := 0 } .empty := h.congr rfl rfl rfl
  unfold FileSystem.fsEditHandleLine
  split_ifs
  · exact h
  · exact htarget.handleCommand _
  · exact htarget.handleCommand _
  · exact h.handleCommand _

/-- Every call of the shell and of the editor, with `kmalloc` failing wherever it likes. -/
theorem step {call : Call} (h : OwnershipInv s .empty) (hs : TreeInv s)
    (he : step alloc s call = some t) : OwnershipInv t .empty := by
  cases call with
  | op op =>
    obtain rfl := Option.some.inj he
    exact h.run hs op
  | editBegin path =>
    obtain rfl := Option.some.inj he
    exact h.fsEditBegin path
  | editHandleLine line =>
    obtain rfl := Option.some.inj he
    exact h.fsEditHandleLine line
  | editGetPendingLine =>
    obtain rfl := Option.some.inj he
    unfold fsEditGetPendingLine
    split_ifs
    · exact h.congr rfl rfl rfl
    · exact h

end OwnershipInv

/-- At boot nothing is allocated. -/
theorem ownershipInv_clearNodes : OwnershipInv (clearNodes boot) .empty := by
  have hempty : ∀ o, holdings (clearNodes boot) .empty o = .empty := by
    intro o
    cases o with
    | node i =>
      change ((clearNodes boot).nodes i).holding = _
      unfold clearNodes
      dsimp only
      by_cases hi : i = 0
      · subst hi
        rw [update_self]
        rfl
      · rw [update_of_ne hi]
        rfl
    | editor => rfl
    | replaced => rfl
  refine ⟨⟨?_, ⟨?_, ?_⟩, rfl⟩, ?_⟩
  · intro o
    rw [hempty o]
    exact held_empty _
  · intro i j p hi
    rw [hempty i] at hi
    cases hi
  · intro p
    constructor
    · intro hp
      exact absurd rfl hp
    · rintro ⟨i, hi⟩
      rw [hempty i] at hi
      cases hi
  · intro i _ _
    unfold clearNodes
    dsimp only
    by_cases hi : i = 0
    · subst hi
      rw [update_self]
    · rw [update_of_ne hi]

theorem ownershipInv_fsInit (alloc : Allocator) : OwnershipInv (fsInit alloc boot) .empty := by
  unfold fsInit
  exact ((ownershipInv_clearNodes.fsMkdir _).fsWriteFile alloc _ _ _).fsWriteFile alloc _ _ _

end Editor

/-! ### Runs -/

/-- Who owns what between two calls. -/
structure Owned (s : Okfs) : Prop where
  sizes : ∀ i, (s.nodes i).used = true → (s.nodes i).type = .file →
    (s.nodes i).size ≤ (s.nodes i).cap ∧ (s.nodes i).cap ≤ fsMaxFileSize ∧
      ((s.nodes i).data = none ↔ (s.nodes i).cap = 0)
  directories : ∀ i, (s.nodes i).used = true → (s.nodes i).type = .dir → (s.nodes i).data = none
  room : ∀ i p, (s.nodes i).used = true → (s.nodes i).data = some p →
    ∃ buf, s.heap.live p = some buf ∧ (s.nodes i).cap ≤ buf.length
  editRoom : ∀ p, s.editBuf = some p → ∃ buf, s.heap.live p = some buf ∧ s.editCap ≤ buf.length
  distinct : ∀ i j p, (s.nodes i).used = true → (s.nodes j).used = true →
    (s.nodes i).data = some p → (s.nodes j).data = some p → i = j
  editDistinct : ∀ i p, (s.nodes i).used = true → (s.nodes i).data = some p → s.editBuf ≠ some p
  live_iff : ∀ p, s.heap.live p ≠ none ↔
    (∃ i, (s.nodes i).used = true ∧ (s.nodes i).data = some p) ∨ s.editBuf = some p
  /-- No buffer has been freed that was not live. -/
  clean : s.heap.clean = true

namespace OwnershipInv

variable {s : Okfs} {i j : Slot} {p : ℕ} {old : Holding}

theorem held_node (h : OwnershipInv s old) (hu : (s.nodes i).used = true) :
    Held s.heap ⟨(s.nodes i).data, (s.nodes i).size, (s.nodes i).cap⟩ := by
  rw [← holding_of_used hu]
  exact h.accounts.held (.node i)

theorem data_holdings (hu : (s.nodes i).used = true) (hp : (s.nodes i).data = some p) :
    (holdings s old (.node i)).data = some p := by
  change (s.nodes i).holding.data = some p
  rw [holding_of_used hu]
  exact hp

theorem distinct (h : OwnershipInv s old) (hi : (s.nodes i).used = true)
    (hj : (s.nodes j).used = true) (hpi : (s.nodes i).data = some p)
    (hpj : (s.nodes j).data = some p) : i = j :=
  Owner.node.inj (h.accounts.owns.injective _ _ p (data_holdings hi hpi) (data_holdings hj hpj))

theorem edit_distinct (h : OwnershipInv s old) (hi : (s.nodes i).used = true)
    (hpi : (s.nodes i).data = some p) : s.editBuf ≠ some p := by
  intro hedit
  have howner := h.accounts.owns.injective (.node i) .editor p (data_holdings hi hpi) hedit
  cases howner

theorem editLen_le_editCap (h : OwnershipInv s old) : s.editLen ≤ s.editCap :=
  (h.accounts.held .editor).size_le

theorem editCap_le (h : OwnershipInv s old) : s.editCap ≤ fsMaxFileSize :=
  (h.accounts.held .editor).cap_le

theorem length_read_editBuf (h : OwnershipInv s old) :
    (s.heap.read s.editBuf).length = s.editCap :=
  (h.accounts.held .editor).length_read

theorem length_editText (h : OwnershipInv s old) : (editText s).length = s.editLen := by
  have hsize := h.editLen_le_editCap
  rw [editText, List.length_take, h.length_read_editBuf]
  omega

theorem editLen_ne_zero (h : OwnershipInv s old) (htext : editText s ≠ []) : s.editLen ≠ 0 := by
  intro hzero
  refine htext (List.length_eq_zero_iff.mp ?_)
  rw [h.length_editText, hzero]

theorem edit_some (h : OwnershipInv s old) (hlen : s.editLen ≠ 0) :
    ∃ p, s.editBuf = some p ∧ s.editLen ≤ (s.heap.read (some p)).length := by
  have hsize := h.editLen_le_editCap
  have hread := h.length_read_editBuf
  cases hb : s.editBuf with
  | none =>
    have hcap : s.editCap = 0 := (h.accounts.held .editor).null.mp hb
    omega
  | some p =>
    rw [hb] at hread
    exact ⟨p, rfl, by omega⟩

theorem storageInv (h : OwnershipInv s old) : StorageInv s := by
  refine ⟨?_, ?_⟩
  · intro i hu
    have hi := h.held_node hu
    exact ⟨hi.size_le, hi.cap_le, hi.null.mp, hi.live⟩
  · intro i j p hi hj hpi hpj
    exact h.distinct hi hj hpi hpj

theorem owned (h : OwnershipInv s .empty) : Owned s := by
  refine ⟨?_, h.dirs, ?_, ?_, ?_, ?_, ?_, h.accounts.clean⟩
  · intro i hu _
    have hi := h.held_node hu
    exact ⟨hi.size_le, hi.cap_le, hi.null⟩
  · intro i p hu hp
    obtain ⟨-, buf, hbuf, hlen⟩ := (h.held_node hu).live p hp
    exact ⟨buf, hbuf, hlen.ge⟩
  · intro p hp
    obtain ⟨-, buf, hbuf, hlen⟩ := (h.accounts.held .editor).live p hp
    exact ⟨buf, hbuf, hlen.ge⟩
  · intro i j p hi hj hpi hpj
    exact h.distinct hi hj hpi hpj
  · intro i p hi hpi
    exact h.edit_distinct hi hpi
  · intro p
    rw [h.accounts.owns.live_iff p]
    constructor
    · rintro ⟨o, ho⟩
      cases o with
      | node i =>
        left
        change (s.nodes i).holding.data = some p at ho
        by_cases hu : (s.nodes i).used = true
        · rw [holding_of_used hu] at ho
          exact ⟨i, hu, ho⟩
        · unfold Node.holding at ho
          rw [if_neg hu] at ho
          cases ho
      | editor => exact Or.inr ho
      | replaced => cases ho
    · rintro (⟨i, hu, hp⟩ | hp)
      · exact ⟨.node i, data_holdings hu hp⟩
      · exact ⟨.editor, hp⟩

end OwnershipInv

theorem invariants_of_run {alloc : Allocator} {calls : List Call} {s : Okfs}
    (hrun : Run (step alloc) anyCall (fsInit alloc boot) calls s) :
    TreeInv s ∧ OwnershipInv s .empty := by
  refine hrun.invariant (fun s => TreeInv s ∧ OwnershipInv s .empty) ?_
    ⟨treeInv_fsInit alloc boot, ownershipInv_fsInit alloc⟩
  rintro s call t ⟨hs, h⟩ _ hst
  exact ⟨hs.treeStep (hs.step hst), h.step hs hst⟩

/-- In every state reached by calls of the shell and of the editor, wherever `kmalloc` fails, the
buffers not freed are exactly those of the used nodes and of the editor, and all that was freed
was live; the old buffer that `:e` frees at its end is live until then. -/
theorem buffers_owned {alloc : Allocator} {calls : List Call} {s : Okfs}
    (hrun : Run (step alloc) anyCall (fsInit alloc boot) calls s) :
    Owned s ∧ ∀ idx text rounds cur lines p, s.editBuf = some p →
      (replaceLoop alloc idx text rounds { s with editBuf := none, editLen := 0, editCap := 0 } cur
        lines).heap.live p ≠ none := by
  obtain ⟨-, h⟩ := invariants_of_run hrun
  refine ⟨h.owned, ?_⟩
  intro idx text rounds cur lines p hp
  have hloop := h.detachBuffer.replaceLoop alloc idx text rounds cur lines
  exact hloop.accounts.owns.live_of_held (i := Owner.replaced) hp

/-- A `kmalloc` whose fourth call fails. -/
def fourthFails : Allocator := fun n _ => if n = 3 then none else some fun _ => 0

theorem fsInit_fourthFails : fsInit fourthFails boot = started := by
  have hlate : fourthFails = lateAlloc fun n _ => if n = 1 then none else some fun _ => 0 := by
    funext n size
    match n with
    | 0 => rfl
    | 1 => rfl
    | n + 2 => simp [fourthFails, lateAlloc]
  rw [hlate]
  exact fsInit_lateAlloc _

/-- A file is opened, a line of it replaced and the result saved, with a failing allocation. -/
theorem buffers_owned_edit : ∃ s, Run (step fourthFails) anyCall (fsInit fourthFails boot)
      [.editBegin (ascii "/readme.txt"), .editHandleLine (ascii ":e 2 text"),
        .editHandleLine (ascii ":save")] s ∧ Owned s := by
  obtain ⟨s, hs⟩ : ∃ s, [.editBegin (ascii "/readme.txt"), .editHandleLine (ascii ":e 2 text"),
      .editHandleLine (ascii ":save")].foldlM (step fourthFails) (fsInit fourthFails boot) =
      some s := by
    rw [fsInit_fourthFails]
    exact ⟨_, rfl⟩
  have hrun : Run (step fourthFails) anyCall (fsInit fourthFails boot)
      [.editBegin (ascii "/readme.txt"), .editHandleLine (ascii ":e 2 text"),
        .editHandleLine (ascii ":save")] s := Run.of_foldlM hs
  exact ⟨s, hrun, (buffers_owned hrun).1⟩

end OpenKernel.FileSystem
