import OpenKernel.FileSystem.HeapSimulation
import OpenKernel.FileSystem.Ownership

/-!
# Files survive in the heap

Runs of file operations over the heap, with other kernel code that uses its own allocations
in between. The operations follow the map from paths to files, and the bytes of each file
stand in memory.
-/

namespace OpenKernel.FileSystem

open Function BufferMap PathMap
open Memory (stored)

/-- What happens: an operation of the file system, or a use of the heap by other code. -/
inductive Event
  | op (op : Op)
  | other (call : Memory.Call)

/-- The state after `fs_init` has cleared the nodes, with the heap that `heap_init` leaves. -/
def MemFs.cleared (mem : ByteMemory) : MemFs := ⟨clearNodes boot, Memory.heapInit mem⟩

def MemFs.step (c : MemFs) : Event → Option MemFs
  | .op op => (c.run op).map Prod.fst
  | .other call => (Memory.step c.heap call).map fun heap => { c with heap := heap }

/-- Other code keeps to its own allocations, and to memory outside the heap. -/
def Undisturbed (c : MemFs) : Event → Prop
  | .op _ => True
  | .other call =>
    Memory.HeapOk c.heap call ∧ Foreign (stored c.heap) c.statics.data call.access

/-- The operations among the events with what they return. -/
def replies (c : MemFs) : List Event → List (Op × Except FsError Unit)
  | [] => []
  | .op op :: events =>
    match c.run op with
    | none => []
    | some (d, r) => (op, r) :: replies d events
  | .other call :: events =>
    match c.step (.other call) with
    | none => []
    | some d => replies d events

/-- The same operations on named buffers, with the same results: `kmalloc` may answer each
operation as it likes. -/
inductive Follows : Okfs → List (Op × Except FsError Unit) → Okfs → Prop
  | nil (s : Okfs) : Follows s [] s
  | cons {s t u : Okfs} {op : Op} {r : Except FsError Unit}
      {rest : List (Op × Except FsError Unit)} (answer : Option (ℕ → UInt8)) :
      op.run (fun _ _ => answer) s = (t, r) → (answer = none → r = .error .noSpace) →
      Follows t rest u → Follows s ((op, r) :: rest) u

section Runs

variable {c d : MemFs} {s t : Okfs} {events : List Event}

theorem mirrors_cleared (mem : ByteMemory) : Mirrors (MemFs.cleared mem) (clearNodes boot) := by
  have hdata : ∀ i, (clearNodes boot).data i = none := by
    intro i
    unfold Okfs.data clearNodes
    by_cases hi : i = 0 <;> simp [hi]
  refine ⟨Memory.sound_heapInit mem, rfl, ⟨?_, ?_⟩, ⟨?_, ?_⟩, ?_, fun i _ => hdata i⟩
  · intro i p hp
    cases (hdata i).symm.trans hp
  · intro i j p hp
    cases (hdata i).symm.trans hp
  · intro i p hp
    cases (hdata i).symm.trans hp
  · intro i j p hp
    cases (hdata i).symm.trans hp
  · funext i
    have hnone : (MemFs.cleared mem).statics.data i = none := hdata i
    rw [BufferMap.held, BufferMap.held, hnone, hdata]
    rfl

/-- Both sides together, in order. -/
structure InStep (c : MemFs) (s : Okfs) : Prop where
  mirrors : Mirrors c s
  tree : TreeInv s
  owned : OwnershipInv s .empty

theorem InStep.run (h : InStep c s) (op : Op) : ∃ answer t d r,
    op.run (fun _ _ => answer) s = (t, r) ∧ c.run op = some (d, r) ∧ InStep d t ∧
      Spares (stored c.heap) (stored d.heap) c.statics.data d.statics.data ∧
      (answer = none → r = .error .noSpace) := by
  obtain ⟨answer, t, d, r, ht, hd, hm, hnone⟩ := h.mirrors.run h.owned.storageInv h.tree op
  change op.run (fun _ _ => answer) s = (t, r) at ht
  have htree : TreeInv (op.run (fun _ _ => answer) s).1 := h.tree.treeStep (h.tree.run op)
  have howned : OwnershipInv (op.run (fun _ _ => answer) s).1 .empty := h.owned.run h.tree op
  rw [ht] at htree howned
  exact ⟨answer, t, d, r, ht, hd, ⟨hm.mirrors, htree, howned⟩, hm.spares, hnone⟩

theorem InStep.follows (h : InStep c s) (hrun : Run MemFs.step Undisturbed c events d) :
    ∃ t, Follows s (replies c events) t ∧ InStep d t := by
  induction hrun generalizing s with
  | nil c => exact ⟨s, .nil s, h⟩
  | cons hok hstep _ ih =>
    rename_i event _ _
    cases event with
    | op op =>
      obtain ⟨answer, t, e, r, ht, he, hnext, -, hnone⟩ := h.run op
      rw [MemFs.step, he] at hstep
      obtain rfl := Option.some.inj hstep
      obtain ⟨u, hfollows, hu⟩ := ih hnext
      refine ⟨u, ?_, hu⟩
      simp only [replies, he]
      exact .cons answer ht hnone hfollows
    | other call =>
      obtain ⟨heap, he, hm⟩ := h.mirrors.foreign hok.1 hok.2
      obtain ⟨u, hfollows, hu⟩ := ih (s := s) (by
        rw [MemFs.step, he] at hstep
        obtain rfl := Option.some.inj hstep
        exact ⟨hm, h.tree, h.owned⟩)
      refine ⟨u, ?_, hu⟩
      simp only [replies, hstep]
      exact hfollows

/-- From the cleared table on, whatever other code does with its own memory in between: the
operations over the heap return what they return on named buffers, every node and the current
directory are the same but for the pointers, the bytes of each file stand in memory, no two
nodes share a buffer, and every further operation returns and leaves the allocations of other code
alone, with what they hold. -/
theorem files_survive_in_heap {mem : ByteMemory}
    (hrun : Run MemFs.step Undisturbed (MemFs.cleared mem) events d) :
    ∃ t, Follows (clearNodes boot) (replies (MemFs.cleared mem) events) t ∧
      d.statics = t.relabel d.statics.data d.statics.heap ∧
      (∀ i, (t.nodes i).used = true → d.bytesOf i = fileBytes t i) ∧
      (∀ i j p, d.statics.data i = some p → d.statics.data j = some p → i = j) ∧
      ∀ op, ∃ e r, d.run op = some (e, r) ∧ ∀ p, stored d.heap p ≠ none →
        (∀ i, d.statics.data i ≠ some p) →
          (∀ i, e.statics.data i ≠ some p) ∧ stored e.heap p = stored d.heap p := by
  have hinit : InStep (MemFs.cleared mem) (clearNodes boot) :=
    ⟨mirrors_cleared mem, treeInv_clearNodes boot, ownershipInv_clearNodes⟩
  obtain ⟨t, hfollows, ht⟩ := hinit.follows hrun
  refine ⟨t, hfollows, ht.mirrors.statics, fun i hu => ?_, ht.mirrors.holders.distinct,
    fun op => ?_⟩
  · exact ht.mirrors.bytesOf_eq ht.owned.storageInv hu
  · obtain ⟨-, -, e, r, -, he, -, hspares, -⟩ := ht.run op
    exact ⟨e, r, he, hspares⟩

/-- Operations and requests for memory by other code can come in any order. -/
theorem InStep.exists_run (h : InStep c s) (hevents : ∀ e ∈ events, (∃ op, e = .op op) ∨
    ∃ n, 0 < n ∧ n ≤ Memory.heapSize ∧ e = .other (.kmalloc n)) :
    ∃ d, Run MemFs.step Undisturbed c events d := by
  induction events generalizing c s with
  | nil => exact ⟨c, .nil c⟩
  | cons e events ih =>
    have hrest := fun c s (hn : InStep c s) =>
      ih hn fun e he => hevents e (List.mem_cons_of_mem _ he)
    rcases hevents e (List.mem_cons_self ..) with ⟨op, rfl⟩ | ⟨n, hpos, hn, rfl⟩
    · obtain ⟨answer, t, d, r, -, hd, hnext, -, -⟩ := h.run op
      obtain ⟨u, hu⟩ := hrest d t hnext
      exact ⟨u, .cons trivial (by rw [MemFs.step, hd, Option.map_some]) hu⟩
    · have hok : Undisturbed c (.other (.kmalloc n)) := ⟨⟨hpos, hn⟩, trivial⟩
      obtain ⟨heap, he, hm⟩ := h.mirrors.foreign hok.1 hok.2
      obtain ⟨u, hu⟩ := hrest { c with heap := heap } s ⟨hm, h.tree, h.owned⟩
      exact ⟨u, .cons hok (by rw [MemFs.step, he, Option.map_some]) hu⟩

/-- The calls of `fs_init`, a request by other code, and an addition to the first file. -/
theorem files_survive_in_heap_append : ∃ (d : MemFs) (t : Okfs),
    Follows (clearNodes boot) (replies (MemFs.cleared ⟨fun _ => 0, []⟩)
      [.op (.mkdir (ascii "/docs")), .op (.writeFile (ascii "/readme.txt") (some readmeText) 0),
        .other (.kmalloc 100),
        .op (.appendFile (ascii "/readme.txt") (some (ascii "More.")) 0)]) t ∧
      ∀ i, (t.nodes i).used = true → d.bytesOf i = fileBytes t i := by
  have hinit : InStep (MemFs.cleared ⟨fun _ => 0, []⟩) (clearNodes boot) :=
    ⟨mirrors_cleared _, treeInv_clearNodes boot, ownershipInv_clearNodes⟩
  have hevents : ∀ e ∈ [.op (.mkdir (ascii "/docs")),
      .op (.writeFile (ascii "/readme.txt") (some readmeText) 0), .other (.kmalloc 100),
      .op (.appendFile (ascii "/readme.txt") (some (ascii "More.")) 0)],
      (∃ op, e = Event.op op) ∨
        ∃ n, 0 < n ∧ n ≤ Memory.heapSize ∧ e = .other (.kmalloc n) := by
    intro e he
    simp only [List.mem_cons, List.not_mem_nil, or_false] at he
    rcases he with rfl | rfl | rfl | rfl
    · exact Or.inl ⟨_, rfl⟩
    · exact Or.inl ⟨_, rfl⟩
    · exact Or.inr ⟨100, by decide, by decide, rfl⟩
    · exact Or.inl ⟨_, rfl⟩
  obtain ⟨d, hrun⟩ := hinit.exists_run hevents
  obtain ⟨t, hfollows, -, hbytes, -, -⟩ := files_survive_in_heap hrun
  exact ⟨d, t, hfollows, hbytes⟩

end Runs

/-! ### The map in memory -/

/-- The map from paths to files and directories, with the bytes that stand in memory. -/
def MemFs.view (c : MemFs) : PathMap Bytes UInt8 := fun p =>
  (locate c.statics p).map fun i =>
    match (c.statics.nodes i).type with
    | .dir => .dir
    | .file => .file (c.bytesOf i)

/-- Each call makes a request, succeeds exactly if the map allows it, and leads to the map
after it. -/
inductive Serves : PathMap Bytes UInt8 → List (Op × Except FsError Unit) →
    PathMap Bytes UInt8 → Prop
  | nil (m : PathMap Bytes UInt8) : Serves m [] m
  | cons {m m' : PathMap Bytes UInt8} {op : Op} {req : Request Bytes UInt8}
      {r : Except FsError Unit} {rest : List (Op × Except FsError Unit)} (hasks : Asks op req)
      (hresult : r = .ok () ↔ Allowed okfsRules m req) :
      Serves (after okfsRules m req) rest m' → Serves m ((op, r) :: rest) m'

section Map

variable {s t : Okfs} {path data : Bytes} {len : ℕ} {alloc : Allocator} {op : Op}
  {req : Request Bytes UInt8}

theorem FsInv.within_view (h : FsInv s) : Within (view s) := by
  intro p bytes hp
  cases hi : locate s p with
  | none =>
    rw [view_eq_none_iff.mpr hi] at hp
    cases hp
  | some i =>
    have hused := h.tree.used_of_walk (h.tree.locate_iff.mp hi)
    have hback := h.storage.backed i hused
    rw [view_of_locate hi, Option.some.injEq, entryAt_file_iff] at hp
    rw [← hp.2, h.storage.length_fileBytes hused]
    exact hback.size_le.trans hback.cap_le

theorem fsSetFileData_of_too_large {i : Slot} {append : Bool}
    (hmax : fsMaxFileSize < sizeAfter s i len append) :
    (fsSetFileData alloc s i data len append).2 = .error .noSpace := by
  unfold sizeAfter at hmax
  unfold fsSetFileData
  by_cases hlen : fsMaxFileSize < len
  · rw [if_pos hlen]
  · rw [if_neg hlen]
    dsimp only
    rw [if_pos hmax]

theorem FsInv.within_write (h : FsInv s) (hp : CleanPath path) (hlen : len ≤ data.length)
    (hroom : (fsWriteFile alloc s path (some data) len).2 ≠ .error .noSpace) :
    Within (after okfsRules (view s) (.write (components path) (payload data len))) := by
  by_cases hallowed : Allowed okfsRules (view s) (.write (components path) (payload data len))
  swap
  · rw [after_of_not_allowed hallowed]
    exact h.within_view
  rw [after_of_allowed hallowed]
  refine within_update h.within_view fun bytes he => ?_
  obtain rfl := Entry.file.inj (Option.some.inj he)
  rw [← readBytes_eq_payload hlen, length_readBytes]
  by_contra hmax
  apply hroom
  unfold fsWriteFile
  dsimp only
  generalize (if len = 0 then fsStrlen data else len) = n at hmax
  cases h.target hp with
  | unresolved err hr hnot => exact absurd hallowed hnot
  | directory u i c hr hf hdir hnot => exact absurd hallowed hnot
  | existing u i c hr hf hfile hi =>
    simp only [hr, hf, if_neg (not_not.mpr hfile)]
    exact fsSetFileData_of_too_large (not_le.mp hmax)
  | refused u c err hr hf he hnot => exact absurd hallowed hnot
  | created u i c t hr hf he ht hcan hi hfile hview =>
    simp only [hr, hf, he]
    exact fsSetFileData_of_too_large (not_le.mp hmax)

theorem FsInv.within_append (h : FsInv s) (hp : CleanPath path) (hlen : len ≤ data.length)
    (hroom : (fsAppendFile alloc s path (some data) len).2 ≠ .error .noSpace) :
    Within (after okfsRules (view s) (.append (components path) (payload data len))) := by
  by_cases hallowed : Allowed okfsRules (view s) (.append (components path) (payload data len))
  swap
  · rw [after_of_not_allowed hallowed]
    exact h.within_view
  rw [after_of_allowed hallowed]
  change IsFile (view s) (components path) at hallowed
  cases hi : locate s (components path) with
  | none =>
    obtain ⟨bytes, hb⟩ := hallowed
    rw [view_eq_none_iff.mpr hi] at hb
    cases hb
  | some i =>
    have hfile := (isFile_view_iff hi).mp hallowed
    have hused := h.tree.used_of_walk (h.tree.locate_iff.mp hi)
    have hi0 : i ≠ 0 := by
      rintro rfl
      rw [show (s.nodes 0).type = .dir from h.tree.root_dir] at hfile
      cases hfile
    have htext : fsEndsWithTxt (s.nodes i).name = true := h.tree.text i hi0 hused hfile
    refine within_update h.within_view fun bytes he => ?_
    obtain rfl := Entry.file.inj (Option.some.inj he)
    rw [bytesAt_view hi hfile, ← readBytes_eq_payload hlen, List.length_append, length_readBytes,
      h.storage.length_fileBytes hused]
    by_contra hmax
    apply hroom
    unfold fsAppendFile
    rw [fsResolve_clean hp hi, if_neg (by simp)]
    dsimp only
    rw [if_neg (not_not.mpr hfile), if_neg (by simp [htext])]
    exact fsSetFileData_of_too_large (not_le.mp hmax)

/-- An operation that finds room follows the map. -/
theorem FsInv.simulates_of_room (h : FsInv s) (alloc : Allocator)
    (halloc : ∀ k size, alloc k size ≠ none) (hasks : Asks op req)
    (hroom : (op.run alloc s).2 ≠ .error .noSpace) :
    Simulates s (op.run alloc s) req := by
  apply simulates_run h halloc hasks
  cases hasks with
  | cd hp => exact within_after h.within_view h.within_view
  | mkdir hp => exact within_after h.within_view (within_update h.within_view (by simp))
  | touch hp =>
    refine within_after h.within_view (within_update h.within_view fun bytes he => ?_)
    obtain rfl := Entry.file.inj (Option.some.inj he)
    unfold bytesAt
    split
    · exact h.within_view _ _ ‹_›
    · exact Nat.zero_le _
  | rm hp => exact within_after h.within_view (within_update h.within_view (by simp))
  | writeFile hp hlen => exact h.within_write hp hlen hroom
  | appendFile hp hlen => exact h.within_append hp hlen hroom

theorem FsInv.serves {calls : List (Op × Except FsError Unit)} (h : FsInv s)
    (hfollows : Follows s calls t) (hasks : ∀ call ∈ calls, ∃ req, Asks call.1 req)
    (hroom : ∀ call ∈ calls, call.2 ≠ .error .noSpace) :
    Serves (view s) calls (view t) ∧ FsInv t := by
  induction hfollows with
  | nil s => exact ⟨.nil _, h⟩
  | cons answer hrun hnone _ ih =>
    rename_i s t u op r rest _
    obtain ⟨req, hreq⟩ := hasks _ (List.mem_cons_self ..)
    have hr := hroom _ (List.mem_cons_self ..)
    have halloc : ∀ (k size : ℕ), answer ≠ none := fun _ _ hn => hr (hnone hn)
    have hs := h.simulates_of_room (fun _ _ => answer) halloc hreq (by rwa [hrun])
    rw [hrun] at hs
    obtain ⟨hserves, hinv⟩ := ih hs.inv (fun call hc => hasks call (List.mem_cons_of_mem _ hc))
      fun call hc => hroom call (List.mem_cons_of_mem _ hc)
    refine ⟨.cons hreq hs.result ?_, hinv⟩
    rwa [← hs.map]

theorem Serves.wellFormed {m m' : PathMap Bytes UInt8} {calls : List (Op × Except FsError Unit)}
    (h : Serves m calls m') (hm : WellFormed okfsRules m) : WellFormed okfsRules m' := by
  induction h with
  | nil m => exact hm
  | cons _ _ _ ih => exact ih (hm.after _)

theorem view_eq_of_relabel {d : MemFs} (hinv : FsInv t)
    (hstatics : d.statics = t.relabel d.statics.data d.statics.heap)
    (hbytes : ∀ i, (t.nodes i).used = true → d.bytesOf i = fileBytes t i) : d.view = view t := by
  have hlocate : ∀ p, locate d.statics p = locate t p := by
    intro p
    rw [hstatics]
    exact locate_congr rfl p
  funext p
  unfold MemFs.view view
  rw [hlocate]
  cases hi : locate t p with
  | none => rfl
  | some i =>
    have hused := hinv.tree.used_of_walk (hinv.tree.locate_iff.mp hi)
    have htype : (d.statics.nodes i).type = (t.nodes i).type := by rw [hstatics]; rfl
    rw [Option.map_some, Option.map_some, htype, hbytes i hused]
    rfl

end Map

/-- From the cleared table on, and whatever other code does with its own memory in between: if
every path is clean and no call runs out of space, each call succeeds exactly when its request is
allowed on the map, and memory holds the map that the requests lead to. -/
theorem memory_refines_pathMap {mem : ByteMemory} {events : List Event} {d : MemFs}
    (hrun : Run MemFs.step Undisturbed (MemFs.cleared mem) events d)
    (hasks : ∀ call ∈ replies (MemFs.cleared mem) events, ∃ req, Asks call.1 req)
    (hroom : ∀ call ∈ replies (MemFs.cleared mem) events, call.2 ≠ .error .noSpace) :
    Serves rootOnly (replies (MemFs.cleared mem) events) d.view ∧
      WellFormed okfsRules d.view := by
  have hinit : InStep (MemFs.cleared mem) (clearNodes boot) :=
    ⟨mirrors_cleared mem, treeInv_clearNodes boot, ownershipInv_clearNodes⟩
  obtain ⟨t, hfollows, ht⟩ := hinit.follows hrun
  have hclear : FsInv (clearNodes boot) :=
    ⟨treeInv_clearNodes boot, storageInv_clearNodes boot⟩
  obtain ⟨hserves, hinv⟩ := hclear.serves hfollows hasks hroom
  have hview : d.view = view t := view_eq_of_relabel hinv ht.mirrors.statics fun i hu =>
    ht.mirrors.bytesOf_eq ht.owned.storageInv hu
  rw [view_clearNodes] at hserves
  rw [hview]
  exact ⟨hserves, hserves.wellFormed (wellFormed_rootOnly okfsRules)⟩

/-- The first file written after boot. -/
theorem memory_refines_pathMap_write : ∃ d : MemFs,
    Serves rootOnly [(.writeFile (ascii "/a.txt") (some (ascii "hi")) 0, .ok ())] d.view ∧
      WellFormed okfsRules d.view := by
  have hresolve : fsResolveParent (clearNodes boot) (ascii "/a.txt") =
      .ok (0, ascii "a.txt") := by decide
  have hfind : fsFindChild (clearNodes boot) 0 (ascii "a.txt") = none := by decide
  have hcreate : fsCreateEntry (clearNodes boot) 0 (ascii "a.txt") .file =
      (withEntry (clearNodes boot) 1 0 (ascii "a.txt") .file, .ok 1) :=
    fsCreateEntry_of_ok (by decide) (by decide) hfind (by decide)
  obtain ⟨heap, hcall⟩ : ∃ heap,
      (Memory.heapInit ⟨fun _ => 0, []⟩).kmalloc 256 = some (some 0xE000000C, heap) := by
    have hfit : Memory.bestFit (Memory.alignSize 256)
        [⟨Memory.heapStart, Memory.heapSize - Memory.headerSize, true⟩] =
        some ⟨Memory.heapStart, Memory.heapSize - Memory.headerSize, true⟩ := by decide
    have hkmalloc := Memory.kmalloc_eq (Memory.heapInv_heapInit ⟨fun _ => 0, []⟩).laid.clearLog
      (show 256 ≠ 0 by decide)
    rw [hfit] at hkmalloc
    have hstart : (Memory.heapInit ⟨fun _ => 0, []⟩).start = Memory.heapStart := rfl
    have hanswer : Memory.answer (Memory.heapInit ⟨fun _ => 0, []⟩) (.kmalloc 256) =
        some 0xE000000C := by
      rw [Memory.answer, Memory.result, hstart, hkmalloc]
      rfl
    obtain ⟨heap, hstep, -⟩ := (Memory.sound_heapInit ⟨fun _ => 0, []⟩).step
      (c := .kmalloc 256) ⟨by decide, by decide⟩
    exact ⟨heap, by rw [Memory.Heap.kmalloc, hstep, Option.map_some, hanswer]⟩
  have hdone : ∃ d, (MemFs.cleared ⟨fun _ => 0, []⟩).run
      (.writeFile (ascii "/a.txt") (some (ascii "hi")) 0) = some (d, .ok ()) := by
    have hlen : fsStrlen (ascii "hi") = 2 := by decide
    have hmax : ¬ fsMaxFileSize < 2 := by decide
    have hcap : nextCap 0 2 = 256 := by decide
    have hnew : (withEntry (clearNodes boot) 1 0 (ascii "a.txt") .file).nodes 1 =
        ⟨true, some 0, .file, fsStrcpy (ascii "a.txt") fsMaxName, none, 0, 0⟩ :=
      Mirrors.nodes_withEntry_self
    simp only [MemFs.run, MemFs.fsWriteFile, MemFs.cleared, hresolve, hfind, hcreate, hlen, hnew,
      MemFs.fsSetFileData, MemFs.growFile, hmax, if_false, if_true, hcap, hcall,
      Bool.false_eq_true]
    exact ⟨_, rfl⟩
  obtain ⟨d, hd⟩ := hdone
  have hrun : Run MemFs.step Undisturbed (MemFs.cleared ⟨fun _ => 0, []⟩)
      [.op (.writeFile (ascii "/a.txt") (some (ascii "hi")) 0)] d :=
    .cons trivial (by rw [MemFs.step, hd, Option.map_some]) (.nil d)
  have hreplies : replies (MemFs.cleared ⟨fun _ => 0, []⟩)
      [.op (.writeFile (ascii "/a.txt") (some (ascii "hi")) 0)] =
      [(.writeFile (ascii "/a.txt") (some (ascii "hi")) 0, .ok ())] := by
    simp only [replies, hd]
  have hmap := memory_refines_pathMap hrun (by
    rw [hreplies]
    intro call hc
    obtain rfl := List.mem_singleton.mp hc
    exact ⟨_, .writeFile (by decide) (by decide)⟩) (by
    rw [hreplies]
    intro call hc
    obtain rfl := List.mem_singleton.mp hc
    simp)
  rw [hreplies] at hmap
  exact ⟨d, hmap⟩

end OpenKernel.FileSystem
