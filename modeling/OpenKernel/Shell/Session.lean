import OpenKernel.FileSystem.EditSession
import OpenKernel.FileSystem.HeapFiles
import OpenKernel.Shell.Keys

/-!
# Typed sessions

From keys to files. Whatever is typed, the file system sees a run of its own calls. Where no
command opens an edit session, the lines that are submitted are those of a text with a cursor,
and the files are what the requests in these lines make of the map from paths to files.
-/

namespace OpenKernel.Shell

open FileSystem PathMap
open Input (KeyEvent cmdCapacity)

/-! ### Calls -/

section Calls

variable {alloc : Allocator} {s : ShellState} {fs : Okfs}

/-- The operation behind a command, if it is one that changes files or the directory. -/
def FileCommand.op : FileCommand → Option Op
  | .cd path => some (.cd path)
  | .mkdir path => some (.mkdir path)
  | .touch path => some (.touch path)
  | .rm path => some (.rm path)
  | .write path text => some (.writeFile path (some text) 0)
  | .append path text => some (.appendFile path (some text) 0)
  | _ => none

/-- The calls of the file system that a command makes. -/
def FileCommand.calls : FileCommand → List Call
  | .edit path => [.editBegin path]
  | c => (c.op.map Call.op).toList

theorem fst_listed (r : Except FsError Unit × List Bytes) : (listed fs r).1 = fs := by
  obtain ⟨err | ⟨⟩, out⟩ := r <;> rfl

theorem FileCommand.run_calls (c : FileCommand) :
    Run (FileSystem.step alloc) anyCall fs c.calls (c.run alloc fs).1 := by
  have hone : ∀ call t, FileSystem.step alloc fs call = some t →
      Run (FileSystem.step alloc) anyCall fs [call] t :=
    fun call t h => .cons trivial h (.nil t)
  have hreport : ∀ (op : Op) done, Run (FileSystem.step alloc) anyCall fs [.op op]
      (report (op.run alloc fs) done).1 := fun op done => hone _ _ (by rw [fst_report]; rfl)
  cases c with
  | help => exact .nil fs
  | pwd => exact .nil fs
  | ls path =>
    have hkept : ((FileCommand.ls path).run alloc fs).1 = fs := fst_listed _
    rw [hkept]
    exact .nil fs
  | cat path =>
    have hkept : ((FileCommand.cat path).run alloc fs).1 = fs := fst_listed _
    rw [hkept]
    exact .nil fs
  | cd path => exact hreport (.cd path) _
  | mkdir path => exact hreport (.mkdir path) _
  | touch path => exact hreport (.touch path) _
  | rm path => exact hreport (.rm path) _
  | write path text => exact hreport (.writeFile path (some text) 0) _
  | append path text => exact hreport (.appendFile path (some text) 0) _
  | edit path =>
    refine hone _ _ ?_
    have hfst : ((FileCommand.edit path).run alloc fs).1 = (fsEditBegin alloc fs path).1 :=
      fst_report _ _
    rw [hfst]
    rfl

/-- `t` comes from `fs` by calls of the file system. -/
def ByCalls (alloc : Allocator) (fs t : Okfs) : Prop :=
  ∃ calls, Run (FileSystem.step alloc) anyCall fs calls t

theorem ByCalls.refl (fs : Okfs) : ByCalls alloc fs fs := ⟨[], .nil fs⟩

theorem ByCalls.trans {t u : Okfs} (h : ByCalls alloc fs t) (h' : ByCalls alloc t u) :
    ByCalls alloc fs u := by
  obtain ⟨as, hrun⟩ := h
  obtain ⟨bs, hrun'⟩ := h'
  exact ⟨as ++ bs, hrun.append hrun'⟩

theorem ByCalls.one (call : Call) {t : Okfs} (h : FileSystem.step alloc fs call = some t) :
    ByCalls alloc fs t := ⟨[call], .cons trivial h (.nil t)⟩

theorem byCalls_executeTextCommand (command : Bytes) :
    ByCalls alloc fs (executeTextCommand alloc fs command) := by
  unfold executeTextCommand fsHandleCommand
  split_ifs
  · exact .one (.editHandleLine command) rfl
  · cases parseCommand command with
    | none => exact .refl fs
    | some c => exact ⟨c.calls, c.run_calls⟩

theorem byCalls_takePending (b : Input.CommandBuffer) (size : ℕ) :
    ByCalls alloc fs (takePending fs b size).1 := by
  have hfst : (takePending fs b size).1 = (fsEditGetPendingLine fs).1 := by
    unfold takePending
    rcases fsEditGetPendingLine fs with ⟨t, _ | line⟩ <;> rfl
  rw [hfst]
  exact .one .editGetPendingLine rfl

theorem byCalls_textKey (b : Input.CommandBuffer) (e : KeyEvent) :
    ByCalls alloc fs (textKey alloc fs b e).1 := by
  cases e with
  | backspace => exact .refl fs
  | navigate n => exact .refl fs
  | character ch =>
    unfold textKey typeCharacter
    dsimp only
    split_ifs
    · exact byCalls_executeTextCommand _
    · exact .refl fs
    · exact .refl fs

/-- One key. -/
theorem byCalls_step (key : Key) : ByCalls alloc s.fs (step alloc s key).fs := by
  unfold step
  cases key with
  | edit e =>
    cases s.mode with
    | text => exact byCalls_textKey s.cmd e
    | graphics => exact .refl _
    | pseudo => exact .refl _
  | enter entered =>
    cases s.mode with
    | text =>
      dsimp only
      unfold enterText
      dsimp only
      split_ifs
      · exact (byCalls_executeTextCommand _).trans (byCalls_takePending _ _)
      · exact (byCalls_executeTextCommand _).trans (byCalls_takePending _ _)
      · exact .refl _
    | graphics => exact .refl _
    | pseudo =>
      dsimp only
      unfold enterPseudo
      dsimp only
      split_ifs
      · exact (byCalls_executeTextCommand _).trans (byCalls_takePending _ _)
      · exact byCalls_takePending _ _
  | toggle entered => cases s.mode <;> exact .refl _

theorem byCalls_run (keys : List Key) :
    ByCalls alloc s.fs (keys.foldl (step alloc) s).fs := by
  induction keys generalizing s with
  | nil => exact .refl _
  | cons key keys ih => exact (byCalls_step key).trans ih

/-- Whatever is typed, in whatever mode and wherever `kmalloc` fails: the file system has seen a
run of its own calls, so that its tree is in order, every buffer has one owner and the variables
of the editor fit together; and both command buffers hold a text that ends inside them. -/
theorem typed_keys_keep_order (alloc : Allocator) (keys : List Key) :
    let s := keys.foldl (step alloc) (start alloc)
    (∃ calls, Run (FileSystem.step alloc) anyCall (fsInit alloc boot) calls s.fs) ∧
      TreeInv s.fs ∧ OwnershipInv s.fs .empty ∧ EditorInv s.fs ∧ ShellInv s := by
  intro s
  obtain ⟨calls, hrun⟩ : ByCalls alloc (fsInit alloc boot) s.fs :=
    byCalls_run (s := start alloc) keys
  obtain ⟨htree, howned⟩ := invariants_of_run hrun
  exact ⟨⟨calls, hrun⟩, htree, howned, editorInv_of_run hrun, (shellInv_start alloc).run keys⟩

end Calls

/-! ### Lines -/

/-- The lines that keys submit, where `t` is typed already. -/
def submitted (t : TextCursor UInt8) : List Key → List Bytes
  | [] => []
  | .edit e :: keys => submitted (editCursor cmdCapacity t e) keys
  | .enter _ :: keys =>
    (if t.text = [] then [] else [t.text]) ++ submitted (TextCursor.atEnd []) keys
  | .toggle _ :: keys => submitted t keys

/-- What is printed for each command that is run in text mode, with the command. -/
def transcript (alloc : Allocator) (s : ShellState) : List Key → List (Bytes × List Bytes)
  | [] => []
  | key :: keys =>
    match key with
    | .enter _ =>
      if s.cmd.cmdLen = 0 then transcript alloc (step alloc s key) keys
      else
        (command (terminated s.cmd), (fsHandleCommand alloc s.fs (command (terminated s.cmd))).2.2) ::
          transcript alloc (step alloc s key) keys
    | _ => transcript alloc (step alloc s key) keys

/-- What a command prints when it has worked. -/
def FileCommand.done : FileCommand → List Bytes
  | .mkdir _ => [ascii "Directory created."]
  | .touch _ => [ascii "File created."]
  | .rm _ => [ascii "Removed."]
  | .write _ _ => [ascii "Written."]
  | .append _ _ => [ascii "Appended."]
  | _ => []

/-- The line is no command of the file system, or one that changes nothing. -/
def Looks (line : Bytes) : Prop :=
  ∀ c, parseCommand line = some c → c.op = none ∧ ∀ path, c ≠ .edit path

def Requests (line : Bytes) (req : Request Bytes UInt8) : Prop :=
  ∃ c op, parseCommand line = some c ∧ c.op = some op ∧ Asks op req

/-- The map before and after the lines, where the command of a request says that it has worked
exactly if the request is allowed. -/
inductive Session : PathMap Bytes UInt8 → List (Bytes × List Bytes) → PathMap Bytes UInt8 → Prop
  | nil (m : PathMap Bytes UInt8) : Session m [] m
  | look {m m' : PathMap Bytes UInt8} {line : Bytes} {out : List Bytes}
      {rest : List (Bytes × List Bytes)} :
      Looks line → Session m rest m' → Session m ((line, out) :: rest) m'
  | request {m m' : PathMap Bytes UInt8} {line : Bytes} {out : List Bytes} {c : FileCommand}
      {op : Op} {req : Request Bytes UInt8} {rest : List (Bytes × List Bytes)} :
      parseCommand line = some c → c.op = some op → Asks op req →
      (out = c.done ↔ Allowed okfsRules m req) → Session (after okfsRules m req) rest m' →
      Session m ((line, out) :: rest) m'

section Typed

variable {alloc : Allocator} {s : ShellState} {fs : Okfs} {t : TextCursor UInt8}
variable {c : FileCommand} {op : Op} {req : Request Bytes UInt8}

theorem run_of_op (hop : c.op = some op) :
    c.run alloc fs = report (op.run alloc fs) fun _ => c.done := by
  cases c <;> cases hop <;> rfl

theorem run_of_looks (hop : c.op = none) (hedit : ∀ path, c ≠ .edit path) :
    (c.run alloc fs).1 = fs := by
  cases c with
  | help => rfl
  | pwd => rfl
  | ls path => exact fst_listed _
  | cat path => exact fst_listed _
  | edit path => exact absurd rfl (hedit path)
  | _ => cases hop

theorem head?_done {line : Bytes} (h : line ∈ c.done) : line.head? ≠ some 69 := by
  cases c <;> simp only [FileCommand.done, List.mem_singleton, List.not_mem_nil] at h <;>
    (subst h; decide)

theorem emitErr_ne_done (c : FileCommand) (err : FsError) : [emitErr err] ≠ c.done := by
  intro he
  have hmem : emitErr err ∈ c.done := he ▸ List.mem_singleton_self _
  exact head?_done hmem (by cases err <;> decide)

theorem done_iff (r : Okfs × Except FsError Unit) (c : FileCommand) :
    (report r fun _ => c.done).2 = c.done ↔ r.2 = .ok () := by
  obtain ⟨t, err | ⟨⟩⟩ := r
  · exact iff_of_false (emitErr_ne_done c err) nofun
  · exact iff_of_true rfl rfl

/-- Text mode without an edit session, where `t` is typed. -/
structure Quiet (s : ShellState) (t : TextCursor UInt8) : Prop where
  mode : s.mode = .text
  tree : TreeInv s.fs
  owned : OwnershipInv s.fs .empty
  inactive : s.fs.editActive = false
  pending : s.fs.editPendingLineValid = false
  shows : Shows cmdCapacity s.cmd t
  nul : 0 ∉ t.text

theorem shows_reset (b : Input.CommandBuffer) :
    Shows cmdCapacity (reset b) (TextCursor.atEnd []) :=
  ⟨rfl, rfl, Function.update_self 0 0 b.cmd, Nat.zero_le _⟩

namespace Quiet

theorem edit (h : Quiet s t) (alloc : Allocator) (e : KeyEvent) :
    Quiet (step alloc s (.edit e)) (editCursor cmdCapacity t e) ∧
      (step alloc s (.edit e)).fs = s.fs := by
  have hstep : step alloc s (.edit e) = { s with cmd := editKey s.cmd cmdCapacity e } := by
    unfold step
    rw [h.mode]
    dsimp only
    rw [textKey_of_not_active h.inactive, editKey_cmdCapacity]
  rw [hstep]
  exact ⟨⟨h.mode, h.tree, h.owned, h.inactive, h.pending, h.shows.editKey e,
    nul_not_mem_editCursor h.nul e⟩, rfl⟩

theorem enter_nil (h : Quiet s t) (alloc : Allocator) (hnil : t.text = []) (entered : Bool) :
    Quiet (step alloc s (.enter entered)) (TextCursor.atEnd []) ∧
      (step alloc s (.enter entered)).fs = s.fs := by
  have hlen : ¬0 < (terminated s.cmd).cmdLen := by
    have hlength := h.shows.length
    rw [hnil] at hlength
    exact Nat.not_lt.mpr hlength.le
  have hstep : step alloc s (.enter entered) = { s with cmd := reset (terminated s.cmd) } := by
    have henter : enterText alloc s entered = { s with cmd := reset (terminated s.cmd) } := by
      rw [enterText]
      exact if_neg hlen
    unfold step
    rw [h.mode]
    dsimp only
    rw [henter, h.mode]
  rw [hstep]
  exact ⟨⟨h.mode, h.tree, h.owned, h.inactive, h.pending, shows_reset _, List.not_mem_nil⟩, rfl⟩

theorem command_eq (h : Quiet s t) : command (terminated s.cmd) = t.text := by
  rw [command_terminated ⟨t, h.shows, h.nul⟩, h.shows.text]

/-- Enter runs the line. -/
theorem enter (h : Quiet s t) (alloc : Allocator) (hne : t.text ≠ [])
    (hgfx : t.text ≠ ascii "gfx")
    (hkept : SameSession s.fs (fsHandleCommand alloc s.fs t.text).1)
    (htree : TreeInv (fsHandleCommand alloc s.fs t.text).1)
    (howned : OwnershipInv (fsHandleCommand alloc s.fs t.text).1 .empty) (entered : Bool) :
    Quiet (step alloc s (.enter entered)) (TextCursor.atEnd []) ∧
      (step alloc s (.enter entered)).fs = (fsHandleCommand alloc s.fs t.text).1 := by
  have hlen : 0 < (terminated s.cmd).cmdLen := by
    have hlength : (terminated s.cmd).cmdLen = t.text.length := h.shows.length
    rw [hlength]
    exact List.length_pos_iff.mpr hne
  have hexecute : executeTextCommand alloc s.fs t.text =
      (fsHandleCommand alloc s.fs t.text).1 := by
    rw [executeTextCommand, h.inactive]
    rfl
  have hasks : asksForGraphics alloc s.fs t.text = false := by
    rw [asksForGraphics, beq_false_of_ne hgfx, Bool.and_false]
  have hvalid := hkept.valid.trans h.pending
  have hactive := hkept.active.trans h.inactive
  generalize hfs : (fsHandleCommand alloc s.fs t.text).1 = fs at *
  have hpending : ∀ b size, takePending fs b size = (fs, reset b) := by
    intro b size
    unfold takePending fsEditGetPendingLine
    rw [hvalid]
    rfl
  have hstep : step alloc s (.enter entered) =
      { s with fs := fs, mode := .text, cmd := reset (terminated s.cmd) } := by
    unfold step
    rw [h.mode]
    dsimp only
    rw [enterText]
    dsimp only
    rw [if_pos hlen, h.command_eq, hexecute, hasks, hpending]
    rfl
  rw [hstep]
  exact ⟨⟨rfl, htree, howned, hactive, hvalid, shows_reset _, List.not_mem_nil⟩, rfl⟩

theorem look (h : Quiet s t) (alloc : Allocator) (hne : t.text ≠ [])
    (hgfx : t.text ≠ ascii "gfx") (hlooks : Looks t.text) (entered : Bool) :
    Quiet (step alloc s (.enter entered)) (TextCursor.atEnd []) ∧
      (step alloc s (.enter entered)).fs = s.fs := by
  have hsame : (fsHandleCommand alloc s.fs t.text).1 = s.fs := by
    unfold fsHandleCommand
    cases hc : parseCommand t.text with
    | none => rfl
    | some c =>
      obtain ⟨hop, hedit⟩ := hlooks c hc
      exact run_of_looks hop hedit
  have henter := h.enter alloc hne hgfx
  rw [hsame] at henter
  exact henter (SameSession.refl _) h.tree h.owned entered

theorem request (h : Quiet s t) (alloc : Allocator) (hne : t.text ≠ [])
    (hgfx : t.text ≠ ascii "gfx") (hc : parseCommand t.text = some c) (hop : c.op = some op)
    (entered : Bool) :
    Quiet (step alloc s (.enter entered)) (TextCursor.atEnd []) ∧
      (step alloc s (.enter entered)).fs = (op.run alloc s.fs).1 ∧
      (fsHandleCommand alloc s.fs t.text).2.2 =
        (report (op.run alloc s.fs) fun _ => c.done).2 := by
  have hhandle : fsHandleCommand alloc s.fs t.text =
      ((op.run alloc s.fs).1, true, (report (op.run alloc s.fs) fun _ => c.done).2) := by
    unfold fsHandleCommand
    rw [hc]
    dsimp only
    rw [run_of_op hop, fst_report]
  have henter := h.enter alloc hne hgfx
  rw [hhandle] at henter ⊢
  obtain ⟨hquiet, hfs⟩ := henter (h.owned.sameSession_run h.tree alloc op)
    (h.tree.treeStep (h.tree.run op)) (h.owned.run h.tree op) entered
  exact ⟨hquiet, hfs, rfl⟩

/-- The run of a session. -/
theorem session (halloc : ∀ k size, alloc k size ≠ none) (keys : List Key) (h : Quiet s t)
    (htoggle : Key.toggle true ∉ keys)
    (hlines : ∀ line ∈ submitted t keys,
      line ≠ ascii "gfx" ∧ (Looks line ∨ ∃ req, Requests line req))
    (hroom : ∀ e ∈ transcript alloc s keys, e.2 ≠ [emitErr .noSpace]) :
    (transcript alloc s keys).map Prod.fst = submitted t keys ∧
      Session (view s.fs) (transcript alloc s keys) (view (keys.foldl (step alloc) s).fs) := by
  induction keys generalizing s t with
  | nil => exact ⟨rfl, .nil _⟩
  | cons key keys ih =>
    have hrest := fun (s : ShellState) (t : TextCursor UInt8) (h : Quiet s t) =>
      ih h fun hm => htoggle (List.mem_cons_of_mem _ hm)
    rw [List.foldl_cons]
    cases key with
    | edit e =>
      obtain ⟨hquiet, hfs⟩ := h.edit alloc e
      have hsession := hrest _ _ hquiet hlines hroom
      rwa [hfs] at hsession
    | toggle entered =>
      obtain rfl : entered = false := by
        cases entered with
        | false => rfl
        | true => exact absurd (List.mem_cons_self ..) htoggle
      have hstep : step alloc s (.toggle false) = s := by
        obtain ⟨fs, mode, cmd, pseudo⟩ := s
        obtain rfl : mode = .text := h.mode
        rfl
      rw [hstep]
      simp only [transcript, hstep] at hroom ⊢
      exact hrest _ _ h hlines hroom
    | enter entered =>
      have hlength := h.shows.length
      by_cases hnil : t.text = []
      · have hlen : s.cmd.cmdLen = 0 := by rw [hlength, hnil]; rfl
        obtain ⟨hquiet, hfs⟩ := h.enter_nil alloc hnil entered
        simp only [transcript, if_pos hlen, submitted, if_pos hnil, List.nil_append]
          at hlines hroom ⊢
        rw [← hfs]
        exact hrest _ _ hquiet hlines hroom
      · have hlen : s.cmd.cmdLen ≠ 0 := by
          rw [hlength]
          exact fun he => hnil (List.length_eq_zero_iff.mp he)
        simp only [transcript, if_neg hlen, submitted, if_neg hnil, List.singleton_append,
          h.command_eq, List.mem_cons, forall_eq_or_imp] at hlines hroom ⊢
        obtain ⟨⟨hgfx, hline⟩, hlines⟩ := hlines
        obtain ⟨hfirst, hroom⟩ := hroom
        rcases hline with hlooks | ⟨req, c, op, hc, hop, hasks⟩
        · obtain ⟨hquiet, hfs⟩ := h.look alloc hnil hgfx hlooks entered
          obtain ⟨hmap, hsession⟩ := hrest _ _ hquiet hlines hroom
          rw [hfs] at hsession
          exact ⟨congrArg _ hmap, .look hlooks hsession⟩
        · obtain ⟨hquiet, hfs, hout⟩ := h.request alloc hnil hgfx hc hop entered
          obtain ⟨hmap, hsession⟩ := hrest _ _ hquiet hlines hroom
          have hspace : (op.run alloc s.fs).2 ≠ .error .noSpace := by
            intro he
            rw [hout] at hfirst
            rcases hr : op.run alloc s.fs with ⟨u, r⟩
            rw [hr] at he hfirst
            obtain rfl : r = .error .noSpace := he
            exact hfirst rfl
          have hs := FsInv.simulates_of_room ⟨h.tree, h.owned.storageInv⟩ alloc halloc hasks hspace
          rw [hfs, hs.map] at hsession
          refine ⟨congrArg _ hmap, .request hc hop hasks ?_ hsession⟩
          rw [hout, done_iff]
          exact hs.result

end Quiet

theorem editActive_fsInit (alloc : Allocator) : (fsInit alloc boot).editActive = false := by
  have hdocs := ownershipInv_clearNodes.fsMkdir (ascii "/docs")
  have hreadme := hdocs.fsWriteFile alloc (ascii "/readme.txt") (some readmeText) 0
  have hmkdir := ownershipInv_clearNodes.sameSession_run (treeInv_clearNodes boot) alloc
    (.mkdir (ascii "/docs"))
  have hfirst := hdocs.sameSession_fsWriteFile alloc (ascii "/readme.txt") (some readmeText) 0
  exact ((hreadme.sameSession_fsWriteFile alloc _ _ _).active.trans hfirst.active).trans
    hmkdir.active

theorem quiet_start (alloc : Allocator) : Quiet (start alloc) (TextCursor.atEnd []) := by
  have hactive := editActive_fsInit alloc
  exact ⟨rfl, treeInv_fsInit alloc boot, ownershipInv_fsInit alloc, hactive,
    ((editorInv_fsInit alloc).idle hactive).2.2, ⟨rfl, rfl, rfl, Nat.zero_le _⟩, List.not_mem_nil⟩

end Typed

end OpenKernel.Shell
