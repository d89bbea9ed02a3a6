import OpenKernel.FileSystem.Listing
import OpenKernel.FileSystem.Printing

/-!
# The file commands of the shell

`fs_handle_command` looks for a verb at the start of the command and hands the rest of
it to the file system. For `write` and `append` it takes the rest apart itself: a path, which
ends at a space or after 255 bytes, and a text between quotes, if anything is left. It neither
looks for a space behind the verb nor at what stands behind the second quote.
-/

namespace OpenKernel.Shell

open FileSystem

def quote : UInt8 := 34

/-! ### The parser -/

def skipSpaces (p : Bytes) : Bytes := p.dropWhile (· = space)

/-- `parse_quoted_tail` into a buffer of `max` bytes. -/
def parseQuotedTail (cmd : Bytes) (max : ℕ) : Option Bytes :=
  match skipSpaces cmd with
  | [] => none
  | c :: cmd =>
    if c ≠ quote then none
    else
      let out := (cmd.takeWhile (· ≠ quote)).take (max - 1)
      if (cmd.drop out.length).head? = some quote then some out else none

/-- `parse_path_and_rest`: the path, and the text if there is one. -/
def parsePathAndRest (cmd verb : Bytes) (max : ℕ) : Option (Bytes × Bytes) :=
  if cmd.take verb.length ≠ verb then none
  else
    let cmd := skipSpaces (cmd.drop verb.length)
    let path := (cmd.takeWhile (· ≠ space)).take (fsMaxPath - 1)
    if path = [] then none
    else
      match skipSpaces (cmd.drop path.length) with
      | [] => some (path, [])
      | c :: cmd => (parseQuotedTail (c :: cmd) max).map fun rest => (path, rest)

/-- The branches of `fs_handle_command`. -/
inductive FileCommand
  | help
  | pwd
  | ls (path : Bytes)
  | cd (path : Bytes)
  | mkdir (path : Bytes)
  | touch (path : Bytes)
  | rm (path : Bytes)
  | cat (path : Bytes)
  | write (path text : Bytes)
  | append (path text : Bytes)
  | edit (path : Bytes)
  deriving DecidableEq

def FileCommand.textVerb : FileCommand → Option Bytes
  | .write _ _ => some (ascii "write")
  | .append _ _ => some (ascii "append")
  | _ => none

/-- The last tests of `fs_handle_command`. -/
def parseTextCommand (command : Bytes) : Option FileCommand :=
  match parsePathAndRest command (ascii "write") fsCmdTextMax with
  | some (path, text) => some (.write path text)
  | none =>
    match parsePathAndRest command (ascii "append") fsCmdTextMax with
    | some (path, text) => some (.append path text)
    | none => if command.take 5 = ascii "edit " then some (.edit (command.drop 5)) else none

/-- The tests of `fs_handle_command`, in its order. -/
def parseCommand (command : Bytes) : Option FileCommand :=
  if command = ascii "help --fs" then some .help
  else if command = ascii "pwd" then some .pwd
  else if command.take 3 = ascii "ls " then some (.ls (skipSpaces (command.drop 3)))
  else if command.take 4 = ascii "dir " then some (.ls (skipSpaces (command.drop 4)))
  else if command.take 3 = ascii "cd " then some (.cd (command.drop 3))
  else if command.take 6 = ascii "mkdir " then some (.mkdir (command.drop 6))
  else if command.take 6 = ascii "touch " then some (.touch (command.drop 6))
  else if command.take 3 = ascii "rm " then some (.rm (command.drop 3))
  else if command.take 4 = ascii "cat " then some (.cat (command.drop 4))
  else parseTextCommand command

/-! ### The commands -/

def emitErr (err : FsError) : Bytes :=
  copyUpTo 63 (copyUpTo 60 [] (ascii "Error: ")) (fsStrerror err)

def fsShowHelp : List Bytes :=
  [ascii "Filesystem commands:",
    ascii "ls <path>              - List directory",
    ascii "cd <path>              - Change directory",
    ascii "pwd                    - Print working directory",
    ascii "mkdir <path>           - Create directory",
    ascii "touch <file.txt>       - Create empty text file",
    ascii "rm <path>              - Remove file or empty directory",
    ascii "cat <file.txt>         - Print file contents",
    ascii "write <file.txt> \"t\"  - Create/overwrite text file",
    ascii "append <file.txt> \"t\" - Append text to file",
    ascii "edit <file.txt>        - Edit existing .txt file"]

def report (result : Okfs × Except FsError Unit) (done : Okfs → List Bytes) : Okfs × List Bytes :=
  match result with
  | (s, .error err) => (s, [emitErr err])
  | (s, .ok ()) => (s, done s)

/-- What was printed, and the error behind it. -/
def listed (s : Okfs) (result : Except FsError Unit × List Bytes) : Okfs × List Bytes :=
  match result with
  | (.error err, out) => (s, out ++ [emitErr err])
  | (.ok (), out) => (s, out)

section Run

variable (alloc : Allocator) (s : Okfs)

/-- A command changes the state and emits lines. -/
def FileCommand.run : FileCommand → Okfs × List Bytes
  | .help => (s, fsShowHelp)
  | .pwd => (s, [s.cwdPath])
  | .ls path => listed s (fsLs s (some path))
  | .cd path => report (fsCd s path) fun _ => []
  | .mkdir path => report (fsMkdir s path) fun _ => [ascii "Directory created."]
  | .touch path => report (fsTouch s path) fun _ => [ascii "File created."]
  | .rm path => report (fsRm s path) fun _ => [ascii "Removed."]
  | .cat path => listed s (fsCat s path)
  | .write path text =>
    report (fsWriteFile alloc s path (some text) 0) fun _ => [ascii "Written."]
  | .append path text =>
    report (fsAppendFile alloc s path (some text) 0) fun _ => [ascii "Appended."]
  | .edit path => report (fsEditBegin alloc s path) fun s =>
      [ascii "Edit mode. Commands: :save/:w, :q, :p, :e <n> [text], :e <n> (load line)", s.editPath]

/-- `fs_handle_command`: whether the command was one of its own, and the lines it emits. -/
def fsHandleCommand (command : Bytes) : Okfs × Bool × List Bytes :=
  match parseCommand command with
  | none => (s, false, [])
  | some c => ((c.run alloc s).1, true, (c.run alloc s).2)

end Run

/-! ### What the parser accepts -/

/-- Nothing but spaces. -/
def Blank (l : Bytes) : Prop := ∀ c ∈ l, c = space

section Spaces

variable {l blanks path tail : Bytes}

theorem blank_skipped (l : Bytes) : Blank (l.takeWhile (· = space)) := by
  intro c hc
  simpa using List.mem_takeWhile_imp hc

theorem skipped_append (l : Bytes) : l.takeWhile (· = space) ++ skipSpaces l = l :=
  List.takeWhile_append_dropWhile

theorem skipSpaces_append (hblanks : Blank blanks) (htail : tail.head? ≠ some space) :
    skipSpaces (blanks ++ tail) = tail := by
  refine (Lines.span_append (fun c hc => decide_eq_true (hblanks c hc)) fun c hc => ?_).2
  exact decide_eq_false fun he => htail (he ▸ hc)

theorem skipSpaces_eq_nil_iff : skipSpaces l = [] ↔ Blank l := by
  unfold skipSpaces Blank
  rw [List.dropWhile_eq_nil_iff]
  simp

theorem head?_append_path (hne : path ≠ []) (hspace : space ∉ path) :
    (path ++ tail).head? ≠ some space := by
  obtain ⟨c, path, rfl⟩ := List.exists_cons_of_ne_nil hne
  intro he
  refine hspace ?_
  rw [← Option.some.inj he]
  exact List.mem_cons_self

theorem dropWhile_path (hblanks : Blank blanks) (hne : path ≠ []) (hspace : space ∉ path) :
    (skipSpaces (blanks ++ (path ++ tail))).dropWhile (· ≠ space) =
      tail.dropWhile (· ≠ space) := by
  rw [skipSpaces_append hblanks (head?_append_path hne hspace)]
  exact List.dropWhile_append_of_pos fun c hc => decide_eq_true fun he => hspace (he ▸ hc)

end Spaces

section Accepted

variable {cmd verb path text tail : Bytes} {max : ℕ}

/-- A text between quotes, behind spaces. -/
theorem parseQuotedTail_eq_some_iff : parseQuotedTail cmd max = some text ↔
    ∃ blanks junk, cmd = blanks ++ quote :: (text ++ quote :: junk) ∧ Blank blanks ∧
      quote ∉ text ∧ text.length ≤ max - 1 := by
  constructor
  · intro hparse
    unfold parseQuotedTail at hparse
    cases hskip : skipSpaces cmd with
    | nil =>
      rw [hskip] at hparse
      cases hparse
    | cons c rest =>
      rw [hskip] at hparse
      dsimp only at hparse
      split_ifs at hparse with hc hend
      obtain rfl := Option.some.inj hparse
      obtain rfl := not_not.mp hc
      obtain ⟨junk, hjunk⟩ := List.head?_eq_some_iff.mp hend
      have hparts := List.prefix_iff_eq_take.mp
        ((List.take_prefix (max - 1) (rest.takeWhile (· ≠ quote))).trans (List.takeWhile_prefix _))
      refine ⟨cmd.takeWhile (· = space), junk, ?_, blank_skipped cmd, fun hmem => ?_,
        List.length_take_le _ _⟩
      · conv_lhs => rw [← skipped_append cmd, hskip, ← List.take_append_drop
          ((rest.takeWhile (· ≠ quote)).take (max - 1)).length rest, ← hparts, hjunk]
      · exact Lines.sep_not_mem_takeWhile (List.mem_of_mem_take hmem)
  · rintro ⟨blanks, junk, rfl, hblanks, hquote, hlen⟩
    have hskip : skipSpaces (blanks ++ quote :: (text ++ quote :: junk)) =
        quote :: (text ++ quote :: junk) := skipSpaces_append hblanks (by simp [quote, space])
    unfold parseQuotedTail
    rw [hskip]
    dsimp only
    rw [if_neg (not_not.mpr rfl), (Lines.span_line hquote).1, List.take_of_length_le hlen,
      List.drop_left, List.head?_cons, if_pos rfl]

/-- A path as the parser takes it from the front of `path ++ tail`. -/
structure IsPath (path tail : Bytes) : Prop where
  ne_nil : path ≠ []
  spaceless : space ∉ path
  length_le : path.length ≤ fsMaxPath - 1
  ends : tail = [] ∨ tail.head? = some space ∨ path.length = fsMaxPath - 1

/-- What is behind the path: spaces, or a text between quotes and then anything. -/
def IsRest (max : ℕ) (tail text : Bytes) : Prop :=
  (Blank tail ∧ text = []) ∨
    ∃ blanks junk, tail = blanks ++ quote :: (text ++ quote :: junk) ∧ Blank blanks ∧
      quote ∉ text ∧ text.length ≤ max - 1

theorem isPath_take {l : Bytes} (hne : (l.takeWhile (· ≠ space)).take (fsMaxPath - 1) ≠ []) :
    IsPath ((l.takeWhile (· ≠ space)).take (fsMaxPath - 1))
      (l.drop ((l.takeWhile (· ≠ space)).take (fsMaxPath - 1)).length) := by
  refine ⟨hne, fun hmem => Lines.sep_not_mem_takeWhile (List.mem_of_mem_take hmem),
    List.length_take_le _ _, ?_⟩
  by_cases hfull : fsMaxPath - 1 ≤ (l.takeWhile (· ≠ space)).length
  · refine Or.inr (Or.inr ?_)
    rw [List.length_take, min_eq_left hfull]
  · have hwhole : (l.takeWhile (· ≠ space)).take (fsMaxPath - 1) = l.takeWhile (· ≠ space) :=
      List.take_of_length_le (by omega)
    have hparts : l.takeWhile (· ≠ space) ++ l.dropWhile (· ≠ space) = l :=
      List.takeWhile_append_dropWhile
    have hrest := congrArg (List.drop (l.takeWhile (· ≠ space)).length) hparts
    rw [List.drop_left] at hrest
    rw [hwhole, ← hrest]
    rcases Lines.line_cases space l with ⟨hd, -⟩ | ⟨rest, hd, -⟩
    · exact Or.inl hd
    · rw [hd]
      exact Or.inr (Or.inl rfl)

theorem IsPath.take_eq (h : IsPath path tail) :
    ((path ++ tail).takeWhile (· ≠ space)).take (fsMaxPath - 1) = path := by
  have hpath : ∀ c ∈ path, decide (c ≠ space) = true := fun c hc =>
    decide_eq_true fun he => h.spaceless (he ▸ hc)
  rw [List.takeWhile_append_of_pos hpath]
  rcases h.ends with hnil | hspace | hfull
  · rw [hnil, List.takeWhile_nil, List.append_nil, List.take_of_length_le h.length_le]
  · obtain ⟨rest, rfl⟩ := List.head?_eq_some_iff.mp hspace
    rw [List.takeWhile_cons_of_neg (by simp), List.append_nil, List.take_of_length_le h.length_le]
  · exact List.take_left' hfull

theorem parsePathAndRest_eq_some_iff : parsePathAndRest cmd verb max = some (path, text) ↔
    ∃ blanks tail, cmd = verb ++ (blanks ++ (path ++ tail)) ∧ Blank blanks ∧ IsPath path tail ∧
      IsRest max tail text := by
  constructor
  · intro hparse
    unfold parsePathAndRest at hparse
    split_ifs at hparse with hverb
    dsimp only at hparse
    have hcmd := List.take_append_drop verb.length cmd
    rw [not_not.mp hverb, ← skipped_append (cmd.drop verb.length)] at hcmd
    have hblanks := blank_skipped (cmd.drop verb.length)
    generalize (cmd.drop verb.length).takeWhile (· = space) = blanks at hcmd hblanks
    generalize skipSpaces (cmd.drop verb.length) = arg at hparse hcmd
    split_ifs at hparse with hne
    have hpath := isPath_take hne
    have harg := List.prefix_iff_eq_append.mp
      ((List.take_prefix (fsMaxPath - 1) (arg.takeWhile (· ≠ space))).trans
        (List.takeWhile_prefix _))
    generalize (arg.takeWhile (· ≠ space)).take (fsMaxPath - 1) = path' at hparse hpath harg
    rw [← hcmd, ← harg]
    have htail := skipped_append (arg.drop path'.length)
    cases hskip : skipSpaces (arg.drop path'.length) with
    | nil =>
      rw [hskip] at hparse
      obtain ⟨rfl, rfl⟩ := Prod.mk.inj (Option.some.inj hparse)
      exact ⟨blanks, _, rfl, hblanks, hpath, Or.inl ⟨skipSpaces_eq_nil_iff.mp hskip, rfl⟩⟩
    | cons c rest =>
      rw [hskip] at hparse htail
      obtain ⟨out, hquoted, he⟩ := Option.map_eq_some_iff.mp hparse
      obtain ⟨rfl, rfl⟩ := Prod.mk.inj he
      obtain ⟨more, junk, hrest, hmore, hquote, hlen⟩ := parseQuotedTail_eq_some_iff.mp hquoted
      refine ⟨blanks, _, rfl, hblanks, hpath, Or.inr
        ⟨(arg.drop path'.length).takeWhile (· = space) ++ more, junk, ?_, ?_, hquote, hlen⟩⟩
      · rw [List.append_assoc, ← hrest, htail]
      · intro x hx
        rcases List.mem_append.mp hx with hx | hx
        · exact blank_skipped _ x hx
        · exact hmore x hx
  · rintro ⟨blanks, tail, rfl, hblanks, hpath, hrest⟩
    have hhead : (path ++ tail).head? ≠ some space :=
      head?_append_path hpath.ne_nil hpath.spaceless
    unfold parsePathAndRest
    rw [List.take_left, if_neg (not_not.mpr rfl), List.drop_left,
      skipSpaces_append hblanks hhead]
    dsimp only
    rw [hpath.take_eq, if_neg hpath.ne_nil, List.drop_left]
    rcases hrest with ⟨hblank, rfl⟩ | ⟨blanks', junk, rfl, hblanks', hquote, hlen⟩
    · rw [skipSpaces_eq_nil_iff.mpr hblank]
    · rw [skipSpaces_append hblanks' (by simp [quote, space])]
      dsimp only
      have hparse : parseQuotedTail (quote :: (text ++ quote :: junk)) max = some text :=
        parseQuotedTail_eq_some_iff.mpr ⟨[], junk, rfl, by simp [Blank], hquote, hlen⟩
      rw [hparse]
      rfl

/-- No other verb starts with the letters of `write` and `append`. -/
theorem parseCommand_of_head {c : UInt8} (hhead : cmd.head? = some c)
    (hc : c = 119 ∨ c = 97) : parseCommand cmd = parseTextCommand cmd := by
  have hne : ∀ word : Bytes, word.head? ≠ some c → cmd ≠ word := by
    rintro word hword rfl
    exact hword hhead
  have htake : ∀ (n : ℕ) (word : Bytes), word.head? ≠ some c → n ≠ 0 → cmd.take n ≠ word := by
    rintro n word hword hn rfl
    refine hword ?_
    rw [List.head?_take, if_neg hn, hhead]
  have hwords : ∀ word ∈ [ascii "help --fs", ascii "pwd", ascii "ls ", ascii "dir ", ascii "cd ",
      ascii "mkdir ", ascii "touch ", ascii "rm ", ascii "cat "], word.head? ≠ some c := by
    rcases hc with rfl | rfl
    · decide
    · decide
  simp only [List.forall_mem_cons, List.not_mem_nil, false_imp_iff, implies_true, and_true]
    at hwords
  obtain ⟨h₁, h₂, h₃, h₄, h₅, h₆, h₇, h₈, h₉⟩ := hwords
  unfold parseCommand
  rw [if_neg (hne _ h₁), if_neg (hne _ h₂), if_neg (htake 3 _ h₃ (by decide)),
    if_neg (htake 4 _ h₄ (by decide)), if_neg (htake 3 _ h₅ (by decide)),
    if_neg (htake 6 _ h₆ (by decide)), if_neg (htake 6 _ h₇ (by decide)),
    if_neg (htake 3 _ h₈ (by decide)), if_neg (htake 4 _ h₉ (by decide))]

theorem of_test {p : Prop} [Decidable p] {a c : FileCommand} {rest : Option FileCommand}
    (h : (if p then some a else rest) = some c) (ha : a.textVerb = none)
    (hc : c.textVerb ≠ none) : rest = some c := by
  split_ifs at h
  · obtain rfl := Option.some.inj h
    exact absurd ha hc
  · exact h

theorem parseTextCommand_of_parseCommand {c : FileCommand} (hparse : parseCommand cmd = some c)
    (hc : c.textVerb ≠ none) : parseTextCommand cmd = some c := by
  unfold parseCommand at hparse
  iterate 9 replace hparse := of_test hparse rfl hc
  exact hparse

theorem parseCommand_eq_write_iff : parseCommand cmd = some (.write path text) ↔
    parsePathAndRest cmd (ascii "write") fsCmdTextMax = some (path, text) := by
  constructor
  · intro hcommand
    have hparse := parseTextCommand_of_parseCommand hcommand (by simp [FileCommand.textVerb])
    unfold parseTextCommand at hparse
    split at hparse
    · next he =>
      cases hparse
      exact he
    · split at hparse
      · cases hparse
      · split_ifs at hparse
        cases hparse
  · intro hparse
    obtain ⟨blanks, tail, rfl, -⟩ := parsePathAndRest_eq_some_iff.mp hparse
    rw [parseCommand_of_head (c := 119) rfl (Or.inl rfl), parseTextCommand, hparse]

theorem parseCommand_eq_append_iff : parseCommand cmd = some (.append path text) ↔
    parsePathAndRest cmd (ascii "append") fsCmdTextMax = some (path, text) := by
  constructor
  · intro hcommand
    have hparse := parseTextCommand_of_parseCommand hcommand (by simp [FileCommand.textVerb])
    unfold parseTextCommand at hparse
    split at hparse
    · cases hparse
    · split at hparse
      · next he =>
        cases hparse
        exact he
      · split_ifs at hparse
        cases hparse
  · intro hparse
    obtain ⟨blanks, tail, rfl, -⟩ := parsePathAndRest_eq_some_iff.mp hparse
    have hwrite : parsePathAndRest (ascii "append" ++ (blanks ++ (path ++ tail))) (ascii "write")
        fsCmdTextMax = none := if_pos (show ascii "appen" ≠ ascii "write" by decide)
    rw [parseCommand_of_head (c := 97) rfl (Or.inr rfl), parseTextCommand, hwrite]
    dsimp only
    rw [hparse]

end Accepted

/-! ### Delivery -/

section Delivery

variable {alloc : Allocator} {s : Okfs} {path text : Bytes}

theorem fst_report (result : Okfs × Except FsError Unit) (done : Okfs → List Bytes) :
    (report result done).1 = result.1 := by
  unfold report
  split <;> rfl

theorem strlen_eq (hnul : 0 ∉ text) :
    (if text.length = 0 then fsStrlen text else text.length) = fsStrlen text := by
  rw [fsStrlen, Lines.takeWhile_of_not_mem hnul]
  split_ifs <;> rfl

theorem parse_delivers (verb : Bytes) (hne : path ≠ []) (hpath : path.length ≤ 255)
    (hspace : space ∉ path) (htext : text.length ≤ 4095) (hquote : quote ∉ text) :
    parsePathAndRest (verb ++ ([space] ++ (path ++ ([space] ++ quote :: (text ++ [quote]))))) verb
      fsCmdTextMax = some (path, text) := by
  have hblank : Blank [space] := fun c hc => List.mem_singleton.mp hc
  refine parsePathAndRest_eq_some_iff.mpr ⟨[space], _, rfl, hblank, ?_, ?_⟩
  · exact ⟨hne, hspace, hpath, Or.inr (Or.inl rfl)⟩
  · exact Or.inr ⟨[space], [], rfl, hblank, hquote, htext⟩

end Delivery

/-- In every state: `write <path> "<text>"` does to the file system what `fs_write_file` does with
the path, the text and its length, and `append` what `fs_append_file` does. -/
theorem text_delivered (alloc : Allocator) (s : Okfs) {path text : Bytes} (hne : path ≠ [])
    (hpath : path.length ≤ 255) (hspace : space ∉ path) (htext : text.length ≤ 4095)
    (hquote : quote ∉ text) (hnul : 0 ∉ text) :
    (fsHandleCommand alloc s (ascii "write " ++ path ++ ascii " \"" ++ text ++ ascii "\"")).1 =
        (fsWriteFile alloc s path (some text) text.length).1 ∧
      (fsHandleCommand alloc s (ascii "append " ++ path ++ ascii " \"" ++ text ++ ascii "\"")).1 =
        (fsAppendFile alloc s path (some text) text.length).1 := by
  have hparts : ∀ verb : Bytes, verb ++ [space] ++ path ++ [space, quote] ++ text ++ [quote] =
      verb ++ ([space] ++ (path ++ ([space] ++ quote :: (text ++ [quote])))) := by simp
  constructor
  · have hcommand : parseCommand (ascii "write " ++ path ++ ascii " \"" ++ text ++ ascii "\"") =
        some (.write path text) := by
      refine parseCommand_eq_write_iff.mpr ?_
      exact (congrArg (parsePathAndRest · _ _) (hparts (ascii "write"))).trans
        (parse_delivers _ hne hpath hspace htext hquote)
    rw [fsHandleCommand, hcommand]
    dsimp only [FileCommand.run]
    rw [fst_report, fsWriteFile, fsWriteFile, if_pos rfl, strlen_eq hnul]
  · have hcommand : parseCommand (ascii "append " ++ path ++ ascii " \"" ++ text ++ ascii "\"") =
        some (.append path text) := by
      refine parseCommand_eq_append_iff.mpr ?_
      exact (congrArg (parsePathAndRest · _ _) (hparts (ascii "append"))).trans
        (parse_delivers _ hne hpath hspace htext hquote)
    rw [fsHandleCommand, hcommand]
    dsimp only [FileCommand.run]
    rw [fst_report, fsAppendFile, fsAppendFile, if_pos rfl, strlen_eq hnul]

/-- A text with a space in it. -/
theorem text_delivered_space :
    (fsHandleCommand clearedAlloc (fsInit clearedAlloc boot) (ascii "write a.txt \"x y\"")).1 =
      (fsWriteFile clearedAlloc (fsInit clearedAlloc boot) (ascii "a.txt") (some (ascii "x y"))
        3).1 := by
  have hdelivered := text_delivered clearedAlloc (fsInit clearedAlloc boot)
    (show ascii "a.txt" ≠ [] by decide) (by decide) (by decide)
    (show (ascii "x y").length ≤ 4095 by decide) (by decide) (by decide)
  exact hdelivered.1

/-! ### The grammar -/

/-- Only spaces, or at least one space, a text between quotes, and only spaces. -/
def WellEnds (tail : Bytes) : Prop :=
  Blank tail ∨ ∃ blanks text junk, tail = blanks ++ quote :: (text ++ quote :: junk) ∧
    Blank blanks ∧ blanks ≠ [] ∧ quote ∉ text ∧ Blank junk

/-- The verb, at least one space, a path without spaces, and an end like this. -/
def Grammar (verb cmd : Bytes) : Prop :=
  ∃ blanks path tail, cmd = verb ++ (blanks ++ (path ++ tail)) ∧ Blank blanks ∧ blanks ≠ [] ∧
    path ≠ [] ∧ space ∉ path ∧ WellEnds tail

/-- The commands that slip through: the path follows the verb without a space, or something
follows the text, or a quote follows the first 255 bytes of a longer word. -/
inductive Malformed (verb : Bytes) : Bytes → Prop
  | glued {path tail text : Bytes} (hpath : IsPath path tail)
      (hrest : IsRest fsCmdTextMax tail text) : Malformed verb (verb ++ (path ++ tail))
  | junk {blanks path more text junk : Bytes} (hblanks : Blank blanks) (hne : blanks ≠ [])
      (hpath : IsPath path (more ++ quote :: (text ++ quote :: junk))) (hmore : Blank more)
      (hspace : more ≠ []) (hquote : quote ∉ text) (hlen : text.length ≤ fsCmdTextMax - 1)
      (hjunk : ¬ Blank junk) :
      Malformed verb (verb ++ (blanks ++ (path ++ (more ++ quote :: (text ++ quote :: junk)))))
  | cut {blanks path text junk : Bytes} (hblanks : Blank blanks) (hne : blanks ≠ [])
      (hpath : IsPath path (quote :: (text ++ quote :: junk))) (hquote : quote ∉ text)
      (hlen : text.length ≤ fsCmdTextMax - 1)
      (hends : ¬ WellEnds ((quote :: (text ++ quote :: junk)).dropWhile (· ≠ space))) :
      Malformed verb (verb ++ (blanks ++ (path ++ quote :: (text ++ quote :: junk))))

section Grammar

variable {verb cmd arg path tail blanks text junk : Bytes}

theorem Blank.head? (h : Blank blanks) (hne : blanks ≠ []) : blanks.head? = some space := by
  obtain ⟨c, blanks, rfl⟩ := List.exists_cons_of_ne_nil hne
  exact congrArg some (h c List.mem_cons_self)

theorem WellEnds.head? (h : WellEnds tail) : tail = [] ∨ tail.head? = some space := by
  rcases h with hblank | ⟨blanks, text, junk, rfl, hblanks, hne, -⟩
  · by_cases hnil : tail = []
    · exact Or.inl hnil
    · exact Or.inr (hblank.head? hnil)
  · refine Or.inr ?_
    rw [List.head?_append_of_ne_nil _ hne]
    exact hblanks.head? hne

/-- The grammar leaves one way to read a command: up to the first space is the path. -/
theorem grammar_append_iff : Grammar verb (verb ++ arg) ↔ arg.head? = some space ∧
    (skipSpaces arg).takeWhile (· ≠ space) ≠ [] ∧
      WellEnds ((skipSpaces arg).dropWhile (· ≠ space)) := by
  constructor
  · rintro ⟨blanks, path, tail, he, hblanks, hne, hpath, hspace, hends⟩
    obtain rfl := List.append_cancel_left he
    have hspan : (path ++ tail).takeWhile (· ≠ space) = path ∧
        (path ++ tail).dropWhile (· ≠ space) = tail := by
      apply Lines.span_append
      · intro c hc
        exact decide_eq_true fun he => hspace (he ▸ hc)
      · intro c hc
        rcases hends.head? with rfl | hhead
        · cases hc
        · simpa using Option.some.inj (hc.symm.trans hhead)
    rw [skipSpaces_append hblanks (head?_append_path hpath hspace), hspan.1, hspan.2,
      List.head?_append_of_ne_nil _ hne]
    exact ⟨hblanks.head? hne, hpath, hends⟩
  · rintro ⟨hhead, hpath, hends⟩
    refine ⟨arg.takeWhile (· = space), _, _, ?_, blank_skipped arg, ?_, hpath,
      Lines.sep_not_mem_takeWhile, hends⟩
    · rw [List.takeWhile_append_dropWhile, skipped_append]
    · obtain ⟨rest, rfl⟩ := List.head?_eq_some_iff.mp hhead
      simp

theorem wellEnds_quoted_iff (hblanks : Blank blanks) (hquote : quote ∉ text) :
    WellEnds (blanks ++ quote :: (text ++ quote :: junk)) ↔ blanks ≠ [] ∧ Blank junk := by
  constructor
  · rintro (hblank | ⟨blanks', text', junk', he, hblanks', hne, hquote', hjunk⟩)
    · have hc : quote = space := hblank quote (by simp)
      cases hc
    · have hskip := congrArg skipSpaces he
      rw [skipSpaces_append hblanks (by simp [quote, space]),
        skipSpaces_append hblanks' (by simp [quote, space])] at hskip
      obtain ⟨rfl, rfl⟩ := Lines.append_sep_inj hquote hquote' (List.tail_eq_of_cons_eq hskip)
      rw [List.append_cancel_right he]
      exact ⟨hne, hjunk⟩
  · rintro ⟨hne, hjunk⟩
    exact Or.inr ⟨blanks, text, junk, rfl, hblanks, hne, hquote, hjunk⟩

/-- A malformed command is accepted, and not in the grammar. -/
theorem Malformed.accepted (h : Malformed verb cmd) :
    (∃ path text, parsePathAndRest cmd verb fsCmdTextMax = some (path, text)) ∧
      ¬ Grammar verb cmd := by
  cases h with
  | @glued path tail text hpath hrest =>
    refine ⟨⟨path, text, parsePathAndRest_eq_some_iff.mpr
      ⟨[], tail, rfl, by simp [Blank], hpath, hrest⟩⟩, fun hg => ?_⟩
    exact head?_append_path hpath.ne_nil hpath.spaceless (grammar_append_iff.mp hg).1
  | @junk blanks path more text junk hblanks hne hpath hmore hspace hquote hlen hjunk =>
    refine ⟨⟨path, text, parsePathAndRest_eq_some_iff.mpr
      ⟨blanks, _, rfl, hblanks, hpath, Or.inr ⟨more, junk, rfl, hmore, hquote, hlen⟩⟩⟩,
      fun hg => ?_⟩
    have hends := (grammar_append_iff.mp hg).2.2
    have hhead : (more ++ quote :: (text ++ quote :: junk)).head? = some space := by
      rw [List.head?_append_of_ne_nil _ hspace]
      exact hmore.head? hspace
    have hwhole : (more ++ quote :: (text ++ quote :: junk)).dropWhile (· ≠ space) =
        more ++ quote :: (text ++ quote :: junk) := by
      obtain ⟨rest, he⟩ := List.head?_eq_some_iff.mp hhead
      rw [he, List.dropWhile_cons_of_neg (by simp)]
    rw [dropWhile_path hblanks hpath.ne_nil hpath.spaceless, hwhole] at hends
    exact hjunk ((wellEnds_quoted_iff hmore hquote).mp hends).2
  | @cut blanks path text junk hblanks hne hpath hquote hlen hends =>
    refine ⟨⟨path, text, parsePathAndRest_eq_some_iff.mpr
      ⟨blanks, _, rfl, hblanks, hpath, Or.inr ⟨[], junk, rfl, by simp [Blank], hquote, hlen⟩⟩⟩,
      fun hg => hends ?_⟩
    rw [← dropWhile_path hblanks hpath.ne_nil hpath.spaceless]
    exact (grammar_append_iff.mp hg).2.2

/-- Whatever else is accepted is in the grammar. -/
theorem grammar_of_not_malformed (h : ¬ Malformed verb cmd)
    (hparse : parsePathAndRest cmd verb fsCmdTextMax = some (path, text)) : Grammar verb cmd := by
  obtain ⟨blanks, tail, rfl, hblanks, hpath, hrest⟩ := parsePathAndRest_eq_some_iff.mp hparse
  by_cases hne : blanks = []
  · subst hne
    exact absurd (Malformed.glued hpath hrest) h
  rcases hrest with ⟨hblank, -⟩ | ⟨more, junk, rfl, hmore, hquote, hlen⟩
  · exact ⟨blanks, path, tail, rfl, hblanks, hne, hpath.ne_nil, hpath.spaceless, Or.inl hblank⟩
  by_cases hspace : more = []
  · -- the path was cut, and goes on in front of the quote
    subst hspace
    by_contra hg
    refine h (Malformed.cut hblanks hne hpath hquote hlen fun hends => hg ?_)
    refine grammar_append_iff.mpr ⟨?_, ?_, ?_⟩
    · rw [List.head?_append_of_ne_nil _ hne]
      exact hblanks.head? hne
    · rw [skipSpaces_append hblanks (head?_append_path hpath.ne_nil hpath.spaceless)]
      obtain ⟨c, path, rfl⟩ := List.exists_cons_of_ne_nil hpath.ne_nil
      have hc : c ≠ space := fun he => hpath.spaceless (he ▸ List.mem_cons_self)
      simp [hc]
    · rw [dropWhile_path hblanks hpath.ne_nil hpath.spaceless]
      exact hends
  · by_cases hjunk : Blank junk
    · exact ⟨blanks, path, _, rfl, hblanks, hne, hpath.ne_nil, hpath.spaceless,
        (wellEnds_quoted_iff hmore hquote).mpr ⟨hspace, hjunk⟩⟩
    · exact absurd (Malformed.junk hblanks hne hpath hmore hspace hquote hlen hjunk) h

end Grammar

/-- For every command: if `fs_handle_command` takes the branch of `write` or `append`, then the
command is in the grammar of that verb, exactly if it is none of those that slip through. The
branch can be taken without a change to any file, as by `writea "x"`. -/
theorem grammar_iff_not_malformed (cmd : Bytes) :
    (∀ c verb, parseCommand cmd = some c → c.textVerb = some verb → Grammar verb cmd) ↔
      ¬ Malformed (ascii "write") cmd ∧ ¬ Malformed (ascii "append") cmd := by
  constructor
  · intro h
    constructor
    · intro hbad
      obtain ⟨⟨path, text, hparse⟩, hg⟩ := hbad.accepted
      exact hg (h _ _ (parseCommand_eq_write_iff.mpr hparse) rfl)
    · intro hbad
      obtain ⟨⟨path, text, hparse⟩, hg⟩ := hbad.accepted
      exact hg (h _ _ (parseCommand_eq_append_iff.mpr hparse) rfl)
  · rintro ⟨hwrite, happend⟩ c verb hparse hverb
    cases c with
    | write path text =>
      cases hverb
      exact grammar_of_not_malformed hwrite (parseCommand_eq_write_iff.mp hparse)
    | append path text =>
      cases hverb
      exact grammar_of_not_malformed happend (parseCommand_eq_append_iff.mp hparse)
    | _ => cases hverb

/-- A file is made although nothing separates the verb from its path. -/
theorem glued_verb_writes :
    parseCommand (ascii "writea.txt \"x\"") = some (.write (ascii "a.txt") (ascii "x")) ∧
      ¬ Grammar (ascii "write") (ascii "writea.txt \"x\"") ∧
      let s := fsInit clearedAlloc boot
      let result := fsHandleCommand clearedAlloc s (ascii "writea.txt \"x\"")
      fsCat s (ascii "/a.txt") = (.error .notFound, []) ∧
        result.2 = (true, [ascii "Written."]) ∧
        fsCat result.1 (ascii "/a.txt") = (.ok (), [ascii "x"]) := by
  rw [fsInit_cleared]
  refine ⟨by decide, ?_, by decide, by decide, by decide⟩
  rintro ⟨blanks, path, tail, he, hblanks, hne, -⟩
  obtain ⟨c, blanks, rfl⟩ := List.exists_cons_of_ne_nil hne
  have hc : c = space := hblanks c List.mem_cons_self
  subst hc
  cases he

end OpenKernel.Shell
