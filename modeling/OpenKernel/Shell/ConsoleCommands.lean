import OpenKernel.Boot.InfoLines
import OpenKernel.Shell.Commands

/-!
# The commands of the console

`execute_console_command` compares the command with its words and calls its log function for each
line of the answer; the text console and the one drawn in graphics mode share it. What stands
between the parentheses of `cmd.print` is taken apart by `extract_parenthesis_content`, with a
buffer of 128 bytes.
-/

namespace OpenKernel.Shell

open FileSystem

def openParen : UInt8 := 40

def closeParen : UInt8 := 41

/-! ### Parentheses -/

def closes (command : Bytes) : Bool := (skipSpaces command).head? = some closeParen

def extractParenthesisContent (command : Bytes) (maxLen : ℕ) : Option Bytes :=
  match (skipSpaces command).dropWhile (· ≠ openParen) with
  | [] => none
  | _ :: command =>
    let command := skipSpaces command
    if command.head? = some quote then
      let out := (command.tail.takeWhile (· ≠ quote)).take (maxLen - 1)
      let command := command.tail.drop out.length
      if command.head? ≠ some quote then none
      else if closes command.tail then some out else none
    else
      let out := (command.takeWhile (· ≠ closeParen)).take (maxLen - 1)
      if closes (command.drop out.length) then some out else none

/-- What may stand behind the opening parenthesis: a text between quotes, or one that does not
start with a quote and has no closing parenthesis. Spaces may stand in front of both and behind
the quote, behind the other text only if it fills the buffer; what follows does not matter. -/
inductive Content (maxLen : ℕ) : Bytes → Bytes → Prop
  | quoted {blanks blanks' out junk : Bytes} (hblanks : Blank blanks) (hblanks' : Blank blanks')
      (hquote : quote ∉ out) (hlen : out.length ≤ maxLen - 1) :
      Content maxLen (blanks ++ quote :: (out ++ quote :: (blanks' ++ closeParen :: junk))) out
  | bare {blanks blanks' out junk : Bytes} (hblanks : Blank blanks) (hblanks' : Blank blanks')
      (hclose : closeParen ∉ out) (hlen : out.length ≤ maxLen - 1)
      (hspace : (out ++ (blanks' ++ closeParen :: junk)).head? ≠ some space)
      (hquote : (out ++ (blanks' ++ closeParen :: junk)).head? ≠ some quote)
      (hfull : blanks' = [] ∨ out.length = maxLen - 1) :
      Content maxLen (blanks ++ (out ++ (blanks' ++ closeParen :: junk))) out

section Parentheses

variable {command out before tail : Bytes} {maxLen : ℕ}

theorem closes_iff : closes command = true ↔
    ∃ blanks junk, command = blanks ++ closeParen :: junk ∧ Blank blanks := by
  unfold closes
  rw [decide_eq_true_eq]
  constructor
  · intro hhead
    obtain ⟨junk, hjunk⟩ := List.head?_eq_some_iff.mp hhead
    refine ⟨command.takeWhile (· = space), junk, ?_, blank_skipped command⟩
    rw [← hjunk, skipped_append]
  · rintro ⟨blanks, junk, rfl, hblanks⟩
    rw [skipSpaces_append hblanks (by simp [closeParen, space])]
    rfl

theorem dropWhile_skipSpaces (command : Bytes) :
    (skipSpaces command).dropWhile (· ≠ openParen) = command.dropWhile (· ≠ openParen) := by
  conv_rhs => rw [← skipped_append command]
  refine (List.dropWhile_append_of_pos fun c hc => ?_).symm
  rw [blank_skipped command c hc]
  rfl

theorem takeWhile_take_append (sep : UInt8) (l : Bytes) (n : ℕ) :
    (l.takeWhile (· ≠ sep)).take n ++ l.drop ((l.takeWhile (· ≠ sep)).take n).length = l :=
  (List.prefix_iff_eq_append.mp
    ((List.take_prefix n (l.takeWhile (· ≠ sep))).trans (List.takeWhile_prefix _))).symm ▸ rfl

theorem content_of_quoted (hquote : command.head? = some quote) {out : Bytes}
    (hout : (command.tail.takeWhile (· ≠ quote)).take (maxLen - 1) = out)
    (hend : (command.tail.drop out.length).head? = some quote)
    (hcloses : closes (command.tail.drop out.length).tail = true) {blanks : Bytes}
    (hblanks : Blank blanks) : Content maxLen (blanks ++ command) out := by
  obtain ⟨rest, rfl⟩ := List.head?_eq_some_iff.mp hquote
  rw [List.tail_cons] at hout hend hcloses
  have hparts := takeWhile_take_append quote rest (maxLen - 1)
  rw [hout] at hparts
  obtain ⟨behind, hbehind⟩ := List.head?_eq_some_iff.mp hend
  rw [hbehind, List.tail_cons] at hcloses
  obtain ⟨blanks', junk, rfl, hblanks'⟩ := closes_iff.mp hcloses
  rw [hbehind] at hparts
  rw [← hparts]
  refine .quoted hblanks hblanks' ?_ ?_
  · rw [← hout]
    exact fun hmem => Lines.sep_not_mem_takeWhile (List.mem_of_mem_take hmem)
  · rw [← hout]
    exact List.length_take_le _ _

theorem content_of_bare (hquote : command.head? ≠ some quote) (hspace : command.head? ≠ some space)
    {out : Bytes} (hout : (command.takeWhile (· ≠ closeParen)).take (maxLen - 1) = out)
    (hcloses : closes (command.drop out.length) = true) {blanks : Bytes}
    (hblanks : Blank blanks) : Content maxLen (blanks ++ command) out := by
  have hparts := takeWhile_take_append closeParen command (maxLen - 1)
  rw [hout] at hparts
  obtain ⟨blanks', junk, hrest, hblanks'⟩ := closes_iff.mp hcloses
  rw [hrest] at hparts
  have hlen : out.length ≤ maxLen - 1 := by
    rw [← hout]
    exact List.length_take_le _ _
  rw [← hparts] at hquote hspace ⊢
  refine .bare hblanks hblanks' ?_ hlen hspace hquote ?_
  · rw [← hout]
    exact fun hmem => Lines.sep_not_mem_takeWhile (List.mem_of_mem_take hmem)
  · -- a text that does not fill the buffer goes up to the parenthesis
    by_cases hfull : maxLen - 1 ≤ (command.takeWhile (· ≠ closeParen)).length
    · refine Or.inr ?_
      rw [← hout, List.length_take, min_eq_left hfull]
    · have hwhole : command.takeWhile (· ≠ closeParen) = out := by
        rw [← hout, List.take_of_length_le (by omega)]
      have hdrop : command.drop out.length = command.dropWhile (· ≠ closeParen) := by
        have hsplit : command.takeWhile (· ≠ closeParen) ++
            command.dropWhile (· ≠ closeParen) = command := List.takeWhile_append_dropWhile
        rw [hwhole] at hsplit
        conv_lhs => rw [← hsplit, List.drop_left]
      rw [hrest] at hdrop
      refine Or.inl ?_
      cases blanks' with
      | nil => rfl
      | cons c blanks' =>
        rcases Lines.line_cases closeParen command with ⟨hd, -⟩ | ⟨rest, hd, -⟩
        · rw [hd] at hdrop
          cases hdrop
        · rw [hd] at hdrop
          have hc := hblanks' c List.mem_cons_self
          rw [(List.cons.inj hdrop).1] at hc
          exact absurd hc (by decide)

theorem extract_of_content (hbefore : openParen ∉ before) (h : Content maxLen tail out) :
    extractParenthesisContent (before ++ openParen :: tail) maxLen = some out := by
  have hopen : (before ++ openParen :: tail).dropWhile (· ≠ openParen) = openParen :: tail :=
    (Lines.span_line hbefore).2
  unfold extractParenthesisContent
  rw [dropWhile_skipSpaces, hopen]
  dsimp only
  cases h with
  | @quoted blanks blanks' out junk hblanks hblanks' hquote hlen =>
    have hskip : skipSpaces (blanks ++ quote :: (out ++ quote :: (blanks' ++ closeParen :: junk))) =
        quote :: (out ++ quote :: (blanks' ++ closeParen :: junk)) :=
      skipSpaces_append hblanks (by simp [quote, space])
    rw [hskip, List.head?_cons, if_pos rfl, List.tail_cons, (Lines.span_line hquote).1,
      List.take_of_length_le hlen, List.drop_left, List.head?_cons, if_neg (not_not.mpr rfl),
      List.tail_cons, if_pos (closes_iff.mpr ⟨blanks', junk, rfl, hblanks'⟩)]
  | @bare blanks blanks' out junk hblanks hblanks' hclose hlen hspace hquote hfull =>
    have htake : ((out ++ (blanks' ++ closeParen :: junk)).takeWhile (· ≠ closeParen)).take
        (maxLen - 1) = out := by
      rcases hfull with rfl | hfull
      · rw [List.nil_append, (Lines.span_line hclose).1, List.take_of_length_le hlen]
      · have hne : ∀ c ∈ out, decide (c ≠ closeParen) = true := fun c hc =>
          decide_eq_true fun he => hclose (he ▸ hc)
        rw [List.takeWhile_append_of_pos hne]
        exact List.take_left' hfull
    rw [skipSpaces_append hblanks hspace, if_neg hquote, htake, List.drop_left,
      if_pos (closes_iff.mpr ⟨blanks', junk, rfl, hblanks'⟩)]

theorem extractParenthesisContent_eq_some_iff :
    extractParenthesisContent command maxLen = some out ↔
      ∃ before tail, command = before ++ openParen :: tail ∧ openParen ∉ before ∧
        Content maxLen tail out := by
  constructor
  · intro hparse
    unfold extractParenthesisContent at hparse
    rw [dropWhile_skipSpaces] at hparse
    have hparts : command.takeWhile (· ≠ openParen) ++ command.dropWhile (· ≠ openParen) =
        command := List.takeWhile_append_dropWhile
    rcases Lines.line_cases openParen command with ⟨hd, -⟩ | ⟨tail, hd, -⟩
    · rw [hd] at hparse
      cases hparse
    · rw [hd] at hparse hparts
      dsimp only at hparse
      have htail := skipped_append tail
      have hspace : (skipSpaces tail).head? ≠ some space := by
        intro he
        have hnot := List.head?_dropWhile_not (· = space) tail
        rw [show tail.dropWhile (· = space) = skipSpaces tail from rfl, he] at hnot
        simp at hnot
      refine ⟨_, tail, hparts.symm, Lines.sep_not_mem_takeWhile, ?_⟩
      rw [← htail]
      split_ifs at hparse with hquote hend hcloses hcloses
      · obtain rfl := Option.some.inj hparse
        exact content_of_quoted hquote rfl (not_not.mp hend) hcloses (blank_skipped tail)
      · obtain rfl := Option.some.inj hparse
        exact content_of_bare hquote hspace rfl hcloses (blank_skipped tail)
  · rintro ⟨before, tail, rfl, hbefore, hcontent⟩
    exact extract_of_content hbefore hcontent

end Parentheses

/-! ### The commands -/

/-- What a command does to the console: its calls of the log function, and clearing the console. -/
inductive ConsoleCall
  | log (line : Bytes)
  | clear
  deriving DecidableEq

def showHelpMain : List Bytes :=
  [ascii "Available commands:",
    ascii "help                - Show this help",
    ascii "help --os           - Show OS-related commands",
    ascii "clear               - Clear the console",
    ascii "reboot              - Restart the system",
    ascii "shutdown            - Power off the system",
    ascii "gfx                 - Enter graphics mode",
    ascii "layout <code>       - Set keyboard layout",
    ascii "                       us, uk, it, fr, de, es, pt",
    ascii "                       no, dk, se, fi, nl, be",
    ascii "                       pl, cz, sk, hu, ro, tr",
    ascii "cmd.print(\"msg\")    - Print a message",
    ascii "help --fs           - Show filesystem commands"]

def showHelpOs : List Bytes :=
  [ascii "OS commands:",
    ascii "os.version          - Show kernel version",
    ascii "os.bootinfo         - Show boot information"]

/-- The line that `cmd.print` logs; `command` starts with these nine characters. -/
def printStatement (command : Bytes) : Bytes :=
  if command.length = 9 then ascii "Error: incomplete statement"
  else
    match extractParenthesisContent (command.drop 9) 128 with
    | some msg => if msg = [] then ascii "Error: incomplete statement" else msg
    | none => ascii "Error: incomplete statement"

/-- The string in one of the line buffers of `os.bootinfo`. -/
def bufferText (buffer : ℕ → UInt8) : Bytes :=
  ((List.range Boot.lineSize).map buffer).takeWhile (· ≠ 0)

/-- `execute_console_command` on the console drawn in graphics mode or on the text console, where
`gfx` may be refused; `stack` is what the line buffers hold before. There is no result if
the machine is reset or switched off, or a line overruns its buffer. -/
def executeConsoleCommand (info : Boot.SavedInfo) (stack : ℕ → ℕ → UInt8)
    (graphicsConsole entered : Bool) (command : Bytes) : Option (List ConsoleCall) :=
  if command = ascii "help" then some (showHelpMain.map .log)
  else if command = ascii "help --os" then some (showHelpOs.map .log)
  else if command = ascii "clear" then
    if graphicsConsole then some [.clear]
    else some [.clear, .log (ascii "openkernel Command Line"),
      .log (ascii "Type 'help' for available commands.")]
  else if command = ascii "reboot" then none
  else if command = ascii "shutdown" then none
  else if command = ascii "gfx" then
    if graphicsConsole || entered then some []
    else some [.log (ascii "Failed to enter graphics mode")]
  else if (ascii "layout ").isPrefixOf command then some [.log (ascii "Layout changed")]
  else if (ascii "cmd.print").isPrefixOf command then some [.log (printStatement command)]
  else if command = ascii "os.version" then some [.log (ascii "openkernel Kernel v0.3")]
  else if command = ascii "os.bootinfo" then
    (Boot.osBootinfo info stack).map fun lines =>
      .log (ascii "=== openkernel Boot Info ===") :: lines.map fun b => .log (bufferText b)
  else if 0 < command.length then
    some [.log (ascii "Unknown command"), .log (ascii "Type 'help' for available commands")]
  else some []

/-- What stands behind `cmd.print` has parentheses, with this text. -/
def Prints (rest out : Bytes) : Prop :=
  ∃ before tail, rest = before ++ openParen :: tail ∧ openParen ∉ before ∧ Content 128 tail out

section Print

variable {rest out tail : Bytes} {maxLen : ℕ}

theorem prints_iff : extractParenthesisContent rest 128 = some out ↔ Prints rest out :=
  extractParenthesisContent_eq_some_iff

theorem Content.length_le (h : Content maxLen tail out) : out.length ≤ maxLen - 1 := by
  cases h with
  | quoted _ _ _ hlen => exact hlen
  | bare _ _ _ hlen => exact hlen

theorem printStatement_cases (rest : Bytes) :
    (printStatement (ascii "cmd.print" ++ rest) = ascii "Error: incomplete statement" ∧
        ∀ out, Prints rest out → out = []) ∨
      printStatement (ascii "cmd.print" ++ rest) ≠ [] ∧
        Prints rest (printStatement (ascii "cmd.print" ++ rest)) := by
  have hlen : (ascii "cmd.print" ++ rest).length = 9 + rest.length := List.length_append
  unfold printStatement
  rw [hlen, show (9 : ℕ) = (ascii "cmd.print").length from rfl, List.drop_left]
  by_cases hnil : rest = []
  · rw [if_pos (by rw [hnil]; rfl)]
    refine Or.inl ⟨rfl, ?_⟩
    rintro out ⟨before, tail, hrest, -⟩
    rw [hnil] at hrest
    exact absurd hrest.symm (by simp)
  · rw [if_neg (by simp [hnil])]
    cases hparse : extractParenthesisContent rest 128 with
    | none =>
      refine Or.inl ⟨rfl, fun out hout => ?_⟩
      rw [prints_iff.mpr hout] at hparse
      cases hparse
    | some msg =>
      have hprints := prints_iff.mp hparse
      dsimp only
      by_cases hmsg : msg = []
      · rw [if_pos hmsg]
        refine Or.inl ⟨rfl, fun out hout => ?_⟩
        rw [prints_iff.mpr hout] at hparse
        rw [Option.some.inj hparse, hmsg]
      · rw [if_neg hmsg]
        exact Or.inr ⟨hmsg, hprints⟩

end Print

/-- On either console, a command that starts with `cmd.print` logs one line: the text between its
parentheses, of at most 127 bytes, or the error if there is none. -/
theorem print_statement (info : Boot.SavedInfo) (stack : ℕ → ℕ → UInt8)
    (graphicsConsole entered : Bool) (rest : Bytes) :
    ∃ line, executeConsoleCommand info stack graphicsConsole entered
        (ascii "cmd.print" ++ rest) = some [.log line] ∧
      line.length ≤ 127 ∧
      ((line = ascii "Error: incomplete statement" ∧ ∀ out, Prints rest out → out = []) ∨
        line ≠ [] ∧ Prints rest line) := by
  have hhead : ∀ word : Bytes, (ascii "cmd.print").isPrefixOf word = false →
      ascii "cmd.print" ++ rest ≠ word := by
    rintro word hword rfl
    rw [List.isPrefixOf_iff_prefix.mpr (List.prefix_append _ _)] at hword
    cases hword
  have hlayout : ¬(ascii "layout ").isPrefixOf (ascii "cmd.print" ++ rest) = true := by
    exact Bool.false_ne_true
  have hprint : (ascii "cmd.print").isPrefixOf (ascii "cmd.print" ++ rest) = true :=
    List.isPrefixOf_iff_prefix.mpr (List.prefix_append _ _)
  refine ⟨printStatement (ascii "cmd.print" ++ rest), ?_, ?_, printStatement_cases rest⟩
  · unfold executeConsoleCommand
    rw [if_neg (hhead _ rfl), if_neg (hhead _ rfl), if_neg (hhead _ rfl), if_neg (hhead _ rfl),
      if_neg (hhead _ rfl), if_neg (hhead _ rfl), if_neg hlayout, if_pos hprint]
  · rcases printStatement_cases rest with ⟨herr, -⟩ | ⟨-, before, tail, -, -, hcontent⟩
    · rw [herr]
      decide
    · exact hcontent.length_le

end OpenKernel.Shell
