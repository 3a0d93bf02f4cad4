import Mathlib.Data.List.Sublists
import Codex.Shell.Safety
import Codex.Shell.Tokens

/-!
# Codex — the words that are checked and the words that run

The safe-command check and the policy rules look at the words
`try_parse_word_only_commands_sequence` returns; bash runs the argvs it makes of
the same script. For a script without unquoted glob, brace or tilde characters
the two are the same exactly when nothing in the tokens is dropped by quote
removal: no backslash in a word token, and between double quotes no backslash
before `$`, a backquote, a double quote, a backslash or a newline.

A word token is returned as it is written, so `-\exec` is not `-exec` for the
check, and is for `find`.
-/

namespace Codex.Shell

open Quoting List

/-! ## Accepted wrappers -/

variable {tryParseShell : Text → Option Tree}

variable {command : List Text} {shell script : Text}

section

variable (h : extractBashCommand command = some (shell, script))
include h

/-- The check of the wrapper itself never accepts: its first word is a shell. -/
theorem isSafe_wrapper :
    isSafeToCallWithExec command = false := by
  obtain ⟨flag, rfl, -, hShell⟩ := extractBashCommand_eq_some h
  by_contra hSafe
  rw [Bool.not_eq_false] at hSafe
  obtain ⟨name, hName, hKey⟩ := safeName_of_isSafe hSafe
  rw [detectShellType_of_safeName hName hKey] at hShell
  exact absurd hShell (by decide)

/-- Reading `zsh` as `bash` leaves a wrapper a wrapper. -/
theorem extractBashCommand_zshAsBash :
    extractBashCommand (command.map zshAsBash) = some (zshAsBash shell, zshAsBash script) := by
  obtain ⟨flag, rfl, hFlag, hShell⟩ := extractBashCommand_eq_some h
  have hFlag' : zshAsBash flag = flag := by
    rcases hFlag with rfl | rfl <;> decide
  have hShell' : detectShellType (zshAsBash shell) ∈ [some .zsh, some .bash, some .sh] := by
    unfold zshAsBash
    split_ifs
    · decide
    · exact hShell
  show extractBashCommand [zshAsBash shell, zshAsBash flag, zshAsBash script] = _
  rw [hFlag', extractBashCommand, if_neg]
  rintro (⟨hNotLc, hNotC⟩ | hNot)
  · exact hFlag.elim hNotLc hNotC
  · exact hNot hShell'

end

/-- **An accepted wrapper.** Its script parses, and every command found in it is safe. -/
theorem commands_of_isKnownSafe (hParse : ParsesCorrectly tryParseShell)
    (hWrapper : extractBashCommand command = some (shell, script))
    (hSafe : isKnownSafeCommand tryParseShell command = true) :
    ∃ tree commands, tryParseShell script = some tree ∧
      tryParseWordOnlyCommandsSequence tree = some commands ∧
      ∀ words ∈ commands, isSafeToCallWithExec words = true := by
  have hRead := extractBashCommand_zshAsBash hWrapper
  unfold isKnownSafeCommand at hSafe
  dsimp only at hSafe
  rw [isSafe_wrapper hRead, if_neg Bool.false_ne_true] at hSafe
  rcases hPlain : parseShellLcPlainCommands tryParseShell (command.map zshAsBash) with _ | commands
  · simp [hPlain] at hSafe
  rw [hPlain] at hSafe
  simp only [Bool.and_eq_true, decide_eq_true_eq, all_eq_true] at hSafe
  obtain ⟨hNonempty, hAll⟩ := hSafe
  simp only [parseShellLcPlainCommands, hRead, Option.bind_eq_bind, Option.bind_some,
    Option.bind_eq_some_iff] at hPlain
  obtain ⟨tree, hTree, hCommands⟩ := hPlain
  by_cases hZsh : script = "zsh".toList
  · -- then the script that was checked is `bash`, and no word of it is a safe program
    exfalso
    rw [show zshAsBash script = "bash".toList by rw [zshAsBash, if_pos hZsh]] at hTree
    have hWell := hParse.of_accepted hTree hCommands
    obtain ⟨words, rest, rfl⟩ := exists_cons_of_ne_nil hNonempty
    have hFirst := hAll words mem_cons_self
    obtain ⟨cmd, hCmd, hWords⟩ := exists_of_mem_of_forall₂
      ((tryParse_eq_some_iff hWell.ordered).mp hCommands).2.2 mem_cons_self
    rcases words with _ | ⟨word, args⟩
    · exact absurd hFirst (by decide)
    obtain ⟨name, hName, hKey⟩ := safeName_of_isSafe hFirst
    -- the word is spelled with characters of the script, in their order
    obtain ⟨node, hNode, hWord⟩ :=
      exists_of_mem_of_forall₂ (forall₂_of_parsePlainCommand hWords) mem_cons_self
    have hReads : Reads (fun _ => false) _ _ _ :=
      parseWord_spec (hWell.words cmd hCmd node hNode) hWord
    have hSub := hReads.within.trans (hWell.within cmd hCmd node hNode).sublist
    -- the script `bash` that a script `zsh` is read as runs nothing safe
    have hAll : ∀ w ∈ sublists "bash".toList,
        ∀ name ∈ safeNames, executableNameLookupKey w ≠ some name := by
      decide
    exact hAll word (mem_sublists.mpr hSub) name hName hKey
  · rw [show zshAsBash script = script by rw [zshAsBash, if_neg hZsh]] at hTree
    exact ⟨tree, commands, hTree, hCommands, hAll⟩

/-! ## The argvs of a script -/

/-- The characters of pathname, brace and tilde expansion. -/
def isExpansionChar (c : Char) : Bool := ['*', '?', '[', ']', '{', '}', '~'].contains c

/-- No glob, brace or tilde character of the script is unquoted. -/
def Tree.NoExpansion (tree : Tree) : Prop :=
  ∀ cmd ∈ tree.commands, ∀ word ∈ cmd.reading, Inert isExpansionChar word

instance (tree : Tree) : Decidable tree.NoExpansion :=
  inferInstanceAs (Decidable (∀ cmd ∈ tree.commands, _))

variable {expand : List Glyph → List Text}

/-- **The words that are checked are the words that run**, and an accepted wrapper runs only what
was accepted, exactly for scripts in which quote removal drops no backslash. -/
theorem plain_commands_run_iff (hParse : ParsesCorrectly tryParseShell)
    (hExpand : LeavesInert isExpansionChar expand) {script : Text} {tree : Tree} {commands : List (List Text)}
    (hTree : tryParseShell script = some tree)
    (hAccepted : tryParseWordOnlyCommandsSequence tree = some commands)
    (hQuiet : tree.NoExpansion) :
    (commands = tree.argvs expand ∧
      ∀ shell flag, extractBashCommand [shell, flag, script] = some (shell, script) →
        isKnownSafeCommand tryParseShell [shell, flag, script] = true →
        ∀ argv ∈ tree.argvs expand, isSafeToCallWithExec argv = true) ↔
      tree.Literal fun _ => false := by
  have hArgvs : tree.argvs expand = commands ↔ tree.Literal fun _ => false := by
    have hWell := hParse.of_accepted hTree hAccepted
    have hFound := ((tryParse_eq_some_iff hWell.ordered).mp hAccepted).2.2
    rw [← map_id commands]
    refine map_eq_map_iff_of_forall₂ hFound fun cmd hCmd words hWords => ?_
    rw [Node.argv, hExpand.flatMap (hQuiet cmd hCmd)]
    exact reading_eq_words_iff (hWell.words cmd hCmd) hWords
  rw [← hArgvs]
  refine ⟨fun h => h.1.symm, fun hSame => ⟨hSame.symm, ?_⟩⟩
  intro shell flag hWrapper hSafe argv hArgv
  obtain ⟨tree', commands', hTree', hAccepted', hAll⟩ :=
    commands_of_isKnownSafe hParse hWrapper hSafe
  -- the parser is a function, so these are the tree and the commands at hand
  cases hTree.symm.trans hTree'
  cases hAccepted.symm.trans hAccepted'
  exact hAll argv (hSame ▸ hArgv)

/-! ## Two scripts -/

/-- No expansion at all. -/
def plainExpand (word : List Glyph) : List Text := [chars word]

theorem plainExpand_leavesInert : LeavesInert isExpansionChar plainExpand := fun _ _ => rfl

def quotedGrepScript : String := "grep -n \"a b\" '$x'"

def quotedGrep : Tree :=
  oneCommand quotedGrepScript "grep"
    [leaf "word" 5 "-n", quotedString 8 "a b", leaf "raw_string" 14 "'$x'"]

theorem plain_commands_run_quoted_grep :
    [["grep", "-n", "a b", "$x"].map String.toList] = quotedGrep.argvs plainExpand ∧
      ∀ argv ∈ quotedGrep.argvs plainExpand, isSafeToCallWithExec argv = true := by
  have hWell : quotedGrep.WellParsed quotedGrepScript.toList := ⟨by decide, by decide, by decide⟩
  have hTree : parserOf quotedGrepScript quotedGrep quotedGrepScript.toList = some quotedGrep :=
    if_pos rfl
  have hAccepted : tryParseWordOnlyCommandsSequence quotedGrep =
      some [["grep", "-n", "a b", "$x"].map String.toList] := by decide
  have hRun := (plain_commands_run_iff (parserOf_correct hWell) plainExpand_leavesInert hTree
    hAccepted (by decide)).mpr (by decide)
  exact ⟨hRun.1, hRun.2 "bash".toList "-lc".toList (by decide) (by decide)⟩

def escapedExecScript : String := "find . -\\exec touch x \\;"

/-- `find . -\exec touch x \;` -/
def escapedExec : Tree :=
  oneCommand escapedExecScript "find" [leaf "word" 5 ".", leaf "word" 7 "-\\exec",
    leaf "word" 14 "touch", leaf "word" 20 "x", leaf "word" 22 "\\;"]

/-- The check finds no `-exec` in this command and accepts it; bash passes `-exec` to `find`. -/
theorem escaped_exec_passes_check :
    escapedExec.WellParsed escapedExecScript.toList ∧ escapedExec.NoExpansion ∧
      tryParseWordOnlyCommandsSequence escapedExec =
        some [["find", ".", "-\\exec", "touch", "x", "\\;"].map String.toList] ∧
      escapedExec.argvs plainExpand =
        [["find", ".", "-exec", "touch", "x", ";"].map String.toList] ∧
      isKnownSafeCommand (parserOf escapedExecScript escapedExec)
        ["bash".toList, "-lc".toList, escapedExecScript.toList] = true ∧
      isSafeToCallWithExec (["find", ".", "-exec", "touch", "x", ";"].map String.toList) = false := by
  exact ⟨⟨by decide, by decide, by decide⟩, by decide, by decide, by decide, by decide, by decide⟩

end Codex.Shell
