import Codex.Shell.Tokens
import Codex.Shell.Wrapper

/-!
# Codex — approval keys

`core/src/command_canonicalization.rs`: the key under which an approval is
remembered. A wrapper with a single plain command is keyed by the words found in
it, any other wrapper by its mode and its script, and a direct argv by itself.

The key forgets how a word was quoted and whether there was a shell at all. What
a command amounts to is a script in a mode, or one argv whose words the shell may
still expand; `Same` compares commands by that. A command is `Clear` when its key
says what runs: its tokens are literal, and its name is not the reserved word
that starts the key of a script.
-/

namespace Codex.Shell

open Quoting

/-- `CANONICAL_BASH_SCRIPT_PREFIX`. -/
def canonicalBashScriptPrefix : Text := "__codex_shell_script__".toList

/-- `CANONICAL_POWERSHELL_SCRIPT_PREFIX`. -/
def canonicalPowershellScriptPrefix : Text := "__codex_powershell_script__".toList

/-- `canonicalize_command_for_approval`. -/
def canonicalizeCommandForApproval (tryParseShell : Text → Option Tree) (command : List Text) :
    List Text :=
  match parseShellLcPlainCommands tryParseShell command with
  | some [singleCommand] => singleCommand
  | _ =>
    match extractBashCommand command with
    | some (_, script) => [canonicalBashScriptPrefix, command[1]?.getD [], script]
    | none =>
      match extractPowershellCommand command with
      | some (_, script) => [canonicalPowershellScriptPrefix, script]
      | none => command

/-! ## What a command amounts to -/

section

variable (tryParseShell : Text → Option Tree)

/-- The characters of pathname expansion. -/
def isGlobChar (c : Char) : Bool := c = '*' || c = '?'

/-- The mode and the script of a wrapper. -/
def scriptOf (command : List Text) : Option (Text × Text) :=
  (extractBashCommand command).map fun (_, script) => (command[1]?.getD [], script)

/-- The command of a wrapper whose script is one plain command. -/
def singleCommandNode (command : List Text) : Option Node := do
  let (_, script) ← extractBashCommand command
  let tree ← tryParseShell script
  let _ ← tryParseWordOnlyCommandsSequence tree
  match tree.commands with
  | [cmd] => some cmd
  | _ => none

/-- The words of the single argv a command amounts to, as pathname expansion sees them: those of a
direct argv are literal. -/
def argvWords (command : List Text) : Option (List (List Glyph)) :=
  if (extractBashCommand command).isNone then some (command.map literal)
  else (singleCommandNode tryParseShell command).map fun cmd =>
    cmd.reading.map (mark isGlobChar)

/-- Both commands run the same script in the same mode. -/
def SameScript (command command' : List Text) : Prop :=
  ∃ script, scriptOf command = some script ∧ scriptOf command' = some script

/-- Both commands execute one argv, and the same one whatever the patterns in it match. -/
def SameArgv (command command' : List Text) : Prop :=
  ∃ words words', argvWords tryParseShell command = some words ∧
    argvWords tryParseShell command' = some words' ∧
    ∀ glob, LeavesInert isGlobChar glob → words.flatMap glob = words'.flatMap glob

/-- **The same command.** -/
def Same (command command' : List Text) : Prop :=
  SameScript command command' ∨ SameArgv tryParseShell command command'

/-! ## Conditions on the commands -/

/-- The commands whose approvals are compared: wrappers, and direct argvs that do not look like
the key of a script. -/
def Approvable (command : List Text) : Prop :=
  (extractBashCommand command).isSome = true ∨
    (extractPowershellCommand command = none ∧
      command.head? ∉ [some canonicalBashScriptPrefix, some canonicalPowershellScriptPrefix])

/-- Nothing in the command is dropped or expanded by the shell, and its name is not the reserved
word. Asked only of wrappers with one plain command. -/
def Clear (command : List Text) : Prop :=
  ∀ cmd ∈ singleCommandNode tryParseShell command,
    cmd.Literal isGlobChar ∧
      cmd.namedChildren.head?.bind parseWord ≠ some canonicalBashScriptPrefix

instance (command : List Text) : Decidable (Clear tryParseShell command) :=
  inferInstanceAs (Decidable (∀ cmd ∈ singleCommandNode tryParseShell command, _))

/-- Which `*` and `?` of a token are unquoted, in their order. -/
def Node.unquotedGlobs (word : Node) : List Bool :=
  ((removeQuotes word.text).filter (isGlobChar ·.char)).map Glyph.active

/-- The backslashes that are dropped from the tokens leave the same text, and the same `*` and `?`
of it are quoted. -/
def SameQuoting (word word' : Node) : Prop :=
  chars (removeQuotes word.text) = chars (removeQuotes word'.text) ∧
    word.unquotedGlobs = word'.unquotedGlobs

/-- Both are wrappers with one plain command, and quote alike token by token. -/
def SameTokens (command command' : List Text) : Prop :=
  ∃ cmd ∈ singleCommandNode tryParseShell command,
    ∃ cmd' ∈ singleCommandNode tryParseShell command',
      List.Forall₂ SameQuoting cmd.namedChildren cmd'.namedChildren

end

theorem sameQuoting_iff {cmd cmd' : Node} :
    List.Forall₂ SameQuoting cmd.namedChildren cmd'.namedChildren ↔
      cmd.reading.map (mark isGlobChar) = cmd'.reading.map (mark isGlobChar) := by
  rw [Node.reading, Node.reading, List.map_map, List.map_map, ← List.forall₂_eq_eq_eq,
    List.forall₂_map_left_iff, List.forall₂_map_right_iff]
  simp only [Function.comp_apply, mark_eq_mark_iff]
  rfl

/-! ## The three kinds of keys -/

variable {tryParseShell : Text → Option Tree} {command command' : List Text}

variable {words : List Text} {cmd : Node}

section

variable (hParse : ParsesCorrectly tryParseShell)
include hParse

/-- The node behind a wrapper that is keyed by its words. -/
theorem singleCommandNode_of_plain
    (h : parseShellLcPlainCommands tryParseShell command = some [words]) :
    ∃ cmd, singleCommandNode tryParseShell command = some cmd ∧
      (∀ word ∈ cmd.namedChildren, WordOk word) ∧ parsePlainCommandFromNode cmd = some words := by
  obtain ⟨⟨shell, script⟩, hWrapper, hRest⟩ := Option.bind_eq_some_iff.mp h
  obtain ⟨tree, hTree, hPlain⟩ := Option.bind_eq_some_iff.mp hRest
  have hWell := hParse.of_accepted hTree hPlain
  have hFound := ((tryParse_eq_some_iff hWell.ordered).mp hPlain).2.2
  rcases hCommands : tree.commands with _ | ⟨cmd, rest⟩
  · rw [hCommands] at hFound; cases hFound
  rw [hCommands] at hFound
  cases hFound with
  | cons hCmd hNone =>
    cases hNone
    refine ⟨cmd, ?_, hWell.words cmd (hCommands ▸ List.mem_singleton_self cmd), hCmd⟩
    simp [singleCommandNode, hWrapper, hTree, hPlain, hCommands]

theorem singleCommandNode_of_not_plain
    (h : ∀ words, parseShellLcPlainCommands tryParseShell command ≠ some [words]) :
    singleCommandNode tryParseShell command = none := by
  rw [Option.eq_none_iff_forall_ne_some]
  intro cmd hSingle
  obtain ⟨⟨shell, script⟩, hWrapper, hRest⟩ := Option.bind_eq_some_iff.mp hSingle
  obtain ⟨tree, hTree, hRest⟩ := Option.bind_eq_some_iff.mp hRest
  obtain ⟨commands, hPlain, hRest⟩ := Option.bind_eq_some_iff.mp hRest
  have hFound :=
    ((tryParse_eq_some_iff (hParse.of_accepted hTree hPlain).ordered).mp hPlain).2.2
  split at hRest
  · rename_i cmd' hCommands
    -- one command node, hence one list of words
    rw [hCommands] at hFound
    cases hFound with
    | @cons _ words _ _ hCmd hNone =>
      cases hNone
      refine h words ?_
      simp [parseShellLcPlainCommands, hWrapper, hTree, hPlain]
  · cases hRest

/-- **The kinds of keys**: the words of a single plain command, a script, a direct argv. -/
theorem key_cases (h : Approvable command) :
    (∃ cmd, singleCommandNode tryParseShell command = some cmd ∧
      argvWords tryParseShell command = some (cmd.reading.map (mark isGlobChar)) ∧
      (∀ word ∈ cmd.namedChildren, WordOk word) ∧
      parsePlainCommandFromNode cmd =
        some (canonicalizeCommandForApproval tryParseShell command)) ∨
    (singleCommandNode tryParseShell command = none ∧
      argvWords tryParseShell command = none ∧
      ∃ mode script, scriptOf command = some (mode, script) ∧
        canonicalizeCommandForApproval tryParseShell command =
          [canonicalBashScriptPrefix, mode, script]) ∨
    (singleCommandNode tryParseShell command = none ∧
      argvWords tryParseShell command =
        some ((canonicalizeCommandForApproval tryParseShell command).map literal) ∧
      (canonicalizeCommandForApproval tryParseShell command).head? ≠
        some canonicalBashScriptPrefix) := by
  by_cases hPlain : ∃ words, parseShellLcPlainCommands tryParseShell command = some [words]
  · obtain ⟨words, hWords⟩ := hPlain
    obtain ⟨cmd, hSingle, hOk, hCmd⟩ := singleCommandNode_of_plain hParse hWords
    refine .inl ⟨cmd, hSingle, ?_, hOk, ?_⟩
    · obtain ⟨wrapper, hWrapper, -⟩ := Option.bind_eq_some_iff.mp hWords
      simp [argvWords, hWrapper, hSingle]
    · rw [hCmd, canonicalizeCommandForApproval, hWords]
  · push Not at hPlain
    have hNone := singleCommandNode_of_not_plain hParse hPlain
    have hKey := canonicalizeCommandForApproval.eq_def tryParseShell command
    split at hKey
    · rename_i words hWords
      exact absurd hWords (hPlain words)
    cases hWrapper : extractBashCommand command with
    | some wrapper =>
      obtain ⟨shell, script⟩ := wrapper
      refine .inr (.inl ⟨hNone, by simp [argvWords, hWrapper, hNone],
        command[1]?.getD [], script, by simp [scriptOf, hWrapper], ?_⟩)
      rw [hKey, hWrapper]
    | none =>
      have hDirect := h.resolve_left (by simp [hWrapper])
      have hSelf : canonicalizeCommandForApproval tryParseShell command = command := by
        rw [hKey, hWrapper, hDirect.1]
      rw [hSelf]
      refine .inr (.inr ⟨hNone, by simp [argvWords, hWrapper], fun hHead => hDirect.2 ?_⟩)
      rw [hHead]
      exact List.mem_cons_self

/-! ## Equal keys -/

omit hParse in
/-- The first word of the key of a single plain command. -/
theorem head_of_parsePlainCommand (h : parsePlainCommandFromNode cmd = some words) :
    cmd.namedChildren.head?.bind parseWord = words.head? := by
  have hFound := forall₂_of_parsePlainCommand h
  cases hChildren : cmd.namedChildren with
  | nil => rw [hChildren] at hFound; cases hFound; rfl
  | cons word rest =>
    rw [hChildren] at hFound
    cases hFound with
    | cons hHead _ => exact hHead

/-- The key of a clear command says what runs. -/
theorem Clear.key_cases (h : Approvable command)
    (hClear : Clear tryParseShell command) : (argvWords tryParseShell command =
        some ((canonicalizeCommandForApproval tryParseShell command).map literal) ∧
      (canonicalizeCommandForApproval tryParseShell command).head? ≠
        some canonicalBashScriptPrefix) ∨
    (argvWords tryParseShell command = none ∧
      ∃ mode script, scriptOf command = some (mode, script) ∧
        canonicalizeCommandForApproval tryParseShell command =
          [canonicalBashScriptPrefix, mode, script]) := by
  rcases Shell.key_cases hParse h with ⟨cmd, hSingle, hWords, hOk, hCmd⟩ | hScript | hDirect
  · obtain ⟨hLiteral, hName⟩ := hClear cmd hSingle
    rw [head_of_parsePlainCommand hCmd] at hName
    rw [hWords, (reading_eq_literal_iff hOk hCmd).mpr hLiteral]
    exact .inl ⟨rfl, hName⟩
  · exact .inr hScript.2
  · exact .inl hDirect.2

omit hParse in
/-- The words of an argv are marked for pathname expansion. -/
theorem mark_argvWords {words : List (List Glyph)}
    (h : argvWords tryParseShell command = some words) :
    ∀ word ∈ words, mark isGlobChar word = word := by
  unfold argvWords at h
  split_ifs at h
  · cases h
    intro word hWord
    obtain ⟨cs, -, rfl⟩ := List.mem_map.mp hWord
    exact mark_literal _ _
  · obtain ⟨cmd, -, rfl⟩ := Option.map_eq_some_iff.mp h
    intro word hWord
    obtain ⟨gs, -, rfl⟩ := List.mem_map.mp hWord
    exact mark_mark _ _

omit hParse in
/-- The same argv is an argv of the same words. -/
theorem sameArgv_iff : SameArgv tryParseShell command command' ↔
      ∃ words, argvWords tryParseShell command = some words ∧
        argvWords tryParseShell command' = some words := by
  constructor
  · rintro ⟨words, words', hWords, hWords', hSame⟩
    have hEq := eq_of_forall_expand (mark_argvWords hWords) (mark_argvWords hWords') hSame
    exact ⟨words, hWords, hEq ▸ hWords'⟩
  · rintro ⟨words, hWords, hWords'⟩
    exact ⟨words, words, hWords, hWords', fun _ _ => rfl⟩

omit hParse in
/-- A command without a single plain command behind it is clear. -/
theorem clear_of_none (h : singleCommandNode tryParseShell command = none) :
    Clear tryParseShell command := by
  intro cmd hCmd
  rw [h] at hCmd
  cases hCmd

omit hParse in
/-- One script has one tree, so what is found in it is found in both commands. -/
theorem clear_or_sameTokens_of_sameScript (h : SameScript command command') :
    (Clear tryParseShell command ∧ Clear tryParseShell command') ∨
      SameTokens tryParseShell command command' := by
  obtain ⟨script, hScript, hScript'⟩ := h
  obtain ⟨wrapper, hWrapper, rfl⟩ := Option.map_eq_some_iff.mp hScript
  obtain ⟨wrapper', hWrapper', hEq⟩ := Option.map_eq_some_iff.mp hScript'
  have hSame : singleCommandNode tryParseShell command' = singleCommandNode tryParseShell command := by
    simp only [singleCommandNode, hWrapper, hWrapper', Option.bind_eq_bind, Option.bind_some,
      (Prod.mk.inj hEq).2]
  rcases hSingle : singleCommandNode tryParseShell command with _ | cmd
  · exact .inl ⟨clear_of_none hSingle, clear_of_none (hSame.trans hSingle)⟩
  · exact .inr ⟨cmd, hSingle, cmd, hSame.trans hSingle, sameQuoting_iff.mpr rfl⟩

omit hParse in
/-- A wrapper that executes its key, and whose key is not that of a script, is clear. -/
theorem clear_of_argvWords (hSingle : singleCommandNode tryParseShell command = some cmd)
    (hOk : ∀ word ∈ cmd.namedChildren, WordOk word)
    (hCmd : parsePlainCommandFromNode cmd = some words)
    (hReads : cmd.reading.map (mark isGlobChar) = words.map literal)
    (hHead : words.head? ≠ some canonicalBashScriptPrefix) : Clear tryParseShell command := by
  intro found hFound
  cases hSingle.symm.trans hFound
  refine ⟨(reading_eq_literal_iff hOk hCmd).mp hReads, ?_⟩
  rw [head_of_parsePlainCommand hCmd]
  exact hHead

theorem argvWords_of_single (h : Approvable command)
    (hCmd : singleCommandNode tryParseShell command = some cmd) :
    argvWords tryParseShell command = some (cmd.reading.map (mark isGlobChar)) := by
  rcases key_cases hParse h with ⟨found, hSingle, hArgv, -, -⟩ | ⟨hNone, -⟩ | ⟨hNone, -⟩
  · cases hCmd.symm.trans hSingle
    exact hArgv
  · rw [hNone] at hCmd; cases hCmd
  · rw [hNone] at hCmd; cases hCmd

variable (h : Approvable command) (h' : Approvable command')
  (hKey : canonicalizeCommandForApproval tryParseShell command =
    canonicalizeCommandForApproval tryParseShell command')
include h h' hKey

/-- Commands with one key that execute the same argv are clear, or quote alike. -/
theorem clear_or_sameTokens_of_sameArgv (hSame : SameArgv tryParseShell command command') :
    (Clear tryParseShell command ∧ Clear tryParseShell command') ∨
      SameTokens tryParseShell command command' := by
  obtain ⟨words, hWords, hWords'⟩ := sameArgv_iff.mp hSame
  rcases key_cases hParse h with
    ⟨cmd, hSingle, hArgv, hOk, hCmd⟩ | ⟨-, hNone, -⟩ | ⟨hDirect, hArgv, hHead⟩
  · cases hWords.symm.trans hArgv
    rcases key_cases hParse h' with
      ⟨cmd', hSingle', hArgv', -, -⟩ | ⟨-, hNone', -⟩ | ⟨hDirect', hArgv', hHead'⟩
    · exact .inr ⟨cmd, hSingle, cmd', hSingle',
        sameQuoting_iff.mpr (Option.some.inj (hWords'.symm.trans hArgv'))⟩
    · rw [hNone'] at hWords'; cases hWords'
    · -- a direct argv executes its key, so the wrapper does
      rw [← hKey] at hArgv' hHead'
      exact .inl ⟨clear_of_argvWords hSingle hOk hCmd
        (Option.some.inj (hWords'.symm.trans hArgv')) hHead', clear_of_none hDirect'⟩
  · rw [hNone] at hWords; cases hWords
  · cases hWords.symm.trans hArgv
    rcases key_cases hParse h' with
      ⟨cmd', hSingle', hArgv', hOk', hCmd'⟩ | ⟨-, hNone', -⟩ | ⟨hDirect', -, -⟩
    · rw [hKey] at hWords' hHead
      exact .inl ⟨clear_of_none hDirect, clear_of_argvWords hSingle' hOk' hCmd'
        (Option.some.inj (hArgv'.symm.trans hWords')) hHead⟩
    · rw [hNone'] at hWords'; cases hWords'
    · exact .inl ⟨clear_of_none hDirect, clear_of_none hDirect'⟩

end

/-- **What an approval is reused for.** Two commands with one key are the same command exactly
when both are clear, or they are wrappers of one plain command each that quote alike. -/
theorem approval_key_same_iff
    (hParse : ParsesCorrectly tryParseShell)
    (h : Approvable command) (h' : Approvable command')
    (hKey : canonicalizeCommandForApproval tryParseShell command =
      canonicalizeCommandForApproval tryParseShell command') :
    Same tryParseShell command command' ↔
      (Clear tryParseShell command ∧ Clear tryParseShell command') ∨
        SameTokens tryParseShell command command' := by
  constructor
  · rintro (hScript | hArgv)
    · exact clear_or_sameTokens_of_sameScript hScript
    · exact clear_or_sameTokens_of_sameArgv hParse h h' hKey hArgv
  rintro (⟨hClear, hClear'⟩ | ⟨cmd, hCmd, cmd', hCmd', hQuoting⟩)
  · rcases hClear.key_cases hParse h with ⟨hArgv, hHead⟩ | ⟨-, mode, script, hScript, hKeyOf⟩ <;>
      rcases hClear'.key_cases hParse h' with
        ⟨hArgv', hHead'⟩ | ⟨-, mode', script', hScript', hKeyOf'⟩
    · rw [← hKey] at hArgv'
      exact .inr (sameArgv_iff.mpr ⟨_, hArgv, hArgv'⟩)
    · rw [hKey, hKeyOf'] at hHead
      exact absurd rfl hHead
    · rw [← hKey, hKeyOf] at hHead'
      exact absurd rfl hHead'
    · -- two scripts with the same key
      rw [hKeyOf, hKeyOf'] at hKey
      cases hKey
      exact .inl ⟨_, hScript, hScript'⟩
  · refine .inr (sameArgv_iff.mpr ⟨_, argvWords_of_single hParse h hCmd, ?_⟩)
    rw [sameQuoting_iff.mp hQuoting]
    exact argvWords_of_single hParse h' hCmd'

def listLong : Tree := oneCommand "ls -l" "ls" [leaf "word" 3 "-l"]

theorem approval_key_same_ls :
    Same (parserOf "ls -l" listLong) (["/bin/bash", "-lc", "ls -l"].map String.toList)
      (["ls", "-l"].map String.toList) := by
  have hWell : listLong.WellParsed "ls -l".toList := ⟨by decide, by decide, by decide⟩
  exact (approval_key_same_iff (parserOf_correct hWell) (.inl (by decide))
    (.inr ⟨by decide, by decide⟩) (by decide)).mpr (.inl ⟨by decide, by decide⟩)

def listAll : Tree := oneCommand "ls *" "ls" [leaf "word" 3 "*"]

/-- `ls *` in a shell lists what the pattern matches; the direct argv lists a file named `*`. -/
theorem pattern_shares_key_with_literal :
    listAll.WellParsed "ls *".toList ∧
      Approvable (["bash", "-lc", "ls *"].map String.toList) ∧
      Approvable (["ls", "*"].map String.toList) ∧
      canonicalizeCommandForApproval (parserOf "ls *" listAll)
          (["bash", "-lc", "ls *"].map String.toList) =
        canonicalizeCommandForApproval (parserOf "ls *" listAll)
          (["ls", "*"].map String.toList) ∧
      ¬ Same (parserOf "ls *" listAll) (["bash", "-lc", "ls *"].map String.toList)
        (["ls", "*"].map String.toList) := by
  refine ⟨⟨by decide, by decide, by decide⟩, .inl (by decide), .inr ⟨by decide, by decide⟩,
    by decide, ?_⟩
  rintro (⟨script, -, hScript⟩ | hArgv)
  · -- a direct argv has no script
    exact absurd (hScript.symm.trans
      (show scriptOf (["ls", "*"].map String.toList) = none by decide)) (by simp)
  · obtain ⟨words, hWords, hWords'⟩ := sameArgv_iff.mp hArgv
    exact absurd (hWords.trans hWords'.symm) (by decide)

end Codex.Shell
