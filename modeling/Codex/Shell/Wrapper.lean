import Codex.Std.Path
import Codex.Shell.Syntax

/-!
# Codex — shell wrappers

`shell_detect.rs`, `extract_bash_command` and `extract_powershell_command`: which
argvs run a script in a shell, and which script.
-/

namespace Codex.Shell

open PathBuf

/-- `ShellType`. -/
inductive ShellType where
  | zsh
  | bash
  | powerShell
  | sh
  | cmd
  deriving DecidableEq, Repr

/-- The names `detect_shell_type` knows. -/
def shellTypeOfName (name : Text) : Option ShellType :=
  if name = "zsh".toList then some .zsh
  else if name = "sh".toList then some .sh
  else if name = "cmd".toList then some .cmd
  else if name = "bash".toList then some .bash
  else if name = "pwsh".toList then some .powerShell
  else if name = "powershell".toList then some .powerShell
  else none

/-- The recursion of `detect_shell_type` through file stems, at most `fuel` of them. -/
def detectShellTypeLoop : Nat → Text → Option ShellType
  | 0, _ => none
  | fuel + 1, shellPath =>
    match shellTypeOfName shellPath with
    | some type => some type
    | none =>
      match (ofText shellPath).fileStem with
      | some shellName =>
        if ofText shellName ≠ ofText shellPath then
          detectShellTypeLoop fuel shellName
        else none
      | none => none

/-- `detect_shell_type`. -/
def detectShellType (shellPath : Text) : Option ShellType :=
  detectShellTypeLoop (shellPath.length + 1) shellPath

/-- A stem is shorter than the path it is taken from, unless it is that path. -/
theorem length_fileStem_lt {shellPath shellName : Text}
    (h : (ofText shellPath).fileStem = some shellName)
    (hNe : ofText shellName ≠ ofText shellPath) :
    shellName.length < shellPath.length := by
  obtain ⟨name, hName, rfl⟩ := Option.map_eq_some_iff.mp h
  have hSub := (stem_sublist name).trans (sublist_of_fileName hName)
  refine Nat.lt_of_le_of_ne hSub.length_le fun hLen => hNe ?_
  rw [hSub.eq_of_length hLen]

/-- The recursion is through with every stem after at most one turn for each character. -/
theorem detectShellTypeLoop_stable {m n : Nat} {shellPath : Text} (hm : shellPath.length < m)
    (hn : shellPath.length < n) :
    detectShellTypeLoop m shellPath = detectShellTypeLoop n shellPath := by
  induction m generalizing n shellPath with
  | zero => exact absurd hm (Nat.not_lt_zero _)
  | succ m ih =>
    rcases n with _ | n
    · exact absurd hn (Nat.not_lt_zero _)
    unfold detectShellTypeLoop
    cases shellTypeOfName shellPath with
    | some type => rfl
    | none =>
      rcases hStem : (ofText shellPath).fileStem with _ | shellName
      · rfl
      dsimp only
      split_ifs with hNe
      · have hLt := length_fileStem_lt hStem hNe
        exact ih (by omega) (by omega)
      · rfl

/-- `detect_shell_type`, as the source writes it. -/
theorem detectShellType_eq (shellPath : Text) : detectShellType shellPath =
      match shellTypeOfName shellPath with
      | some type => some type
      | none =>
        match (ofText shellPath).fileStem with
        | some shellName =>
          if ofText shellName ≠ ofText shellPath then detectShellType shellName
          else none
        | none => none := by
  rw [detectShellType, detectShellTypeLoop]
  cases shellTypeOfName shellPath with
  | some type => rfl
  | none =>
    rcases hStem : (ofText shellPath).fileStem with _ | shellName
    · rfl
    dsimp only
    split_ifs with hNe
    · have hLt := length_fileStem_lt hStem hNe
      exact detectShellTypeLoop_stable hLt (Nat.lt_succ_self _)
    · rfl

/-- `extract_bash_command`: the shell and the script. -/
def extractBashCommand : List Text → Option (Text × Text)
  | [shell, flag, script] =>
    if flag ≠ "-lc".toList ∧ flag ≠ "-c".toList ∨
        detectShellType shell ∉ [some .zsh, some .bash, some .sh] then none
    else some (shell, script)
  | _ => none

theorem extractBashCommand_eq_some {command : List Text} {shell script : Text}
    (h : extractBashCommand command = some (shell, script)) :
    ∃ flag, command = [shell, flag, script] ∧
      (flag = "-lc".toList ∨ flag = "-c".toList) ∧
      detectShellType shell ∈ [some .zsh, some .bash, some .sh] := by
  unfold extractBashCommand at h
  split at h
  · rename_i shell' flag script'
    split_ifs at h with hBad
    cases h
    push Not at hBad
    refine ⟨flag, rfl, ?_, hBad.2⟩
    by_cases hFlag : flag = "-lc".toList
    · exact .inl hFlag
    · exact .inr (hBad.1 hFlag)
  · cases h

/-- `POWERSHELL_FLAGS`. -/
def powershellFlags : List Text :=
  ["-nologo", "-noprofile", "-command", "-c"].map String.toList

/-- The search for the script: `command[i]` onwards, with `command[i + 1]` in range. -/
def findPowershellScript : List Text → Option Text
  | flag :: script :: rest =>
    let lower := Text.toAsciiLowercase flag
    if lower ∉ powershellFlags then none
    else if lower = "-command".toList ∨ lower = "-c".toList then some script
    else findPowershellScript (script :: rest)
  | _ => none

/-- `extract_powershell_command`. -/
def extractPowershellCommand (command : List Text) : Option (Text × Text) :=
  match command with
  | shell :: args =>
    if command.length < 3 then none
    else if detectShellType shell ≠ some .powerShell then none
    else (findPowershellScript args).map (shell, ·)
  | [] => none

/-- `parse_shell_lc_plain_commands`, over what `try_parse_shell` makes of a script. -/
def parseShellLcPlainCommands (tryParseShell : Text → Option Tree) (command : List Text) :
    Option (List (List Text)) := do
  let (_, script) ← extractBashCommand command
  let tree ← tryParseShell script
  tryParseWordOnlyCommandsSequence tree

end Codex.Shell
