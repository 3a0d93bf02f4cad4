import Codex.Shell.Wrapper

/-!
# Codex — known safe commands

`command_safety/is_safe_command.rs` on Linux: the argvs that run without asking.

An argv is judged by the file name of its first word; a few programs are safe
whatever their arguments, the others only without the options that write or
execute. `is_known_safe_command` accepts an argv for itself, or a `bash -lc`
wrapper all plain commands of which are accepted.
-/

namespace Codex.Shell

open Text

/-- `executable_name_lookup_key`, off Windows. -/
def executableNameLookupKey (raw : Text) : Option Text := (PathBuf.ofText raw).fileName

/-! ## git -/

variable (arg : Text)

/-- `is_git_global_option_with_value`. -/
def isGitGlobalOptionWithValue : Bool :=
  (["-C", "-c", "--config-env", "--exec-path", "--git-dir", "--namespace", "--super-prefix",
    "--work-tree"].map String.toList).contains arg

/-- `is_git_global_option_with_inline_value`. -/
def isGitGlobalOptionWithInlineValue : Bool :=
  (["--config-env=", "--exec-path=", "--git-dir=", "--namespace=", "--super-prefix=",
    "--work-tree="].map String.toList).any (Text.startsWith · arg) ||
  ((startsWith "-C".toList arg || startsWith "-c".toList arg) && arg.length > 2)

/-- The loop of `find_git_subcommand` from `command[idx]` on. -/
def findGitSubcommandLoop (subcommands : List Text) : Nat → Bool → List Text → Option (Nat × Text)
  | _, _, [] => none
  | idx, true, _ :: args => findGitSubcommandLoop subcommands (idx + 1) false args
  | idx, false, arg :: args =>
    if isGitGlobalOptionWithInlineValue arg then
      findGitSubcommandLoop subcommands (idx + 1) false args
    else if isGitGlobalOptionWithValue arg then
      findGitSubcommandLoop subcommands (idx + 1) true args
    else if arg = "--".toList ∨ Text.startsWith "-".toList arg then
      findGitSubcommandLoop subcommands (idx + 1) false args
    else if arg ∈ subcommands then some (idx, arg)
    else none

/-- `find_git_subcommand`. -/
def findGitSubcommand (command subcommands : List Text) : Option (Nat × Text) :=
  match command with
  | cmd0 :: args =>
    if executableNameLookupKey cmd0 ≠ some "git".toList then none
    else findGitSubcommandLoop subcommands 1 false args
  | [] => none

/-- `GitOptionPattern`; its `Exact` and `Prefix`. -/
inductive GitOptionPattern where
  | exactly (option : String)
  | shortWithInlineValue (option : String)
  | startingWith (option : String)

/-- `GitOptionPattern::matches`. -/
def GitOptionPattern.matches : GitOptionPattern → Bool
  | .exactly option => arg = option.toList
  | .shortWithInlineValue option =>
    startsWith option.toList arg && arg.length > option.toList.length
  | .startingWith option => startsWith option.toList arg

/-- `UNSAFE_GIT_GLOBAL_OPTIONS`. -/
def unsafeGitGlobalOptions : List GitOptionPattern :=
  [.exactly "-C", .shortWithInlineValue "-C", .exactly "-c", .shortWithInlineValue "-c",
    .exactly "-p",
    .exactly "--config-env", .startingWith "--config-env=",
    .exactly "--exec-path", .startingWith "--exec-path=",
    .exactly "--git-dir", .startingWith "--git-dir=",
    .exactly "--namespace", .startingWith "--namespace=",
    .exactly "--paginate",
    .exactly "--super-prefix", .startingWith "--super-prefix=",
    .exactly "--work-tree", .startingWith "--work-tree="]

/-- `UNSAFE_GIT_SUBCOMMAND_OPTIONS`. -/
def unsafeGitSubcommandOptions : List GitOptionPattern :=
  [.exactly "--output", .startingWith "--output=", .exactly "--ext-diff", .exactly "--textconv",
    .exactly "--exec", .startingWith "--exec="]

/-- `git_matches_option_pattern`. -/
def gitMatchesOptionPattern (patterns : List GitOptionPattern) : Bool :=
  patterns.any (·.matches arg)

/-- `git_has_unsafe_global_option`. -/
def gitHasUnsafeGlobalOption (globalArgs : List Text) : Bool :=
  globalArgs.any (gitMatchesOptionPattern · unsafeGitGlobalOptions)

/-- `git_subcommand_args_are_read_only`. -/
def gitSubcommandArgsAreReadOnly (args : List Text) : Bool :=
  !args.any (gitMatchesOptionPattern · unsafeGitSubcommandOptions)

/-- The flags after which `git branch` only lists. -/
def gitBranchReadOnlyFlag : Bool :=
  (["--list", "-l", "--show-current", "-a", "--all", "-r", "--remotes", "-v", "-vv",
    "--verbose"].map String.toList).contains arg || Text.startsWith "--format=".toList arg

/-- `git_branch_is_read_only`: the loop leaves with `false` at the first argument that is no such
flag, and every flag sets `saw_read_only_flag`. -/
def gitBranchIsReadOnly (branchArgs : List Text) : Bool :=
  branchArgs.all gitBranchReadOnlyFlag

variable (command : List Text)

/-- `is_safe_git_command`. -/
def isSafeGitCommand : Bool :=
  match findGitSubcommand command
      (["status", "log", "diff", "show", "branch"].map String.toList) with
  | none => false
  | some (subcommandIdx, subcommand) =>
    let globalArgs := (command.take subcommandIdx).drop 1
    let subcommandArgs := command.drop (subcommandIdx + 1)
    if gitHasUnsafeGlobalOption globalArgs then false
    else if subcommand = "branch".toList then
      gitSubcommandArgsAreReadOnly subcommandArgs && gitBranchIsReadOnly subcommandArgs
    else gitSubcommandArgsAreReadOnly subcommandArgs

/-! ## The other programs -/

/-- `is_valid_sed_n_arg`: `10p` or `1,5p`. -/
def isValidSedNArg (arg : Option Text) : Bool :=
  match arg.bind (stripSuffix? "p".toList) with
  | none => false
  | some core =>
    let number (part : Text) : Bool := part ≠ [] && part.all Char.isDigit
    match split ',' core with
    | [num] => number num
    | [a, b] => number a && number b
    | _ => false

/-- The programs that are safe with any arguments, `numfmt` and `tac` on Linux. -/
def alwaysSafeNames : List Text :=
  ["numfmt", "tac", "cat", "cd", "cut", "echo", "expr", "false", "grep", "head", "id", "ls", "nl",
    "paste", "pwd", "rev", "seq", "stat", "tail", "tr", "true", "uname", "uniq", "wc", "which",
    "whoami"].map String.toList

/-- `base64`, unless it writes its output to a file. -/
def isSafeBase64 : Bool :=
  !(command.drop 1).any fun arg =>
    (["-o", "--output"].map String.toList).contains arg ||
      startsWith "--output=".toList arg ||
      (startsWith "-o".toList arg && arg ≠ "-o".toList)

/-- `UNSAFE_FIND_OPTIONS`. -/
def unsafeFindOptions : List Text :=
  ["-exec", "-execdir", "-ok", "-okdir", "-delete", "-fls", "-fprint", "-fprint0",
    "-fprintf"].map String.toList

def isSafeFind : Bool :=
  !command.any (unsafeFindOptions.contains ·)

/-- Ripgrep, unless it calls another program. -/
def isSafeRipgrep : Bool :=
  !command.any fun arg =>
    (["--search-zip", "-z"].map String.toList).contains arg ||
      (["--pre", "--hostname-bin"].map String.toList).any fun opt =>
        arg = opt || startsWith (opt ++ ['=']) arg

/-- `sed -n {N|M,N}p`. -/
def isSafeSed : Bool :=
  command.length ≤ 4 && command[1]? = some "-n".toList && isValidSedNArg command[2]?

/-- `is_safe_to_call_with_exec`. -/
def isSafeToCallWithExec : Bool :=
  match command.head?.bind executableNameLookupKey with
  | none => false
  | some cmd =>
    if cmd ∈ alwaysSafeNames then true
    else if cmd = "base64".toList then isSafeBase64 command
    else if cmd = "find".toList then isSafeFind command
    else if cmd = "rg".toList then isSafeRipgrep command
    else if cmd = "git".toList then isSafeGitCommand command
    else if cmd = "sed".toList then isSafeSed command
    else false

/-! ## Wrappers -/

/-- A word of the command as `is_known_safe_command` reads it. -/
def zshAsBash (word : Text) : Text := if word = "zsh".toList then "bash".toList else word

/-- `is_known_safe_command`. -/
def isKnownSafeCommand (tryParseShell : Text → Option Tree) (command : List Text) : Bool :=
  let command := command.map zshAsBash
  if isSafeToCallWithExec command then true
  else
    match parseShellLcPlainCommands tryParseShell command with
    | none => false
    | some allCommands => allCommands ≠ [] && allCommands.all isSafeToCallWithExec

/-! ## What is safe is no shell -/

/-- The programs `is_safe_to_call_with_exec` may accept. -/
def safeNames : List Text :=
  alwaysSafeNames ++ ["base64", "find", "rg", "git", "sed"].map String.toList

variable {word : Text}

theorem safeName_of_isSafe {args : List Text} (h : isSafeToCallWithExec (word :: args) = true) :
    ∃ name ∈ safeNames, executableNameLookupKey word = some name := by
  unfold isSafeToCallWithExec at h
  rw [List.head?_cons, Option.bind_some] at h
  rcases hKey : executableNameLookupKey word with _ | cmd
  · simp [hKey] at h
  refine ⟨cmd, ?_, rfl⟩
  rw [hKey] at h
  dsimp only at h
  split_ifs at h with hAlways hBase64 hFind hRg hGit hSed
  · exact List.mem_append_left _ hAlways
  all_goals exact List.mem_append_right _ (by simp [*])

theorem shellTypeOfName_safe {type : ShellType} (h : shellTypeOfName word = some type) :
    ∀ name ∈ safeNames, executableNameLookupKey word ≠ some name := by
  unfold shellTypeOfName at h
  split_ifs at h <;> subst word <;> decide

theorem safeNames_are_stems :
    ∀ name ∈ safeNames, PathBuf.stem name = name ∧ detectShellType name = none := by
  decide

/-- No path to a safe program is taken for a shell: its name has no extension to strip. -/
theorem detectShellType_of_safeName {name : Text} (hName : name ∈ safeNames)
    (hKey : executableNameLookupKey word = some name) : detectShellType word = none := by
  obtain ⟨hStem, hNone⟩ := safeNames_are_stems name hName
  have hFileStem : (PathBuf.ofText word).fileStem = some name := by
    rw [PathBuf.fileStem, show (PathBuf.ofText word).fileName = some name from hKey,
      Option.map_some, hStem]
  rw [detectShellType_eq]
  cases hType : shellTypeOfName word with
  | some type => exact absurd hKey (shellTypeOfName_safe hType name hName)
  | none =>
    simp [hFileStem, hNone]

end Codex.Shell
