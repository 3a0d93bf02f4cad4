import Codex.Permissions.Roots
import Mathlib.Data.List.Sort
import Mathlib.Data.String.Basic

/-!
# Codex — semantic signatures and the legacy projection

When may a policy be enforced through the older `SandboxPolicy`? The code projects
it (`toLegacySandboxPolicy`), expands the projection back
(`legacyRuntimeFileSystemPolicyForCwd`) and compares signatures: the derived roots
of both, in a canonical order (`semanticSignature`).

Definitions only; soundness is in `Codex.Permissions.Signature`.
-/

namespace Codex

/-! ## Signatures -/

structure FileSystemSemanticSignature where
  hasFullDiskReadAccess : Bool
  hasFullDiskWriteAccess : Bool
  includePlatformDefaults : Bool
  readableRoots : List AbsolutePathBuf
  writableRoots : List WritableRoot
  unreadableRoots : List AbsolutePathBuf
  unreadableGlobs : List Text
  deriving DecidableEq

/-- Paths are compared component by component. -/
def sortedAbsolutePaths (paths : List AbsolutePathBuf) : List AbsolutePathBuf :=
  paths.insertionSort fun left right => left.components ≤ right.components

def sortedWritableRoots (roots : List WritableRoot) : List WritableRoot :=
  let normalized := roots.map fun w =>
    { w with
      readOnlySubpaths := sortedAbsolutePaths w.readOnlySubpaths
      -- sorted and deduplicated
      protectedMetadataNames :=
        (w.protectedMetadataNames.insertionSort (· ≤ ·)).foldl pushUnique [] }
  normalized.insertionSort fun left right => left.root.components ≤ right.root.components

namespace FileSystemSandboxPolicy

def semanticSignature (policy : FileSystemSandboxPolicy) (machine : Machine) (cwd : PathBuf) :
    FileSystemSemanticSignature :=
  { hasFullDiskReadAccess := policy.hasFullDiskReadAccess
    hasFullDiskWriteAccess := policy.hasFullDiskWriteAccess
    includePlatformDefaults := policy.includePlatformDefaults
    readableRoots := sortedAbsolutePaths (policy.getReadableRootsWithCwd machine.toHost cwd)
    writableRoots := sortedWritableRoots (policy.getWritableRootsWithCwd machine cwd)
    unreadableRoots := sortedAbsolutePaths (policy.getUnreadableRootsWithCwd machine.toHost cwd)
    unreadableGlobs :=
      (policy.getUnreadableGlobsWithCwd machine.toHost cwd).insertionSort (· ≤ ·) }

def isSemanticallyEquivalentTo (policy other : FileSystemSandboxPolicy) (machine : Machine)
    (cwd : PathBuf) : Bool :=
  policy.semanticSignature machine cwd = other.semanticSignature machine cwd

def unrestricted : FileSystemSandboxPolicy :=
  { kind := .unrestricted, globScanMaxDepth := none, entries := [] }

def externalSandbox : FileSystemSandboxPolicy :=
  { kind := .externalSandbox, globScanMaxDepth := none, entries := [] }

end FileSystemSandboxPolicy

/-! ## The legacy policy -/

inductive NetworkSandboxPolicy where
  | restricted
  | enabled
  deriving DecidableEq, Repr

def NetworkSandboxPolicy.isEnabled (network : NetworkSandboxPolicy) : Bool := network == enabled

inductive NetworkAccess where
  | restricted
  | enabled
  deriving DecidableEq, Repr

inductive SandboxPolicy where
  | dangerFullAccess
  | readOnly (networkAccess : Bool)
  | externalSandbox (networkAccess : NetworkAccess)
  | workspaceWrite (writableRoots : List AbsolutePathBuf) (networkAccess excludeTmpdirEnvVar
      excludeSlashTmp : Bool)
  deriving DecidableEq, Repr

/-- `SandboxPolicy::get_writable_roots_with_cwd`. -/
def SandboxPolicy.getWritableRootsWithCwd (policy : SandboxPolicy) (machine : Machine)
    (cwd : PathBuf) : List WritableRoot :=
  match policy with
  | .dangerFullAccess | .externalSandbox _ | .readOnly _ => []
  | .workspaceWrite writableRoots _ excludeTmpdirEnvVar excludeSlashTmp =>
    let cwdRoot := cwdAbsolute machine.toHost cwd
    let slashTmp :=
      if !excludeSlashTmp && machine.isDir slashTmpPath then [slashTmpPath] else []
    let tmpdir := if excludeTmpdirEnvVar then [] else (resolveTmpdir machine.toHost).toList
    (writableRoots ++ cwdRoot.toList ++ slashTmp ++ tmpdir).map fun writableRoot =>
      { root := writableRoot
        readOnlySubpaths :=
          defaultReadOnlySubpathsForWritableRoot machine writableRoot
            (cwdRoot.any fun cwdRoot => cwdRoot == writableRoot)
        protectedMetadataNames := [] }

/-- `append_default_read_only_entry_if_no_explicit_rule`. -/
def appendDefaultReadOnlyEntryIfNoExplicitRule (entries : List FileSystemSandboxEntry)
    (path : FileSystemPath) : List FileSystemSandboxEntry :=
  if entries.any fun entry => fileSystemPathsShareTarget entry.path path then entries
  else entries ++ [{ path, access := .read }]

/-- The entries common to both expansions of `WorkspaceWrite`. -/
def workspaceWriteEntries (writableRoots : List AbsolutePathBuf)
    (excludeTmpdirEnvVar excludeSlashTmp : Bool) : List FileSystemSandboxEntry :=
  [⟨.special .root, .read⟩, ⟨.special (.projectRoots none), .write⟩] ++
    (if excludeSlashTmp then [] else [⟨.special .slashTmp, .write⟩]) ++
    (if excludeTmpdirEnvVar then [] else [⟨.special .tmpdir, .write⟩]) ++
    writableRoots.map fun path => ⟨.path path, .write⟩

/-- The default carve-outs of the given writable roots, added where no entry names them. -/
def appendDefaultSubpaths (machine : Machine) (writableRoots : List AbsolutePathBuf)
    (entries : List FileSystemSandboxEntry) : List FileSystemSandboxEntry :=
  writableRoots.foldl (fun entries writableRoot =>
    (defaultReadOnlySubpathsForWritableRoot machine writableRoot false).foldl
      (fun entries path => appendDefaultReadOnlyEntryIfNoExplicitRule entries (.path path))
      entries) entries

namespace FileSystemSandboxPolicy

/-- `FileSystemSandboxPolicy::workspace_write`. -/
def workspaceWrite (machine : Machine) (writableRoots : List AbsolutePathBuf)
    (excludeTmpdirEnvVar excludeSlashTmp : Bool) : FileSystemSandboxPolicy :=
  let entries := workspaceWriteEntries writableRoots excludeTmpdirEnvVar excludeSlashTmp
  let projectSubpaths : List FileSystemPath :=
    [".git", ".agents", ".codex"].map fun name =>
      .special (.projectRoots (some { hasRoot := false, components := [.normal name] }))
  restricted (appendDefaultSubpaths machine writableRoots
    (projectSubpaths.foldl appendDefaultReadOnlyEntryIfNoExplicitRule entries))

/-- `FileSystemSandboxPolicy::from(&SandboxPolicy)`. -/
def ofSandboxPolicy (machine : Machine) : SandboxPolicy → FileSystemSandboxPolicy
  | .dangerFullAccess => unrestricted
  | .externalSandbox _ => externalSandbox
  | .readOnly _ => restricted [⟨.special .root, .read⟩]
  | .workspaceWrite writableRoots _ excludeTmpdirEnvVar excludeSlashTmp =>
    workspaceWrite machine writableRoots excludeTmpdirEnvVar excludeSlashTmp

end FileSystemSandboxPolicy

def legacyRuntimeFileSystemPolicyForCwd (machine : Machine) (sandboxPolicy : SandboxPolicy)
    (cwd : PathBuf) : FileSystemSandboxPolicy :=
  match sandboxPolicy with
  | .workspaceWrite writableRoots _ excludeTmpdirEnvVar excludeSlashTmp =>
    let entries := workspaceWriteEntries writableRoots excludeTmpdirEnvVar excludeSlashTmp
    let entries :=
      match cwdAbsolute machine.toHost cwd with
      | none => entries
      | some cwdRoot =>
        (defaultReadOnlySubpathsForWritableRoot machine cwdRoot true).foldl
          (fun entries path => appendDefaultReadOnlyEntryIfNoExplicitRule entries (.path path))
          entries
    .restricted (appendDefaultSubpaths machine writableRoots entries)
  | other => .ofSandboxPolicy machine other

/-! ## Projection -/

/-- What the loop of `to_legacy_sandbox_policy` has seen so far. -/
structure LegacyScan where
  workspaceRootWritable : Bool
  writableRoots : List AbsolutePathBuf
  tmpdirWritable : Bool
  slashTmpWritable : Bool
  unbridgeableRootWrite : Bool

def LegacyScan.step (host : Host) (cwd : Option AbsolutePathBuf) (scan : LegacyScan)
    (entry : FileSystemSandboxEntry) : LegacyScan :=
  match entry.path with
  | .globPattern _ => scan
  | .path path =>
    if entry.access.canWrite then
      if cwd == some path then { scan with workspaceRootWritable := true }
      else { scan with writableRoots := scan.writableRoots ++ [path] }
    else scan
  | .special .root =>
    if entry.access == .write then { scan with unbridgeableRootWrite := true } else scan
  | .special .minimal | .special (.unknown _ _) => scan
  | .special (.projectRoots subpath) =>
    if subpath.isNone && entry.access.canWrite then { scan with workspaceRootWritable := true }
    else
      match resolveFileSystemSpecialPath host cwd (.projectRoots subpath) with
      | some path =>
        if entry.access.canWrite then { scan with writableRoots := scan.writableRoots ++ [path] }
        else scan
      | none => scan
  | .special .tmpdir =>
    if entry.access.canWrite then { scan with tmpdirWritable := true } else scan
  | .special .slashTmp =>
    if entry.access.canWrite then { scan with slashTmpWritable := true } else scan

namespace FileSystemSandboxPolicy

/-- `to_legacy_sandbox_policy`; the error is the text of its `InvalidInput`. -/
def toLegacySandboxPolicy (policy : FileSystemSandboxPolicy) (host : Host)
    (network : NetworkSandboxPolicy) (cwd : PathBuf) : Except Text SandboxPolicy :=
  match policy.kind with
  | .externalSandbox =>
    .ok (.externalSandbox (if network.isEnabled then .enabled else .restricted))
  | .unrestricted =>
    .ok (if network.isEnabled then .dangerFullAccess else .externalSandbox .restricted)
  | .restricted =>
    let scan := policy.entries.foldl (LegacyScan.step host (cwdAbsolute host cwd))
      { workspaceRootWritable := false, writableRoots := [], tmpdirWritable := false
        slashTmpWritable := false, unbridgeableRootWrite := false }
    if policy.hasFullDiskWriteAccess then
      .ok (if network.isEnabled then .dangerFullAccess else .externalSandbox .restricted)
    else if scan.workspaceRootWritable then
      .ok (.workspaceWrite (scan.writableRoots.foldl pushUnique []) network.isEnabled
        (!scan.tmpdirWritable) (!scan.slashTmpWritable))
    else if scan.unbridgeableRootWrite || !scan.writableRoots.isEmpty || scan.tmpdirWritable ||
        scan.slashTmpWritable then
      .error ("permissions profile requests filesystem writes outside the workspace root, ".toList ++
        "which is not supported until the runtime enforces FileSystemSandboxPolicy directly".toList)
    else .ok (.readOnly network.isEnabled)

end FileSystemSandboxPolicy

def protectedMetadataNamesNeedDirectRuntimeEnforcement (policy : FileSystemSandboxPolicy)
    (machine : Machine) (legacyPolicy : SandboxPolicy) (cwd : PathBuf) : Bool :=
  let legacyRoots := legacyPolicy.getWritableRootsWithCwd machine cwd
  (policy.getWritableRootsWithCwd machine cwd).any fun writableRoot =>
    match legacyRoots.find? fun candidate => candidate.root == writableRoot.root with
    | none => !writableRoot.protectedMetadataNames.isEmpty
    | some legacyRoot =>
      writableRoot.protectedMetadataNames.any fun name =>
        !legacyRoot.readOnlySubpaths.any fun subpath => subpath == writableRoot.root.child name

def FileSystemSandboxPolicy.needsDirectRuntimeEnforcement (policy : FileSystemSandboxPolicy)
    (machine : Machine) (network : NetworkSandboxPolicy) (cwd : PathBuf) : Bool :=
  if policy.kind ≠ .restricted then false
  else
    match policy.toLegacySandboxPolicy machine.toHost network cwd with
    | .error _ => true
    | .ok legacyPolicy =>
      protectedMetadataNamesNeedDirectRuntimeEnforcement policy machine legacyPolicy cwd ||
        decide (policy.semanticSignature machine cwd ≠
          (legacyRuntimeFileSystemPolicyForCwd machine legacyPolicy cwd).semanticSignature machine cwd)

end Codex
