import Codex.Permissions.Policy

/-!
# Codex — the roots a sandbox is told about

What `protocol/src/permissions.rs` derives from a policy for the sandboxes that
enforce it: readable roots, and writable roots with the subpaths that stay
read-only and the metadata names that stay protected (`WritableRoot` of
`protocol/src/protocol.rs`).

`Machine` adds to `Host` the file system queries that only these functions make.

Definitions only; what the roots admit is in `Codex.Permissions.Admission`.
-/

namespace Codex

open Text

/-- What deriving roots observes of the machine, beyond access resolution. -/
structure Machine extends Host where
  /-- `Path::exists`. -/
  pathExists : AbsolutePathBuf → Bool
  isFile : AbsolutePathBuf → Bool
  readToString : AbsolutePathBuf → Option Text

/-- `join` with a plain file name. -/
def AbsolutePathBuf.child (p : AbsolutePathBuf) (name : String) : AbsolutePathBuf :=
  ⟨p.components ++ [name]⟩

/-! ## Metadata directories of a writable root -/

def isGitPointerFile (machine : Machine) (path : AbsolutePathBuf) : Bool :=
  machine.isFile path && path.components.getLast? == some ".git"

def resolveGitdirFromFile (machine : Machine) (dotGit : AbsolutePathBuf) :
    Option AbsolutePathBuf := do
  let contents ← machine.readToString dotGit
  -- `split_once(':')`
  let gitdirRaw ←
    match (trim contents).span (· ≠ ':') with
    | (start, _ :: rest) =>
      if trim start = "gitdir".toList then some (trim rest) else none
    | (_, []) => none
  if gitdirRaw = [] then none
  else
    let base ← dotGit.parent
    let gitdirPath :=
      AbsolutePathBuf.resolvePathAgainstBase machine.toPathEnv (.ofText gitdirRaw) base
    if machine.pathExists gitdirPath then some gitdirPath else none

def defaultReadOnlySubpathsForWritableRoot (machine : Machine) (writableRoot : AbsolutePathBuf)
    (protectMissingDotCodex : Bool) : List AbsolutePathBuf :=
  let topLevelGit := writableRoot.child ".git"
  let git :=
    if machine.isDir topLevelGit || machine.isFile topLevelGit then
      (if isGitPointerFile machine topLevelGit then
        (resolveGitdirFromFile machine topLevelGit).toList else []) ++ [topLevelGit]
    else []
  let topLevelAgents := writableRoot.child ".agents"
  let agents := if machine.isDir topLevelAgents then [topLevelAgents] else []
  let topLevelCodex := writableRoot.child ".codex"
  let codex :=
    if protectMissingDotCodex || machine.isDir topLevelCodex then [topLevelCodex] else []
  (git ++ agents ++ codex).foldl pushUnique []

def hasExplicitResolvedPathEntry (entries : List ResolvedFileSystemEntry)
    (path : AbsolutePathBuf) : Bool :=
  entries.any fun entry => entry.path == path

def protectedMetadataNamesForWritableRoot (policy : FileSystemSandboxPolicy) (host : Host)
    (root : AbsolutePathBuf) (rawWritableRoots : List AbsolutePathBuf) (cwd : PathBuf) :
    List String :=
  protectedMetadataPathNames.filter fun name =>
    ((root :: rawWritableRoots).map (·.child name)).all fun path =>
      !policy.canWritePathWithCwd host path.toPathBuf cwd

/-! ## Writable roots -/

structure WritableRoot where
  root : AbsolutePathBuf
  readOnlySubpaths : List AbsolutePathBuf
  protectedMetadataNames : List String
  deriving DecidableEq, Repr

namespace WritableRoot

def pathContainsProtectedMetadataName (w : WritableRoot) (path : AbsolutePathBuf) : Bool :=
  if path.startsWith w.root then
    match (path.components.drop w.root.components.length).head? with
    | none => false
    | some first => w.protectedMetadataNames.any (first == ·)
  else false

def isPathWritable (w : WritableRoot) (path : AbsolutePathBuf) : Bool :=
  if !path.startsWith w.root then false
  else if w.readOnlySubpaths.any fun subpath => path.startsWith subpath then false
  else !w.pathContainsProtectedMetadataName path

end WritableRoot

/-- The carve-out that a non-writable entry leaves in `root`: the literal path when
it lies under the root (or under a raw spelling of it), else the effective path. -/
def readOnlyCarveout (host : Host) (root : AbsolutePathBuf)
    (rawWritableRoots : List AbsolutePathBuf) (entryPath : AbsolutePathBuf) :
    Option AbsolutePathBuf :=
  let effectivePath := normalizeEffectiveAbsolutePath host entryPath
  -- only below a root that is not the filesystem root
  let rawCarveoutPath :=
    if root.parent.isSome then
      if entryPath = root then none
      else if entryPath.startsWith root then some entryPath
      else rawWritableRoots.findSome? fun rawRoot =>
        if entryPath.startsWith rawRoot && entryPath != rawRoot then
          let suffix := entryPath.components.drop rawRoot.components.length
          some (root.join host.toPathEnv { hasRoot := false, components := suffix.map .normal })
        else none
    else none
  match rawCarveoutPath with
  | some path => some path
  | none =>
    if effectivePath == root || !effectivePath.startsWith root then none else some effectivePath

namespace FileSystemSandboxPolicy

variable (policy : FileSystemSandboxPolicy)

def includePlatformDefaults : Bool :=
  !policy.hasFullDiskReadAccess && policy.kind == .restricted &&
    policy.entries.any fun entry => entry.path == .special .minimal && entry.access.canRead

def getReadableRootsWithCwd (host : Host) (cwd : PathBuf) : List AbsolutePathBuf :=
  if policy.hasFullDiskReadAccess then []
  else
    let readable := (policy.resolvedEntriesWithCwd host cwd).filter fun entry =>
      entry.access.canRead && policy.canReadPathWithCwd host entry.path.toPathBuf cwd
    dedupEffectivePaths host (readable.map (·.path))

/-- The paths of the write entries that are writable at their own path. -/
def writableEntries (host : Host) (cwd : PathBuf) : List AbsolutePathBuf :=
  ((policy.resolvedEntriesWithCwd host cwd).filter fun entry =>
    entry.access.canWrite && policy.canWritePathWithCwd host entry.path.toPathBuf cwd).map (·.path)

/-- The closure of `get_writable_roots_with_cwd` over one deduplicated root. -/
def writableRootAt (machine : Machine) (cwd : PathBuf) (root : AbsolutePathBuf) : WritableRoot :=
  let resolvedEntries := policy.resolvedEntriesWithCwd machine.toHost cwd
  let rawWritableRoots := (policy.writableEntries machine.toHost cwd).filter fun path =>
    normalizeEffectiveAbsolutePath machine.toHost path == root
  let protectMissingDotCodex := (cwdAbsolute machine.toHost cwd).any fun cwd =>
    normalizeEffectiveAbsolutePath machine.toHost cwd == root
  let defaults :=
    (defaultReadOnlySubpathsForWritableRoot machine root protectMissingDotCodex).filter fun path =>
      !hasExplicitResolvedPathEntry resolvedEntries path
  let closedEntries := resolvedEntries.filter fun entry =>
    !entry.access.canWrite && !policy.canWritePathWithCwd machine.toHost entry.path.toPathBuf cwd
  let carveouts := closedEntries.filterMap fun entry =>
    readOnlyCarveout machine.toHost root rawWritableRoots entry.path
  { root
    readOnlySubpaths := (defaults ++ carveouts).foldl pushUnique []
    protectedMetadataNames :=
      protectedMetadataNamesForWritableRoot policy machine.toHost root rawWritableRoots cwd }

def getWritableRootsWithCwd (machine : Machine) (cwd : PathBuf) : List WritableRoot :=
  if policy.hasFullDiskWriteAccess then []
  else
    (dedupEffectivePaths machine.toHost (policy.writableEntries machine.toHost cwd)).map
      (policy.writableRootAt machine cwd)

end FileSystemSandboxPolicy

end Codex
