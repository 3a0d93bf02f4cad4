import Codex.Std.Path
import Codex.Lib.Nearest

/-!
# Codex — file system sandbox policies

The policy types of `protocol/src/permissions.rs` and the questions asked of
them: which access a path resolves to, whether it may be written, and which
roots are unreadable.

Everything the code reads from the machine (environment variables, whether a
path exists, where a symlink leads, the glob compiler) is a field of `Host`;
the functions are pure over it. A `cwd` is an arbitrary `Path`, so it may be
relative and its absolute form may not exist.

Definitions only; the access lemmas are in `Codex.Permissions.Access`.
-/

namespace Codex

open AbsolutePathBuf

/-- What permission resolution observes of the machine. -/
structure Host extends PathEnv where
  /-- The `TMPDIR` variable, if set. -/
  tmpdir : Option Text
  isDir : AbsolutePathBuf → Bool
  /-- `symlink_metadata`: `none` for a missing path, else whether it is a symlink. -/
  symlinkMetadata : AbsolutePathBuf → Option Bool
  canonicalize : AbsolutePathBuf → Option AbsolutePathBuf
  /-- `build_glob_matcher`: `none` for a malformed pattern. -/
  buildGlobMatcher : Text → Option (AbsolutePathBuf → Bool)

/-- A file system without symlinks: canonical paths are the normalized ones. -/
structure Host.NoSymlinks (host : Host) : Prop where
  not_symlink : ∀ p, host.symlinkMetadata p ≠ some true
  canonicalize_eq : ∀ p q, host.canonicalize p = some q → q = p

/-! ## Policy types -/

inductive FileSystemAccessMode where
  | read
  | write
  | deny
  deriving DecidableEq, Repr

namespace FileSystemAccessMode

/-- The declaration order: the conflict precedence, not the breadth. -/
def rank : FileSystemAccessMode → Nat
  | read => 0
  | write => 1
  | deny => 2

instance : LinearOrder FileSystemAccessMode :=
  LinearOrder.lift' rank fun a b h => by cases a <;> cases b <;> first | rfl | cases h

def canRead (mode : FileSystemAccessMode) : Bool := mode != deny

def canWrite (mode : FileSystemAccessMode) : Bool := mode == write

end FileSystemAccessMode

inductive FileSystemSpecialPath where
  | root
  | minimal
  | projectRoots (subpath : Option PathBuf)
  | tmpdir
  | slashTmp
  | unknown (path : Text) (subpath : Option PathBuf)
  deriving DecidableEq, Repr

inductive FileSystemPath where
  | path (path : AbsolutePathBuf)
  | globPattern (pattern : Text)
  | special (value : FileSystemSpecialPath)
  deriving DecidableEq, Repr

structure FileSystemSandboxEntry where
  path : FileSystemPath
  access : FileSystemAccessMode
  deriving DecidableEq, Repr

inductive FileSystemSandboxKind where
  | restricted
  | unrestricted
  | externalSandbox
  deriving DecidableEq, Repr

structure FileSystemSandboxPolicy where
  kind : FileSystemSandboxKind
  globScanMaxDepth : Option Nat
  entries : List FileSystemSandboxEntry
  deriving DecidableEq, Repr

structure ResolvedFileSystemEntry where
  path : AbsolutePathBuf
  access : FileSystemAccessMode
  deriving DecidableEq, Repr

/-- A resolved entry rules its subtree. -/
instance : Nearest.Rule ResolvedFileSystemEntry String FileSystemAccessMode where
  node entry := entry.path.components
  value entry := entry.access

/-- Appends `x` unless it is already there: the `if !v.contains(&x) { v.push(x) }`
and `push_unique` of the source. -/
def pushUnique {α : Type*} [DecidableEq α] (xs : List α) (x : α) : List α :=
  if x ∈ xs then xs else xs ++ [x]

/-! ## Resolving entry paths -/

variable (host : Host)

/-- `AbsolutePathBuf::resolve_path_against_base` followed by `to_string_lossy`. -/
def resolvePatternText (pattern : Text) (cwd : PathBuf) : Text :=
  (((PathBuf.ofText pattern).maybeExpandHomeDirectory host.toPathEnv).absolutizeFrom cwd).display

/-- `AbsolutePathBuf::from_absolute_path(cwd).ok()`. -/
def cwdAbsolute (cwd : PathBuf) : Option AbsolutePathBuf :=
  fromAbsolutePath host.toPathEnv cwd

def slashTmpPath : AbsolutePathBuf := ⟨["tmp"]⟩

/-- The `TMPDIR` arm shared by both special-path resolvers. -/
def resolveTmpdir : Option AbsolutePathBuf :=
  match host.tmpdir with
  | none => none
  | some tmpdir =>
    if tmpdir = [] then none
    else fromAbsolutePath host.toPathEnv (.ofText tmpdir)

variable (cwd : Option AbsolutePathBuf)

def resolveFileSystemSpecialPath : FileSystemSpecialPath → Option AbsolutePathBuf
  | .root | .minimal | .unknown _ _ => none
  | .projectRoots subpath =>
    match cwd, subpath with
    | none, _ => none
    | some cwd, some subpath =>
      some (resolvePathAgainstBase host.toPathEnv subpath cwd)
    | some cwd, none => some cwd
  | .tmpdir => resolveTmpdir host
  | .slashTmp => if host.isDir slashTmpPath then some slashTmpPath else none

def resolveFileSystemPath : FileSystemPath → Option AbsolutePathBuf
  | .path path => some path
  | .globPattern _ => none
  | .special value => resolveFileSystemSpecialPath host cwd value

def resolveEntryPath : FileSystemPath → Option AbsolutePathBuf
  | .special .root => cwd.map fun _ => root
  | path => resolveFileSystemPath host cwd path

/-- `resolve_candidate_path`. -/
def resolveCandidatePath (path cwd : PathBuf) : Option AbsolutePathBuf :=
  if path.hasRoot then fromAbsolutePath host.toPathEnv path
  else (cwdAbsolute host cwd).map fun cwd => join host.toPathEnv cwd path

/-! ## Same-target comparison -/

def specialPathsShareTarget : FileSystemSpecialPath → FileSystemSpecialPath → Bool
  | .root, .root | .minimal, .minimal | .tmpdir, .tmpdir | .slashTmp, .slashTmp => true
  | .projectRoots left, .projectRoots right => left == right
  | .unknown left leftSubpath, .unknown right rightSubpath =>
    left == right && leftSubpath == rightSubpath
  | _, _ => false

def specialPathMatchesAbsolutePath (value : FileSystemSpecialPath) (path : AbsolutePathBuf) :
    Bool :=
  match value with
  | .root => path.parent.isNone
  | .slashTmp => path == slashTmpPath
  | _ => false

def fileSystemPathsShareTarget : FileSystemPath → FileSystemPath → Bool
  | .path left, .path right => left == right
  | .special left, .special right => specialPathsShareTarget left right
  | .path path, .special value | .special value, .path path =>
    specialPathMatchesAbsolutePath value path
  | .globPattern left, .globPattern right => left == right
  | .globPattern _, _ | _, .globPattern _ => false

/-! ## Effective paths and canonical candidates -/

/-- `should_preserve_logical_path`: a symlink at least two levels below the root. -/
def shouldPreserveLogicalPath (logical : AbsolutePathBuf) : Bool :=
  logical.ancestors.any fun ancestor =>
    host.symlinkMetadata ancestor == some true && (ancestor.parent.bind (·.parent)).isSome

def canonicalizePreservingSymlinks (path : AbsolutePathBuf) : AbsolutePathBuf :=
  match host.canonicalize path with
  | some canonical =>
    if shouldPreserveLogicalPath host path && canonical != path then path else canonical
  | none => path

/-- `normalize_effective_absolute_path`: the nearest existing ancestor is
canonicalized, the rest of the path is kept. -/
def normalizeEffectiveAbsolutePath (path : AbsolutePathBuf) : AbsolutePathBuf :=
  match path.ancestors.find? fun ancestor => (host.symlinkMetadata ancestor).isSome with
  | some ancestor =>
    ⟨(canonicalizePreservingSymlinks host ancestor).components ++
      path.components.drop ancestor.components.length⟩
  | none => path

/-- `dedup_absolute_paths` with `normalize_effective_paths`. -/
def dedupEffectivePaths (paths : List AbsolutePathBuf) : List AbsolutePathBuf :=
  (paths.map (normalizeEffectiveAbsolutePath host)).foldl pushUnique []

def normalizedAndCanonicalCandidates (path : AbsolutePathBuf) : List AbsolutePathBuf :=
  match host.canonicalize path with
  | some canonical => pushUnique [path] canonical
  | none => [path]

/-! ## Policy queries -/

namespace FileSystemSandboxPolicy

def restricted (entries : List FileSystemSandboxEntry) : FileSystemSandboxPolicy :=
  { kind := .restricted, globScanMaxDepth := none, entries }

variable (policy : FileSystemSandboxPolicy)

def hasRootAccess (allowed : FileSystemAccessMode → Bool) : Bool :=
  policy.kind == .restricted &&
    policy.entries.any fun entry => entry.path == .special .root && allowed entry.access

def hasDeniedReadRestrictions : Bool :=
  policy.kind == .restricted && policy.entries.any fun entry => entry.access == .deny

def hasSameTargetWriteOverride (entry : FileSystemSandboxEntry) : Bool :=
  policy.entries.any fun candidate =>
    candidate.access.canWrite && decide (candidate.access > entry.access) &&
      fileSystemPathsShareTarget candidate.path entry.path

def hasWriteNarrowingEntries : Bool :=
  policy.kind == .restricted && policy.entries.any fun entry =>
    if entry.access.canWrite then false
    else
      match entry.path with
      | .path _ => !policy.hasSameTargetWriteOverride entry
      | .globPattern _ => true
      | .special .root => entry.access == .deny
      | .special .minimal | .special (.unknown _ _) => false
      | .special _ => !policy.hasSameTargetWriteOverride entry

def hasFullDiskReadAccess : Bool :=
  match policy.kind with
  | .unrestricted | .externalSandbox => true
  | .restricted =>
    policy.hasRootAccess FileSystemAccessMode.canRead && !policy.hasDeniedReadRestrictions

def hasFullDiskWriteAccess : Bool :=
  match policy.kind with
  | .unrestricted | .externalSandbox => true
  | .restricted =>
    policy.hasRootAccess FileSystemAccessMode.canWrite && !policy.hasWriteNarrowingEntries

def resolvedEntriesWithCwd (host : Host) (cwd : PathBuf) : List ResolvedFileSystemEntry :=
  policy.entries.filterMap fun entry =>
    (resolveEntryPath host (cwdAbsolute host cwd) entry.path).map fun path =>
      { path, access := entry.access }

/-- `resolve_access_with_cwd`. The root component counted by
`resolved_entry_precedence` is common to all paths and left out; entries of
equal precedence have equal access, so which of them `max_by_key` keeps does not
matter. -/
def resolveAccessWithCwd (host : Host) (path cwd : PathBuf) : FileSystemAccessMode :=
  match policy.kind with
  | .unrestricted | .externalSandbox => .write
  | .restricted =>
    match resolveCandidatePath host path cwd with
    | none => .deny
    | some path =>
      (Nearest.resolve (policy.resolvedEntriesWithCwd host cwd) path.components).getD .deny

def canReadPathWithCwd (host : Host) (path cwd : PathBuf) : Bool :=
  (policy.resolveAccessWithCwd host path cwd).canRead

end FileSystemSandboxPolicy

/-! ## Protected workspace metadata -/

def protectedMetadataPathNames : List String := [".git", ".agents", ".codex"]

def metadataPathName (name : String) : Option String :=
  protectedMetadataPathNames.find? (· == name)

/-- The metadata directory that `target` lies in, under the first writable
entry that has one. -/
def metadataChildOfWritableRoot (policy : FileSystemSandboxPolicy) (host : Host)
    (target : AbsolutePathBuf) (cwd : PathBuf) : Option (AbsolutePathBuf × String) :=
  (policy.resolvedEntriesWithCwd host cwd).findSome? fun entry =>
    if entry.access.canWrite && target.startsWith entry.path then
      match (target.components.drop entry.path.components.length).head? with
      | none => none
      | some first =>
        (metadataPathName first).map fun name => (⟨entry.path.components ++ [name]⟩, name)
    else none

def hasExplicitWriteEntryForMetadataPath (policy : FileSystemSandboxPolicy) (host : Host)
    (protectedMetadataPath target : AbsolutePathBuf) (cwd : PathBuf) : Bool :=
  (policy.resolvedEntriesWithCwd host cwd).any fun entry =>
    entry.access.canWrite && target.startsWith entry.path &&
      entry.path.startsWith protectedMetadataPath

namespace FileSystemSandboxPolicy

variable (policy : FileSystemSandboxPolicy)

def isMetadataWriteDenied (host : Host) (path cwd : PathBuf) : Bool :=
  if policy.kind ≠ .restricted then false
  else
    match resolveCandidatePath host path cwd with
    | none => true
    | some target =>
      match metadataChildOfWritableRoot policy host target cwd with
      | none => false
      | some (protectedMetadataPath, _) =>
        !hasExplicitWriteEntryForMetadataPath policy host protectedMetadataPath target cwd

def canWritePathWithCwd (host : Host) (path cwd : PathBuf) : Bool :=
  if !(policy.resolveAccessWithCwd host path cwd).canWrite then false
  else if policy.hasFullDiskWriteAccess then true
  else !policy.isMetadataWriteDenied host path cwd

def getUnreadableRootsWithCwd (host : Host) (cwd : PathBuf) : List AbsolutePathBuf :=
  if policy.kind ≠ .restricted then []
  else
    let root := (cwdAbsolute host cwd).map fun _ => root
    let unreadable := (policy.resolvedEntriesWithCwd host cwd).filter fun entry =>
      entry.access == .deny && !policy.canReadPathWithCwd host entry.path.toPathBuf cwd &&
        root != some entry.path
    dedupEffectivePaths host (unreadable.map (·.path))

/-- `get_unreadable_globs_with_cwd`, without the final sort: the patterns are
only ever tried one after the other. -/
def getUnreadableGlobsWithCwd (host : Host) (cwd : PathBuf) : List Text :=
  if policy.kind ≠ .restricted then []
  else
    let patterns := policy.entries.filterMap fun entry =>
      match entry.access, entry.path with
      | .deny, .globPattern pattern => some (resolvePatternText host pattern cwd)
      | _, _ => none
    patterns.foldl pushUnique []

end FileSystemSandboxPolicy

/-! ## Read-deny matcher -/

structure ReadDenyMatcher where
  deniedCandidates : List (List AbsolutePathBuf)
  denyReadMatchers : List (AbsolutePathBuf → Bool)
  invalidPattern : Bool

namespace ReadDenyMatcher

/-- `ReadDenyMatcher::new`: malformed patterns fail closed. -/
def new (policy : FileSystemSandboxPolicy) (host : Host) (cwd : PathBuf) : Option ReadDenyMatcher :=
  if !policy.hasDeniedReadRestrictions then none
  else
    let compiled := (policy.getUnreadableGlobsWithCwd host cwd).map host.buildGlobMatcher
    some
      { deniedCandidates :=
          (policy.getUnreadableRootsWithCwd host cwd).map (normalizedAndCanonicalCandidates host)
        denyReadMatchers := compiled.filterMap id
        invalidPattern := compiled.any Option.isNone }

def isReadDenied (matcher : ReadDenyMatcher) (host : Host) (path : AbsolutePathBuf) : Bool :=
  if matcher.invalidPattern then true
  else
    let candidates := normalizedAndCanonicalCandidates host path
    (matcher.deniedCandidates.any fun denied =>
      candidates.any fun candidate => denied.any fun d => candidate == d || candidate.startsWith d) ||
    matcher.denyReadMatchers.any fun isMatch => candidates.any isMatch

end ReadDenyMatcher

end Codex
