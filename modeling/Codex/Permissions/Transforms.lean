import Codex.Permissions.Policy
import Mathlib.Data.PNat.Defs

/-!
# Codex — additional permissions

`sandboxing/src/policy_transforms.rs`: merging permission profiles, cutting a
grant down to what was requested, and laying a profile over a base policy;
and `core/src/tools/handlers/mod.rs`: when a command's permissions count as
already approved.

A `NonZeroUsize` is a `ℕ+`. Definitions only.
-/

namespace Codex

structure NetworkPermissions where
  enabled : Option Bool
  deriving DecidableEq, Repr

structure FileSystemPermissions where
  entries : List FileSystemSandboxEntry
  globScanMaxDepth : Option ℕ+
  deriving DecidableEq

def FileSystemPermissions.isEmpty (permissions : FileSystemPermissions) : Bool :=
  permissions.entries.isEmpty

/-- `FileSystemPermissions::default`. -/
def FileSystemPermissions.default : FileSystemPermissions :=
  { entries := [], globScanMaxDepth := none }

/-- Partial permission overlay of a command or a grant. -/
structure AdditionalPermissionProfile where
  network : Option NetworkPermissions
  fileSystem : Option FileSystemPermissions
  deriving DecidableEq

namespace AdditionalPermissionProfile

def isEmpty (profile : AdditionalPermissionProfile) : Bool :=
  profile.network.isNone && profile.fileSystem.isNone

/-- The file system entries of a profile; none without a `file_system`. -/
def entries (profile : AdditionalPermissionProfile) : List FileSystemSandboxEntry :=
  match profile.fileSystem with
  | some fileSystem => fileSystem.entries
  | none => []

/-- The pattern `Some(NetworkPermissions { enabled: Some(true) })`. -/
def enablesNetwork (profile : AdditionalPermissionProfile) : Bool :=
  profile.network == some { enabled := some true }

end AdditionalPermissionProfile

/-! ## Glob scan depth -/

inductive GlobScanDepth where
  | bounded (depth : Nat)
  | unbounded
  deriving DecidableEq, Repr

def effectiveGlobScanDepth (entries : List FileSystemSandboxEntry) (depth : Option Nat) :
    Option GlobScanDepth :=
  let isDenyGlob (entry : FileSystemSandboxEntry) : Bool :=
    match entry.access, entry.path with
    | .deny, .globPattern _ => true
    | _, _ => false
  if entries.any isDenyGlob then
    some (match depth with
      | some depth => .bounded depth
      | none => .unbounded)
  else none

def mergeGlobScanMaxDepth (leftEntries : List FileSystemSandboxEntry) (leftDepth : Option Nat)
    (rightEntries : List FileSystemSandboxEntry) (rightDepth : Option Nat) : Option Nat :=
  match effectiveGlobScanDepth leftEntries leftDepth,
    effectiveGlobScanDepth rightEntries rightDepth with
  | some .unbounded, _ | _, some .unbounded => none
  | some (.bounded left), some (.bounded right) => some (max left right)
  | some (.bounded depth), none | none, some (.bounded depth) => some depth
  | none, none => none

/-- `NonZeroUsize::new`. -/
def nonZeroUsize (n : Nat) : Option ℕ+ :=
  if h : 0 < n then some ⟨n, h⟩ else none

/-! ## Resolving and materializing permission paths -/

variable (host : Host) (cwd : PathBuf)

/-- `resolve_permission_path`. The last ancestor of a relative `cwd` is the
empty path, so there `:root` means the current directory. -/
def resolvePermissionPath : FileSystemPath → Option AbsolutePathBuf
  | .path path => some path
  | .globPattern _ => none
  | .special .root =>
    AbsolutePathBuf.fromAbsolutePath host.toPathEnv { hasRoot := cwd.hasRoot, components := [] }
  | .special (.projectRoots subpath) =>
    (cwdAbsolute host cwd).map fun cwd =>
      match subpath with
      | some subpath => AbsolutePathBuf.resolvePathAgainstBase host.toPathEnv subpath cwd
      | none => cwd
  | .special .tmpdir => resolveTmpdir host
  | .special .slashTmp => if host.isDir slashTmpPath then some slashTmpPath else none
  | .special .minimal | .special (.unknown _ _) => none

def materializeCwdDependentEntry (entry : FileSystemSandboxEntry) : FileSystemSandboxEntry :=
  match entry.path with
  | .special (.projectRoots _) =>
    match resolvePermissionPath host cwd entry.path with
    | some path => { path := .path path, access := entry.access }
    | none => entry
  | .globPattern pattern =>
    { path := .globPattern (resolvePatternText host pattern cwd), access := entry.access }
  | .path _ | .special _ => entry

/-- `Path::parent` of a path that may be relative. -/
def PathBuf.parent (p : PathBuf) : Option PathBuf :=
  if p.components = [] then none else some { p with components := p.components.dropLast }

def globStaticPrefixPath (pattern : Text) (cwd : PathBuf) : Option AbsolutePathBuf :=
  let resolved := resolvePatternText host pattern cwd
  let isMeta (c : Char) : Bool := c == '*' || c == '?' || c == '[' || c == ']'
  let base : Option PathBuf :=
    match resolved.findIdx? isMeta with
    | some 0 => none
    | some index =>
      let start := resolved.take index
      if Text.endsWith ['/'] start || Text.endsWith ['\\'] start then some (.ofText start)
      else (PathBuf.ofText start).parent
    | none => some (.ofText resolved)
  base.bind (AbsolutePathBuf.fromAbsolutePath host.toPathEnv)

def pathsOverlap (left right : AbsolutePathBuf) : Bool :=
  left.startsWith right || right.startsWith left

def accessCovers (requested granted : FileSystemAccessMode) : Bool :=
  match granted with
  | .read => requested.canRead
  | .write => requested.canWrite
  | .deny => false

/-! ## Merging -/

def mergePermissionEntries (base permissions : List FileSystemSandboxEntry) :
    List FileSystemSandboxEntry :=
  (base ++ permissions).foldl pushUnique []

/-- The `file_system` arm of `merge_permission_profiles`. -/
def mergeFileSystemPermissions :
    Option FileSystemPermissions → Option FileSystemPermissions → Option FileSystemPermissions
  | some base, some permissions =>
    Option.filter (fun fileSystem => !fileSystem.isEmpty) <| some
      { entries := mergePermissionEntries base.entries permissions.entries
        globScanMaxDepth :=
          (mergeGlobScanMaxDepth base.entries (base.globScanMaxDepth.map (↑))
            permissions.entries (permissions.globScanMaxDepth.map (↑))).bind nonZeroUsize }
  | some base, none => some base
  | none, permissions => permissions

def mergePermissionProfiles :
    Option AdditionalPermissionProfile → Option AdditionalPermissionProfile →
      Option AdditionalPermissionProfile
  | base, none => base
  | some base, some permissions =>
    Option.filter (fun profile => !profile.isEmpty) <| some
      { network :=
          if base.enablesNetwork || permissions.enablesNetwork then
            some { enabled := some true }
          else none
        fileSystem := mergeFileSystemPermissions base.fileSystem permissions.fileSystem }
  | none, some permissions => Option.filter (fun profile => !profile.isEmpty) (some permissions)

/-! ## Intersecting a grant with a request -/

def grantedFileSystemEntryWithinRequest (requested : FileSystemPermissions)
    (requestedPolicy : FileSystemSandboxPolicy) (requestedReadDenyMatcher : Option ReadDenyMatcher)
    (cwd : PathBuf) (grantedEntry : FileSystemSandboxEntry) : Bool :=
  if !grantedEntry.access.canRead then false
  else
    match resolvePermissionPath host cwd grantedEntry.path with
    | some path =>
      if requestedReadDenyMatcher.any fun matcher => matcher.isReadDenied host path then false
      else
        accessCovers (requestedPolicy.resolveAccessWithCwd host path.toPathBuf cwd)
          grantedEntry.access
    | none =>
      requested.entries.any fun requestedEntry =>
        accessCovers requestedEntry.access grantedEntry.access &&
          requestedEntry.path == grantedEntry.path

/-- The inner test of `deny_entry_constrains_accepted_grant`. -/
def denyEntryOverlapsGrant (denyEntry : FileSystemSandboxEntry)
    (grantPath : AbsolutePathBuf) : Bool :=
  match denyEntry.path with
  | .globPattern pattern =>
    (globStaticPrefixPath host pattern cwd).any fun start => pathsOverlap start grantPath
  | .path _ | .special _ =>
    (resolvePermissionPath host cwd denyEntry.path).any fun denyPath =>
      pathsOverlap denyPath grantPath

def denyEntryConstrainsAcceptedGrant
    (acceptedEntries : List FileSystemSandboxEntry) (denyEntry : FileSystemSandboxEntry) : Bool :=
  (acceptedEntries.filter fun entry => entry.access.canRead).any fun entry =>
    (resolvePermissionPath host cwd entry.path).any (denyEntryOverlapsGrant host cwd denyEntry)

/-- `retain_constraining_deny_entries`: the retained entries. The source also
pushes each of them on the output list, see `intersectFileSystemPermissions`. -/
def retainConstrainingDenyEntries
    (sourceEntries acceptedEntries : List FileSystemSandboxEntry) : List FileSystemSandboxEntry :=
  ((sourceEntries.filter fun entry => entry.access == .deny).filter
    (denyEntryConstrainsAcceptedGrant host cwd acceptedEntries)).map
      (materializeCwdDependentEntry host cwd)

/-- The granted entries that stay within the request, materialized. -/
def acceptedGrantEntries (requested granted : FileSystemPermissions) :
    List FileSystemSandboxEntry :=
  let requestedPolicy := FileSystemSandboxPolicy.restricted requested.entries
  let matcher := ReadDenyMatcher.new requestedPolicy host cwd
  ((granted.entries.filter
    (grantedFileSystemEntryWithinRequest host requested requestedPolicy matcher cwd)).map
      (materializeCwdDependentEntry host cwd)).foldl pushUnique []

/-- The `file_system` closure of `intersect_permission_profiles`. -/
def intersectFileSystemPermissions
    (requested granted : FileSystemPermissions) : FileSystemPermissions :=
  let accepted := acceptedGrantEntries host cwd requested granted
  let requestedDeny := retainConstrainingDenyEntries host cwd requested.entries accepted
  let grantedDeny := retainConstrainingDenyEntries host cwd granted.entries accepted
  { globScanMaxDepth :=
      (mergeGlobScanMaxDepth requestedDeny (requested.globScanMaxDepth.map (↑))
        grantedDeny (granted.globScanMaxDepth.map (↑))).bind nonZeroUsize
    entries := grantedDeny.foldl pushUnique (requestedDeny.foldl pushUnique accepted) }

def intersectPermissionProfiles (requested granted : AdditionalPermissionProfile)
    (cwd : PathBuf) : AdditionalPermissionProfile :=
  { fileSystem :=
      Option.filter (fun fileSystem => !fileSystem.isEmpty) <|
        requested.fileSystem.map fun requestedFileSystem =>
          intersectFileSystemPermissions host cwd requestedFileSystem
            (granted.fileSystem.getD .default)
    network :=
      if requested.enablesNetwork && granted.enablesNetwork then
        some { enabled := some true }
      else none }

/-! ## Effective policies -/

def mergeFileSystemPolicyWithAdditionalPermissions (policy : FileSystemSandboxPolicy)
    (permissions : FileSystemPermissions) : FileSystemSandboxPolicy :=
  match policy.kind with
  | .restricted =>
    { policy with
      entries := permissions.entries.foldl pushUnique policy.entries
      globScanMaxDepth :=
        mergeGlobScanMaxDepth policy.entries policy.globScanMaxDepth permissions.entries
          (permissions.globScanMaxDepth.map (↑)) }
  | .unrestricted | .externalSandbox => policy

def effectiveFileSystemSandboxPolicy (policy : FileSystemSandboxPolicy)
    (additionalPermissions : Option AdditionalPermissionProfile) : FileSystemSandboxPolicy :=
  match additionalPermissions.bind (·.fileSystem) with
  | none => policy
  | some fileSystem =>
    if fileSystem.isEmpty then policy
    else mergeFileSystemPolicyWithAdditionalPermissions policy fileSystem

/-! ## Turn permissions -/

inductive SandboxPermissions where
  | useDefault
  | requireEscalated
  | withAdditionalPermissions
  deriving DecidableEq, Repr

def SandboxPermissions.usesAdditionalPermissions (permissions : SandboxPermissions) : Bool :=
  permissions == .withAdditionalPermissions

structure EffectiveAdditionalPermissions where
  sandboxPermissions : SandboxPermissions
  additionalPermissions : Option AdditionalPermissionProfile
  permissionsPreapproved : Bool

def permissionsArePreapproved
    (effectivePermissions grantedPermissions : AdditionalPermissionProfile) (cwd : PathBuf) :
    Bool :=
  intersectPermissionProfiles host effectivePermissions grantedPermissions cwd ==
    intersectPermissionProfiles host effectivePermissions effectivePermissions cwd

/-- `apply_granted_turn_permissions`, with the grants the session looks up as
arguments. -/
def applyGrantedTurnPermissions
    (grantedSessionPermissions grantedTurnPermissions : Option AdditionalPermissionProfile)
    (cwd : PathBuf) (sandboxPermissions : SandboxPermissions)
    (additionalPermissions : Option AdditionalPermissionProfile) : EffectiveAdditionalPermissions :=
  if sandboxPermissions = .requireEscalated then
    { sandboxPermissions, additionalPermissions, permissionsPreapproved := false }
  else
    let granted := mergePermissionProfiles grantedSessionPermissions grantedTurnPermissions
    let effective := mergePermissionProfiles additionalPermissions granted
    { sandboxPermissions :=
        if effective.isSome && !sandboxPermissions.usesAdditionalPermissions then
          .withAdditionalPermissions
        else sandboxPermissions
      additionalPermissions := effective
      permissionsPreapproved :=
        match effective, granted with
        | some effective, some granted => permissionsArePreapproved host effective granted cwd
        | _, _ => false }

end Codex
