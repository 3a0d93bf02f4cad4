import Codex.Permissions.Legacy

/-!
# Codex — the bubblewrap mount plan

`create_filesystem_args` of `linux-sandbox/src/bwrap.rs` turns a policy into the
file system arguments of a `bwrap` command line: a read-only or empty base, masks
over denied paths that contain writable roots, one group of mounts for each
writable root, from the shallowest to the deepest, and masks over the remaining
denied paths.

An argument together with its operands is one `BwrapArg`. The working directory is
absolute; every use of it in the source normalizes it, so it is an
`AbsolutePathBuf` here. `SandboxHost` adds to `Machine` what only this code
observes; the `ripgrep` scan for deny globs is one of its fields.

Definitions only; what the plan exposes is in `Codex.Sandbox.MountPlan`.
-/

namespace Codex

/-- The device and inode of a file. -/
structure FileIdentity where
  dev : Nat
  ino : Nat
  deriving DecidableEq, Repr

/-- What `symlink_metadata` reports of a path that is there. -/
structure Metadata where
  isFile : Bool
  isDir : Bool
  len : Nat
  identity : FileIdentity
  deriving DecidableEq, Repr

structure SandboxHost extends Machine where
  metadata : AbsolutePathBuf → Metadata
  directoryIsEmpty : AbsolutePathBuf → Bool
  /-- `File::open("/dev/null")`: its descriptor. -/
  openDevNull : Except Text Nat
  /-- The scan of `expand_unreadable_globs_with_ripgrep`. -/
  ripgrepMatches : List Text → AbsolutePathBuf → Option Nat → Except Text (List AbsolutePathBuf)

/-- One `bwrap` option with its operands. -/
inductive BwrapArg where
  | roBind (source dest : AbsolutePathBuf)
  | bind (source dest : AbsolutePathBuf)
  | tmpfs (dest : AbsolutePathBuf)
  | dev (dest : AbsolutePathBuf)
  | dir (dest : AbsolutePathBuf)
  | perms (mode : String)
  | remountRo (dest : AbsolutePathBuf)
  | roBindData (fd : Nat) (dest : AbsolutePathBuf)
  deriving DecidableEq, Repr

inductive SyntheticMountTargetKind where
  | emptyFile
  | emptyDirectory
  deriving DecidableEq, Repr

structure SyntheticMountTarget where
  path : AbsolutePathBuf
  kind : SyntheticMountTargetKind
  preExistingPath : Option FileIdentity
  deriving DecidableEq, Repr

structure ProtectedCreateTarget where
  path : AbsolutePathBuf
  deriving DecidableEq, Repr

structure BwrapArgs where
  args : List BwrapArg
  preservedFiles : List Nat
  syntheticMountTargets : List SyntheticMountTarget
  protectedCreateTargets : List ProtectedCreateTarget
  deriving DecidableEq, Repr

def BwrapArgs.push (b : BwrapArgs) (args : List BwrapArg) : BwrapArgs :=
  { b with args := b.args ++ args }

def BwrapArgs.pushSynthetic (b : BwrapArgs) (target : SyntheticMountTarget) : BwrapArgs :=
  { b with syntheticMountTargets := b.syntheticMountTargets ++ [target] }

def linuxPlatformDefaultReadRoots : List AbsolutePathBuf :=
  [⟨["bin"]⟩, ⟨["sbin"]⟩, ⟨["usr"]⟩, ⟨["etc"]⟩, ⟨["lib"]⟩, ⟨["lib64"]⟩, ⟨["nix", "store"]⟩,
    ⟨["run", "current-system", "sw"]⟩]

variable (host : SandboxHost)

/-! ## Walking a path -/

/-- `path.components().count()`; the root directory is a component. -/
def pathDepth (path : AbsolutePathBuf) : Nat := path.components.length + 1

def sortByDepth (paths : List AbsolutePathBuf) : List AbsolutePathBuf :=
  paths.insertionSort fun left right => pathDepth left ≤ pathDepth right

/-- The values of `current` while a loop walks down the components of `path`. -/
def stepsTo (path : AbsolutePathBuf) : List AbsolutePathBuf :=
  path.components.inits.tail.map .mk

def isWithinAllowedWritePaths (path : AbsolutePathBuf) (allowedWritePaths : List AbsolutePathBuf) :
    Bool :=
  allowedWritePaths.any fun root => path.startsWith root

def firstWritableSymlinkComponentInPath (targetPath : AbsolutePathBuf)
    (allowedWritePaths : List AbsolutePathBuf) : Option AbsolutePathBuf :=
  -- a component without metadata ends the walk
  ((stepsTo targetPath).takeWhile fun current => (host.symlinkMetadata current).isSome).find?
    fun current => host.symlinkMetadata current == some true &&
      isWithinAllowedWritePaths current allowedWritePaths

def findFirstNonExistentComponent (targetPath : AbsolutePathBuf) : Option AbsolutePathBuf :=
  (stepsTo targetPath).find? fun current => !host.pathExists current

def canonicalTargetIfSymlinkedPath (path : AbsolutePathBuf) : Option AbsolutePathBuf :=
  let walked := (stepsTo path).takeWhile fun current => (host.symlinkMetadata current).isSome
  if walked.any fun current => host.symlinkMetadata current == some true then
    match host.canonicalize path with
    | none => none
    | some target => if target = path then none else some target
  else none

def remapPathsForSymlinkTarget (paths : List AbsolutePathBuf) (root target : AbsolutePathBuf) :
    List AbsolutePathBuf :=
  paths.map fun path =>
    if path.startsWith root then
      ⟨target.components ++ path.components.drop root.components.length⟩
    else path

def isProtectedMetadataName (name : String) : Bool := protectedMetadataPathNames.contains name

/-! ## Empty mounts -/

def appendEmptyFileBindDataArgs (b : BwrapArgs) (path : AbsolutePathBuf) : Except Text BwrapArgs :=
  match b.preservedFiles with
  | nullFd :: _ => .ok (b.push [.roBindData nullFd path])
  | [] => host.openDevNull.map fun nullFd =>
    { b with preservedFiles := [nullFd] }.push [.roBindData nullFd path]

def appendEmptyDirectoryArgs (b : BwrapArgs) (path : AbsolutePathBuf) : BwrapArgs :=
  b.push [.perms "555", .tmpfs path, .remountRo path]

def appendMissingEmptyFileBindDataArgs (b : BwrapArgs) (path : AbsolutePathBuf) :
    Except Text BwrapArgs :=
  (appendEmptyFileBindDataArgs host b path).map (·.pushSynthetic ⟨path, .emptyFile, none⟩)

def appendMissingReadOnlySubpathArgs (b : BwrapArgs) (path : AbsolutePathBuf) :
    Except Text BwrapArgs :=
  if path.components.getLast?.any isProtectedMetadataName then
    .ok ((appendEmptyDirectoryArgs b path).pushSynthetic ⟨path, .emptyDirectory, none⟩)
  else appendMissingEmptyFileBindDataArgs host b path

def appendExistingEmptyFileBindDataArgs (b : BwrapArgs) (path : AbsolutePathBuf)
    (metadata : Metadata) : Except Text BwrapArgs :=
  (appendEmptyFileBindDataArgs host b path).map
    (·.pushSynthetic ⟨path, .emptyFile, some metadata.identity⟩)

def appendExistingEmptyDirectoryArgs (b : BwrapArgs) (path : AbsolutePathBuf)
    (metadata : Metadata) : BwrapArgs :=
  (appendEmptyDirectoryArgs b path).pushSynthetic
    ⟨path, .emptyDirectory, some metadata.identity⟩

inductive EmptyProtectedMetadataPath where
  | file (metadata : Metadata)
  | directory (metadata : Metadata)

def transientEmptyMetadataPath (path : AbsolutePathBuf) : Option EmptyProtectedMetadataPath :=
  if path.components.getLast?.any isProtectedMetadataName &&
      (host.symlinkMetadata path).isSome then
    let metadata := host.metadata path
    if metadata.isFile && metadata.len == 0 then some (.file metadata)
    else if metadata.isDir && host.directoryIsEmpty path then some (.directory metadata)
    else none
  else none

/-! ## Read-only subpaths and unreadable roots -/

def mountTargetParentDirArgs (mountTarget anchor : AbsolutePathBuf) : List BwrapArg :=
  let dirs : AbsolutePathBuf → List BwrapArg := fun mountTargetDir =>
    ((mountTargetDir.ancestors.takeWhile (· ≠ anchor)).reverse).map .dir
  if host.isDir mountTarget then dirs mountTarget
  else match mountTarget.parent with
    | some parent => dirs parent
    | none => []

def appendReadOnlySubpathArgs (allowedWritePaths : List AbsolutePathBuf) (b : BwrapArgs)
    (subpath : AbsolutePathBuf) : Except Text BwrapArgs :=
  match firstWritableSymlinkComponentInPath host subpath allowedWritePaths with
  | some symlink => .error ("cannot enforce sandbox read-only path ".toList ++ subpath.display ++
      " because it crosses writable symlink ".toList ++ symlink.display)
  | none =>
    match transientEmptyMetadataPath host subpath,
        isWithinAllowedWritePaths subpath allowedWritePaths with
    | some (.file metadata), true => appendExistingEmptyFileBindDataArgs host b subpath metadata
    | some (.directory metadata), true =>
      .ok (appendExistingEmptyDirectoryArgs b subpath metadata)
    | _, within =>
      if host.pathExists subpath then
        .ok (if within then b.push [.roBind subpath subpath] else b)
      else
        match findFirstNonExistentComponent host subpath with
        | none => .ok b
        | some firstMissing =>
          if isWithinAllowedWritePaths firstMissing allowedWritePaths then
            appendMissingReadOnlySubpathArgs host b firstMissing
          else .ok b

def appendExistingUnreadablePathArgs (allowedWritePaths : List AbsolutePathBuf) (b : BwrapArgs)
    (unreadableRoot : AbsolutePathBuf) : Except Text BwrapArgs :=
  if host.isDir unreadableRoot then
    let writableDescendants := allowedWritePaths.filter fun path =>
      path ≠ unreadableRoot && path.startsWith unreadableRoot
    -- execute-only, so that the reopened descendants can be reached
    let mode := if writableDescendants.isEmpty then "000" else "111"
    .ok (b.push ([.perms mode, .tmpfs unreadableRoot] ++
      (sortByDepth writableDescendants).flatMap (fun writableDescendant =>
        mountTargetParentDirArgs host writableDescendant unreadableRoot) ++
      [.remountRo unreadableRoot]))
  else appendEmptyFileBindDataArgs host (b.push [.perms "000"]) unreadableRoot

def appendUnreadableRootArgs (allowedWritePaths : List AbsolutePathBuf) (b : BwrapArgs)
    (unreadableRoot : AbsolutePathBuf) : Except Text BwrapArgs :=
  match firstWritableSymlinkComponentInPath host unreadableRoot allowedWritePaths with
  | some symlink => .error ("cannot enforce sandbox deny-read path ".toList ++
      unreadableRoot.display ++ " because it crosses writable symlink ".toList ++ symlink.display)
  | none =>
    if host.pathExists unreadableRoot then
      appendExistingUnreadablePathArgs host allowedWritePaths b unreadableRoot
    else
      match findFirstNonExistentComponent host unreadableRoot with
      | none => .ok b
      | some firstMissing =>
        if isWithinAllowedWritePaths firstMissing allowedWritePaths then
          appendMissingEmptyFileBindDataArgs host b firstMissing
        else .ok b

/-! ## Metadata of a writable root -/

def ancestorHasGitMetadata (ancestor : AbsolutePathBuf) : Bool :=
  let gitPath := ancestor.child ".git"
  if (host.symlinkMetadata gitPath).isNone then false
  else if (host.metadata gitPath).isDir then (host.symlinkMetadata (gitPath.child "HEAD")).isSome
  else if (host.metadata gitPath).isFile then
    (host.readToString gitPath).any fun contents =>
      Text.startsWith "gitdir:".toList (Text.trimStart contents)
  else false

def shouldLeaveMissingGitForParentRepoDiscovery (mountRoot : AbsolutePathBuf) (name : String) :
    Bool :=
  name == ".git" && (host.symlinkMetadata (mountRoot.child name)).isNone &&
    (mountRoot.ancestors.drop 1).any (ancestorHasGitMetadata host)

def appendMetadataPathMasksForWritableRoot (readOnlySubpaths : List AbsolutePathBuf)
    (root mountRoot : AbsolutePathBuf) (protectedMetadataNames : List String) :
    List AbsolutePathBuf :=
  protectedMetadataNames.foldl
    (fun subpaths name =>
      if shouldLeaveMissingGitForParentRepoDiscovery host mountRoot name then subpaths
      else pushUnique subpaths (root.child name))
    readOnlySubpaths

def appendProtectedCreateTargetsForWritableRoot (b : BwrapArgs)
    (protectedMetadataNames : List String) (root : AbsolutePathBuf)
    (symlinkTarget : Option AbsolutePathBuf) (readOnlySubpaths : List AbsolutePathBuf) :
    BwrapArgs :=
  -- the name is taken below the symlink's target, if there is one
  let paths := protectedMetadataNames.map (symlinkTarget.getD root).child
  let missing := paths.filter fun path =>
    !(readOnlySubpaths.contains path || host.pathExists path)
  { b with protectedCreateTargets := b.protectedCreateTargets ++ missing.map .mk }

/-! ## The plan -/

variable (policy : FileSystemSandboxPolicy)

/-- The writable roots that are there. With full write access there are none, and a
deny glob is enforced below `/`. -/
def writableRootsToMount (cwd : AbsolutePathBuf) : List WritableRoot :=
  let writableRoots := (policy.getWritableRootsWithCwd host.toMachine cwd.toPathBuf).filter
    fun writableRoot => host.pathExists writableRoot.root
  if writableRoots.isEmpty && policy.hasFullDiskWriteAccess &&
      !(policy.getUnreadableGlobsWithCwd host.toHost cwd.toPathBuf).isEmpty then
    [{ root := .root, readOnlySubpaths := [], protectedMetadataNames := [] }]
  else writableRoots

/-- The automatic read entries for metadata directories of the project that are missing. -/
def missingAutoMetadataReadOnlyProjectRootSubpaths (cwd : AbsolutePathBuf) : List AbsolutePathBuf :=
  policy.entries.filterMap fun entry =>
    match entry.access, entry.path with
    | .read, .special (.projectRoots (some subpath)) =>
      if subpath = .ofText ".git".toList || subpath = .ofText ".agents".toList ||
          subpath = .ofText ".codex".toList then
        let resolved := AbsolutePathBuf.resolvePathAgainstBase host.toPathEnv subpath cwd
        if host.pathExists resolved then none else some resolved
      else none
    | _, _ => none

/-- A `BTreeSet` of paths, and `sort` followed by `dedup`. -/
def sortedUniquePaths (paths : List AbsolutePathBuf) : List AbsolutePathBuf :=
  (sortedAbsolutePaths paths).foldl pushUnique []

def expandUnreadableGlobsWithRipgrep (patterns : List Text) (cwd : AbsolutePathBuf)
    (maxDepth : Option Nat) : Except Text (List AbsolutePathBuf) :=
  if patterns.isEmpty || maxDepth == some 0 then .ok []
  else host.ripgrepMatches patterns cwd maxDepth

def fullReadBase : List BwrapArg := [.roBind .root .root, .dev ⟨["dev"]⟩]

def readableRootsToMount (cwd : AbsolutePathBuf) : List AbsolutePathBuf :=
  let platformDefaults :=
    if policy.includePlatformDefaults then linuxPlatformDefaultReadRoots.filter host.pathExists
    else []
  sortedUniquePaths (policy.getReadableRootsWithCwd host.toHost cwd.toPathBuf ++ platformDefaults)

def baseArgs (cwd : AbsolutePathBuf) (writableRoots : List WritableRoot) : List BwrapArg :=
  if policy.hasFullDiskReadAccess then fullReadBase
  else
    let readableRoots := readableRootsToMount host policy cwd
    if readableRoots.contains .root then fullReadBase
    else
      [.tmpfs .root, .dev ⟨["dev"]⟩] ++ (readableRoots.filter host.pathExists).map fun root =>
        let mountRoot :=
          if writableRoots.any fun writableRoot => root.startsWith writableRoot.root then
            (canonicalTargetIfSymlinkedPath host root).getD root
          else root
        .roBind mountRoot mountRoot

def allowedWritePathsOf (writableRoots : List WritableRoot) : List AbsolutePathBuf :=
  writableRoots.flatMap fun writableRoot =>
    writableRoot.root :: (canonicalTargetIfSymlinkedPath host writableRoot.root).toList

/-- The parents of a writable root that the mask over a denied ancestor has hidden. -/
def hiddenParentDirArgs (unreadableRoots : List AbsolutePathBuf) (root : AbsolutePathBuf) :
    List BwrapArg :=
  match (unreadableRoots.filter fun unreadableRoot => root.startsWith unreadableRoot).argmax
      pathDepth with
  | some maskingRoot => mountTargetParentDirArgs host root maskingRoot
  | none => []

/-- The body of the loop over the writable roots. -/
def appendWritableRootArgs (unreadableRoots missingAutoMetadata allowedWritePaths :
    List AbsolutePathBuf) (b : BwrapArgs) (writableRoot : WritableRoot) :
    Except Text BwrapArgs := do
  let root := writableRoot.root
  let symlinkTarget := canonicalTargetIfSymlinkedPath host root
  let mountRoot := symlinkTarget.getD root
  let b := b.push (hiddenParentDirArgs host unreadableRoots root ++ [.bind mountRoot mountRoot])
  let listed := writableRoot.readOnlySubpaths.filter fun path =>
    !unreadableRoots.contains path && !missingAutoMetadata.contains path
  let masked := appendMetadataPathMasksForWritableRoot host listed root mountRoot
    writableRoot.protectedMetadataNames
  let remap := fun paths =>
    match symlinkTarget with
    | some target => remapPathsForSymlinkTarget paths root target
    | none => paths
  let b := appendProtectedCreateTargetsForWritableRoot host b
    writableRoot.protectedMetadataNames root symlinkTarget (remap masked)
  let b ← (sortByDepth (remap masked)).foldlM
    (appendReadOnlySubpathArgs host allowedWritePaths) b
  let nested := unreadableRoots.filter fun path => path.startsWith root
  (sortByDepth (remap nested)).foldlM (appendUnreadableRootArgs host allowedWritePaths) b

def createFilesystemArgs (cwd : AbsolutePathBuf)
    (globScanMaxDepth : Option Nat) : Except Text BwrapArgs := do
  let writableRoots := writableRootsToMount host policy cwd
  let missingAutoMetadata := missingAutoMetadataReadOnlyProjectRootSubpaths host policy cwd
  let expanded ← expandUnreadableGlobsWithRipgrep host
    (policy.getUnreadableGlobsWithCwd host.toHost cwd.toPathBuf) cwd globScanMaxDepth
  let unreadableRoots := sortedUniquePaths
    (policy.getUnreadableRootsWithCwd host.toHost cwd.toPathBuf ++ expanded)
  let allowedWritePaths := allowedWritePathsOf host writableRoots
  let above := fun unreadableRoot : AbsolutePathBuf =>
    allowedWritePaths.any fun root => root.startsWith unreadableRoot
  let within := fun unreadableRoot : AbsolutePathBuf =>
    isWithinAllowedWritePaths unreadableRoot allowedWritePaths
  let b : BwrapArgs := ⟨baseArgs host policy cwd writableRoots, [], [], []⟩
  let b ← (sortByDepth (unreadableRoots.filter fun path => !within path && above path)).foldlM
    (appendUnreadableRootArgs host allowedWritePaths) b
  let b ← (writableRoots.insertionSort fun left right =>
      pathDepth left.root ≤ pathDepth right.root).foldlM
    (appendWritableRootArgs host unreadableRoots missingAutoMetadata allowedWritePaths) b
  (sortByDepth (unreadableRoots.filter fun path => !(within path || above path))).foldlM
    (appendUnreadableRootArgs host allowedWritePaths) b

end Codex
