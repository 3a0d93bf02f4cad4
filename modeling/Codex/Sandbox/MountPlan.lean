import Codex.Sandbox.Bwrap
import Codex.Permissions.Signature
import Codex.Lib.Overlay
import Codex.Std.Result

/-!
# Codex — the mount plan stays within the policy

The mounts of a plan are an overlay: a path shows the last mount at or above it,
either the host file (`--bind`, `--ro-bind`) or nothing of the host (`--tmpfs`,
`--ro-bind-data`).

Every mask and every read-only subpath sits at the path it is for, or at a path that
is missing; a path that exists is therefore shown by

* the group of the deepest writable root above it, since groups are emitted by depth
  and everything in a group sits below its root, or
* if there is no such root, a mask or the base.

Result: `exposed_within_policy`.
-/

namespace Codex

open Overlay List AbsolutePathBuf SandboxHost

/-- What a mount shows: nothing of the host, or the host's files from `source` on. -/
inductive Shown where
  | hidden
  | host (source : AbsolutePathBuf) (writable : Bool)
  deriving DecidableEq

def BwrapArg.mount : BwrapArg → Option (List String × Shown)
  | .roBind source dest => some (dest.components, .host source false)
  | .bind source dest => some (dest.components, .host source true)
  | .tmpfs dest | .roBindData _ dest => some (dest.components, .hidden)
  | .dev _ | .dir _ | .perms _ | .remountRo _ => none

def mounts (args : List BwrapArg) : List (List String × Shown) := args.filterMap BwrapArg.mount

/-- The host file that the sandbox sees at `p`, and whether it may write it. -/
def exposed (args : List BwrapArg) (p : AbsolutePathBuf) : Option (AbsolutePathBuf × Bool) :=
  match top (mounts args) p.components with
  | some (target, .host source writable) =>
    some (⟨source.components ++ p.components.drop target.length⟩, writable)
  | _ => none

/-- A file system without symlinks and `.git` pointer files in which whatever is there
has its ancestors there as well. -/
structure SandboxHost.Tree (host : SandboxHost) : Prop extends host.toMachine.Plain where
  metadata_of_exists : ∀ p, host.pathExists p = true → (host.symlinkMetadata p).isSome = true
  exists_ancestor : ∀ p q : AbsolutePathBuf, host.pathExists p = true →
    q.components <+: p.components → host.pathExists q = true

variable {host : SandboxHost} {policy : FileSystemSandboxPolicy} {cwd p : AbsolutePathBuf}
variable {b b' : BwrapArgs} {paths allowed unreadable missing : List AbsolutePathBuf}
variable {path : AbsolutePathBuf} {layers added : List (List String × Shown)}

/-! ## What one step adds -/

@[simp] theorem mounts_append (left right : List BwrapArg) :
    mounts (left ++ right) = mounts left ++ mounts right := filterMap_append

@[simp] theorem mounts_push (b : BwrapArgs) (args : List BwrapArg) :
    mounts (b.push args).args = mounts b.args ++ mounts args := mounts_append _ _

@[simp] theorem mounts_pushSynthetic (b : BwrapArgs) (target : SyntheticMountTarget) :
    mounts (b.pushSynthetic target).args = mounts b.args := rfl

theorem mounts_parentDirs (mountTarget anchor : AbsolutePathBuf) :
    mounts (mountTargetParentDirArgs host mountTarget anchor) = [] := by
  have hDirs : ∀ dirs : List AbsolutePathBuf, mounts (dirs.map .dir) = [] := by
    intro dirs
    simp [mounts, BwrapArg.mount]
  unfold mountTargetParentDirArgs
  split
  · exact hDirs _
  · split
    · exact hDirs _
    · rfl

theorem mounts_hiddenParentDirs (root : AbsolutePathBuf) :
    mounts (hiddenParentDirArgs host unreadable root) = [] := by
  unfold hiddenParentDirArgs
  split
  · exact mounts_parentDirs _ _
  · rfl

/-- `layers` hide the paths, and nothing else that is there, behind mounts that are `ok`. -/
structure Masks (host : SandboxHost) (ok : List String × Shown → Prop)
    (paths : List AbsolutePathBuf) (layers : List (List String × Shown)) : Prop where
  ok_of_mem : ∀ layer ∈ layers, ok layer
  place : ∀ layer ∈ layers,
    (∃ path ∈ paths, layer.1 = path.components) ∨ host.pathExists ⟨layer.1⟩ = false
  present : ∀ path ∈ paths, host.pathExists path = true →
    ∃ layer ∈ layers, layer.1 = path.components

def Hides (layer : List String × Shown) : Prop := layer.2 = .hidden

def Protects (layer : List String × Shown) : Prop :=
  layer.2 = .hidden ∨ layer.2 = .host ⟨layer.1⟩ false

variable {ok : List String × Shown → Prop} {roots : List WritableRoot} {w : WritableRoot}
variable {paths' : List AbsolutePathBuf}
variable {step : BwrapArgs → AbsolutePathBuf → Except Text BwrapArgs}

theorem masks_single {shown : Shown}
    (hOk : ok (path.components, shown)) : Masks host ok [path] [(path.components, shown)] where
  ok_of_mem := by simpa using hOk
  place := by simp
  present := by simp

/-- For a path that is missing, a mount at a missing path is as good as none. -/
theorem masks_missing (hPath : host.pathExists path = false)
    (hOk : ∀ layer ∈ layers, ok layer ∧ host.pathExists ⟨layer.1⟩ = false) :
    Masks host ok [path] layers where
  ok_of_mem layer hLayer := (hOk layer hLayer).1
  place layer hLayer := .inr (hOk layer hLayer).2
  present := by simp [hPath]

theorem Masks.append {layers' : List (List String × Shown)} (h : Masks host ok paths layers)
    (h' : Masks host ok paths' layers') : Masks host ok (paths ++ paths') (layers ++ layers') where
  ok_of_mem := forall_mem_append.mpr ⟨h.ok_of_mem, h'.ok_of_mem⟩
  place := by
    simp only [mem_append, or_and_right, exists_or]
    rintro layer (hLayer | hLayer)
    · exact (h.place layer hLayer).imp_left .inl
    · exact (h'.place layer hLayer).imp_left .inr
  present := by
    simp only [mem_append, or_and_right, exists_or]
    rintro path (hPath | hPath) hExists
    · exact .inl (h.present path hPath hExists)
    · exact .inr (h'.present path hPath hExists)

section

variable (hHost : host.Tree) (h : Masks host ok paths layers) (hExists : host.pathExists p = true)
include hHost h hExists

/-- A path that is there lies below one of the paths whose masks cover it. -/
theorem Masks.exists_of_covers (hCovers : Covers layers p.components) :
    ∃ path ∈ paths, path.components <+: p.components := by
  obtain ⟨layer, hLayer, hPre⟩ := hCovers
  rcases h.place layer hLayer with ⟨path, hPath, hEq⟩ | hMissing
  · exact ⟨path, hPath, hEq ▸ hPre⟩
  · rw [hHost.exists_ancestor p ⟨layer.1⟩ hExists hPre] at hMissing
    cases hMissing

theorem Masks.covers (hPath : path ∈ paths)
    (hPre : path.components <+: p.components) : Covers layers p.components := by
  obtain ⟨layer, hLayer, hEq⟩ :=
    h.present path hPath (hHost.exists_ancestor p path hExists hPre)
  exact ⟨layer, hLayer, hEq ▸ hPre⟩

end

/-- `b'` is `b` with masks over the paths. -/
def AddsMasks (host : SandboxHost) (ok : List String × Shown → Prop)
    (paths : List AbsolutePathBuf) (b b' : BwrapArgs) : Prop :=
  ∃ added, mounts b'.args = mounts b.args ++ added ∧ Masks host ok paths added

theorem addsMasks_foldlM
    (hStep : ∀ path ∈ paths, ∀ b b', step b path = .ok b' → AddsMasks host ok [path] b b')
    (h : paths.foldlM step b = .ok b') : AddsMasks host ok paths b b' := by
  induction paths generalizing b with
  | nil =>
    cases h
    exact ⟨[], by simp, by constructor <;> simp⟩
  | cons path paths ih =>
    obtain ⟨next, hNext, hRest⟩ := exists_ok_of_bind h
    obtain ⟨first, hFirst, hMasks⟩ := hStep path mem_cons_self b next hNext
    obtain ⟨rest, hRestMounts, hRestMasks⟩ :=
      ih (fun path' hMem => hStep path' (mem_cons_of_mem _ hMem)) hRest
    refine ⟨first ++ rest, ?_, hMasks.append hRestMasks⟩
    rw [hRestMounts, hFirst, append_assoc]

theorem mounts_emptyFile (h : appendEmptyFileBindDataArgs host b path = .ok b') :
    mounts b'.args = mounts b.args ++ [(path.components, .hidden)] := by
  unfold appendEmptyFileBindDataArgs at h
  split at h
  · cases h
    rw [mounts_push]
    rfl
  rcases hOpen : host.openDevNull with e | fd
  · rw [hOpen] at h; cases h
  rw [hOpen] at h
  cases h
  rw [mounts_push]
  rfl

theorem mounts_emptyDirectory (b : BwrapArgs) (path : AbsolutePathBuf) :
    mounts (appendEmptyDirectoryArgs b path).args =
      mounts b.args ++ [(path.components, .hidden)] := by
  unfold appendEmptyDirectoryArgs
  rw [mounts_push]
  rfl

/-- The mount of an empty file with a note about it. -/
theorem mounts_emptyFile_map {target : SyntheticMountTarget}
    (h : (appendEmptyFileBindDataArgs host b path).map (·.pushSynthetic target) = .ok b') :
    mounts b'.args = mounts b.args ++ [(path.components, .hidden)] := by
  cases hData : appendEmptyFileBindDataArgs host b path with
  | error e => rw [hData] at h; cases h
  | ok next =>
    rw [hData] at h
    cases h
    rw [mounts_pushSynthetic, mounts_emptyFile hData]

theorem not_exists_of_firstMissing {first : AbsolutePathBuf}
    (h : findFirstNonExistentComponent host path = some first) : host.pathExists first = false := by
  have hSome := List.find?_some h
  simpa using hSome

/-- An unreadable root that is there is hidden. -/
theorem addsMasks_unreadableRoot (h : appendUnreadableRootArgs host allowed b path = .ok b') :
    AddsMasks host Hides [path] b b' := by
  unfold appendUnreadableRootArgs at h
  split at h
  · cases h
  split at h
  · -- there: a directory or a file
    refine ⟨[(path.components, .hidden)], ?_, masks_single rfl⟩
    unfold appendExistingUnreadablePathArgs at h
    split at h
    · cases h
      have hDirs : ∀ dirs : List AbsolutePathBuf, mounts (dirs.flatMap fun dir =>
          mountTargetParentDirArgs host dir path) = [] := fun dirs =>
        filterMap_flatMap.trans (flatMap_eq_nil_iff.mpr fun dir _ => mounts_parentDirs dir path)
      rw [mounts_push, mounts_append, mounts_append, hDirs]
      rfl
    · rw [mounts_emptyFile h, mounts_push]
      simp [mounts, BwrapArg.mount]
  · rename_i hMissing
    have hMissing := eq_false_of_ne_true hMissing
    have hNone : AddsMasks host Hides [path] b b :=
      ⟨[], by simp, masks_missing hMissing (by simp)⟩
    split at h
    · cases h
      exact hNone
    rename_i first hFirst
    split at h
    · refine ⟨_, mounts_emptyFile_map h, masks_missing hMissing ?_⟩
      simpa [Hides] using not_exists_of_firstMissing hFirst
    · cases h
      exact hNone

/-- A read-only subpath that is there can no longer be written. -/
theorem addsMasks_readOnlySubpath (hWithin : isWithinAllowedWritePaths path allowed = true)
    (h : appendReadOnlySubpathArgs host allowed b path = .ok b') :
    AddsMasks host Protects [path] b b' := by
  unfold appendReadOnlySubpathArgs at h
  split at h
  · cases h
  split at h
  · exact ⟨_, mounts_emptyFile_map h, masks_single (.inl rfl)⟩
  · cases h
    exact ⟨_, mounts_emptyDirectory b path, masks_single (.inl rfl)⟩
  split at h
  · cases h
    exact ⟨[(path.components, .host path false)], mounts_push _ _, masks_single (.inr rfl)⟩
  rename_i hMissing
  have hMissing := eq_false_of_ne_true hMissing
  have hNone : AddsMasks host Protects [path] b b :=
    ⟨[], by simp, masks_missing hMissing (by simp)⟩
  split at h
  · cases h
    exact hNone
  rename_i first hFirst
  split at h
  · refine ⟨[(first.components, .hidden)], ?_, masks_missing hMissing ?_⟩
    · unfold appendMissingReadOnlySubpathArgs at h
      split at h
      · cases h
        rw [mounts_pushSynthetic, mounts_emptyDirectory]
      · exact mounts_emptyFile_map h
    · simpa [Protects] using not_exists_of_firstMissing hFirst
  · cases h
    exact hNone

/-! ## The group of a writable root -/

theorem canonicalTarget_eq_none (hHost : host.Tree) (path : AbsolutePathBuf) :
    canonicalTargetIfSymlinkedPath host path = none := by
  refine if_neg fun h => ?_
  obtain ⟨current, -, hLink⟩ := any_eq_true.mp h
  exact hHost.not_symlink current (beq_iff_eq.mp hLink)

theorem mem_allowedWritePaths (hHost : host.Tree) :
    path ∈ allowedWritePathsOf host roots ↔ ∃ w ∈ roots, w.root = path := by
  unfold allowedWritePathsOf
  simp [canonicalTarget_eq_none hHost, eq_comm]

theorem mem_sortByDepth : path ∈ sortByDepth paths ↔ path ∈ paths :=
  mem_insertionSort _

theorem addsMasks_sortByDepth
    (hStep : ∀ path ∈ paths, ∀ b b', step b path = .ok b' → AddsMasks host ok [path] b b')
    (h : (sortByDepth paths).foldlM step b = .ok b') : AddsMasks host ok paths b b' := by
  obtain ⟨added, hMounts, hMasks⟩ :=
    addsMasks_foldlM (fun path hPath => hStep path (mem_sortByDepth.mp hPath)) h
  obtain ⟨hOk, hPlace, hPresent⟩ := hMasks
  simp only [mem_sortByDepth] at hPlace hPresent
  exact ⟨added, hMounts, hOk, hPlace, hPresent⟩

/-- What stays read-only below a root: its listed subpaths and its metadata directories. -/
def readOnlyBelow (host : SandboxHost) (unreadable missing : List AbsolutePathBuf)
    (w : WritableRoot) : List AbsolutePathBuf :=
  appendMetadataPathMasksForWritableRoot host
    (w.readOnlySubpaths.filter fun path => !unreadable.contains path && !missing.contains path)
    w.root w.root w.protectedMetadataNames

theorem mem_metadataPathMasks {root mountRoot : AbsolutePathBuf} {names : List String} :
    path ∈ appendMetadataPathMasksForWritableRoot host paths root mountRoot names ↔
      path ∈ paths ∨ ∃ name ∈ names,
        shouldLeaveMissingGitForParentRepoDiscovery host mountRoot name = false ∧
          path = root.child name := by
  unfold appendMetadataPathMasksForWritableRoot
  induction names generalizing paths with
  | nil => simp
  | cons name names ih =>
    rw [foldl_cons, ih]
    cases hLeave : shouldLeaveMissingGitForParentRepoDiscovery host mountRoot name with
    | true => simp [hLeave]
    | false =>
      simp only [hLeave, Bool.false_eq_true, if_false, mem_pushUnique, exists_mem_cons_iff,
        true_and, or_assoc]

/-- A writable root bound, what is read-only below it, and what is denied below it. -/
def RootGroup (host : SandboxHost) (unreadable missing : List AbsolutePathBuf) (w : WritableRoot)
    (layers : List (List String × Shown)) : Prop :=
  ∃ readOnly masks, layers = (w.root.components, .host w.root true) :: (readOnly ++ masks) ∧
    Masks host Protects (readOnlyBelow host unreadable missing w) readOnly ∧
    Masks host Hides (unreadable.filter fun path => path.startsWith w.root) masks

/-- The subpaths of a writable root lie below it. -/
def Rooted (w : WritableRoot) : Prop :=
  ∀ s ∈ w.readOnlySubpaths, w.root.components <+: s.components

theorem below_of_mem_readOnlyBelow (hRooted : Rooted w)
    (h : path ∈ readOnlyBelow host unreadable missing w) :
    w.root.components <+: path.components := by
  rcases mem_metadataPathMasks.mp h with hListed | ⟨name, -, -, rfl⟩
  · exact hRooted path (mem_filter.mp hListed).1
  · exact prefix_child

theorem rootGroup_of_append (hHost : host.Tree) (hRooted : Rooted w) (hAllowed : w.root ∈ allowed)
    (h : appendWritableRootArgs host unreadable missing allowed b w = .ok b') :
    ∃ added, mounts b'.args = mounts b.args ++ added ∧
      RootGroup host unreadable missing w added := by
  unfold appendWritableRootArgs at h
  simp only [canonicalTarget_eq_none hHost] at h
  obtain ⟨next, hNext, hRest⟩ := exists_ok_of_bind h
  have hWithin : ∀ path ∈ readOnlyBelow host unreadable missing w,
      isWithinAllowedWritePaths path allowed = true := fun path hPath =>
    any_eq_true.mpr ⟨w.root, hAllowed,
      startsWith_iff.mpr (below_of_mem_readOnlyBelow hRooted hPath)⟩
  obtain ⟨readOnly, hReadOnly, hProtects⟩ := addsMasks_sortByDepth
    (fun path hPath b b' hStep => addsMasks_readOnlySubpath (hWithin path hPath) hStep) hNext
  obtain ⟨masks, hMasks, hHides⟩ := addsMasks_sortByDepth
    (fun path _ b b' hStep => addsMasks_unreadableRoot hStep) hRest
  refine ⟨_, ?_, readOnly, masks, rfl, hProtects, hHides⟩
  rw [hMasks, hReadOnly]
  unfold appendProtectedCreateTargetsForWritableRoot
  rw [mounts_push, mounts_append, mounts_hiddenParentDirs]
  simp [mounts, BwrapArg.mount]

/-- A loop over writable roots covers only what lies below one of them. -/
theorem groups_below (hHost : host.Tree) (hRoots : ∀ w ∈ roots, Rooted w ∧ w.root ∈ allowed)
    (h : roots.foldlM (appendWritableRootArgs host unreadable missing allowed) b = .ok b')
    (hExists : host.pathExists p = true) : ∃ added, mounts b'.args = mounts b.args ++ added ∧
      (Covers added p.components → ∃ w ∈ roots, w.root.components <+: p.components) := by
  induction roots generalizing b with
  | nil =>
    cases h
    exact ⟨[], by simp, fun ⟨_, hLayer, _⟩ => absurd hLayer not_mem_nil⟩
  | cons w roots ih =>
    obtain ⟨next, hNext, hRest⟩ := exists_ok_of_bind h
    obtain ⟨hRooted, hAllowed⟩ := hRoots w mem_cons_self
    obtain ⟨first, hFirst, hGroup⟩ := rootGroup_of_append hHost hRooted hAllowed hNext
    obtain ⟨rest, hRestMounts, hBelow⟩ :=
      ih (fun w' hw' => hRoots w' (mem_cons_of_mem _ hw')) hRest
    refine ⟨first ++ rest, by rw [hRestMounts, hFirst, append_assoc], ?_⟩
    rintro ⟨layer, hLayer, hPre⟩
    rcases mem_append.mp hLayer with hLayer | hLayer
    · refine ⟨w, mem_cons_self, ?_⟩
      obtain ⟨readOnly, masks, rfl, hProtects, hHides⟩ := hGroup
      rcases mem_cons.mp hLayer with rfl | hLayer
      · exact hPre
      rcases mem_append.mp hLayer with hLayer | hLayer
      · obtain ⟨path, hPath, hAbove⟩ :=
          hProtects.exists_of_covers hHost hExists ⟨layer, hLayer, hPre⟩
        exact (below_of_mem_readOnlyBelow hRooted hPath).trans hAbove
      · obtain ⟨path, hPath, hAbove⟩ := hHides.exists_of_covers hHost hExists ⟨layer, hLayer, hPre⟩
        exact (startsWith_iff.mp (mem_filter.mp hPath).2).trans hAbove
    · obtain ⟨w', hw', hAbove⟩ := hBelow ⟨layer, hLayer, hPre⟩
      exact ⟨w', mem_cons_of_mem _ hw', hAbove⟩

/-! ## The whole plan -/

theorem mem_sortedUniquePaths : path ∈ sortedUniquePaths paths ↔ path ∈ paths := by
  unfold sortedUniquePaths sortedAbsolutePaths
  rw [mem_foldl_pushUnique]
  simp

/-- The writable roots that are mounted, as paths. -/
def mountedPaths (host : SandboxHost) (policy : FileSystemSandboxPolicy) (cwd : AbsolutePathBuf) :
    List AbsolutePathBuf :=
  allowedWritePathsOf host (writableRootsToMount host policy cwd)

/-- How a plan comes about: masks over denied paths above writable roots, the groups of
the writable roots by depth, and masks over the remaining denied paths. -/
structure Stages (host : SandboxHost) (policy : FileSystemSandboxPolicy) (cwd : AbsolutePathBuf)
    (unreadable : List AbsolutePathBuf) (roots : List WritableRoot)
    (outer inner plan : BwrapArgs) : Prop where
  mem_unreadable : ∀ u, u ∈ unreadable ↔
    u ∈ policy.getUnreadableRootsWithCwd host.toHost cwd.toPathBuf
  mem_roots : ∀ w, w ∈ roots ↔ w ∈ writableRootsToMount host policy cwd
  sorted : roots.Pairwise fun left right => pathDepth left.root ≤ pathDepth right.root
  above : AddsMasks host Hides
    (unreadable.filter fun path =>
      !isWithinAllowedWritePaths path (mountedPaths host policy cwd) &&
        (mountedPaths host policy cwd).any fun root => root.startsWith path)
    ⟨baseArgs host policy cwd (writableRootsToMount host policy cwd), [], [], []⟩ outer
  groups : roots.foldlM (appendWritableRootArgs host unreadable
    (missingAutoMetadataReadOnlyProjectRootSubpaths host policy cwd)
    (mountedPaths host policy cwd)) outer = .ok inner
  rootless : AddsMasks host Hides
    (unreadable.filter fun path =>
      !(isWithinAllowedWritePaths path (mountedPaths host policy cwd) ||
        (mountedPaths host policy cwd).any fun root => root.startsWith path))
    inner plan

theorem stages_of_plan {depth : Option Nat} {plan : BwrapArgs}
    (hGlobs : policy.getUnreadableGlobsWithCwd host.toHost cwd.toPathBuf = [])
    (hPlan : createFilesystemArgs host policy cwd depth = .ok plan) :
    ∃ unreadable roots outer inner, Stages host policy cwd unreadable roots outer inner plan := by
  have hExpand : expandUnreadableGlobsWithRipgrep host
      (policy.getUnreadableGlobsWithCwd host.toHost cwd.toPathBuf) cwd depth = .ok [] := by
    rw [hGlobs]
    rfl
  obtain ⟨expanded, hExpanded, hRest⟩ := exists_ok_of_bind hPlan
  rw [hExpand] at hExpanded
  cases hExpanded
  obtain ⟨outer, hOuter, hRest⟩ := exists_ok_of_bind hRest
  obtain ⟨inner, hInner, hRootless⟩ := exists_ok_of_bind hRest
  refine ⟨_, _, outer, inner, fun u => ?_, fun w => mem_insertionSort _, ?_, ?_, hInner, ?_⟩
  · rw [mem_sortedUniquePaths, append_nil]
  · exact pairwise_insertionSort _ _
  · exact addsMasks_sortByDepth (fun path _ b b' hStep => addsMasks_unreadableRoot hStep) hOuter
  · exact addsMasks_sortByDepth (fun path _ b b' hStep => addsMasks_unreadableRoot hStep) hRootless

theorem mem_writableRootsToMount (hFull : policy.hasFullDiskWriteAccess = false) :
    w ∈ writableRootsToMount host policy cwd ↔
      w ∈ policy.getWritableRootsWithCwd host.toMachine cwd.toPathBuf ∧
        host.pathExists w.root = true := by
  unfold writableRootsToMount
  simp only [hFull, Bool.and_false, Bool.false_and, Bool.false_eq_true, if_false, mem_filter]

section Plan

variable {roots : List WritableRoot} {outer inner plan : BwrapArgs}
variable (hHost : host.Tree) (hKind : policy.kind = .restricted)
  (hFull : policy.hasFullDiskWriteAccess = false)
variable {w : WritableRoot}

include hHost hKind hFull

theorem rooted_of_mem (hw : w ∈ policy.getWritableRootsWithCwd host.toMachine cwd.toPathBuf) :
    Rooted w := by
  obtain ⟨root, -, rfl⟩ := (mem_getWritableRoots hHost.toPlain hKind hFull).mp hw
  intro s hs
  rcases (mem_readOnlySubpaths hHost.toPlain hKind hFull).mp hs with
    ⟨name, -, rfl, -⟩ | ⟨-, -, hBelow⟩
  · exact prefix_child
  · exact hBelow

variable (hStages : Stages host policy cwd unreadable roots outer inner plan)
variable (hExists : host.pathExists p = true)
include hStages

theorem mounted_of_mem (hw : w ∈ roots) : Rooted w ∧ w.root ∈ mountedPaths host policy cwd := by
  have hMem := (hStages.mem_roots w).mp hw
  exact ⟨rooted_of_mem hHost hKind hFull ((mem_writableRootsToMount hFull).mp hMem).1,
    (mem_allowedWritePaths hHost).mpr ⟨w, hMem, rfl⟩⟩

include hExists

/-- The plan at a path below a writable root: what the group of the deepest one shows. -/
theorem top_below_root (hSome : ∃ w ∈ roots, w.root.components <+: p.components) :
    ∃ w ∈ roots, w.root.components <+: p.components ∧
      (∀ w' ∈ roots, w'.root.components <+: p.components → pathDepth w'.root ≤ pathDepth w.root) ∧
      ∃ group, RootGroup host unreadable
          (missingAutoMetadataReadOnlyProjectRootSubpaths host policy cwd) w group ∧
        top (mounts plan.args) p.components = top group p.components := by
  obtain ⟨before, w, after, hSplit, hBelow, hAfter⟩ := exists_last hSome
  have hMounted := fun w' (hw' : w' ∈ roots) =>
    mounted_of_mem hHost hKind hFull hStages hw'
  have hGroups := hStages.groups
  have hSorted := hStages.sorted
  rw [hSplit, foldlM_append] at hGroups
  rw [hSplit, pairwise_append] at hSorted
  obtain ⟨start, -, hRest⟩ := exists_ok_of_bind hGroups
  obtain ⟨next, hGroup, hRest⟩ := exists_ok_of_bind hRest
  have hw : w ∈ roots := hSplit ▸ mem_append_right _ mem_cons_self
  obtain ⟨group, hNext, hIs⟩ :=
    rootGroup_of_append hHost (hMounted w hw).1 (hMounted w hw).2 hGroup
  obtain ⟨later, hInner, hLater⟩ := groups_below hHost (fun w' hw' => hMounted w'
    (hSplit ▸ mem_append_right _ (mem_cons_of_mem _ hw'))) hRest hExists
  obtain ⟨rootless, hPlan, hRootless⟩ := hStages.rootless
  refine ⟨w, hw, hBelow, fun w' hw' hPre => ?_, group, hIs, ?_⟩
  · rw [hSplit, mem_append, mem_cons] at hw'
    rcases hw' with hw' | rfl | hw'
    · exact hSorted.2.2 w' hw' w mem_cons_self
    · exact le_refl _
    · exact absurd hPre (hAfter w' hw')
  -- nothing after the group covers `p`
  have hNoLater : ¬Covers later p.components := fun hCovers => by
    obtain ⟨w', hw', hPre⟩ := hLater hCovers
    exact hAfter w' hw' hPre
  have hNoRootless : ¬Covers rootless p.components := fun hCovers => by
    obtain ⟨u, hu, hPre⟩ := hRootless.exists_of_covers hHost hExists hCovers
    have hApart := (mem_filter.mp hu).2
    rw [Bool.not_eq_true', Bool.or_eq_false_iff, isWithinAllowedWritePaths, any_eq_false,
      any_eq_false] at hApart
    have hIn := (hMounted w hw).2
    rcases Nearest.prefix_or_prefix hPre hBelow with hUp | ⟨hDown, -⟩
    · exact hApart.2 _ hIn (startsWith_iff.mpr hUp)
    · exact hApart.1 _ hIn (startsWith_iff.mpr hDown)
  obtain ⟨readOnly, masks, rfl, -, -⟩ := hIs
  rw [hPlan, top_append_of_not_covers hNoRootless, hInner, top_append_of_not_covers hNoLater,
    hNext, top_append_of_covers ⟨_, mem_cons_self, hBelow⟩]

/-- The plan at a path below no writable root: a mask, or what the base shows. -/
theorem top_without_root (hNone : ¬∃ w ∈ roots, w.root.components <+: p.components) :
    (∃ layer, top (mounts plan.args) p.components = some layer ∧ Hides layer) ∨
      (∀ u ∈ unreadable, ¬u.components <+: p.components) ∧
        top (mounts plan.args) p.components =
          top (mounts (baseArgs host policy cwd (writableRootsToMount host policy cwd)))
            p.components := by
  obtain ⟨above, hOuter, hAbove⟩ := hStages.above
  obtain ⟨groups, hInner, hGroups⟩ := groups_below hHost
    (fun w hw => mounted_of_mem hHost hKind hFull hStages hw) hStages.groups hExists
  obtain ⟨rootless, hPlan, hRootless⟩ := hStages.rootless
  have hHides : ∀ {paths layers lower}, Masks host Hides paths layers →
      Covers layers p.components →
      ∃ layer, top (lower ++ layers) p.components = some layer ∧ Hides layer := by
    intro paths layers lower hMasks hCovers
    rw [top_append_of_covers hCovers]
    cases hTop : top layers p.components with
    | none => exact absurd hCovers (top_eq_none_iff.mp hTop)
    | some layer => exact ⟨layer, rfl, hMasks.ok_of_mem layer (mem_of_top hTop).1⟩
  rw [hPlan]
  by_cases hLast : Covers rootless p.components
  · exact .inl (hHides hRootless hLast)
  rw [top_append_of_not_covers hLast, hInner,
    top_append_of_not_covers fun hCovers => hNone (hGroups hCovers), hOuter]
  by_cases hFirst : Covers above p.components
  · exact .inl (hHides hAbove hFirst)
  refine .inr ⟨fun u hu hPre => ?_, by rw [top_append_of_not_covers hFirst]⟩
  -- an unreadable root above `p` has a mask in one of the two stages
  have hOutside : isWithinAllowedWritePaths u (mountedPaths host policy cwd) = false := by
    rw [isWithinAllowedWritePaths, any_eq_false]
    intro root hRoot hStarts
    obtain ⟨w, hw, rfl⟩ := (mem_allowedWritePaths hHost).mp hRoot
    exact hNone ⟨w, (hStages.mem_roots w).mpr hw,
      (startsWith_iff.mp hStarts).trans hPre⟩
  cases hUp : (mountedPaths host policy cwd).any fun root => root.startsWith u with
  | true =>
    refine hFirst (hAbove.covers hHost hExists (mem_filter.mpr ⟨hu, ?_⟩) hPre)
    rw [hOutside, hUp]
    rfl
  | false =>
    refine hLast (hRootless.covers hHost hExists (mem_filter.mpr ⟨hu, ?_⟩) hPre)
    rw [hOutside, hUp]
    rfl

end Plan

/-! ## What the layers grant -/

/-- A group shows host files in place, none that is denied below its root, and writable
ones only outside what stays read-only. -/
theorem shown_by_group (hHost : host.Tree) {target : List String}
    {source : AbsolutePathBuf} {writable : Bool} (hExists : host.pathExists p = true)
    (hGroup : RootGroup host unreadable missing w layers)
    (hTop : top layers p.components = some (target, .host source writable)) :
    source.components = target ∧
      (∀ u ∈ unreadable, w.root.components <+: u.components → ¬u.components <+: p.components) ∧
      (writable = true → ∀ s ∈ readOnlyBelow host unreadable missing w,
        ¬s.components <+: p.components) := by
  obtain ⟨readOnly, masks, rfl, hProtects, hHides⟩ := hGroup
  rw [← cons_append] at hTop
  have hNoMasks : ¬Covers masks p.components := fun hCovers => by
    rw [top_append_of_covers hCovers] at hTop
    exact absurd (hHides.ok_of_mem _ (mem_of_top hTop).1) (by simp [Hides])
  have hDenied : ∀ u ∈ unreadable, w.root.components <+: u.components →
      ¬u.components <+: p.components := fun u hu hBelow hPre =>
    hNoMasks (hHides.covers hHost hExists
      (mem_filter.mpr ⟨hu, startsWith_iff.mpr hBelow⟩) hPre)
  rw [top_append_of_not_covers hNoMasks, ← singleton_append] at hTop
  by_cases hCovers : Covers readOnly p.components
  · rw [top_append_of_covers hCovers] at hTop
    rcases hProtects.ok_of_mem _ (mem_of_top hTop).1 with hHidden | hShown
    · cases hHidden
    · obtain ⟨hSource, hWritable⟩ := Shown.host.inj hShown
      exact ⟨congrArg components hSource, hDenied,
        fun h => absurd (h.symm.trans hWritable) (by decide)⟩
  · rw [top_append_of_not_covers hCovers] at hTop
    cases mem_singleton.mp (mem_of_top hTop).1
    exact ⟨rfl, hDenied, fun _ s hs hPre => hCovers (hProtects.covers hHost hExists hs hPre)⟩

theorem mem_mounts_base (hMinimal : policy.includePlatformDefaults = false) (hHost : host.Tree)
    {layer : List String × Shown} (hLayer : layer ∈ mounts (baseArgs host policy cwd roots)) :
    layer.2 = .hidden ∨ layer.2 = .host ⟨layer.1⟩ false ∧
      (policy.hasFullDiskReadAccess = true ∨
        ⟨layer.1⟩ ∈ policy.getReadableRootsWithCwd host.toHost cwd.toPathBuf) := by
  have hReadable : ∀ r, r ∈ readableRootsToMount host policy cwd ↔
      r ∈ policy.getReadableRootsWithCwd host.toHost cwd.toPathBuf := by
    intro r
    unfold readableRootsToMount
    rw [mem_sortedUniquePaths, hMinimal, if_neg Bool.false_ne_true, append_nil]
  have hFullBase : layer ∈ mounts fullReadBase → layer = ([], .host .root false) := by
    intro h
    exact mem_singleton.mp h
  unfold baseArgs at hLayer
  split at hLayer
  · rename_i hRead
    rw [hFullBase hLayer]
    exact .inr ⟨rfl, .inl hRead⟩
  dsimp only at hLayer
  split at hLayer
  · rename_i hRoot
    rw [hFullBase hLayer]
    exact .inr ⟨rfl, .inr ((hReadable _).mp (contains_iff_mem.mp hRoot))⟩
  rw [mounts_append, mem_append] at hLayer
  rcases hLayer with hLayer | hLayer
  · cases mem_singleton.mp hLayer
    exact .inl rfl
  · simp only [mounts, canonicalTarget_eq_none hHost, Option.getD_none, ite_self, filterMap_map,
      mem_filterMap, Function.comp_apply, BwrapArg.mount, Option.some.injEq] at hLayer
    obtain ⟨r, hr, rfl⟩ := hLayer
    exact .inr ⟨rfl, .inr ((hReadable r).mp (mem_filter.mp hr).1)⟩

section BelowRoot

variable {roots : List WritableRoot} {outer inner plan : BwrapArgs} {w : WritableRoot}
variable (hHost : host.Tree) (hKind : policy.kind = .restricted)
variable (hFull : policy.hasFullDiskWriteAccess = false)
variable (hStages : Stages host policy cwd unreadable roots outer inner plan)
variable (hwMem : w ∈ policy.getWritableRootsWithCwd host.toMachine cwd.toPathBuf)
variable (hBelow : w.root.components <+: p.components)
variable (hDenied : ∀ u ∈ unreadable, w.root.components <+: u.components →
  ¬u.components <+: p.components)

include hHost hKind hFull hStages hwMem hBelow hDenied

/-- Below a writable root, what no mask hides can be read. -/
theorem canRead_of_not_denied :
    policy.canReadPathWithCwd host.toHost p.toPathBuf cwd.toPathBuf = true := by
  cases hRead : policy.hasFullDiskReadAccess with
  | true => exact canRead_of_fullRead hRead rfl
  | false =>
    have hReadable : w.root ∈ policy.getReadableRootsWithCwd host.toHost cwd.toPathBuf := by
      obtain ⟨root, hOpen, rfl⟩ := (mem_getWritableRoots hHost.toPlain hKind hFull).mp hwMem
      exact (mem_getReadableRoots hHost.toNoSymlinks hKind hRead).mpr ⟨⟨_, hOpen.1⟩, hOpen.2⟩
    refine (canRead_iff_reads hHost.toNoSymlinks hKind hRead rfl).mpr
      ⟨w.root, hReadable, hBelow, fun u hu hPre => ?_⟩
    rcases Nearest.prefix_or_prefix hBelow hPre with hUp | ⟨-, hLt⟩
    · exact absurd hPre (hDenied u ((hStages.mem_unreadable u).mpr hu) hUp)
    · exact hLt

/-- Below the deepest root that is mounted, what neither a mask hides nor a read-only mount
protects can be written. -/
theorem canWrite_of_not_protected (hExists : host.pathExists p = true)
    (hDeepest : ∀ w' ∈ roots, w'.root.components <+: p.components →
      pathDepth w'.root ≤ pathDepth w.root)
    (hProtected : ∀ s ∈ readOnlyBelow host unreadable
      (missingAutoMetadataReadOnlyProjectRootSubpaths host policy cwd) w,
      ¬s.components <+: p.components) :
    policy.canWritePathWithCwd host.toHost p.toPathBuf cwd.toPathBuf = true := by
  refine (canWrite_iff_grants hHost.toPlain hKind hFull).mpr ⟨w, hwMem, hBelow, ?_, ?_, ?_⟩
  · intro w' hw' hPre
    have hThere := hHost.exists_ancestor p w'.root hExists hPre
    have hDepth := hDeepest w' ((hStages.mem_roots w').mpr
      ((mem_writableRootsToMount hFull).mpr ⟨hw', hThere⟩)) hPre
    unfold pathDepth at hDepth
    omega
  · intro s hs hPre
    have hThere := hHost.exists_ancestor p s hExists hPre
    have hNotDenied : s ∉ unreadable := fun hu =>
      hDenied s hu (rooted_of_mem hHost hKind hFull hwMem s hs) hPre
    have hNotMissing : s ∉ missingAutoMetadataReadOnlyProjectRootSubpaths host policy cwd := by
      intro hMissing
      obtain ⟨entry, -, hSome⟩ := mem_filterMap.mp hMissing
      split at hSome
      · split at hSome
        · dsimp only at hSome
          split at hSome
          · cases hSome
          · rename_i hAbsent
            cases hSome
            exact hAbsent hThere
        · cases hSome
      · cases hSome
    refine absurd hPre (hProtected s (mem_metadataPathMasks.mpr (.inl ?_)))
    simp [hs, hNotDenied, hNotMissing]
  · intro name hName hPre
    have hThere := hHost.metadata_of_exists _ (hHost.exists_ancestor p _ hExists hPre)
    refine hProtected _ (mem_metadataPathMasks.mpr (.inr ⟨name, hName, ?_, rfl⟩)) hPre
    unfold shouldLeaveMissingGitForParentRepoDiscovery
    rw [Option.isNone_eq_false_iff.mpr hThere, Bool.and_false, Bool.false_and]

end BelowRoot

/-- **The mount plan never grants more than the policy.** -/
theorem exposed_within_policy (hHost : host.Tree) (hKind : policy.kind = .restricted)
    (hFull : policy.hasFullDiskWriteAccess = false)
    (hGlobs : ∀ entry ∈ policy.entries, ∀ pattern, entry.path ≠ .globPattern pattern)
    (hMinimal : ∀ entry ∈ policy.entries, entry.path ≠ .special .minimal)
    {depth : Option Nat} {plan : BwrapArgs}
    (hPlan : createFilesystemArgs host policy cwd depth = .ok plan)
    (hExists : host.pathExists p = true) {shown : AbsolutePathBuf} {writable : Bool}
    (hExposed : exposed plan.args p = some (shown, writable)) :
    shown = p ∧ policy.canReadPathWithCwd host.toHost p.toPathBuf cwd.toPathBuf = true ∧
      (writable = true →
        policy.canWritePathWithCwd host.toHost p.toPathBuf cwd.toPathBuf = true) := by
  obtain ⟨unreadable, roots, outer, inner, hStages⟩ :=
    stages_of_plan (getUnreadableGlobs_eq_nil hKind hGlobs) hPlan
  have hDefaults : policy.includePlatformDefaults = false := by
    unfold FileSystemSandboxPolicy.includePlatformDefaults
    rw [Bool.and_eq_false_iff, any_eq_false]
    refine .inr fun entry hEntry h => ?_
    exact hMinimal entry hEntry (beq_iff_eq.mp (Bool.and_eq_true_iff.mp h).1)
  -- the mount that is shown
  obtain ⟨target, source, hTop, hShown⟩ : ∃ target source,
      top (mounts plan.args) p.components = some (target, .host source writable) ∧
        shown = ⟨source.components ++ p.components.drop target.length⟩ := by
    unfold exposed at hExposed
    split at hExposed
    · rename_i target source writable' hTop
      cases hExposed
      exact ⟨target, source, hTop, rfl⟩
    · cases hExposed
  have hInPlace : source.components = target → shown = p := by
    intro hSource
    rw [hShown, hSource]
    exact AbsolutePathBuf.ext (prefix_append_drop (mem_of_top hTop).2).symm
  by_cases hSome : ∃ w ∈ roots, w.root.components <+: p.components
  · obtain ⟨w, hw, hBelow, hDeepest, group, hGroup, hEq⟩ :=
      top_below_root hHost hKind hFull hStages hExists hSome
    have hwMem := ((mem_writableRootsToMount hFull).mp ((hStages.mem_roots w).mp hw)).1
    obtain ⟨hSource, hDenied, hReadOnly⟩ :=
      shown_by_group hHost hExists hGroup (hEq ▸ hTop)
    refine ⟨hInPlace hSource, ?_, fun hWritable => ?_⟩
    · exact canRead_of_not_denied hHost hKind hFull hStages hwMem hBelow hDenied
    · exact canWrite_of_not_protected hHost hKind hFull hStages hwMem hBelow hDenied hExists
        hDeepest (hReadOnly hWritable)
  · rcases top_without_root hHost hKind hFull hStages hExists hSome with
      ⟨layer, hLayer, hHides⟩ | ⟨hNoDenied, hBase⟩
    · rw [hTop] at hLayer
      cases hLayer
      cases hHides
    · rw [hBase] at hTop
      rcases mem_mounts_base hDefaults hHost (mem_of_top hTop).1 with hHidden | ⟨hLayer, hGranted⟩
      · cases hHidden
      obtain ⟨hSource, hWritable⟩ := Shown.host.inj hLayer
      refine ⟨hInPlace (congrArg components hSource), ?_,
        fun h => absurd (h.symm.trans hWritable) (by decide)⟩
      cases hRead : policy.hasFullDiskReadAccess with
      | true => exact canRead_of_fullRead hRead rfl
      | false =>
        rw [hRead] at hGranted
        exact (canRead_iff_reads hHost.toNoSymlinks hKind hRead rfl).mpr
          ⟨⟨target⟩, hGranted.resolve_left Bool.false_ne_true, (mem_of_top hTop).2,
            fun u hu hPre => absurd hPre (hNoDenied u ((hStages.mem_unreadable u).mpr hu))⟩

/-! ### A project with a secret -/

/-- `/w` with a repository, a read-only directory, a secret and a file. -/
def SandboxHost.project : SandboxHost :=
  let there : AbsolutePathBuf → Bool := fun p =>
    [[], ["w"], ["w", ".git"], ["w", "docs"], ["w", "secret"], ["w", "main.rs"]].contains p.components
  { Machine.bare with
    isDir := fun p => there p && p.components != ["w", "main.rs"]
    symlinkMetadata := fun p => if there p then some false else none
    pathExists := there
    metadata := fun p =>
      { isFile := p.components == ["w", "main.rs"], isDir := p.components != ["w", "main.rs"]
        len := 1, identity := ⟨0, 0⟩ }
    directoryIsEmpty := fun _ => false
    openDevNull := .ok 3
    ripgrepMatches := fun _ _ _ => .ok [] }

theorem SandboxHost.project_tree : project.Tree where
  not_symlink p h := by
    simp only [project] at h
    split at h <;> cases h
  canonicalize_eq p q h := by cases h
  no_git_pointer p h := by cases h
  metadata_of_exists p h := by
    simp only [project] at h ⊢
    simpa using h
  exists_ancestor p q h hPre := by
    simp only [project, contains_iff_mem, mem_cons, not_mem_nil, or_false] at h ⊢
    have hInits : q.components ∈ p.components.inits := (mem_inits _ _).mpr hPre
    rcases h with h | h | h | h | h | h <;> rw [h] at hInits <;> revert hInits <;> simp <;> tauto

/-- The whole file system is readable, `/w` writable except for its documentation,
and its secret denied. -/
def projectPolicy : FileSystemSandboxPolicy :=
  .restricted [⟨.special .root, .read⟩, ⟨.path ⟨["w"]⟩, .write⟩, ⟨.path ⟨["w", "docs"]⟩, .read⟩,
    ⟨.path ⟨["w", "secret"]⟩, .deny⟩]

def projectPlan : BwrapArgs :=
  { args := [.roBind .root .root, .dev ⟨["dev"]⟩, .bind ⟨["w"]⟩ ⟨["w"]⟩,
      .roBind ⟨["w", ".git"]⟩ ⟨["w", ".git"]⟩,
      .perms "555", .tmpfs ⟨["w", ".codex"]⟩, .remountRo ⟨["w", ".codex"]⟩,
      .roBind ⟨["w", "docs"]⟩ ⟨["w", "docs"]⟩,
      .perms "555", .tmpfs ⟨["w", ".agents"]⟩, .remountRo ⟨["w", ".agents"]⟩,
      .perms "000", .tmpfs ⟨["w", "secret"]⟩, .remountRo ⟨["w", "secret"]⟩]
    preservedFiles := []
    syntheticMountTargets := [⟨⟨["w", ".codex"]⟩, .emptyDirectory, none⟩,
      ⟨⟨["w", ".agents"]⟩, .emptyDirectory, none⟩]
    protectedCreateTargets := [] }

theorem exposed_within_projectPolicy :
    createFilesystemArgs project projectPolicy ⟨["w"]⟩ none = .ok projectPlan ∧
      exposed projectPlan.args ⟨["w", "main.rs"]⟩ = some (⟨["w", "main.rs"]⟩, true) ∧
      exposed projectPlan.args ⟨["w", "docs"]⟩ = some (⟨["w", "docs"]⟩, false) ∧
      exposed projectPlan.args ⟨["w", "secret"]⟩ = none ∧
      projectPolicy.canWritePathWithCwd project.toHost
        (AbsolutePathBuf.toPathBuf ⟨["w", "main.rs"]⟩) (AbsolutePathBuf.toPathBuf ⟨["w"]⟩) = true :=
  have hPlan : createFilesystemArgs project projectPolicy ⟨["w"]⟩ none =
    .ok projectPlan := rfl
  have hMain : exposed projectPlan.args ⟨["w", "main.rs"]⟩ = some (⟨["w", "main.rs"]⟩, true) := by
    decide
  ⟨hPlan, hMain, by decide, by decide,
    (exposed_within_policy project_tree rfl (by decide)
      (by simp [projectPolicy, FileSystemSandboxPolicy.restricted]) (by decide) hPlan (by decide)
      hMain).2.2 rfl⟩

end Codex
