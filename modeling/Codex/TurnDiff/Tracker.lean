import Codex.ApplyPatch.Delta
import Codex.Std.HashMap
import Mathlib.Data.List.Destutter
import Mathlib.Data.String.Basic

/-!
# Codex — the turn diff tracker

`core/src/turn_diff_tracker.rs`: the net text diff of a turn, put together from the
deltas of its patches without looking at the file system. The tracker keeps, for each
path of each environment, the content at the start of the turn and the content now,
and where a file that is now at a path has come from.

Hash maps are iterated over in any order; `DiffOrder` is a choice of one for each map
that `get_unified_diff` iterates over. Of the text of a diff, the hash of a blob and
the hunks between two texts are parameters (`DiffRenderer`).

Definitions only.
-/

namespace Codex.TurnDiff

open ApplyPatch

structure TrackedPath where
  environmentId : Text
  path : AbsolutePathBuf
  deriving DecidableEq, Repr

structure TurnDiffTracker where
  valid : Bool
  displayRootsByEnvironment : HashMap Text PathBuf
  baselineByPath : HashMap TrackedPath Text
  currentByPath : HashMap TrackedPath Text
  originByCurrentPath : HashMap TrackedPath TrackedPath

/-- `git_blob_oid`, and `TextDiff::from_lines(left, right)` with its header lines. -/
structure DiffRenderer where
  gitBlobOid : Text → Text
  unifiedDiff : (left right oldHeader newHeader : Text) → Text

/-- `Path::strip_prefix`. -/
def stripPathPrefix? (path base : PathBuf) : Option PathBuf :=
  if base.hasRoot = path.hasRoot then
    if base.components <+: path.components then
      some { hasRoot := false, components := path.components.drop base.components.length }
    else none
  else if base = { hasRoot := false, components := [] } then some path
  else none

namespace TurnDiffTracker

def withEnvironmentDisplayRoots (displayRoots : List (Text × PathBuf)) : TurnDiffTracker :=
  { valid := true
    displayRootsByEnvironment := .collect displayRoots
    baselineByPath := ∅
    currentByPath := ∅
    originByCurrentPath := ∅ }

variable (tracker : TurnDiffTracker)

def invalidate : TurnDiffTracker := { tracker with valid := false }

/-! ## Tracking -/

/-- Neither map knows the path yet. -/
def isUnknown (path : TrackedPath) : Bool :=
  (tracker.currentByPath.lookup path).isNone && (tracker.baselineByPath.lookup path).isNone

/-- Enters a baseline for a path that is not known, if there is a content to enter. -/
def captureBaseline (path : TrackedPath) (content : Option Text) : TurnDiffTracker :=
  match tracker.isUnknown path, content with
  | true, some content =>
    { tracker with baselineByPath := tracker.baselineByPath.insert path content }
  | _, _ => tracker

def applyAdd (path : TrackedPath) (content : Text) (overwrittenContent : Option Text) :
    TurnDiffTracker :=
  let tracker :=
    { tracker with originByCurrentPath := tracker.originByCurrentPath.erase path }
  let tracker := tracker.captureBaseline path overwrittenContent
  { tracker with currentByPath := tracker.currentByPath.insert path content }

def applyDelete (path : TrackedPath) (content : Text) : TurnDiffTracker :=
  let removed := tracker.currentByPath.lookup path
  let tracker := { tracker with currentByPath := tracker.currentByPath.erase path }
  let tracker :=
    if removed.isNone && (tracker.baselineByPath.lookup path).isNone then
      { tracker with baselineByPath := tracker.baselineByPath.insert path content }
    else tracker
  { tracker with originByCurrentPath := tracker.originByCurrentPath.erase path }

def applyUpdate (sourcePath : TrackedPath) (movePath : Option TrackedPath) (oldContent : Text)
    (overwrittenMoveContent : Option Text) (newContent : Text) : TurnDiffTracker :=
  let tracker := tracker.captureBaseline sourcePath (some oldContent)
  match movePath with
  | some destPath =>
    let tracker := tracker.captureBaseline destPath overwrittenMoveContent
    let origin := (tracker.originByCurrentPath.lookup sourcePath).getD sourcePath
    let origins := (tracker.originByCurrentPath.erase sourcePath).erase destPath
    { tracker with
      currentByPath := (tracker.currentByPath.erase sourcePath).insert destPath newContent
      originByCurrentPath := if destPath ≠ origin then origins.insert destPath origin else origins }
  | none => { tracker with currentByPath := tracker.currentByPath.insert sourcePath newContent }

def applyChange (environmentId : Text) (change : AppliedPatchChange) : TurnDiffTracker :=
  let sourcePath : TrackedPath := ⟨environmentId, change.path⟩
  match change.change with
  | .add content overwrittenContent => tracker.applyAdd sourcePath content overwrittenContent
  | .delete content => tracker.applyDelete sourcePath content
  | .update movePath oldContent overwrittenMoveContent newContent =>
    tracker.applyUpdate sourcePath (movePath.map (TrackedPath.mk environmentId)) oldContent
      overwrittenMoveContent newContent

def trackDelta (environmentId : Text) (delta : AppliedPatchDelta) : TurnDiffTracker :=
  if !delta.isExact then tracker.invalidate
  else delta.changes.foldl (fun tracker change => tracker.applyChange environmentId change) tracker

/-! ## Rendering -/

/-- The pair of a file that has come from another path, unless one of the paths has a
file on both sides. -/
def renamePair? (destPath originPath : TrackedPath) : Option (TrackedPath × TrackedPath) :=
  if destPath = originPath ||
      (tracker.currentByPath.lookup originPath).isSome ||
      (tracker.currentByPath.lookup destPath).isNone ||
      (tracker.baselineByPath.lookup originPath).isNone ||
      (tracker.baselineByPath.lookup destPath).isSome then none
  else some (originPath, destPath)

def renamePairs (order : tracker.originByCurrentPath.Iteration) : HashMap TrackedPath TrackedPath :=
  .collect (order.pairs.filterMap fun pair => tracker.renamePair? pair.1 pair.2)

def displayPath (path : TrackedPath) : Text :=
  let display :=
    ((tracker.displayRootsByEnvironment.lookup path.environmentId).bind
      (stripPathPrefix? path.path.toPathBuf)).getD path.path.toPathBuf
  let display := display.display.map fun ch => if ch = '\\' then '/' else ch
  if tracker.displayRootsByEnvironment.entries.length > 1 && !path.environmentId.isEmpty then
    path.environmentId ++ '/' :: display
  else display

variable (renderer : DiffRenderer)

def renderDiff (leftPath : TrackedPath) (leftContent : Option Text)
    (rightPath : TrackedPath) (rightContent : Option Text) : Option Text :=
  if leftContent = rightContent then none
  else
    let leftDisplay := tracker.displayPath leftPath
    let rightDisplay := tracker.displayPath rightPath
    let oid (content : Option Text) : Text :=
      content.elim "0000000000000000000000000000000000000000".toList renderer.gitBlobOid
    let mode :=
      match leftContent, rightContent with
      | none, some _ => some "new file mode 100644\n".toList
      | some _, none => some "deleted file mode 100644\n".toList
      | some _, some _ => some []
      | none, none => none
    let oldHeader :=
      if leftContent.isSome then "a/".toList ++ leftDisplay else "/dev/null".toList
    let newHeader :=
      if rightContent.isSome then "b/".toList ++ rightDisplay else "/dev/null".toList
    mode.map fun mode =>
      "diff --git a/".toList ++ leftDisplay ++ " b/".toList ++ rightDisplay ++ "\n".toList ++
        mode ++
        "index ".toList ++ oid leftContent ++ "..".toList ++ oid rightContent ++ "\n".toList ++
        renderer.unifiedDiff (leftContent.getD []) (rightContent.getD []) oldHeader newHeader

def renderPathDiff (path : TrackedPath) : Option Text :=
  tracker.renderDiff renderer path (tracker.baselineByPath.lookup path) path
    (tracker.currentByPath.lookup path)

def renderRenameDiff (sourcePath destPath : TrackedPath) : Option Text :=
  tracker.renderDiff renderer sourcePath (tracker.baselineByPath.lookup sourcePath) destPath
    (tracker.currentByPath.lookup destPath)

/-- Appends a diff, on lines of its own. -/
def pushDiff (aggregated : Text) : Option Text → Text
  | none => aggregated
  | some diff =>
    let aggregated := aggregated ++ diff
    if Text.endsWith ['\n'] aggregated then aggregated else aggregated ++ ['\n']

/-- The body of the loop of `get_unified_diff`, on the handled paths and the text. -/
def visitPath (renamePairs : HashMap TrackedPath TrackedPath)
    (visited : List TrackedPath × Text) (path : TrackedPath) : List TrackedPath × Text :=
  let (handled, aggregated) := visited
  if path ∈ handled then visited
  else if path ∈ renamePairs.toPairs.map Prod.snd then (path :: handled, aggregated)
  else match renamePairs.lookup path with
    | some dest =>
      (dest :: path :: handled, pushDiff aggregated (tracker.renderRenameDiff renderer path dest))
    | none => (path :: handled, pushDiff aggregated (tracker.renderPathDiff renderer path))

/-- A choice of iteration orders. -/
structure DiffOrder where
  origins : tracker.originByCurrentPath.Iteration
  baseline : tracker.baselineByPath.Iteration
  current : tracker.currentByPath.Iteration

/-- All known paths, sorted by how they are shown. -/
def sortedPaths (order : tracker.DiffOrder) : List TrackedPath :=
  ((order.baseline.keys ++ order.current.keys).insertionSort fun path other =>
    tracker.displayPath path ≤ tracker.displayPath other).destutter (· ≠ ·)

def getUnifiedDiff (order : tracker.DiffOrder) : Option Text :=
  if !tracker.valid then none
  else
    let renamePairs := tracker.renamePairs order.origins
    let aggregated :=
      ((tracker.sortedPaths order).foldl (tracker.visitPath renderer renamePairs) ([], [])).2
    if aggregated = [] then none else some aggregated

end TurnDiffTracker

end Codex.TurnDiff
