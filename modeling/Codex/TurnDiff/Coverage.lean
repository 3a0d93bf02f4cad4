import Codex.TurnDiff.Tracker
import Codex.Lib.NetChange

/-!
# Codex — the turn diff covers what a turn changed

The tracker sees changes, not files. If each change tells the truth about what it
replaced, the tracker knows the net change of the turn: for each path it has the cell
of `NetChange` for it (`tracks_turn`), because each change captures the baseline before
it writes or erases (`cell_applyChange`).

`get_unified_diff` then visits every known path. A path that is not shown by a diff of
its own is one end of a rename pair, and the pair is rendered when its other end is
visited (`rendered_of_visited`).

Result: `turn_diff_covers_changes`. A file that was moved and not otherwise changed is
a rename pair with nothing to show.
-/

namespace Codex.TurnDiff

open ApplyPatch NetChange List TurnDiffTracker Function

/-! ## Turns -/

/-- The files of each environment. -/
abbrev World := Text → Files

def World.content (world : World) (path : TrackedPath) : Option Text :=
  world path.environmentId path.path

/-- A change is right about the contents it replaces, and moves a file elsewhere. -/
def Truthful (files : Files) (change : AppliedPatchChange) : Prop :=
  match change.change with
  | .add _ overwrittenContent => files change.path = overwrittenContent
  | .delete content => files change.path = some content
  | .update none oldContent _ _ => files change.path = some oldContent
  | .update (some dest) oldContent overwrittenMoveContent _ =>
    files change.path = some oldContent ∧ files dest = overwrittenMoveContent ∧
      dest ≠ change.path

def TruthfulChanges : Files → List AppliedPatchChange → Prop
  | _, [] => True
  | files, change :: changes =>
    Truthful files change ∧ TruthfulChanges (replayChange files change) changes

/-- The world after the changes of a delta. -/
def World.applyDelta (world : World) (delta : Text × AppliedPatchDelta) : World :=
  Function.update world delta.1 (replay delta.2.changes (world delta.1))

/-- Every delta of the turn is exact, and truthful when it is applied. -/
def TruthfulTurn : World → List (Text × AppliedPatchDelta) → Prop
  | _, [] => True
  | world, delta :: deltas =>
    delta.2.isExact = true ∧ TruthfulChanges (world delta.1) delta.2.changes ∧
      TruthfulTurn (world.applyDelta delta) deltas

def World.afterTurn (world : World) (deltas : List (Text × AppliedPatchDelta)) : World :=
  deltas.foldl World.applyDelta world

def TurnDiffTracker.trackTurn (tracker : TurnDiffTracker)
    (deltas : List (Text × AppliedPatchDelta)) : TurnDiffTracker :=
  deltas.foldl (fun tracker delta => tracker.trackDelta delta.1 delta.2) tracker

/-! ## One change -/

namespace TurnDiffTracker

variable (tracker : TurnDiffTracker) (path other : TrackedPath)

/-- What the tracker knows of a path. -/
def cell : Cell Text := ⟨tracker.baselineByPath.lookup path, tracker.currentByPath.lookup path⟩

variable {tracker path} in
theorem isUnknown_iff : tracker.isUnknown path = true ↔
      (tracker.cell path).baseline = none ∧ (tracker.cell path).current = none := by
  unfold isUnknown
  rw [Bool.and_eq_true, Option.isNone_iff_eq_none, Option.isNone_iff_eq_none]
  exact And.comm

theorem cell_captureBaseline (content : Option Text) :
    (tracker.captureBaseline path content).cell other =
      if other = path then (tracker.cell other).capture content else tracker.cell other := by
  by_cases hPath : other = path
  · subst hPath
    rw [if_pos rfl]
    unfold captureBaseline
    rcases hUnknown : tracker.isUnknown other with _ | _
    · have hKnown : ¬((tracker.cell other).baseline = none ∧ (tracker.cell other).current = none) :=
        fun h => ne_true_of_eq_false hUnknown (isUnknown_iff.mpr h)
      exact (Cell.capture_of_known hKnown content).symm
    obtain ⟨hBaseline, hCurrent⟩ := isUnknown_iff.mp hUnknown
    cases content with
    | none => exact (Cell.capture_none _).symm
    | some content =>
      rw [Cell.capture_of_unknown hBaseline hCurrent]
      exact Cell.ext (AList.lookup_insert _) hCurrent
  · rw [if_neg hPath]
    unfold captureBaseline
    split
    · exact Cell.ext (AList.lookup_insert_ne hPath) rfl
    · rfl

variable (content : Text)

theorem cell_writeCurrent :
    { tracker with currentByPath := tracker.currentByPath.insert path content }.cell other =
      if other = path then (tracker.cell other).write content else tracker.cell other := by
  by_cases hPath : other = path
  · subst hPath
    rw [if_pos rfl]
    exact Cell.ext rfl (AList.lookup_insert _)
  · rw [if_neg hPath]
    exact Cell.ext rfl (AList.lookup_insert_ne hPath)

theorem cell_eraseCurrent :
    { tracker with currentByPath := tracker.currentByPath.erase path }.cell other =
      if other = path then (tracker.cell other).erase else tracker.cell other := by
  by_cases hPath : other = path
  · subst hPath
    rw [if_pos rfl]
    exact Cell.ext rfl (AList.lookup_erase _ _)
  · rw [if_neg hPath]
    exact Cell.ext rfl (AList.lookup_erase_ne hPath)

theorem cell_written (old : Option Text) (content : Text) :
    { tracker.captureBaseline path old with
      currentByPath := (tracker.captureBaseline path old).currentByPath.insert path content
      }.cell other =
      if other = path then ((tracker.cell other).capture old).write content
      else tracker.cell other := by
  rw [cell_writeCurrent, cell_captureBaseline]
  split <;> rfl

/-- The removal of the current content comes first, but is looked at as it was before. -/
theorem applyDelete_eq : tracker.applyDelete path content =
      { tracker.captureBaseline path (some content) with
        currentByPath := tracker.currentByPath.erase path
        originByCurrentPath := tracker.originByCurrentPath.erase path } := by
  unfold applyDelete captureBaseline isUnknown
  dsimp only
  split
  · rename_i hUnknown
    rw [hUnknown]
  · rename_i hUnknown
    rw [eq_false_of_ne_true hUnknown]

variable {tracker path other}

theorem cell_applyDelete : (tracker.applyDelete path content).cell other =
      if other = path then ((tracker.cell other).capture (some content)).erase
      else tracker.cell other := by
  have hCurrent : (tracker.captureBaseline path (some content)).currentByPath =
      tracker.currentByPath := by
    unfold captureBaseline
    split <;> rfl
  rw [applyDelete_eq, ← hCurrent]
  have hErase := cell_eraseCurrent (tracker.captureBaseline path (some content)) path other
  rw [cell_captureBaseline] at hErase
  refine Eq.trans ?_ (hErase.trans ?_)
  · rfl
  · split <;> rfl

theorem cell_applyMove {dest : TrackedPath} (hDest : dest ≠ path) (oldContent newContent : Text)
    (overwrittenMoveContent : Option Text) :
    (tracker.applyUpdate path (some dest) oldContent overwrittenMoveContent newContent).cell other =
      if other = dest then ((tracker.cell other).capture overwrittenMoveContent).write newContent
      else if other = path then ((tracker.cell other).capture (some oldContent)).erase
      else tracker.cell other := by
  have hCells := cell_writeCurrent
    { (tracker.captureBaseline path (some oldContent)).captureBaseline dest overwrittenMoveContent with
      currentByPath := ((tracker.captureBaseline path (some oldContent)).captureBaseline dest
        overwrittenMoveContent).currentByPath.erase path } dest other newContent
  rw [cell_eraseCurrent, cell_captureBaseline, cell_captureBaseline] at hCells
  refine Eq.trans ?_ (hCells.trans ?_)
  · rfl
  · by_cases hOther : other = dest
    · subst hOther
      rw [if_pos rfl, if_pos rfl, if_neg hDest, if_pos rfl, if_neg hDest]
    · rw [if_neg hOther, if_neg hOther, if_neg hOther]
      split <;> rfl

end TurnDiffTracker

/-! ## A turn -/

variable {initial world : World} {tracker : TurnDiffTracker} {environmentId : Text}
variable {changes : List AppliedPatchChange} {change : AppliedPatchChange}
variable {deltas : List (Text × AppliedPatchDelta)}

/-- The tracker is right about every path of every environment. -/
def Follows (tracker : TurnDiffTracker) (initial world : World) : Prop :=
  ∀ path, (tracker.cell path).Tracks (initial.content path) (world.content path)

/-- Writing or removing a file of an environment. -/
theorem content_update_file (world : World) (path other : TrackedPath) (files : Files)
    (content : Option Text) : World.content (update world path.environmentId
        (update files path.path content)) other =
      if other = path then content
      else World.content (update world path.environmentId files) other := by
  unfold World.content
  by_cases hOther : other = path
  · subst hOther
    rw [update_self, update_self, if_pos rfl]
  rw [update_apply, update_apply]
  split
  · rename_i hEnv
    rw [update_of_ne fun hPath => hOther ?_]
    obtain ⟨otherEnv, otherPath⟩ := other
    cases hEnv
    cases hPath
    rfl
  · rfl

section

variable (h : Follows tracker initial world)
include h

/-- **A truthful change keeps the tracker right.** -/
theorem follows_applyChange (hTrue : Truthful (world environmentId) change) :
    Follows (tracker.applyChange environmentId change) initial
      (update world environmentId (replayChange (world environmentId) change)) := by
  intro other
  obtain ⟨path, change⟩ := change
  have hSame : ∀ p, World.content (update world environmentId (world environmentId)) p =
      world.content p := fun p => by rw [update_eq_self]
  have hFile := content_update_file world ⟨environmentId, path⟩ other
  have hSet : ∀ {old} (now : Option Text), world.content ⟨environmentId, path⟩ = old →
      (if other = ⟨environmentId, path⟩ then ⟨((tracker.cell other).capture old).baseline, now⟩
        else tracker.cell other : Cell Text).Tracks (initial.content other)
        (if other = ⟨environmentId, path⟩ then now else world.content other) := by
    rintro _ now rfl
    split
    · rename_i hPath
      subst hPath
      exact Cell.tracks_of_baseline (h _).baseline_capture
    · exact h other
  cases change with
  | add content overwrittenContent =>
    unfold replayChange
    rw [hFile, hSame]
    exact (cell_written ..).symm ▸ hSet (some content) hTrue
  | delete content =>
    unfold applyChange replayChange
    rw [hFile, hSame, cell_applyDelete]
    exact hSet none hTrue
  | update movePath oldContent overwrittenMoveContent newContent =>
    rcases movePath with _ | dest
    · unfold replayChange
      rw [hFile, hSame]
      exact (cell_written ..).symm ▸ hSet (some newContent) hTrue
    obtain ⟨hOld, hOverwritten, hDest⟩ := hTrue
    have hDestPath : (⟨environmentId, dest⟩ : TrackedPath) ≠ ⟨environmentId, path⟩ :=
      fun hEq => hDest (TrackedPath.mk.inj hEq).2
    have hDestFile := content_update_file world ⟨environmentId, dest⟩ other
    unfold applyChange replayChange
    dsimp only [Option.map_some]
    rw [hDestFile, hFile, hSame, cell_applyMove hDestPath]
    split
    · rename_i hPath
      subst hPath
      rw [← show world.content ⟨environmentId, dest⟩ = overwrittenMoveContent from hOverwritten]
      exact Cell.tracks_of_baseline (h _).baseline_capture
    · exact hSet none hOld

theorem follows_applyChanges (hTrue : TruthfulChanges (world environmentId) changes) :
    Follows (changes.foldl (fun tracker change => tracker.applyChange environmentId change) tracker)
      initial (update world environmentId (replay changes (world environmentId))) := by
  induction changes generalizing tracker world with
  | nil =>
    show Follows tracker initial (update world environmentId (world environmentId))
    rw [update_eq_self]
    exact h
  | cons change changes ih =>
    have hStep := follows_applyChange h hTrue.1
    have hRest : TruthfulChanges (update world environmentId
        (replayChange (world environmentId) change) environmentId) changes := by
      rw [update_self]
      exact hTrue.2
    have hLast := ih hStep hRest
    rw [update_self, update_idem] at hLast
    exact hLast

/-- **After a truthful turn the tracker is right about every path.** -/
theorem follows_turn (hTurn : TruthfulTurn world deltas) :
    Follows (tracker.trackTurn deltas) initial (world.afterTurn deltas) := by
  induction deltas generalizing tracker world with
  | nil => exact h
  | cons delta deltas ih =>
    obtain ⟨hExact, hChanges, hRest⟩ := hTurn
    refine ih ?_ hRest
    show Follows (tracker.trackDelta delta.1 delta.2) initial (world.applyDelta delta)
    unfold trackDelta
    rw [hExact]
    exact follows_applyChanges h hChanges

end

theorem valid_applyChange (tracker : TurnDiffTracker) :
    (tracker.applyChange environmentId change).valid = tracker.valid := by
  have hCapture : ∀ (tracker : TurnDiffTracker) (path : TrackedPath) (content : Option Text),
      (tracker.captureBaseline path content).valid = tracker.valid := by
    intro tracker path content
    unfold captureBaseline
    split <;> rfl
  unfold applyChange
  split
  · exact hCapture _ _ _
  · rw [applyDelete_eq]
    exact hCapture _ _ _
  · unfold applyUpdate
    split
    · exact (hCapture _ _ _).trans (hCapture _ _ _)
    · exact hCapture _ _ _

theorem valid_turn (h : tracker.valid = true) (hTurn : TruthfulTurn world deltas) :
    (tracker.trackTurn deltas).valid = true := by
  induction deltas generalizing tracker world with
  | nil => exact h
  | cons delta deltas ih =>
    obtain ⟨hExact, -, hRest⟩ := hTurn
    refine ih ?_ hRest
    show (tracker.trackDelta delta.1 delta.2).valid = true
    unfold trackDelta
    rw [hExact]
    exact foldlRecOn (motive := (·.valid = true)) _ _ h fun tracker h _ _ =>
      (valid_applyChange tracker).trans h

/-! ## The diff -/

namespace TurnDiffTracker

variable {renderer : DiffRenderer} {path origin dest : TrackedPath}
variable {pairs : HashMap TrackedPath TrackedPath} {left right : Option Text} (aggregated : Text)
variable {visited : List TrackedPath × Text}

/-- The ends of a rename pair: the one had a file and has none, the other the reverse. -/
theorem renamePairs_spec {order : tracker.originByCurrentPath.Iteration}
    (h : (tracker.renamePairs order).lookup origin = some dest) :
    (∃ content, (tracker.cell origin).baseline = some content) ∧
      (tracker.cell origin).current = none ∧ (tracker.cell dest).baseline = none ∧
      ∃ content, (tracker.cell dest).current = some content := by
  have hMem := HashMap.mem_of_lookup_collect h
  obtain ⟨⟨destPath, originPath⟩, -, hPair⟩ := mem_filterMap.mp hMem
  unfold renamePair? at hPair
  split at hPair
  · cases hPair
  rename_i hNot
  cases hPair
  simp only [Bool.or_eq_true, not_or, Option.isSome_iff_ne_none, Option.isNone_iff_eq_none,
    not_not] at hNot
  obtain ⟨⟨⟨⟨-, hCurrent⟩, hDest⟩, hBaseline⟩, hFresh⟩ := hNot
  exact ⟨Option.ne_none_iff_exists'.mp hBaseline, hCurrent, hFresh,
    Option.ne_none_iff_exists'.mp hDest⟩

theorem mem_destutter {α : Type} [DecidableEq α] {x : α} {xs : List α} :
    x ∈ xs.destutter (· ≠ ·) ↔ x ∈ xs := by
  have hFrom : ∀ (ys : List α) (y : α), x ∈ ys.destutter' (· ≠ ·) y ↔ x ∈ y :: ys := by
    intro ys
    induction ys with
    | nil => exact fun y => Iff.rfl
    | cons z ys ih =>
      intro y
      unfold destutter'
      split
      · rw [mem_cons, ih]
        exact mem_cons.symm
      · rename_i hSame
        rw [ih, not_not.mp hSame, mem_cons, mem_cons, mem_cons]
        tauto
  cases xs with
  | nil => exact Iff.rfl
  | cons y ys => exact hFrom ys y

/-- What is rendered when a path is visited. -/
def diffAt (tracker : TurnDiffTracker) (renderer : DiffRenderer)
    (pairs : HashMap TrackedPath TrackedPath) (path : TrackedPath) : Option Text :=
  match pairs.lookup path with
  | some dest => tracker.renderRenameDiff renderer path dest
  | none => tracker.renderPathDiff renderer path

theorem append_prefix_pushDiff (shown : Text) :
    aggregated ++ shown <+: pushDiff aggregated (some shown) := by
  unfold pushDiff
  dsimp only
  split
  · exact prefix_refl _
  · exact prefix_append _ _

theorem infix_pushDiff (diff : Text) (shown : Option Text) (h : diff <:+: aggregated) :
    diff <:+: pushDiff aggregated shown := by
  cases shown with
  | none => exact h
  | some shown =>
    exact h.trans ((prefix_append _ _).trans (append_prefix_pushDiff aggregated shown)).isInfix

theorem infix_pushDiff_self {diff : Text} {shown : Option Text}
    (h : shown = some diff) : diff <:+: pushDiff aggregated shown := by
  subst h
  exact (suffix_append aggregated diff).isInfix.trans
    (append_prefix_pushDiff aggregated diff).isInfix

/-- Every handled path that is no destination has been rendered. -/
def Rendered (tracker : TurnDiffTracker) (renderer : DiffRenderer)
    (pairs : HashMap TrackedPath TrackedPath) (visited : List TrackedPath × Text) : Prop :=
  ∀ path ∈ visited.1, (∀ origin, pairs.lookup origin ≠ some path) →
    ∀ diff, tracker.diffAt renderer pairs path = some diff → diff <:+: visited.2

/-- **Visiting a path renders it, unless it is a destination.** -/
theorem rendered_visitPath (h : Rendered tracker renderer pairs visited) (path : TrackedPath) :
    Rendered tracker renderer pairs (tracker.visitPath renderer pairs visited path) ∧
      ∀ other, other = path ∨ other ∈ visited.1 →
        other ∈ (tracker.visitPath renderer pairs visited path).1 := by
  obtain ⟨handled, aggregated⟩ := visited
  unfold visitPath
  dsimp only
  split
  · rename_i hHandled
    refine ⟨h, ?_⟩
    rintro other (rfl | hOther)
    · exact hHandled
    · exact hOther
  split
  · rename_i hDest
    obtain ⟨⟨origin, dest⟩, hPair, rfl⟩ := mem_map.mp hDest
    refine ⟨fun other hOther hNoDest => ?_, fun other hOther => mem_cons.mpr hOther⟩
    rcases mem_cons.mp hOther with rfl | hOther
    · exact absurd (HashMap.mem_toPairs.mp hPair) (hNoDest origin)
    · exact h other hOther hNoDest
  split
  · rename_i dest hDest
    refine ⟨fun other hOther hNoDest diff hDiff => ?_, fun other hOther => ?_⟩
    · rcases mem_cons.mp hOther with rfl | hOther
      · exact absurd hDest (hNoDest path)
      rcases mem_cons.mp hOther with rfl | hOther
      · rw [diffAt, hDest] at hDiff
        exact infix_pushDiff_self aggregated hDiff
      · exact infix_pushDiff _ _ _ (h other hOther hNoDest diff hDiff)
    · exact mem_cons_of_mem _ (mem_cons.mpr hOther)
  · rename_i hNone
    refine ⟨fun other hOther hNoDest diff hDiff => ?_, fun other hOther => mem_cons.mpr hOther⟩
    rcases mem_cons.mp hOther with rfl | hOther
    · rw [diffAt, hNone] at hDiff
      exact infix_pushDiff_self aggregated hDiff
    · exact infix_pushDiff _ _ _ (h other hOther hNoDest diff hDiff)

theorem rendered_visitPaths (h : Rendered tracker renderer pairs visited)
    (paths : List TrackedPath) :
    Rendered tracker renderer pairs (paths.foldl (tracker.visitPath renderer pairs) visited) ∧
      ∀ path, path ∈ paths ∨ path ∈ visited.1 →
        path ∈ (paths.foldl (tracker.visitPath renderer pairs) visited).1 := by
  induction paths generalizing visited with
  | nil => exact ⟨h, fun path hPath => hPath.resolve_left not_mem_nil⟩
  | cons first paths ih =>
    obtain ⟨hFirst, hHandled⟩ := rendered_visitPath h first
    obtain ⟨hRest, hAll⟩ := ih hFirst
    refine ⟨hRest, fun path hPath => hAll path ?_⟩
    rcases hPath with hPath | hPath
    · rcases mem_cons.mp hPath with rfl | hPath
      · exact .inr (hHandled _ (.inl rfl))
      · exact .inl hPath
    · exact .inr (hHandled path (.inr hPath))

theorem renderDiff_of_ne (h : left ≠ right) :
    ∃ diff, tracker.renderDiff renderer origin left dest right = some diff ∧ diff ≠ [] := by
  unfold renderDiff
  rw [if_neg h]
  cases left <;> cases right
  · exact absurd rfl h
  all_goals exact ⟨_, rfl, cons_ne_nil _ _⟩

/-- **A path that is not a destination is in the diff, if there is anything to show.** -/
theorem shown_of_known (hValid : tracker.valid = true) (order : tracker.DiffOrder)
    (hPath : path ∈ tracker.sortedPaths order)
    (hNoDest : ∀ origin, (tracker.renamePairs order.origins).lookup origin ≠ some path)
    (hDiff : tracker.diffAt renderer (tracker.renamePairs order.origins) path =
      tracker.renderDiff renderer origin left dest right) (hSides : left ≠ right) :
    ∃ diff text, tracker.renderDiff renderer origin left dest right = some diff ∧
      tracker.getUnifiedDiff renderer order = some text ∧ diff <:+: text := by
  obtain ⟨diff, hSome, hNe⟩ := renderDiff_of_ne hSides
  have hStart : Rendered tracker renderer (tracker.renamePairs order.origins) ([], []) :=
    forall_mem_nil _
  obtain ⟨hRendered, hHandled⟩ := rendered_visitPaths hStart (tracker.sortedPaths order)
  have hInfix := hRendered path (hHandled path (.inl hPath)) hNoDest diff (hDiff.trans hSome)
  refine ⟨diff, _, hSome, ?_, hInfix⟩
  unfold getUnifiedDiff
  rw [hValid, Bool.not_true, if_neg Bool.false_ne_true]
  refine if_neg fun hNil => hNe ?_
  rw [hNil] at hInfix
  exact infix_nil.mp hInfix

end TurnDiffTracker

/-- A path is shown by the diff between what it was and what it is, or it is one end of
a rename, which is shown by the diff between its ends if there is one. -/
def Covered (tracker : TurnDiffTracker) (renderer : DiffRenderer) (order : tracker.DiffOrder)
    (initial final : World) (path : TrackedPath) : Prop :=
  (∃ diff text,
    tracker.renderDiff renderer path (initial.content path) path (final.content path) = some diff ∧
      tracker.getUnifiedDiff renderer order = some text ∧ diff <:+: text) ∨
  ∃ origin dest, (path = origin ∨ path = dest) ∧
    (tracker.renamePairs order.origins).lookup origin = some dest ∧
    final.content origin = none ∧ initial.content dest = none ∧
    (initial.content origin = final.content dest ∨ ∃ diff text,
      tracker.renderDiff renderer origin (initial.content origin) dest (final.content dest) =
          some diff ∧
        tracker.getUnifiedDiff renderer order = some text ∧ diff <:+: text)

theorem covered_of_changed {final : World} (hFollows : Follows tracker initial final)
    (hValid : tracker.valid = true) (renderer : DiffRenderer) (order : tracker.DiffOrder)
    {path : TrackedPath} (hChanged : initial.content path ≠ final.content path) :
    Covered tracker renderer order initial final path := by
  have hKnown : ∀ p, ¬((tracker.cell p).baseline = none ∧ (tracker.cell p).current = none) →
      p ∈ tracker.sortedPaths order ∧ (tracker.cell p).baseline = initial.content p ∧
        (tracker.cell p).current = final.content p := by
    intro p hp
    have hCell := (hFollows p).eq_of_known hp
    refine ⟨?_, congrArg Cell.baseline hCell, congrArg Cell.current hCell⟩
    unfold sortedPaths
    rw [mem_destutter, (perm_insertionSort _ _).mem_iff, mem_append,
      HashMap.Iteration.mem_keys, HashMap.Iteration.mem_keys]
    by_cases hBaseline : (tracker.cell p).baseline = none
    · exact .inr (Option.ne_none_iff_exists'.mp fun hCurrent => hp ⟨hBaseline, hCurrent⟩)
    · exact .inl (Option.ne_none_iff_exists'.mp hBaseline)
  -- a rename pair is rendered when its origin is visited
  have hPair : ∀ origin dest,
      (tracker.renamePairs order.origins).lookup origin = some dest →
      path = origin ∨ path = dest → Covered tracker renderer order initial final path := by
    intro origin dest hLookup hEnd
    obtain ⟨⟨left, hLeft⟩, hGone, hFresh, right, hRight⟩ := renamePairs_spec hLookup
    obtain ⟨hOrigin, hInitial, hNow⟩ := hKnown origin fun h => by simp [hLeft] at h
    obtain ⟨-, hBefore, hFinal⟩ := hKnown dest fun h => by simp [hRight] at h
    refine .inr ⟨origin, dest, hEnd, hLookup, hNow.symm.trans hGone, hBefore.symm.trans hFresh, ?_⟩
    by_cases hSame : initial.content origin = final.content dest
    · exact .inl hSame
    have hNoDest : ∀ o, (tracker.renamePairs order.origins).lookup o ≠ some origin := by
      intro o ho
      obtain ⟨-, -, -, content, hContent⟩ := renamePairs_spec ho
      rw [hGone] at hContent
      cases hContent
    refine .inr (shown_of_known hValid order hOrigin hNoDest ?_ hSame)
    rw [diffAt, hLookup, ← hInitial, ← hFinal]
    rfl
  by_cases hDest : ∃ origin, (tracker.renamePairs order.origins).lookup origin = some path
  · obtain ⟨origin, hOrigin⟩ := hDest
    exact hPair origin path hOrigin (.inr rfl)
  cases hLookup : (tracker.renamePairs order.origins).lookup path with
  | some dest => exact hPair path dest hLookup (.inl rfl)
  | none =>
    obtain ⟨hPath, hInitial, hFinal⟩ := hKnown path fun h =>
      hChanged ((hFollows path).untouched h.1 h.2)
    refine .inl (shown_of_known hValid order hPath
      (fun origin hOrigin => hDest ⟨origin, hOrigin⟩) ?_ hChanged)
    rw [diffAt, hLookup, ← hInitial, ← hFinal]
    rfl

/-- **After a turn of exact and truthful deltas the tracker is right about every path, and
every path whose content changed is covered by the diff.** -/
theorem turn_diff_covers_changes (displayRoots : List (Text × PathBuf)) (initial : World)
    (deltas : List (Text × AppliedPatchDelta)) (hTurn : TruthfulTurn initial deltas) :
    let tracker := (TurnDiffTracker.withEnvironmentDisplayRoots displayRoots).trackTurn deltas
    Follows tracker initial (initial.afterTurn deltas) ∧
      ∀ renderer (order : tracker.DiffOrder) path,
        initial.content path ≠ (initial.afterTurn deltas).content path →
        Covered tracker renderer order initial (initial.afterTurn deltas) path := by
  have hStart : Follows (withEnvironmentDisplayRoots displayRoots) initial initial :=
    fun path => Cell.tracks_empty _
  have hFollows := follows_turn hStart hTurn
  exact ⟨hFollows, fun renderer order path hChanged =>
    covered_of_changed hFollows (valid_turn rfl hTurn) renderer order hChanged⟩

/-- A file `a` is moved to `b` and changed, and a new `a` is written. -/
def moveAndReplace : List (Text × AppliedPatchDelta) :=
  [([], ⟨[⟨⟨["a"]⟩, .update (some ⟨["b"]⟩) "x".toList none "y".toList⟩], true⟩),
    ([], ⟨[⟨⟨["a"]⟩, .add "z".toList none⟩], true⟩)]

def onlyA : World := fun _ path => if path = ⟨["a"]⟩ then some "x".toList else none

theorem moveAndReplace_covered :
    let tracker := (TurnDiffTracker.withEnvironmentDisplayRoots []).trackTurn moveAndReplace
    ∀ renderer (order : tracker.DiffOrder),
      Covered tracker renderer order onlyA (onlyA.afterTurn moveAndReplace) ⟨[], ⟨["b"]⟩⟩ :=
  fun renderer order =>
    (turn_diff_covers_changes [] onlyA moveAndReplace
      ⟨rfl, ⟨⟨rfl, rfl, by decide⟩, trivial⟩, rfl, ⟨rfl, trivial⟩, trivial⟩).2 renderer order _
      (by decide)

end Codex.TurnDiff
