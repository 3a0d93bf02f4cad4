import Codex.ApplyPatch.Agreement
import Codex.Permissions.Access

/-!
# Codex — does the safety check see every effect of a patch

`is_write_patch_constrained_to_writable_paths` of `core/src/safety.rs` checks the
paths of the announced changes. Since the changes are keyed by source path, a move
whose source is named again by a later hunk is announced no more, and its
destination is not checked; but it still runs.

1. `applyHunk_touched_iff`: which of its paths a hunk touches.
2. `constrained_iff`: what the check amounts to, hunk by hunk.
3. `constrained_patch_touched_iff`: a patch that passes keeps to writable paths
   exactly when every superseded move that gets to write goes to a writable path.
-/

namespace Codex.ApplyPatch

open Effect List

/-! ## The check -/

/-- `util::resolve_path`. -/
def resolvePath (base path : PathBuf) : PathBuf :=
  if path.hasRoot then path else base.join path

/-- The `normalize` local to the check. Unlike `absolutize.rs` it leaves an empty
path empty. -/
def normalize (path : PathBuf) : PathBuf :=
  { path with components := (normalizeComponents path.components).map .normal }

/-- The closure `is_path_writable`: the path is made absolute and normalized first. -/
def isPathWritable (host : Host) (policy : FileSystemSandboxPolicy) (cwd : AbsolutePathBuf)
    (path : PathBuf) : Bool :=
  policy.canWritePathWithCwd host (normalize (resolvePath cwd.toPathBuf path)) cwd.toPathBuf

def isWritePatchConstrainedToWritablePaths (host : Host) (action : ApplyPatchAction)
    (policy : FileSystemSandboxPolicy) (cwd : AbsolutePathBuf) : Bool :=
  action.changes.entries.all fun entry =>
    match entry.2 with
    | .add _ | .delete _ => isPathWritable host policy cwd entry.1.toPathBuf
    | .update _ movePath _ =>
      isPathWritable host policy cwd entry.1.toPathBuf &&
        match movePath with
        | some dest => isPathWritable host policy cwd dest.toPathBuf
        | none => true

/-- The policy lets the path be written. -/
def Writable (host : Host) (policy : FileSystemSandboxPolicy) (cwd path : AbsolutePathBuf) : Prop :=
  policy.canWritePathWithCwd host path.toPathBuf cwd.toPathBuf = true

variable {policy : FileSystemSandboxPolicy}

theorem isPathWritable_iff {host : Host}
    {cwd path : AbsolutePathBuf} :
    isPathWritable host policy cwd path.toPathBuf = true ↔ Writable host policy cwd path := by
  have hSame : normalize (resolvePath cwd.toPathBuf path.toPathBuf) = path.toPathBuf := by
    simp [resolvePath, normalize, AbsolutePathBuf.toPathBuf]
  unfold isPathWritable Writable
  rw [hSame]

/-- What the check says of the map of changes. -/
theorem constrained_iff {host : Host} {action : ApplyPatchAction}
    {cwd : AbsolutePathBuf} :
    isWritePatchConstrainedToWritablePaths host action policy cwd = true ↔
      ∀ path change, action.changes.lookup path = some change →
        Writable host policy cwd path ∧
          ∀ dest, change.movePath = some dest → Writable host policy cwd dest := by
  unfold isWritePatchConstrainedToWritablePaths
  rw [all_eq_true, Sigma.forall]
  refine forall₂_congr fun path change => imp_congr AList.mem_lookup_iff.symm ?_
  cases change with
  | add content => exact isPathWritable_iff.trans (and_iff_left fun dest hNo => by cases hNo).symm
  | delete content =>
    exact isPathWritable_iff.trans (and_iff_left fun dest hNo => by cases hNo).symm
  | update diff movePath new =>
    refine Bool.and_eq_true_iff.trans (and_congr isPathWritable_iff ?_)
    cases movePath with
    | none => exact iff_of_true rfl fun dest hNo => by cases hNo
    | some dest => simp [isPathWritable_iff, ApplyPatchFileChange.movePath]

/-! ## What a run touches -/

section Touched

variable (W : AbsolutePathBuf → Prop) (faults : Faults) (env : PathEnv) (cwd : AbsolutePathBuf)

/-- A move gets to write its destination once its source is read and its chunks fit. -/
def GetsToWrite (hunk : Hunk) (s : PatchState) : Prop :=
  match hunk with
  | .updateFile _ _ chunks =>
    (planUpdate faults (hunk.resolvePath env cwd) chunks s).1.toOption.isSome = true
  | _ => True

/-- The destination of the move is all right, if it comes to be written. -/
def DestinationCovered (hunk : Hunk) (s : PatchState) : Prop :=
  GetsToWrite faults env cwd hunk s → ∀ dest ∈ hunk.dest env cwd, W dest

variable {W faults env cwd}

/-- All touched paths have the property. -/
def AllTouched (W : AbsolutePathBuf → Prop) (s : PatchState) : Prop := ∀ p ∈ s.touched, W p

variable {s s' : PatchState} {hunk : Hunk} {hunks : List Hunk}

theorem allTouched_iff {paths : List AbsolutePathBuf}
    (h : Touches paths s s') : AllTouched W s' ↔ AllTouched W s ∧ ∀ p ∈ paths, W p := by
  unfold AllTouched
  rw [← forall_mem_append]
  exact forall_congr' fun p => imp_congr_left ((h p).trans mem_append.symm)

theorem Observes.allTouched_iff (h : Observes s s') : AllTouched W s' ↔ AllTouched W s := by
  unfold AllTouched
  rw [h.touched]

theorem destinationCovered_of_no_dest (hDest : hunk.dest env cwd = none) :
    DestinationCovered W faults env cwd hunk s := by
  intro _ dest hMem
  rw [hDest] at hMem
  cases hMem

/-- Touching the source of a hunk that moves nothing tells nothing new. -/
theorem allTouched_iff_of_source (hSource : W (hunk.resolvePath env cwd))
    (hDest : hunk.dest env cwd = none) (h : Touches [hunk.resolvePath env cwd] s s') :
    AllTouched W s' ↔ AllTouched W s ∧ DestinationCovered W faults env cwd hunk s := by
  rw [allTouched_iff h, forall_mem_singleton]
  exact and_congr_right fun _ => iff_of_true hSource (destinationCovered_of_no_dest hDest)

/-- **One hunk** whose source has the property: only its destination matters, and only
if it gets to write. -/
theorem applyHunk_touched_iff (hSource : W (hunk.resolvePath env cwd)) : Post
      (fun _ s' => AllTouched W s' ↔ AllTouched W s ∧ DestinationCovered W faults env cwd hunk s)
      (fun _ s' => AllTouched W s' ↔ AllTouched W s ∧ DestinationCovered W faults env cwd hunk s)
      (applyHunk faults env cwd hunk s) := by
  cases hunk with
  | addFile path contents =>
    refine (addFile_spec faults _ s contents).mono ?_ ?_
    · exact fun _ s' h => allTouched_iff_of_source hSource rfl h.1
    · exact fun _ s' h => allTouched_iff_of_source hSource rfl h.2.1
  | deleteFile path =>
    refine (deleteFile_spec faults _ s).mono ?_ ?_
    · exact fun _ s' h => allTouched_iff_of_source hSource rfl h.1.touched
    · intro _ s' h
      rw [h.1.allTouched_iff, and_iff_left (destinationCovered_of_no_dest rfl)]
  | updateFile path movePath chunks =>
    have hSpec := planUpdate_spec faults
      ((Hunk.updateFile path movePath chunks).resolvePath env cwd) s chunks
    refine post_bind_of_eq ?_ ?_
    · rintro ⟨original, new⟩ s₁ hPlan
      rw [hPlan] at hSpec
      have hObs : Observes s s₁ := hSpec.1
      have hGets : GetsToWrite faults env cwd (.updateFile path movePath chunks) s := by
        show (planUpdate faults _ chunks s).1.toOption.isSome = true
        rw [hPlan]
        rfl
      rcases movePath with _ | dest
      · refine (rewriteFile_spec faults _ s₁ original new).mono ?_ ?_
        · exact fun _ s' h => allTouched_iff_of_source hSource rfl (hObs.touches h.1)
        · exact fun _ s' h => allTouched_iff_of_source hSource rfl (hObs.touches h.2.1)
      -- the destination is written whatever happens to the source
      have hCovered : DestinationCovered W faults env cwd (.updateFile path (some dest) chunks) s ↔
          W (AbsolutePathBuf.resolvePathAgainstBase env dest cwd) := by
        constructor
        · exact fun h => h hGets _ rfl
        · rintro h - _ hMem
          rw [← Option.some.inj hMem]
          exact h
      rw [hCovered]
      refine (moveFile_spec faults _ s₁ _ original new).mono ?_ ?_
      · rintro _ s' ⟨hTouches, -⟩
        rw [allTouched_iff hTouches, hObs.allTouched_iff, forall_mem_cons, forall_mem_singleton]
        exact and_congr_right fun _ => and_iff_left hSource
      · rintro _ s' ⟨hTouches, -⟩
        rw [allTouched_iff hTouches, hObs.allTouched_iff, forall_mem_singleton]
    · rintro error s₁ hPlan
      rw [hPlan] at hSpec
      have hObs : Observes s s₁ := hSpec.1
      have hNot : ¬ GetsToWrite faults env cwd (.updateFile path movePath chunks) s := by
        show ¬ (planUpdate faults _ chunks s).1.toOption.isSome = true
        rw [hPlan]
        exact Bool.false_ne_true
      have hCovered : DestinationCovered W faults env cwd (.updateFile path movePath chunks) s :=
        fun hGets => (hNot hGets).elim
      rw [hObs.allTouched_iff, and_iff_left hCovered]

variable (W faults env cwd)

/-- Along the run, every move whose source a later hunk names again goes to a path with
the property, if it gets to write. -/
def SupersededMovesCovered : List Hunk → PatchState → Prop
  | [], _ => True
  | hunk :: later, s =>
    ((∃ k ∈ later, k.resolvePath env cwd = hunk.resolvePath env cwd) →
        DestinationCovered W faults env cwd hunk s) ∧
      ∀ s', applyHunk faults env cwd hunk s = (.ok (), s') → SupersededMovesCovered later s'

variable {W faults env cwd}

/-- What the check establishes of the hunks still to run. -/
structure Checked (W : AbsolutePathBuf → Prop) (env : PathEnv) (cwd : AbsolutePathBuf)
    (hunks : List Hunk) : Prop where
  source : ∀ hunk ∈ hunks, W (hunk.resolvePath env cwd)
  dest : ∀ path hunk, LastNaming env cwd hunks path hunk → ∀ dest ∈ hunk.dest env cwd, W dest

theorem Checked.tail (h : Checked W env cwd (hunk :: hunks)) : Checked W env cwd hunks :=
  ⟨fun k hMem => h.source k (mem_cons_of_mem hunk hMem),
    fun path k hLast => h.dest path k (lastNaming_cons.mpr (Or.inl hLast))⟩

/-- For a checked list only the superseded moves can go astray. -/
theorem Checked.covered_iff (h : Checked W env cwd (hunk :: hunks)) :
    DestinationCovered W faults env cwd hunk s ↔
      ((∃ k ∈ hunks, k.resolvePath env cwd = hunk.resolvePath env cwd) →
        DestinationCovered W faults env cwd hunk s) := by
  refine ⟨fun hCovered _ => hCovered, fun hCovered => ?_⟩
  by_cases hLater : ∃ k ∈ hunks, k.resolvePath env cwd = hunk.resolvePath env cwd
  · exact hCovered hLater
  · push Not at hLater
    exact fun _ => h.dest _ hunk (lastNaming_cons.mpr (Or.inr ⟨rfl, rfl, hLater⟩))

/-- **The whole run.** -/
theorem applyHunkLoop_touched_iff (affected : AffectedPaths) (hChecked : Checked W env cwd hunks) :
    AllTouched W (applyHunkLoop faults env cwd hunks affected s).2 ↔
      AllTouched W s ∧ SupersededMovesCovered W faults env cwd hunks s := by
  induction hunks generalizing s affected with
  | nil => exact (and_iff_left trivial).symm
  | cons hunk hunks ih =>
    have hStep : Post _ _ (applyHunk faults env cwd hunk s) :=
      applyHunk_touched_iff (hChecked.source hunk mem_cons_self)
    rw [SupersededMovesCovered, ← hChecked.covered_iff, ← and_assoc]
    show AllTouched W (Eff.bind (applyHunk faults env cwd hunk)
      (fun _ => applyHunkLoop faults env cwd hunks (affected.push hunk)) s).2 ↔ _
    unfold Eff.bind
    cases hRun : applyHunk faults env cwd hunk s with
    | mk r s' =>
      rw [hRun] at hStep
      cases r with
      | error error =>
        -- the run ends here
        rw [show AllTouched W s' ↔ _ from hStep]
        refine (and_iff_left fun s'' hOk => ?_).symm
        cases hOk
      | ok _ =>
        show AllTouched W (applyHunkLoop faults env cwd hunks (affected.push hunk) s').2 ↔ _
        rw [ih _ hChecked.tail, show AllTouched W s' ↔ _ from hStep]
        refine and_congr_right fun _ => ⟨fun hRest s'' hOk => ?_, fun hRest => hRest s' rfl⟩
        cases hOk
        exact hRest

end Touched

/-! ## A patch that passes the check -/

section Patch

variable {unifiedDiff : Text → Text → Text} {host : Host} {files : Files} {args : ApplyPatchArgs}
  {patchCwd cwd : AbsolutePathBuf} {policy : FileSystemSandboxPolicy} {action : ApplyPatchAction}

theorem checked_of_constrained
    (hVerify : verifyApplyPatchArgs unifiedDiff host.toPathEnv files args patchCwd = .ok action)
    (hConstrained : isWritePatchConstrainedToWritablePaths host action policy cwd = true) :
    Checked (Writable host policy cwd) host.toPathEnv action.cwd args.hunks := by
  have hEach := constrained_iff.mp hConstrained
  have hAnnounced : ∀ path hunk, LastNaming host.toPathEnv action.cwd args.hunks path hunk →
      ∃ change, action.changes.lookup path = some change ∧
        change.movePath = hunk.dest host.toPathEnv action.cwd := by
    intro path hunk hLast
    have hMem : hunk ∈ args.hunks := by
      obtain ⟨before, later, hSplit, -⟩ := hLast
      rw [hSplit]
      exact mem_append_right _ mem_cons_self
    obtain ⟨change, hChange⟩ := verifyHunk_of_mem (verifyApplyPatchArgs_eq_ok hVerify) hunk hMem
    exact ⟨change, (lookup_action hVerify).mpr ⟨hunk, hLast, hChange⟩,
      movePath_of_verifyHunk hChange⟩
  constructor
  · -- a later hunk may announce the path, but it is announced
    intro hunk hMem
    obtain ⟨before, k, later, hSplit, hSame, hAfter⟩ := Overlay.exists_last
      (P := fun k : Hunk => k.resolvePath host.toPathEnv action.cwd =
        hunk.resolvePath host.toPathEnv action.cwd) ⟨hunk, hMem, rfl⟩
    obtain ⟨change, hLookup, -⟩ := hAnnounced _ k ⟨before, later, hSplit, hSame, hAfter⟩
    exact (hEach _ change hLookup).1
  · intro path hunk hLast dest hDest
    obtain ⟨change, hLookup, hMove⟩ := hAnnounced path hunk hLast
    exact (hEach path change hLookup).2 dest (hMove.trans hDest)

/-- **A patch that passes the check** writes and removes only writable paths, whichever of
its calls fail, exactly when every superseded move that gets to write goes to a writable
path. -/
theorem constrained_patch_touched_iff (faults : Faults)
    (hVerify : verifyApplyPatchArgs unifiedDiff host.toPathEnv files args patchCwd = .ok action)
    (hConstrained : isWritePatchConstrainedToWritablePaths host action policy cwd = true) :
    (∀ p ∈ (applyHunksToFiles faults host.toPathEnv action.cwd args.hunks (.start files)).2.touched,
        policy.canWritePathWithCwd host p.toPathBuf cwd.toPathBuf = true) ↔
      SupersededMovesCovered (Writable host policy cwd) faults host.toPathEnv action.cwd args.hunks
        (.start files) := by
  have hStart : AllTouched (Writable host policy cwd) (.start files) :=
    forall_mem_nil _
  show AllTouched (Writable host policy cwd) _ ↔ _
  unfold applyHunksToFiles
  split
  · next hEmpty =>
    rw [hEmpty]
    exact iff_of_true hStart trivial
  · rw [applyHunkLoop_touched_iff _ (checked_of_constrained hVerify hConstrained),
      and_iff_right hStart]

end Patch

/-- The workspace `/ws` may be written and nothing else. -/
def workspacePolicy : FileSystemSandboxPolicy := .restricted [⟨.path ⟨["ws"]⟩, .write⟩]

/-- A move within the workspace. -/
theorem constrained_patch_touched_of_move :
    let a : AbsolutePathBuf := ⟨["ws", "a"]⟩
    let b : AbsolutePathBuf := ⟨["ws", "b"]⟩
    let ws : AbsolutePathBuf := ⟨["ws"]⟩
    let files : Files := fun p => if p = a then some "1\n".toList else none
    let args : ApplyPatchArgs := ⟨[], [.updateFile a.toPathBuf (some b.toPathBuf)
      [⟨none, ["1".toList], ["2".toList], false⟩]], none⟩
    let final := (applyHunksToFiles (fun _ => none) Host.bare.toPathEnv ws args.hunks
      (.start files)).2
    final.touched = [b, a] ∧ ∀ p ∈ final.touched,
      workspacePolicy.canWritePathWithCwd Host.bare p.toPathBuf ws.toPathBuf = true := by
  intro a b ws files args final
  refine ⟨by decide, ?_⟩
  refine (@constrained_patch_touched_iff (fun _ new => new) Host.bare files args ws ws
    workspacePolicy _ (fun _ => none) rfl (by decide)).mpr ⟨?_, fun s' _ => trivial⟩
  rintro ⟨k, hMem, -⟩
  cases hMem

/-- A move out of the workspace, followed by an addition at its source: the addition is
all that is announced and checked, and `/etc/x` is written. -/
theorem superseded_move_leaves_workspace :
    let a : AbsolutePathBuf := ⟨["ws", "a"]⟩
    let x : AbsolutePathBuf := ⟨["etc", "x"]⟩
    let ws : AbsolutePathBuf := ⟨["ws"]⟩
    let files : Files := fun p => if p = a then some "1\n".toList else none
    let args : ApplyPatchArgs :=
      ⟨[], [.updateFile a.toPathBuf (some x.toPathBuf) [⟨none, ["1".toList], ["2".toList], false⟩],
        .addFile a.toPathBuf []], none⟩
    let outcome := applyHunksToFiles (fun _ => none) Host.bare.toPathEnv ws args.hunks
      (.start files)
    ∃ action,
      verifyApplyPatchArgs (fun _ new => new) Host.bare.toPathEnv files args ws = .ok action ∧
      action.cwd = ws ∧
      isWritePatchConstrainedToWritablePaths Host.bare action workspacePolicy ws = true ∧
      x ∈ outcome.2.touched ∧ outcome.2.files x = some "2\n".toList ∧
      workspacePolicy.canWritePathWithCwd Host.bare x.toPathBuf ws.toPathBuf = false := by
  intro a x ws files args outcome
  exact ⟨_, rfl, rfl, by decide, by decide, by decide, by decide⟩

end Codex.ApplyPatch
