import Codex.ApplyPatch.HunkEffects

/-!
# Codex — the delta tells what happened

`AppliedPatchDelta` is the list of changes a patch has committed, also when it
stopped half-way. While it calls itself exact it must lead from the initial files
to the present ones and back.

1. `Leads` is that relation between a list of changes and two file maps.
2. A move onto itself writes the new contents and then removes them, and enters an
   update in the delta, so its path is *lost*: `selfMove_loses_file`.
3. `applyHunk_keeps_delta`: what one hunk leaves lost, whichever of its calls fail.
4. `applyHunksToFiles_delta_exact_iff`: a whole patch leaves nothing lost exactly if
   every lost path is written anew.
-/

namespace Codex.ApplyPatch

open Effect Function

/-! ## Replaying and undoing a delta -/

def replayChange (files : Files) (c : AppliedPatchChange) : Files :=
  match c.change with
  | .add content _ => update files c.path (some content)
  | .delete _ => update files c.path none
  | .update none _ _ newContent => update files c.path (some newContent)
  | .update (some dest) _ _ newContent =>
    update (update files c.path none) dest (some newContent)

def undoChange (c : AppliedPatchChange) (files : Files) : Files :=
  match c.change with
  | .add _ overwrittenContent => update files c.path overwrittenContent
  | .delete content => update files c.path (some content)
  | .update none oldContent _ _ => update files c.path (some oldContent)
  | .update (some dest) oldContent overwrittenMoveContent _ =>
    update (update files dest overwrittenMoveContent) c.path (some oldContent)

variable (changes : List AppliedPatchChange)

/-- Makes the changes, in order. -/
def replay (files : Files) : Files :=
  changes.foldl replayChange files

/-- Takes the changes back, the last one first. -/
def undo (files : Files) : Files :=
  changes.foldr undoChange files

/-- The changes lead from `files` to `files'` and back. -/
def Leads (files files' : Files) : Prop :=
  replay changes files = files' ∧ undo changes files' = files

variable {files : Files} {path : AbsolutePathBuf} {files' : Files}

/-- Writing a path and restoring what was there. -/
theorem update_restore (files : Files) (path : AbsolutePathBuf) (content : Option Text) :
    update (update files path content) path (files path) = files := by
  rw [update_idem, update_eq_self]

/-- Taking a move back, also one onto itself. -/
theorem undo_move {original : Text} (hFile : files path = some original) (dest : AbsolutePathBuf)
    (new : Text) :
    undoChange ⟨path, .update (some dest) original (files dest) new⟩
      (update (update files dest (some new)) path none) = files := by
  show update (update (update (update files dest (some new)) path none) dest (files dest)) path
    (some original) = files
  rw [← hFile]
  by_cases hSame : dest = path
  · rw [hSame, update_idem, update_idem, update_restore]
  · rw [update_comm hSame, update_idem, update_comm (Ne.symm hSame), update_restore, update_eq_self]

/-! ## Lost paths -/

/-- `replayed` is `files`, but for the lost paths: there it has a file, and `files` has none. -/
def AgreeUpTo (lost : Set AbsolutePathBuf) (replayed files : Files) : Prop :=
  ∀ p, (p ∉ lost → replayed p = files p) ∧ (p ∈ lost → files p = none ∧ replayed p ≠ none)

section Lost

variable {lost : Set AbsolutePathBuf} {replayed : Files} (h : AgreeUpTo lost replayed files)
include h

theorem AgreeUpTo.eq_iff : replayed = files ↔ lost = ∅ := by
  constructor
  · rintro rfl
    refine Set.eq_empty_of_forall_notMem fun p hLost => ?_
    exact ((h p).2 hLost).2 ((h p).2 hLost).1
  · rintro rfl
    exact funext fun p => (h p).1 (Set.notMem_empty p)

/-- What is written to both is no longer lost. -/
theorem AgreeUpTo.update (path : AbsolutePathBuf) (content : Option Text) :
    AgreeUpTo (lost \ {path}) (Function.update replayed path content)
      (Function.update files path content) := by
  intro p
  by_cases hPath : p = path
  · simp [hPath]
  · simpa [hPath] using h p

/-- A file that is there is not lost. -/
theorem AgreeUpTo.diff_eq {content : Text} (hFile : files path = some content) :
    lost \ {path} = lost := by
  refine Set.sdiff_singleton_eq_self fun hLost => ?_
  rw [((h path).2 hLost).1] at hFile
  cases hFile

/-- The replay of a move removes the source first; on two paths the order does not matter. -/
theorem AgreeUpTo.move {original : Text} (hFile : files path = some original)
    {dest : AbsolutePathBuf} (hNe : path ≠ dest) (new : Text) :
    AgreeUpTo (lost \ {dest})
      (Function.update (Function.update replayed path none) dest (some new))
      (Function.update (Function.update files dest (some new)) path none) := by
  have hBoth := (h.update path none).update dest (some new)
  rw [h.diff_eq hFile] at hBoth
  rwa [update_comm hNe.symm]

/-- A move onto itself loses its path: it is removed after the write, and replayed the other way
round. -/
theorem AgreeUpTo.selfMove (path : AbsolutePathBuf) (new : Text) :
    AgreeUpTo (insert path lost)
      (Function.update (Function.update replayed path none) path (some new))
      (Function.update (Function.update files path (some new)) path none) := by
  intro p
  by_cases hPath : p = path
  · simp [hPath]
  · simpa [hPath] using h p

omit h in
/-- A file that is there is replaced in place, or removed. -/
theorem undo_and_agree {original : Text} (hFile : files path = some original)
    (content : Option Text) : update (update files path content) path (some original) = files ∧
      ∀ replayed, AgreeUpTo lost replayed files →
        AgreeUpTo lost (update replayed path content) (update files path content) := by
  refine ⟨by rw [← hFile, update_restore], fun replayed hAgree => ?_⟩
  have hUpdated := hAgree.update path content
  rwa [hAgree.diff_eq hFile] at hUpdated

end Lost

/-! ## One hunk -/

/-- While the delta is exact it leads back to the initial files, and to the present ones but for the
lost paths. -/
def DeltaInv (initial : Files) (lost : Set AbsolutePathBuf) (s : PatchState) : Prop :=
  s.delta.isExact = true → undo s.delta.changes s.files = initial ∧
    AgreeUpTo lost (replay s.delta.changes initial) s.files

/-- The hunk moves a file to the path it is already at. -/
def SelfMove (env : PathEnv) (cwd : AbsolutePathBuf) : Hunk → Prop
  | .updateFile path (some dest) _ =>
    AbsolutePathBuf.resolvePathAgainstBase env path cwd =
      AbsolutePathBuf.resolvePathAgainstBase env dest cwd
  | _ => False

section Step

variable {initial : Files} {lost lost' : Set AbsolutePathBuf} {s s' : PatchState}

theorem DeltaInv.of_inexact (h : s.delta.isExact = false) : DeltaInv initial lost s := by
  intro hExact
  rw [h] at hExact
  cases hExact

theorem DeltaInv.observes (hInv : DeltaInv initial lost s) (h : Observes s s') :
    DeltaInv initial lost s' := by
  intro hExact
  rw [h.changes, h.files]
  exact hInv (h.isExact hExact)

theorem DeltaInv.commits {change : AppliedPatchChange} (hInv : DeltaInv initial lost s)
    (h : s'.delta.isExact = true → Commits change files' s s')
    (hOne : s'.delta.isExact = true → undoChange change files' = s.files ∧
      ∀ replayed, AgreeUpTo lost replayed s.files →
        AgreeUpTo lost' (replayChange replayed change) files') : DeltaInv initial lost' s' := by
  intro hExact
  have hCommit := h hExact
  obtain ⟨hUndo, hReplay⟩ := hOne hExact
  obtain ⟨hBack, hAgree⟩ := hInv (hCommit.isExact hExact)
  rw [hCommit.changes, hCommit.files]
  unfold undo replay at *
  rw [List.foldr_append, List.foldl_append, List.foldr_cons, List.foldr_nil, hUndo]
  exact ⟨hBack, hReplay _ hAgree⟩

variable (faults : Faults) (env : PathEnv) (cwd : AbsolutePathBuf)

/-- The hunk makes a file at the path: it adds it, or moves a file there that is read and whose chunks
fit. -/
def WritesAnew (path : AbsolutePathBuf) (hunk : Hunk) (s : PatchState) : Prop :=
  match hunk with
  | .addFile .. => hunk.resolvePath env cwd = path
  | .updateFile _ (some dest) chunks =>
    AbsolutePathBuf.resolvePathAgainstBase env dest cwd = path ∧
      (planUpdate faults (hunk.resolvePath env cwd) chunks s).1.toOption.isSome = true
  | _ => False

/-- The paths lost after the hunk, which `moved` a file onto itself or not. -/
def lostAfter (lost : Set AbsolutePathBuf) (hunk : Hunk) (s : PatchState) (moved : Prop) :
    Set AbsolutePathBuf :=
  {p | (p ∈ lost ∧ ¬ WritesAnew faults env cwd p hunk s) ∨ (moved ∧ p = hunk.resolvePath env cwd)}

variable {faults env cwd} {hunk : Hunk}

theorem lostAfter_of_not (h : ∀ p, ¬ WritesAnew faults env cwd p hunk s) :
    lostAfter faults env cwd lost hunk s False = lost := by
  ext p
  simp [lostAfter, h p]

theorem lostAfter_of_writes (h : ∀ p, WritesAnew faults env cwd p hunk s ↔ path = p) :
    lostAfter faults env cwd lost hunk s False = lost \ {path} := by
  ext p
  simp [lostAfter, h p, eq_comm]

theorem lostAfter_of_selfMove (h : ∀ p, WritesAnew faults env cwd p hunk s ↔ path = p)
    {moved : Prop} (hMoved : moved) (hPath : hunk.resolvePath env cwd = path) :
    lostAfter faults env cwd lost hunk s moved = insert path lost := by
  ext p
  by_cases hSame : p = path
  · simp [lostAfter, hMoved, hPath, hSame]
  · simp [lostAfter, h p, hMoved, hPath, hSame, Ne.symm hSame]

variable (faults env cwd)

/-- A move that fails has left its source, and the delta has the write to the destination. -/
theorem moveFile_keeps_delta {dest : AbsolutePathBuf} {original : Text} (new : Text)
    (hInv : DeltaInv initial lost s) (hFile : s.files path = some original) :
    Post (fun _ s' => (path = dest → DeltaInv initial (insert dest lost) s') ∧
        (path ≠ dest → DeltaInv initial (lost \ {dest}) s'))
      (fun _ => DeltaInv initial (lost \ {dest})) (moveFile faults path dest original new s) := by
  refine (moveFile_spec faults path s dest original new).mono ?_ ?_
  · rintro _ s' ⟨-, overwritten, hCommit, hContent⟩
    constructor
    · rintro rfl
      refine hInv.commits (fun _ => hCommit) fun hExact => ?_
      rw [hContent hExact]
      exact ⟨undo_move hFile _ new, fun replayed hAgree => hAgree.selfMove _ new⟩
    · intro hNe
      refine hInv.commits (fun _ => hCommit) fun hExact => ?_
      rw [hContent hExact]
      exact ⟨undo_move hFile _ new, fun replayed hAgree => hAgree.move hFile hNe new⟩
  · rintro _ s' ⟨-, ⟨hInexact, -⟩ | ⟨overwritten, hCommit, hContent, -⟩⟩
    · exact DeltaInv.of_inexact hInexact
    · refine hInv.commits (fun _ => hCommit) fun hExact => ?_
      rw [hContent hExact]
      exact ⟨update_restore s.files _ _, fun replayed hAgree => hAgree.update _ (some new)⟩

/-- **One hunk.** -/
theorem applyHunk_keeps_delta (hunk : Hunk) (hInv : DeltaInv initial lost s) :
    Post (fun _ => DeltaInv initial (lostAfter faults env cwd lost hunk s (SelfMove env cwd hunk)))
      (fun _ => DeltaInv initial (lostAfter faults env cwd lost hunk s False))
      (applyHunk faults env cwd hunk s) := by
  cases hunk with
  | addFile path contents =>
    refine (addFile_spec faults _ s contents).mono ?_ fun _ _ h => DeltaInv.of_inexact h.1
    rintro _ s' ⟨-, overwritten, hCommit, hContent⟩
    show DeltaInv initial (lostAfter faults env cwd lost _ s False) s'
    rw [lostAfter_of_writes fun p => Iff.rfl]
    refine hInv.commits (fun _ => hCommit) fun hExact => ?_
    rw [hContent hExact]
    exact ⟨update_restore s.files _ _, fun replayed hAgree => hAgree.update _ (some contents)⟩
  | deleteFile path =>
    have hLost : lostAfter faults env cwd lost (.deleteFile path) s False = lost :=
      lostAfter_of_not fun p hWrites => hWrites
    show Post (fun _ => DeltaInv initial (lostAfter faults env cwd lost _ s False)) _ _
    rw [hLost]
    refine (deleteFile_spec faults _ s).mono ?_ fun _ _ h => hInv.observes h.1
    rintro _ s' ⟨-, content, hFile, hCommit⟩
    exact hInv.commits hCommit fun _ => undo_and_agree hFile none
  | updateFile path movePath chunks =>
    have hPlanned := planUpdate_spec faults
      ((Hunk.updateFile path movePath chunks).resolvePath env cwd) s chunks
    refine post_bind_of_eq ?_ ?_
    · rintro ⟨original, new⟩ s₁ hPlan
      rw [hPlan] at hPlanned
      obtain ⟨hObs, hFile, -⟩ := hPlanned
      have hInv₁ := hInv.observes hObs
      rw [← hObs.files] at hFile
      cases movePath with
      | none =>
        have hLost : lostAfter faults env cwd lost (.updateFile path none chunks) s False = lost :=
          lostAfter_of_not fun p hWrites => hWrites
        show Post (fun _ => DeltaInv initial (lostAfter faults env cwd lost _ s False)) _ _
        rw [hLost]
        refine (rewriteFile_spec faults _ s₁ original new).mono ?_ fun _ _ h => DeltaInv.of_inexact h.1
        rintro _ s' ⟨-, hCommit⟩
        exact hInv₁.commits (fun _ => hCommit) fun _ => undo_and_agree hFile (some new)
      | some dest =>
        have hWrites : ∀ p, WritesAnew faults env cwd p (.updateFile path (some dest) chunks) s ↔
            AbsolutePathBuf.resolvePathAgainstBase env dest cwd = p := by
          intro p
          refine and_iff_left ?_
          rw [hPlan]
          rfl
        refine (moveFile_keeps_delta faults new hInv₁ hFile).mono ?_ ?_
        · rintro _ s' ⟨hSame, hOther⟩
          by_cases hSelf : SelfMove env cwd (.updateFile path (some dest) chunks)
          · rw [lostAfter_of_selfMove hWrites hSelf hSelf]
            exact hSame hSelf
          · rw [eq_false hSelf, lostAfter_of_writes hWrites]
            exact hOther hSelf
        · intro _ s' h
          rw [lostAfter_of_writes hWrites]
          exact h
    · intro error s₁ hPlan
      rw [hPlan] at hPlanned
      rw [lostAfter_of_not]
      · exact hInv.observes hPlanned.1
      · intro p hWrites
        cases movePath with
        | none => exact hWrites
        | some dest =>
          have hPlanOk := hWrites.2
          rw [hPlan] at hPlanOk
          cases hPlanOk

/-- Some hunk that the run comes to writes the path anew. -/
def Rewritten (path : AbsolutePathBuf) : List Hunk → PatchState → Prop
  | [], _ => False
  | hunk :: later, s => WritesAnew faults env cwd path hunk s ∨
      ∃ s', applyHunk faults env cwd hunk s = (.ok (), s') ∧ Rewritten path later s'

/-- Along the run, the path of every hunk that moved a file onto itself is written anew. -/
def SelfMovesRewritten : List Hunk → PatchState → Prop
  | [], _ => True
  | hunk :: later, s => ∀ s', applyHunk faults env cwd hunk s = (.ok (), s') →
      (SelfMove env cwd hunk → Rewritten faults env cwd (hunk.resolvePath env cwd) later s') ∧
        SelfMovesRewritten later s'

theorem DeltaInv.leads_iff (hInv : DeltaInv initial lost s) (hExact : s.delta.isExact = true) :
    Leads s.delta.changes initial s.files ↔ ∀ p, p ∉ lost := by
  obtain ⟨hUndo, hAgree⟩ := hInv hExact
  rw [Leads, hAgree.eq_iff, and_iff_left hUndo, Set.eq_empty_iff_forall_notMem]

/-- **The whole run**: it leads to its files if what is lost, before it or in it, is written anew. -/
theorem applyHunkLoop_leads_iff (hunks : List Hunk) (affected : AffectedPaths)
    (hInv : DeltaInv initial lost s) :
    let Q := fun s' : PatchState => s'.delta.isExact = true →
      (Leads s'.delta.changes initial s'.files ↔
        (∀ p ∈ lost, Rewritten faults env cwd p hunks s) ∧ SelfMovesRewritten faults env cwd hunks s)
    Post (fun _ => Q) (fun _ => Q) (applyHunkLoop faults env cwd hunks affected s) := by
  induction hunks generalizing s lost affected with
  | nil =>
    refine post_pure fun hExact => ?_
    rw [hInv.leads_iff hExact]
    exact (and_iff_left trivial).symm
  | cons hunk hunks ih =>
    have hStep := applyHunk_keeps_delta faults env cwd hunk hInv
    refine post_bind_of_eq ?_ ?_
    · intro _ s₁ hRun
      rw [hRun] at hStep
      have hRewritten : ∀ p, Rewritten faults env cwd p (hunk :: hunks) s ↔
          WritesAnew faults env cwd p hunk s ∨ Rewritten faults env cwd p hunks s₁ := by
        simp [Rewritten, hRun]
      -- what is lost after the hunk is what it leaves lost and what it loses itself
      have hLost : (∀ p ∈ lostAfter faults env cwd lost hunk s (SelfMove env cwd hunk),
            Rewritten faults env cwd p hunks s₁) ↔
          (∀ p ∈ lost, Rewritten faults env cwd p (hunk :: hunks) s) ∧ (SelfMove env cwd hunk →
            Rewritten faults env cwd (hunk.resolvePath env cwd) hunks s₁) := by
        simp only [lostAfter, Set.mem_ofPred_eq, hRewritten]
        constructor
        · exact fun h => ⟨fun p hp => or_iff_not_imp_left.mpr fun hNot => h p (.inl ⟨hp, hNot⟩),
            fun hSelf => h _ (.inr ⟨hSelf, rfl⟩)⟩
        · rintro ⟨hOld, hNew⟩ p (⟨hp, hNot⟩ | ⟨hSelf, rfl⟩)
          · exact (hOld p hp).resolve_left hNot
          · exact hNew hSelf
      have hMoves : SelfMovesRewritten faults env cwd (hunk :: hunks) s ↔ (SelfMove env cwd hunk →
            Rewritten faults env cwd (hunk.resolvePath env cwd) hunks s₁) ∧
          SelfMovesRewritten faults env cwd hunks s₁ := by
        simp [SelfMovesRewritten, hRun]
      have hRest := ih (affected.push hunk) hStep
      rw [hLost, and_assoc, ← hMoves] at hRest
      exact hRest
    · intro _ s₁ hRun hExact
      rw [hRun] at hStep
      rw [DeltaInv.leads_iff hStep hExact]
      simp [Rewritten, SelfMovesRewritten, hRun, lostAfter]

end Step

/-! ## A whole patch -/

/-- **An exact delta replays to the final files and undoes to the initial ones**, for every initial
map, hunk list and pattern of faults, however the run ends: exactly if the path of every move onto
itself is written anew. -/
theorem applyHunksToFiles_delta_exact_iff (faults : Faults) (env : PathEnv) (cwd : AbsolutePathBuf)
    (files : Files) {hunks : List Hunk}
    (hExact : (applyHunksToFiles faults env cwd hunks (.start files)).2.delta.isExact = true) :
    let final := (applyHunksToFiles faults env cwd hunks (.start files)).2
    (replay final.delta.changes files = final.files ∧
      undo final.delta.changes final.files = files) ↔
      SelfMovesRewritten faults env cwd hunks (.start files) := by
  have hStart : DeltaInv files ∅ (.start files) :=
    fun _ => ⟨rfl, fun p => ⟨fun _ => rfl, fun hLost => hLost.elim⟩⟩
  cases hunks with
  | nil => exact iff_of_true ⟨rfl, rfl⟩ trivial
  | cons hunk hunks =>
    have hRun := (applyHunkLoop_leads_iff faults env cwd (hunk :: hunks) ⟨[], [], []⟩ hStart).both
    refine (hRun hExact).trans (and_iff_right fun p hLost => hLost.elim)

/-- A file is moved onto itself and then added again: the delta leads there and back. -/
theorem delta_exact_of_added_again :
    let a : AbsolutePathBuf := ⟨["a"]⟩
    let files : Files := fun p => if p = a then some "x\n".toList else none
    let hunks := [Hunk.updateFile a.toPathBuf (some a.toPathBuf)
      [⟨none, ["x".toList], ["y".toList], false⟩], Hunk.addFile a.toPathBuf "z\n".toList]
    let final := (applyHunksToFiles (fun _ => none) ⟨none, none⟩ .root hunks (.start files)).2
    final.delta = ⟨[⟨a, .update (some a) "x\n".toList (some "x\n".toList) "y\n".toList⟩,
        ⟨a, .add "z\n".toList none⟩], true⟩ ∧
      replay final.delta.changes files = final.files ∧
      undo final.delta.changes final.files = files := by
  intro a files hunks final
  refine ⟨by decide, (applyHunksToFiles_delta_exact_iff (fun _ => none) ⟨none, none⟩ .root files
    (by decide)).mpr fun s' _ => ⟨fun _ => Or.inl rfl, ?_⟩⟩
  exact fun s'' _ => ⟨fun hSelf => hSelf.elim, trivial⟩

/-- Moving `/a` to `/a` leaves no file, but the delta is exact and says that `/a` has the
new contents. -/
theorem selfMove_loses_file :
    let a : AbsolutePathBuf := ⟨["a"]⟩
    let files : Files := fun p => if p = a then some "x\n".toList else none
    let hunk := Hunk.updateFile a.toPathBuf (some a.toPathBuf)
      [⟨none, ["x".toList], ["y".toList], false⟩]
    let outcome := applyHunksToFiles (fun _ => none) ⟨none, none⟩ .root [hunk] (.start files)
    outcome.1 = .ok ⟨[], [a.toPathBuf], []⟩ ∧ outcome.2.delta.isExact = true ∧
      outcome.2.files a = none ∧ replay outcome.2.delta.changes files a = some "y\n".toList := by
  decide

end Codex.ApplyPatch
