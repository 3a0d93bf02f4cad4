import Codex.ApplyPatch.Agreement

/-!
# Codex — the condition is exact

`verified_patch_agrees` asks for hunks that are consistent in their kinds and paths.
No weaker condition on kinds and paths would do: if the hunks are not consistent,
then some patch with the same outline verifies and is not applied as announced.

The patch is made from the outline. All files hold the line `0`; every update
replaces that line, and every hunk writes the line `B`, except for one chosen hunk
that writes `A`. An update of a file that was written before finds no `0`, and where
the `A` ends up tells who was the last to write.

`second_update_hides_first` is the simplest patch that is not applied as announced.
-/

namespace Codex.ApplyPatch

open Effect List Hunk

/-! ## Outlines -/

/-- The kind and the paths of a hunk. -/
def Hunk.outline : Hunk → Hunk
  | .addFile path _ => .addFile path []
  | .deleteFile path => .deleteFile path
  | .updateFile path movePath _ => .updateFile path movePath []

section Outline

variable (env : PathEnv) (cwd : AbsolutePathBuf)

@[simp] theorem resolvePath_outline (hunk : Hunk) :
    hunk.outline.resolvePath env cwd = hunk.resolvePath env cwd := by
  cases hunk <;> rfl

@[simp] theorem dest_outline (hunk : Hunk) : hunk.outline.dest env cwd = hunk.dest env cwd := by
  rcases hunk with _ | _ | ⟨_, _ | _, _⟩ <;> rfl

@[simp] theorem touches_outline (hunk : Hunk) :
    hunk.outline.touches env cwd = hunk.touches env cwd := by
  simp [touches]

@[simp] theorem leavesFile_outline (hunk : Hunk) (p : AbsolutePathBuf) :
    leavesFile env cwd hunk.outline p = leavesFile env cwd hunk p := by
  rcases hunk with _ | _ | ⟨_, _ | _, _⟩ <;> rfl

@[simp] theorem presentAfter_outline (earlier : List Hunk) (p : AbsolutePathBuf) :
    presentAfter env cwd (earlier.map outline) p = presentAfter env cwd earlier p := by
  simp [presentAfter, foldl_map]

theorem applicable_outline {earlier : List Hunk} {hunk : Hunk} :
    Applicable env cwd (earlier.map outline) hunk.outline ↔
      Applicable env cwd earlier hunk := by
  cases hunk with
  | addFile path contents => exact Iff.rfl
  | deleteFile path =>
    show presentAfter env cwd _ _ = true ↔ presentAfter env cwd _ _ = true
    rw [presentAfter_outline]
    rfl
  | updateFile path movePath chunks =>
    show (∀ g ∈ earlier.map outline, _) ↔ ∀ g ∈ earlier, _
    rw [forall_mem_map]
    simp only [touches_outline]
    exact Iff.rfl

theorem decides_outline {hunk : Hunk} {later : List Hunk} :
    Decides env cwd hunk.outline (later.map outline) ↔ Decides env cwd hunk later := by
  simp [Decides]

theorem forall_split_cons {α : Type} {P : List α → α → List α → Prop} {first : α} {xs : List α} :
    (∀ before x later, first :: xs = before ++ x :: later → P before x later) ↔
      P [] first xs ∧ ∀ before x later, xs = before ++ x :: later → P (first :: before) x later := by
  refine ⟨fun h => ⟨h [] first xs rfl, fun before x later hSplit => ?_⟩, ?_⟩
  · exact h (first :: before) x later (congrArg _ hSplit)
  rintro ⟨hFirst, hRest⟩ (_ | ⟨_, before⟩) x later hSplit
  · cases hSplit
    exact hFirst
  · cases hSplit
    exact hRest before x later rfl

/-- The condition, hunk by hunk. -/
theorem consistentAfter_iff {earlier hunks : List Hunk} : ConsistentAfter env cwd earlier hunks ↔
      ∀ before hunk later, hunks = before ++ hunk :: later →
        Applicable env cwd (earlier ++ before) hunk ∧ Decides env cwd hunk later := by
  induction hunks generalizing earlier with
  | nil => simp [ConsistentAfter]
  | cons first hunks ih =>
    show _ ∧ _ ∧ _ ↔ _
    rw [ih, forall_split_cons, and_assoc]
    simp

end Outline

/-! ## A patch for an outline -/

/-- The line a hunk writes: `A` for the chosen hunk, `B` for the others. -/
def markLine (chosen : Bool) : Text := if chosen then ['A'] else ['B']

def markContent (chosen : Bool) : Text := markLine chosen ++ ['\n']

/-- Every file holds the line `0`. -/
def zeroFiles : Files := fun _ => some ['0', '\n']

/-- The outline of a hunk, filled in. -/
def Hunk.withMark (chosen : Bool) : Hunk → Hunk
  | .addFile path _ => .addFile path (markContent chosen)
  | .deleteFile path => .deleteFile path
  | .updateFile path movePath _ =>
    .updateFile path movePath [⟨none, [['0']], [markLine chosen], false⟩]

theorem outline_withMark (chosen : Bool) (hunk : Hunk) :
    (hunk.withMark chosen).outline = hunk.outline := by
  cases hunk <;> rfl

variable (path : AbsolutePathBuf)

theorem deriveNewContents_zero (chosen : Bool) :
    deriveNewContents path [⟨none, [['0']], [markLine chosen], false⟩] ['0', '\n'] =
      .ok (markContent chosen) := by
  cases chosen <;> rfl

section Marked

variable {unifiedDiff : Text → Text → Text} {env : PathEnv} {cwd : AbsolutePathBuf}
  {hunk : Hunk} {chosen : Bool} {earlier : List Hunk} {p : AbsolutePathBuf} {m : Files}
  {change : ApplyPatchFileChange} {faults : Faults}

@[simp] theorem resolvePath_withMark :
    (hunk.withMark chosen).resolvePath env cwd = hunk.resolvePath env cwd := by
  rw [← resolvePath_outline, outline_withMark, resolvePath_outline]

@[simp] theorem touches_withMark :
    (hunk.withMark chosen).touches env cwd = hunk.touches env cwd := by
  rw [← touches_outline, outline_withMark, touches_outline]

@[simp] theorem dest_withMark : (hunk.withMark chosen).dest env cwd = hunk.dest env cwd := by
  rw [← dest_outline, outline_withMark, dest_outline]

@[simp] theorem leavesFile_withMark (p : AbsolutePathBuf) :
    leavesFile env cwd (hunk.withMark chosen) p = leavesFile env cwd hunk p := by
  rw [← leavesFile_outline, outline_withMark, leavesFile_outline]

/-- What the marked hunk leaves at a path it touches. -/
def afterMark (env : PathEnv) (cwd : AbsolutePathBuf) (hunk : Hunk) (chosen : Bool)
    (p : AbsolutePathBuf) : Option Text :=
  if leavesFile env cwd hunk p then some (markContent chosen) else none

/-- **Every marked hunk verifies**, and announces its mark. -/
theorem verifyHunk_withMark :
    ∃ change, verifyHunk unifiedDiff env cwd zeroFiles (hunk.withMark chosen) = .ok change ∧
      ∀ p, announcedAt env cwd (hunk.withMark chosen) change p =
        afterMark env cwd hunk chosen p := by
  cases hunk with
  | addFile path contents => exact ⟨.add (markContent chosen), rfl, fun _ => rfl⟩
  | deleteFile path => exact ⟨.delete ['0', '\n'], rfl, fun _ => rfl⟩
  | updateFile path movePath chunks =>
    refine ⟨.update (unifiedDiff ['0', '\n'] (markContent chosen))
      (movePath.map (AbsolutePathBuf.join env cwd)) (markContent chosen), ?_, fun p => ?_⟩
    · simp only [verifyHunk, withMark, readFile, zeroFiles, deriveNewContents_zero]
    · rw [announcedAt, leavesFile_withMark]
      rfl

/-- Made on any files, the change leaves the mark at the paths it touches. -/
theorem realize_withMark
    (h : verifyHunk unifiedDiff env cwd zeroFiles (hunk.withMark chosen) = .ok change)
    (hTouch : p ∈ hunk.touches env cwd) (m : Files) :
    realize (hunk.resolvePath env cwd) change m p = afterMark env cwd hunk chosen p := by
  obtain ⟨change', hChange', hMark⟩ := @verifyHunk_withMark unifiedDiff env cwd hunk chosen
  cases h.symm.trans hChange'
  rw [← @touches_withMark env cwd hunk chosen] at hTouch
  rw [← hMark p, ← realize_of_touched h hTouch m, resolvePath_withMark]

/-- A hunk that is applied would have been verified on the files it found. -/
theorem verifyHunk_of_applyHunk (faults : Faults) (hunk : Hunk) (s : PatchState) :
    Post (fun _ _ => ∃ change, verifyHunk unifiedDiff env cwd s.files hunk = .ok change)
      (fun _ _ => True) (applyHunk faults env cwd hunk s) := by
  cases hunk with
  | addFile path contents => exact post_of_forall (fun _ _ => ⟨_, rfl⟩) (fun _ _ => trivial) _
  | deleteFile path =>
    refine (deleteFile_spec faults _ s).mono ?_ fun _ _ _ => trivial
    rintro _ s' ⟨-, content, hFile, -⟩
    exact ⟨.delete content, by simp only [verifyHunk, readFile, hFile]⟩
  | updateFile path movePath chunks =>
    refine post_bind ((planUpdate_spec faults _ s chunks).mono ?_ fun _ _ _ => trivial)
    rintro ⟨original, new⟩ s₁ ⟨-, hFile, hDerive⟩
    refine post_of_forall (fun _ _ => ?_) (fun _ _ => trivial) _
    exact ⟨_, by simp only [verifyHunk, readFile, hFile, hDerive]; rfl⟩

/-- Every file that a hunk has touched is gone or holds a mark. -/
def Written (env : PathEnv) (cwd : AbsolutePathBuf) (earlier : List Hunk) (m : Files) : Prop :=
  ∀ p, (∃ g ∈ earlier, p ∈ g.touches env cwd) →
    m p = none ∨ ∃ chosen, m p = some (markContent chosen)

theorem presentAfter_of_not_touched (h : ∀ g ∈ earlier, p ∉ g.touches env cwd) :
    presentAfter env cwd earlier p = true := by
  induction earlier using List.reverseRecOn with
  | nil => rfl
  | append_singleton earlier g ih =>
    rw [presentAfter_concat, if_neg (h g (mem_append_right _ mem_cons_self))]
    exact ih fun k hk => h k (mem_append_left _ hk)

/-- On marked files only an applicable hunk would be verified. -/
theorem applicable_of_verifyHunk (hTracked : Tracked env cwd zeroFiles earlier m)
    (hWritten : Written env cwd earlier m)
    (h : verifyHunk unifiedDiff env cwd m (hunk.withMark chosen) = .ok change) :
    Applicable env cwd earlier (hunk.withMark chosen) := by
  cases hunk with
  | addFile path contents => trivial
  | deleteFile path =>
    show presentAfter env cwd earlier ((Hunk.deleteFile path).resolvePath env cwd) = true
    by_cases hTouched : ∃ g ∈ earlier,
        (Hunk.deleteFile path).resolvePath env cwd ∈ g.touches env cwd
    · rw [← hTracked.touched _ hTouched]
      obtain ⟨_, _, hKind, _⟩ | ⟨_, content, _, _, hFile⟩ | ⟨_, _, _, _, _, hKind, _⟩ :=
        verifyHunk_kind h
      · cases hKind
      · exact Option.isSome_iff_exists.mpr ⟨content, hFile⟩
      · cases hKind
    · push Not at hTouched
      exact presentAfter_of_not_touched hTouched
  | updateFile path movePath chunks =>
    intro g hMem hTouch
    obtain ⟨_, _, hKind, _⟩ | ⟨_, _, hKind, _⟩ |
      ⟨_, _, _, original, new, hKind, _, hFile, hDerive⟩ := verifyHunk_kind h
    · cases hKind
    · cases hKind
    cases hKind
    -- the file was written by an earlier hunk, so there is no `0` in it
    obtain hNone | ⟨other, hOther⟩ := hWritten _ ⟨g, hMem, hTouch⟩
    · rw [hNone] at hFile
      cases hFile
    · rw [hOther, Option.some.injEq] at hFile
      rw [← hFile] at hDerive
      cases chosen <;> cases other <;> cases hDerive

theorem Written.realize (hWritten : Written env cwd earlier m)
    (hVerify : verifyHunk unifiedDiff env cwd zeroFiles (hunk.withMark chosen) = .ok change) :
    Written env cwd (earlier ++ [hunk.withMark chosen])
      (realize (hunk.resolvePath env cwd) change m) := by
  rintro p ⟨g, hMem, hTouch⟩
  by_cases hHere : p ∈ hunk.touches env cwd
  · rw [realize_withMark hVerify hHere, afterMark]
    split_ifs
    · exact .inr ⟨chosen, rfl⟩
    · exact .inl rfl
  have hNot := hHere
  rw [← @touches_withMark env cwd hunk chosen, mem_touches_iff hVerify, resolvePath_withMark,
    not_or] at hNot
  rw [realize_of_not_touched hNot.1 hNot.2]
  refine hWritten p ⟨g, ?_, hTouch⟩
  rcases mem_append.mp hMem with hEarlier | hLast
  · exact hEarlier
  · obtain rfl := mem_singleton.mp hLast
    rw [touches_withMark] at hTouch
    exact absurd hTouch hHere

/-- **One marked hunk** fails, or is applicable and does what was announced. -/
theorem applyHunk_withMark (hNone : NoFaults faults) {s : PatchState}
    (hTracked : Tracked env cwd zeroFiles earlier s.files) (hWritten : Written env cwd earlier s.files) : Post
      (fun _ s' => Applicable env cwd earlier (hunk.withMark chosen) ∧
        ∃ change, verifyHunk unifiedDiff env cwd zeroFiles (hunk.withMark chosen) = .ok change ∧
          s'.files = realize (hunk.resolvePath env cwd) change s.files)
      (fun _ _ => True) (applyHunk faults env cwd (hunk.withMark chosen) s) := by
  by_cases hApplicable : Applicable env cwd earlier (hunk.withMark chosen)
  · obtain ⟨change, hChange, -⟩ := @verifyHunk_withMark unifiedDiff env cwd hunk chosen
    obtain ⟨change', hChange', hSame⟩ := verifyHunk_of_tracked hTracked hApplicable hChange
    refine (applyHunk_realizes hNone hChange').mono ?_ fun _ _ _ => trivial
    intro _ s' hFiles
    rw [hSame, resolvePath_withMark] at hFiles
    exact ⟨hApplicable, change, hChange, hFiles⟩
  · refine (@verifyHunk_of_applyHunk unifiedDiff env cwd faults _ s).mono ?_
      fun _ _ _ => trivial
    rintro _ s' ⟨change, hChange⟩
    exact absurd (applicable_of_verifyHunk hTracked hWritten hChange) hApplicable

/-- **All marked hunks**: if they can be applied, each was applicable and did what was
announced. -/
theorem applyHunkLoop_withMark (hNone : NoFaults faults)
    {hunks : List Hunk} (hMarked : ∀ k ∈ hunks, ∃ hunk chosen, k = withMark chosen hunk)
    {s : PatchState} (affected : AffectedPaths)
    (hTracked : Tracked env cwd zeroFiles earlier s.files)
    (hWritten : Written env cwd earlier s.files) : Post
      (fun _ s' =>
        (∀ before hunk later, hunks = before ++ hunk :: later →
          Applicable env cwd (earlier ++ before) hunk) ∧
        RealizesAll unifiedDiff env cwd zeroFiles hunks s.files s'.files)
      (fun _ _ => True) (applyHunkLoop faults env cwd hunks affected s) := by
  induction hunks generalizing earlier s affected with
  | nil => exact post_pure ⟨fun _ _ _ hSplit => by simp at hSplit, RealizesAll.nil _⟩
  | cons first hunks ih =>
    rw [forall_mem_cons] at hMarked
    obtain ⟨⟨hunk, chosen, rfl⟩, hRest⟩ := hMarked
    have hFirst := @applyHunk_withMark unifiedDiff env cwd hunk chosen earlier faults hNone s
      hTracked hWritten
    refine post_bind (hFirst.mono ?_ fun _ _ h => h)
    rintro _ s₁ ⟨hApplicable, change, hChange, hFiles⟩
    have hTracked₁ := hTracked.realize hChange
    rw [resolvePath_withMark, ← hFiles] at hTracked₁
    have hWritten₁ := hWritten.realize hChange
    rw [← hFiles] at hWritten₁
    refine (ih hRest _ hTracked₁ hWritten₁).mono ?_ fun _ _ h => h
    rintro _ s' ⟨hAll, hRun⟩
    refine ⟨forall_split_cons.mpr ⟨?_, fun before k later hSplit => ?_⟩, ?_⟩
    · rwa [append_nil]
    · rw [append_cons]
      exact hAll before k later hSplit
    · rw [hFiles, ← @resolvePath_withMark env cwd hunk chosen] at hRun
      exact RealizesAll.cons hChange hRun

end Marked

/-! ## Where the marks end up -/

/-- The outline filled in, with `hunk` chosen. -/
def markedPatch (before : List Hunk) (hunk : Hunk) (later : List Hunk) : List Hunk :=
  before.map (withMark false) ++ hunk.withMark true :: later.map (withMark false)

theorem marked_of_mem {before later : List Hunk} {hunk k : Hunk}
    (h : k ∈ markedPatch before hunk later) : ∃ hunk chosen, k = withMark chosen hunk := by
  rcases mem_append.mp h with hBefore | hRest
  · obtain ⟨g, -, rfl⟩ := mem_map.mp hBefore
    exact ⟨g, false, rfl⟩
  rcases mem_cons.mp hRest with rfl | hLater
  · exact ⟨hunk, true, rfl⟩
  · obtain ⟨g, -, rfl⟩ := mem_map.mp hLater
    exact ⟨g, false, rfl⟩

/-- An element of a list with a distinguished element is that one, or another one. -/
theorem split_cases {α : Type} {before later before' later' : List α} {x y : α}
    (h : before ++ x :: later = before' ++ y :: later') :
    y ∈ before ∨ (y = x ∧ later' = later) ∨ y ∈ later := by
  rcases append_eq_append_iff.mp h with ⟨mid, hBefore, hRest⟩ | ⟨mid, hBefore, hRest⟩
  · cases mid with
    | nil =>
      cases hRest
      exact .inr (.inl ⟨rfl, rfl⟩)
    | cons z mid =>
      cases hRest
      exact .inr (.inr (mem_append_right _ mem_cons_self))
  · cases mid with
    | nil =>
      cases hRest
      exact .inr (.inl ⟨rfl, rfl⟩)
    | cons z mid =>
      cases hRest
      rw [hBefore]
      exact .inl (mem_append_right _ mem_cons_self)

section Exact

variable {unifiedDiff : Text → Text → Text} {env : PathEnv} {cwd : AbsolutePathBuf}
  {args : ApplyPatchArgs} {action : ApplyPatchAction} {final m : Files} {k : Hunk} {chosen : Bool}
  {p : AbsolutePathBuf}

theorem afterMark_false_ne (k : Hunk) (p : AbsolutePathBuf) :
    afterMark env cwd k false p ≠ some (markContent true) := by
  unfold afterMark
  split_ifs <;> decide

/-- A hunk leaves a file wherever it touches a path that it does not name. -/
theorem leavesFile_of_ne (hTouch : p ∈ k.touches env cwd)
    (hNe : p ≠ k.resolvePath env cwd) : leavesFile env cwd k p = true := by
  rcases k with _ | _ | ⟨_, _ | _, _⟩
  · rfl
  · exact absurd (mem_singleton.mp hTouch) hNe
  · rfl
  · exact decide_eq_true hNe

/-- The last hunk to touch a path decides what is there in the end. -/
theorem final_of_last_touch {earlier later : List Hunk}
    (hRun : RealizesAll unifiedDiff env cwd zeroFiles (earlier ++ k.withMark chosen :: later) m final)
    (hTouch : p ∈ k.touches env cwd)
    (hLast : ∀ g ∈ later, p ∉ g.touches env cwd) : final p = afterMark env cwd k chosen p := by
  obtain ⟨m₁, change, hChange, hRest⟩ := hRun.split
  rw [resolvePath_withMark] at hRest
  rw [hRest.frame hLast, realize_withMark hChange hTouch]

/-- Where a marked hunk is announced, its mark is found. -/
theorem final_of_announced
    (hVerify : verifyApplyPatchArgs unifiedDiff env zeroFiles args cwd = .ok action)
    (hAgrees : Agrees action zeroFiles final)
    (hLast : LastNaming env action.cwd args.hunks (k.resolvePath env action.cwd)
      (k.withMark chosen)) :
    (∀ p ∈ k.touches env action.cwd, final p = afterMark env action.cwd k chosen p) ∧
      ∀ dest ∈ k.dest env action.cwd, dest ≠ k.resolvePath env action.cwd := by
  obtain ⟨change, hChange, hMark⟩ := @verifyHunk_withMark unifiedDiff env action.cwd k chosen
  have hHolds := hAgrees.announced _ change ((lookup_action hVerify).mpr ⟨_, hLast, hChange⟩)
  rw [← @resolvePath_withMark env action.cwd k chosen, holds_iff hChange] at hHolds
  simpa only [touches_withMark, dest_withMark, resolvePath_withMark, hMark] using hHolds

variable {before later : List Hunk} {hunk : Hunk}

/-- A path that is touched after the chosen hunk shows the mark of the last hunk to do so. -/
theorem final_of_touched_later
    (hRun : RealizesAll unifiedDiff env cwd zeroFiles (markedPatch before hunk later) m final)
    (h : ∃ k ∈ later, p ∈ k.touches env cwd) :
    ∃ k ∈ later, p ∈ k.touches env cwd ∧ final p = afterMark env cwd k false p := by
  obtain ⟨between, k, after, rfl, hTouch, hAfter⟩ := Overlay.exists_last h
  refine ⟨k, mem_append_right _ mem_cons_self, hTouch, ?_⟩
  have hSplit : markedPatch before hunk (between ++ k :: after) =
      markedPatch before hunk between ++ k.withMark false :: after.map (withMark false) := by
    simp [markedPatch]
  rw [hSplit] at hRun
  refine final_of_last_touch hRun hTouch fun g hg => ?_
  obtain ⟨g', hg', rfl⟩ := mem_map.mp hg
  rw [touches_withMark]
  exact hAfter g' hg'

section

variable (hVerify : verifyApplyPatchArgs unifiedDiff env zeroFiles args cwd = .ok action)
  (hHunks : args.hunks = markedPatch before hunk later)
  (hRun : RealizesAll unifiedDiff env action.cwd zeroFiles args.hunks zeroFiles final)
  (hAgrees : Agrees action zeroFiles final)
include hVerify hHunks hRun hAgrees

/-- **A superseded move.** If nothing touched its destination afterwards, the chosen mark would be
left at a path where it is not announced. -/
theorem touched_later_of_superseded
    (hSuper : ∃ k ∈ later, k.resolvePath env action.cwd = hunk.resolvePath env action.cwd)
    {dest : AbsolutePathBuf} (hDest : dest ∈ hunk.dest env action.cwd) :
    ∃ k ∈ later, dest ∈ k.touches env action.cwd := by
  by_contra hNone
  push Not at hNone
  obtain ⟨k, hk, hSame⟩ := hSuper
  have hTouch : dest ∈ hunk.touches env action.cwd :=
    mem_cons_of_mem _ (Option.mem_toList.mpr hDest)
  have hNe : dest ≠ hunk.resolvePath env action.cwd := by
    rintro hEq
    exact hNone k hk (hEq.trans hSame.symm ▸ mem_cons_self)
  have hFinal : final dest = some (markContent true) := by
    rw [hHunks] at hRun
    rw [final_of_last_touch hRun hTouch, afterMark, if_pos (leavesFile_of_ne hTouch hNe)]
    · intro g hg
      obtain ⟨g', hg', rfl⟩ := mem_map.mp hg
      rw [touches_withMark]
      exact hNone g' hg'
  -- every hunk that announces something for the destination is marked otherwise
  have hOther : ¬ Mentions action dest := by
    rintro ⟨key, change, hLookup, hMention⟩
    obtain ⟨k', ⟨earlier, rest, hSplit, hKey, hLastName⟩, hChange⟩ :=
      (lookup_action hVerify).mp hLookup
    have hTouch' : dest ∈ k'.touches env action.cwd := by
      rw [mem_touches_iff hChange, hKey]
      exact hMention.imp Eq.symm id
    have hFalse : ∃ g : Hunk, k' = g.withMark false := by
      rw [hHunks] at hSplit
      rcases split_cases hSplit with hMem | ⟨rfl, rfl⟩ | hMem
      · obtain ⟨g, -, rfl⟩ := mem_map.mp hMem
        exact ⟨g, rfl⟩
      · refine absurd ?_ (hLastName _ (mem_map_of_mem hk))
        rw [← hKey, resolvePath_withMark, resolvePath_withMark, hSame]
      · obtain ⟨g, -, rfl⟩ := mem_map.mp hMem
        exact ⟨g, rfl⟩
    obtain ⟨g, rfl⟩ := hFalse
    rw [touches_withMark] at hTouch'
    rw [resolvePath_withMark] at hKey
    have hThere := (final_of_announced hVerify hAgrees
      ⟨earlier, rest, hSplit, resolvePath_withMark, hKey ▸ hLastName⟩).1 dest hTouch'
    exact afterMark_false_ne g dest (hThere.symm.trans hFinal)
  have hSame := hAgrees.others dest hOther
  rw [hFinal, zeroFiles] at hSame
  exact absurd hSame (by decide)

/-- **The chosen hunk decides** what is announced, if every patch of its outline is applied as
announced. -/
theorem decides_of_agrees : Decides env action.cwd hunk later := by
  unfold Decides
  split_ifs with hSuper
  · exact fun dest hDest => touched_later_of_superseded hVerify hHunks hRun hAgrees hSuper hDest
  push Not at hSuper
  have hLast : LastNaming env action.cwd args.hunks (hunk.resolvePath env action.cwd)
      (hunk.withMark true) := by
    refine ⟨_, _, hHunks, resolvePath_withMark, fun k hk => ?_⟩
    obtain ⟨k', hk', rfl⟩ := mem_map.mp hk
    rw [resolvePath_withMark]
    exact hSuper k' hk'
  obtain ⟨hThere, hNoSelf⟩ := final_of_announced hVerify hAgrees hLast
  rw [hHunks] at hRun
  refine ⟨fun k hk hTouch => ?_, fun dest hDest => ⟨hNoSelf dest hDest, fun k hk hTouch => ?_⟩⟩
  · -- a later move onto the path leaves the other mark there
    obtain ⟨k', hk', hTouch', hFinal⟩ := final_of_touched_later hRun ⟨k, hk, hTouch⟩
    have hLeaves := leavesFile_of_ne hTouch' (Ne.symm (hSuper k' hk'))
    rw [hThere _ mem_cons_self, afterMark, afterMark] at hFinal
    split_ifs at hFinal
    · exact absurd hFinal (by decide)
  · obtain ⟨k', -, -, hFinal⟩ := final_of_touched_later hRun ⟨k, hk, hTouch⟩
    have hHere : dest ∈ hunk.touches env action.cwd :=
      mem_cons_of_mem _ (Option.mem_toList.mpr hDest)
    rw [hThere dest hHere, afterMark, if_pos (leavesFile_of_ne hHere (hNoSelf dest hDest))]
      at hFinal
    exact afterMark_false_ne k' dest hFinal.symm

end

/-- The patch with a chosen hunk, if it is applied. -/
theorem applyHunksToFiles_markedPatch : Post
      (fun _ s' => Applicable env cwd (before.map (withMark false)) (hunk.withMark true) ∧
        RealizesAll unifiedDiff env cwd zeroFiles (markedPatch before hunk later) zeroFiles
          s'.files)
      (fun _ _ => True)
      (applyHunksToFiles (fun _ => none) env cwd (markedPatch before hunk later)
        (.start zeroFiles)) := by
  have hNonempty : markedPatch before hunk later ≠ [] := by simp [markedPatch]
  have hTracked : Tracked env cwd zeroFiles [] (PatchState.start zeroFiles).files :=
    ⟨fun _ _ => rfl, fun _ hTouched => by simp at hTouched⟩
  have hWritten : Written env cwd [] (PatchState.start zeroFiles).files :=
    fun _ hTouched => by simp at hTouched
  unfold applyHunksToFiles
  rw [if_neg hNonempty]
  refine (@applyHunkLoop_withMark unifiedDiff env cwd [] (fun _ => none) (fun _ => rfl)
    (markedPatch before hunk later) (fun k hk => marked_of_mem hk) (.start zeroFiles)
    { added := [], modified := [], deleted := [] } hTracked hWritten).mono ?_ fun _ _ h => h
  rintro _ s' ⟨hApplicable, hRun⟩
  exact ⟨hApplicable _ _ _ rfl, hRun⟩

theorem verifyHunks_of_forall {hunks : List Hunk} {files : Files}
    (h : ∀ k ∈ hunks, ∃ change, verifyHunk unifiedDiff env cwd files k = .ok change)
    (changes : Changes) :
    ∃ changes', verifyHunks unifiedDiff env cwd files hunks changes = .ok changes' := by
  induction hunks generalizing changes with
  | nil => exact ⟨changes, rfl⟩
  | cons first hunks ih =>
    rw [forall_mem_cons] at h
    obtain ⟨⟨change, hChange⟩, hRest⟩ := h
    obtain ⟨changes', hChanges'⟩ := ih hRest (changes.insert (first.resolvePath env cwd) change)
    refine ⟨changes', ?_⟩
    rw [verifyHunks, hChange]
    exact hChanges'

/-- The patch with a chosen hunk verifies. -/
theorem verify_markedPatch : ∃ changes, verifyApplyPatchArgs unifiedDiff env zeroFiles
      ⟨[], markedPatch before hunk later, none⟩ cwd = .ok ⟨changes, [], cwd⟩ := by
  have hEach : ∀ k ∈ markedPatch before hunk later,
      ∃ change, verifyHunk unifiedDiff env cwd zeroFiles k = .ok change := by
    intro k hk
    obtain ⟨k, chosen, rfl⟩ := marked_of_mem hk
    obtain ⟨change, hChange, -⟩ := @verifyHunk_withMark unifiedDiff env cwd k chosen
    exact ⟨change, hChange⟩
  obtain ⟨changes, hChanges⟩ := verifyHunks_of_forall hEach ∅
  refine ⟨changes, ?_⟩
  simp only [verifyApplyPatchArgs]
  rw [hChanges]
  rfl

end Exact

/-- The patch is applied, and what was announced is what happened. -/
def AppliedAsAnnounced (env : PathEnv) (files : Files) (args : ApplyPatchArgs)
    (action : ApplyPatchAction) : Prop :=
  let outcome := applyHunksToFiles (fun _ => none) env action.cwd args.hunks (.start files)
  (∃ affected, outcome.1 = .ok affected) ∧ Agrees action files outcome.2.files

/-- **When what is announced is what happens.** The hunks are consistent exactly when every patch
with their kinds and paths that verifies, on any files, is applied as announced. Paths are taken
from the directory `cwd` that the action records. -/
theorem consistent_iff_applied_as_announced (unifiedDiff : Text → Text → Text) (env : PathEnv)
    (cwd : AbsolutePathBuf) (hunks : List Hunk) :
    Consistent env cwd hunks ↔
      ∀ files args start action, args.hunks.map outline = hunks.map outline →
        verifyApplyPatchArgs unifiedDiff env files args start = .ok action → action.cwd = cwd →
        AppliedAsAnnounced env files args action := by
  constructor
  · rintro hConsistent files args start action hOutline hVerify rfl
    -- the other patch has the same outline, so it is consistent too
    obtain ⟨hNonempty, hAfter⟩ := hConsistent
    refine verified_patch_agrees hVerify ⟨fun hNil => hNonempty ?_, ?_⟩
    · rw [hNil] at hOutline
      exact map_eq_nil_iff.mp hOutline.symm
    rw [consistentAfter_iff] at hAfter ⊢
    intro before hunk later hSplit
    rw [hSplit, map_append] at hOutline
    obtain ⟨before', rest, rfl, hBefore, hRest⟩ := map_eq_append_iff.mp hOutline.symm
    obtain ⟨hunk', later', rfl, hHunk, hLater⟩ := map_eq_cons_iff.mp hRest
    have hHere := hAfter before' hunk' later' rfl
    rw [nil_append] at hHere ⊢
    rw [← applicable_outline, ← decides_outline, hBefore, hHunk, hLater] at hHere
    rwa [applicable_outline, decides_outline] at hHere
  · intro hAll
    constructor
    · rintro rfl
      -- the empty patch verifies and is refused
      obtain ⟨⟨affected, hOk⟩, -⟩ := hAll zeroFiles ⟨[], [], none⟩ cwd ⟨∅, [], cwd⟩ rfl rfl rfl
      cases hOk
    rw [consistentAfter_iff]
    rintro before hunk later rfl
    -- the patch with this hunk chosen
    obtain ⟨changes, hVerify⟩ := @verify_markedPatch unifiedDiff env cwd before later hunk
    obtain ⟨⟨affected, hOk⟩, hAgrees⟩ :=
      hAll zeroFiles _ cwd _ (by simp [markedPatch, outline_withMark, Function.comp_def]) hVerify rfl
    obtain ⟨hApplicable, hRun⟩ :=
      (@applyHunksToFiles_markedPatch unifiedDiff env cwd before later hunk).of_ok hOk
    refine ⟨?_, decides_of_agrees hVerify rfl hRun hAgrees⟩
    have hOutline : (before.map (withMark false)).map outline =
        before.map outline := by
      simp [outline_withMark]
    rw [← applicable_outline, hOutline, outline_withMark] at hApplicable
    exact applicable_outline env cwd |>.mp hApplicable

/-- A patch that rewrites one file and moves another. -/
theorem applied_as_announced_update_and_move :
    let a : AbsolutePathBuf := ⟨["a"]⟩
    let b : AbsolutePathBuf := ⟨["b"]⟩
    let c : AbsolutePathBuf := ⟨["c"]⟩
    let files : Files := fun p => if p = a ∨ p = b then some "1\n".toList else none
    let chunk : UpdateFileChunk := ⟨none, ["1".toList], ["2".toList], false⟩
    let args : ApplyPatchArgs :=
      ⟨[], [.updateFile a.toPathBuf none [chunk], .updateFile b.toPathBuf (some c.toPathBuf) [chunk]],
        none⟩
    ∃ action, verifyApplyPatchArgs (fun _ new => new) ⟨none, none⟩ files args .root = .ok action ∧
      AppliedAsAnnounced ⟨none, none⟩ files args action := by
  intro a b c files chunk args
  exact ⟨_, rfl, (consistent_iff_applied_as_announced (fun _ new => new) ⟨none, none⟩ .root
    args.hunks).mp (by decide) files args .root _ rfl rfl rfl⟩

/-- Two updates of one file: only the second is announced, and as if it were alone. -/
theorem second_update_hides_first :
    let a : AbsolutePathBuf := ⟨["a"]⟩
    let files : Files := fun p => if p = a then some "1\n2\n".toList else none
    let args : ApplyPatchArgs :=
      ⟨[], [.updateFile a.toPathBuf none [⟨none, ["1".toList], ["x".toList], false⟩],
        .updateFile a.toPathBuf none [⟨none, ["2".toList], ["y".toList], false⟩]], none⟩
    let outcome :=
      applyHunksToFiles (fun _ => none) ⟨none, none⟩ .root args.hunks (.start files)
    ∃ action, verifyApplyPatchArgs (fun _ new => new) ⟨none, none⟩ files args .root = .ok action ∧
      action.cwd = .root ∧
      action.changes.lookup a = some (.update "1\ny\n".toList none "1\ny\n".toList) ∧
      outcome.2.files a = some "x\ny\n".toList ∧ ¬ Agrees action files outcome.2.files := by
  intro a files args outcome
  have hFinal : outcome.2.files a = some "x\ny\n".toList := by decide
  refine ⟨_, rfl, rfl, by decide, hFinal, fun hAgrees => ?_⟩
  have hHolds := hAgrees.announced a (.update "1\ny\n".toList none "1\ny\n".toList) (by decide)
  change outcome.2.files a = _ at hHolds
  exact absurd hHolds (by decide)

end Codex.ApplyPatch
