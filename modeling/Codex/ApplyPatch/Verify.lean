import Codex.ApplyPatch.HunkEffects
import Mathlib.Data.List.AList

/-!
# Codex — the changes shown for approval

`verify_apply_patch_args` of `apply-patch/src/invocation.rs` reads the files as they
are and announces, for each path a hunk names, what will become of it. The map of
changes is keyed by the source path, so the last hunk that names a path decides
what is announced there (`lookup_verifyHunks`).

`applyHunk_realizes` compares the two passes one hunk at a time: on the same files
and without faults, applying a hunk does what verifying it announces.
-/

namespace Codex.ApplyPatch

open Effect Function

structure ApplyPatchArgs where
  patch : Text
  hunks : List Hunk
  workdir : Option Text

inductive ApplyPatchFileChange where
  | add (content : Text)
  | delete (content : Text)
  | update (unifiedDiff : Text) (movePath : Option AbsolutePathBuf) (newContent : Text)
  deriving DecidableEq, Repr

/-- The `HashMap` of announced changes. -/
abbrev Changes := AList fun _ : AbsolutePathBuf => ApplyPatchFileChange

structure ApplyPatchAction where
  changes : Changes
  patch : Text
  cwd : AbsolutePathBuf

namespace Hunk

/-- Where a move goes to. -/
def dest (env : PathEnv) (cwd : AbsolutePathBuf) : Hunk → Option AbsolutePathBuf
  | .updateFile _ (some movePath) _ =>
    some (AbsolutePathBuf.resolvePathAgainstBase env movePath cwd)
  | _ => none

/-- The paths the hunk writes or removes. -/
def touches (env : PathEnv) (cwd : AbsolutePathBuf) (hunk : Hunk) : List AbsolutePathBuf :=
  hunk.resolvePath env cwd :: (hunk.dest env cwd).toList

end Hunk

section Verify

-- `unifiedDiff` is `TextDiff::unified_diff` of the original and the new contents.
variable (unifiedDiff : Text → Text → Text)
variable (env : PathEnv) (cwd : AbsolutePathBuf) (files : Files)

/-- What is announced for one hunk. -/
def verifyHunk (hunk : Hunk) : Except ApplyPatchError ApplyPatchFileChange :=
  let path := hunk.resolvePath env cwd
  match hunk with
  | .addFile _ contents => .ok (.add contents)
  | .deleteFile _ =>
    match readFile files path with
    | .ok content => .ok (.delete content)
    | .error kind => .error (.ioError ("Failed to read ".toList ++ path.display) kind)
  | .updateFile _ movePath chunks =>
    match readFile files path with
    | .error kind =>
      .error (.ioError ("Failed to read file to update ".toList ++ path.display) kind)
    | .ok original =>
      match deriveNewContents path chunks original with
      | .error error => .error error
      | .ok new =>
        .ok (.update (unifiedDiff original new) (movePath.map (AbsolutePathBuf.join env cwd)) new)

/-- The loop over the hunks; a later change of a path replaces an earlier one. -/
def verifyHunks : List Hunk → Changes → Except ApplyPatchError Changes
  | [], changes => .ok changes
  | hunk :: hunks, changes => do
    let change ← verifyHunk unifiedDiff env cwd files hunk
    verifyHunks hunks (changes.insert (hunk.resolvePath env cwd) change)

/-- `verify_apply_patch_args`: `ok` is `Body`, an error is `CorrectnessError`. -/
def verifyApplyPatchArgs (args : ApplyPatchArgs) (cwd : AbsolutePathBuf) :
    Except ApplyPatchError ApplyPatchAction := do
  let effectiveCwd :=
    match args.workdir with
    | some dir => AbsolutePathBuf.join env cwd (PathBuf.ofText dir)
    | none => cwd
  let changes ← verifyHunks unifiedDiff env effectiveCwd files args.hunks ∅
  return { changes, patch := args.patch, cwd := effectiveCwd }

end Verify

/-! ## The map of changes -/

section Lookup

variable {unifiedDiff : Text → Text → Text} {env : PathEnv} {cwd : AbsolutePathBuf} {files : Files}

variable {hunks : List Hunk} {path : AbsolutePathBuf}

variable {changes changes' : Changes}

theorem verifyHunk_of_mem
    (h : verifyHunks unifiedDiff env cwd files hunks changes = .ok changes') :
    ∀ hunk ∈ hunks, ∃ change, verifyHunk unifiedDiff env cwd files hunk = .ok change := by
  induction hunks generalizing changes with
  | nil => exact List.forall_mem_nil _
  | cons hunk hunks ih =>
    obtain ⟨change, hChange, hRest⟩ := exists_ok_of_bind h
    exact List.forall_mem_cons.mpr ⟨⟨change, hChange⟩, ih hRest⟩

/-- The hunk is the last of the list that names the path. -/
def LastNaming (env : PathEnv) (cwd : AbsolutePathBuf) (hunks : List Hunk)
    (path : AbsolutePathBuf) (hunk : Hunk) : Prop :=
  ∃ earlier later, hunks = earlier ++ hunk :: later ∧ hunk.resolvePath env cwd = path ∧
    ∀ k ∈ later, k.resolvePath env cwd ≠ path

theorem lastNaming_cons {first hunk : Hunk} :
    LastNaming env cwd (first :: hunks) path hunk ↔
      LastNaming env cwd hunks path hunk ∨
        (hunk = first ∧ first.resolvePath env cwd = path ∧
          ∀ k ∈ hunks, k.resolvePath env cwd ≠ path) := by
  constructor
  · rintro ⟨earlier, later, hSplit, hPath, hLater⟩
    cases earlier with
    | nil =>
      obtain ⟨rfl, rfl⟩ := hSplit
      exact Or.inr ⟨rfl, hPath, hLater⟩
    | cons e earlier =>
      rw [List.cons_append, List.cons.injEq] at hSplit
      exact Or.inl ⟨earlier, later, hSplit.2, hPath, hLater⟩
  · rintro (⟨earlier, later, rfl, hPath, hLater⟩ | ⟨rfl, hPath, hLater⟩)
    · exact ⟨first :: earlier, later, rfl, hPath, hLater⟩
    · exact ⟨[], hunks, rfl, hPath, hLater⟩

/-- **The last hunk that names a path decides what is announced for it.** -/
theorem lookup_verifyHunks
    (h : verifyHunks unifiedDiff env cwd files hunks changes = .ok changes')
    {change : ApplyPatchFileChange} : changes'.lookup path = some change ↔
      (∃ hunk, LastNaming env cwd hunks path hunk ∧
        verifyHunk unifiedDiff env cwd files hunk = .ok change) ∨
      ((∀ k ∈ hunks, k.resolvePath env cwd ≠ path) ∧ changes.lookup path = some change) := by
  induction hunks generalizing changes with
  | nil =>
    cases h
    have hNone : ∀ hunk, ¬ LastNaming env cwd [] path hunk := by
      rintro hunk ⟨earlier, later, hSplit, -⟩
      cases earlier <;> cases hSplit
    simp [hNone]
  | cons first hunks ih =>
    obtain ⟨announced, hAnnounced, hRest⟩ := exists_ok_of_bind h
    rw [ih hRest]
    simp only [lastNaming_cons, or_and_right, exists_or, or_assoc]
    -- only the first hunk is left to compare
    refine or_congr_right ?_
    by_cases hFirst : first.resolvePath env cwd = path
    · subst hFirst
      simp [hAnnounced]
    · simp [AList.lookup_insert_ne (Ne.symm hFirst), hFirst]

end Lookup

variable {args : ApplyPatchArgs} {action : ApplyPatchAction}

variable {unifiedDiff : Text → Text → Text}

theorem verifyApplyPatchArgs_eq_ok {env : PathEnv}
    {files : Files} {cwd : AbsolutePathBuf}
    (h : verifyApplyPatchArgs unifiedDiff env files args cwd = .ok action) :
    verifyHunks unifiedDiff env action.cwd files args.hunks ∅ = .ok action.changes := by
  obtain ⟨changes, hChanges, hReturn⟩ := exists_ok_of_bind h
  cases hReturn
  exact hChanges

theorem lookup_action {env : PathEnv} {files : Files}
    {cwd : AbsolutePathBuf}
    (h : verifyApplyPatchArgs unifiedDiff env files args cwd = .ok action)
    {path : AbsolutePathBuf} {change : ApplyPatchFileChange} :
    action.changes.lookup path = some change ↔
      ∃ hunk, LastNaming env action.cwd args.hunks path hunk ∧
        verifyHunk unifiedDiff env action.cwd files hunk = .ok change := by
  rw [lookup_verifyHunks (verifyApplyPatchArgs_eq_ok h)]
  simp

/-! ## One hunk, verified and applied -/

section OneHunk

variable {unifiedDiff : Text → Text → Text} {env : PathEnv} {cwd : AbsolutePathBuf}
  {files : Files} {hunk : Hunk} {change : ApplyPatchFileChange}

/-- The kind of change announced is the kind of the hunk. -/
theorem verifyHunk_kind (h : verifyHunk unifiedDiff env cwd files hunk = .ok change) :
    (∃ path contents, hunk = .addFile path contents ∧ change = .add contents) ∨
    (∃ path content, hunk = .deleteFile path ∧ change = .delete content ∧
      files (hunk.resolvePath env cwd) = some content) ∨
    (∃ path movePath chunks original new, hunk = .updateFile path movePath chunks ∧
      change = .update (unifiedDiff original new) (hunk.dest env cwd) new ∧
      files (hunk.resolvePath env cwd) = some original ∧
      deriveNewContents (hunk.resolvePath env cwd) chunks original = .ok new) := by
  cases hunk with
  | addFile path contents =>
    cases h
    exact Or.inl ⟨path, contents, rfl, rfl⟩
  | deleteFile path =>
    unfold verifyHunk readFile at h
    cases hFile : files ((Hunk.deleteFile path).resolvePath env cwd) with
    | none =>
      simp only [hFile] at h
      cases h
    | some content =>
      simp only [hFile] at h
      cases h
      exact Or.inr (Or.inl ⟨path, content, rfl, rfl, rfl⟩)
  | updateFile path movePath chunks =>
    unfold verifyHunk readFile at h
    rcases hFile : files ((Hunk.updateFile path movePath chunks).resolvePath env cwd) with _ | original
    · simp only [hFile] at h
      cases h
    simp only [hFile] at h
    cases hDerive : deriveNewContents
        ((Hunk.updateFile path movePath chunks).resolvePath env cwd) chunks original with
    | error error =>
      simp only [hDerive] at h
      cases h
    | ok new =>
      simp only [hDerive] at h
      cases h
      refine Or.inr (Or.inr ⟨path, movePath, chunks, original, new, rfl, ?_, rfl, hDerive⟩)
      cases movePath <;> rfl

/-- The files after an announced change. -/
def realize (path : AbsolutePathBuf) (change : ApplyPatchFileChange) (files : Files) : Files :=
  match change with
  | .add content => update files path (some content)
  | .delete _ => update files path none
  | .update _ none newContent => update files path (some newContent)
  | .update _ (some dest) newContent =>
    update (update files dest (some newContent)) path none

/-- **On the same files, a hunk does what was announced for it.** -/
theorem applyHunk_realizes {faults : Faults} {s : PatchState} (hNone : NoFaults faults)
    (h : verifyHunk unifiedDiff env cwd s.files hunk = .ok change) :
    Post (fun _ s' => s'.files = realize (hunk.resolvePath env cwd) change s.files)
      (fun _ _ => False) (applyHunk faults env cwd hunk s) := by
  obtain ⟨path, contents, rfl, rfl⟩ | ⟨path, content, rfl, rfl, hFile⟩ |
    ⟨path, movePath, chunks, original, new, rfl, rfl, hFile, hDerive⟩ := verifyHunk_kind h
  · refine (addFile_spec faults _ s contents).mono ?_ fun _ _ h => (h.2.2 hNone).elim
    rintro _ s' ⟨-, overwritten, hCommit, -⟩
    exact hCommit.files
  · refine (deleteFile_spec faults _ s).mono ?_ ?_
    · exact fun _ s' h => h.1.files
    · rintro _ s' ⟨-, hMissing⟩
      rw [hMissing hNone] at hFile
      cases hFile
  · refine post_bind ((planUpdate_spec faults _ s chunks).mono ?_ ?_)
    · rintro ⟨original', new'⟩ s₁ ⟨hObs, hFile', hDerive'⟩
      -- the plan is the one verification made
      rw [hFile, Option.some.injEq] at hFile'
      subst hFile'
      rw [hDerive, Except.ok.injEq] at hDerive'
      subst hDerive'
      cases movePath with
      | none =>
        refine (rewriteFile_spec faults _ s₁ _ _).mono ?_ fun _ _ h => (h.2.2 hNone).elim
        rintro _ s' ⟨-, hCommit⟩
        rw [hCommit.files, hObs.files]
        rfl
      | some dest =>
        refine (moveFile_spec faults _ s₁ _ _ _).mono ?_ ?_
        · rintro _ s' ⟨-, overwritten, hCommit, -⟩
          rw [hCommit.files, hObs.files]
          rfl
        -- without faults the source is still there when it is removed
        rintro _ s' ⟨-, ⟨-, hFault⟩ | ⟨overwritten, -, -, hMissing⟩⟩
        · exact hFault hNone
        · have hGone := hMissing hNone
          rw [update_apply, hObs.files, hFile] at hGone
          split at hGone <;> cases hGone
    · rintro _ s' ⟨-, hUnplanned⟩
      exact hUnplanned hNone (original, new) ⟨hFile, hDerive⟩

end OneHunk

end Codex.ApplyPatch
