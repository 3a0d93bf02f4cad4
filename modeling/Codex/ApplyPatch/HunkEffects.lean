import Codex.ApplyPatch.Files

/-!
# Codex — what a hunk can do to the files

One specification for each executor call and each helper of `apply_hunks_to_files`,
and from them one for each kind of hunk. They say what becomes of the files, the
paths touched and the delta, however the calls fail, and which errors are left
when no call faults. Later modules use the four specifications at the end and
never look at the code again.
-/

namespace Codex.ApplyPatch

open Effect Function

/-- No call ever faults. -/
def NoFaults (faults : Faults) : Prop := ∀ n, faults n = none

/-- The files were only looked at; at worst the delta lost its exactness. -/
structure Observes (s s' : PatchState) : Prop where
  files : s'.files = s.files
  touched : s'.touched = s.touched
  changes : s'.delta.changes = s.delta.changes
  isExact : s'.delta.isExact = true → s.delta.isExact = true

open Observes
/-- Exactly the listed paths were touched. -/
def Touches (paths : List AbsolutePathBuf) (s s' : PatchState) : Prop :=
  ∀ p, p ∈ s'.touched ↔ p ∈ s.touched ∨ p ∈ paths

/-- The file at `path` became `content`. -/
structure Stores (path : AbsolutePathBuf) (content : Option Text) (s s' : PatchState) : Prop where
  files : s'.files = update s.files path content
  touched : Touches [path] s s'
  changes : s'.delta.changes = s.delta.changes
  isExact : s'.delta.isExact = true → s.delta.isExact = true

section Composition

variable {s s' s'' : PatchState} {path : AbsolutePathBuf} {content content' : Option Text}

theorem Observes.refl (s : PatchState) : Observes s s := ⟨rfl, rfl, rfl, id⟩

theorem Observes.tick (s : PatchState) : Observes s { s with clock := s.clock + 1 } :=
  ⟨rfl, rfl, rfl, id⟩

section

variable (h : Observes s s')
include h

theorem Observes.trans (h' : Observes s' s'') : Observes s s'' :=
  ⟨h'.files.trans h.files, h'.touched.trans h.touched, h'.changes.trans h.changes,
    fun hExact => h.isExact (h'.isExact hExact)⟩

theorem Observes.markInexact :
    Observes s { s' with delta := { s'.delta with isExact := false } } :=
  ⟨h.files, h.touched, h.changes, fun hExact => by cases hExact⟩

theorem Observes.touches {paths : List AbsolutePathBuf}
    (h' : Touches paths s' s'') : Touches paths s s'' := by
  intro p
  rw [h' p, h.touched]

theorem Observes.stores (h' : Stores path content s' s'') :
    Stores path content s s'' := by
  refine ⟨?_, h.touches h'.touched, h'.changes.trans h.changes,
    fun hExact => h.isExact (h'.isExact hExact)⟩
  rw [h'.files, h.files]

end

/-- Only the last write to a path counts. -/
theorem Stores.stores (h : Stores path content s s') (h' : Stores path content' s' s'') :
    Stores path content' s s'' := by
  refine ⟨?_, ?_, h'.changes.trans h.changes, fun hExact => h.isExact (h'.isExact hExact)⟩
  · rw [h'.files, h.files, update_idem]
  · intro p
    rw [h'.touched p, h.touched p, or_assoc, or_self]

theorem Stores.observes (h : Stores path content s s') (h' : Observes s' s'') :
    Stores path content s s'' := by
  refine ⟨h'.files.trans h.files, ?_, h'.changes.trans h.changes,
    fun hExact => h.isExact (h'.isExact hExact)⟩
  intro p
  rw [h'.touched, h.touched p]

end Composition

section Calls

variable {faults : Faults} {path : AbsolutePathBuf} {s : PatchState}

theorem post_call {α : Type} {act : Exec IoErrorKind α} {onFault : Fault → Exec IoErrorKind α}
    {Q : α → PatchState → Prop} {E : IoErrorKind → PatchState → Prop}
    (hAct : Post Q E (act { s with clock := s.clock + 1 }))
    (hFault : ∀ fault, ¬ NoFaults faults → Post Q E (onFault fault { s with clock := s.clock + 1 })) :
    Post Q E (call faults act onFault s) := by
  unfold call
  cases hAt : faults s.clock with
  | none => exact hAct
  | some fault =>
    refine hFault fault fun hNone => ?_
    rw [hNone s.clock] at hAt
    cases hAt

/-- The errors of a call that only looks: a missing file is reported as such, and
nothing else can go wrong without a fault. -/
def LookError (faults : Faults) (path : AbsolutePathBuf) (s : PatchState) (kind : IoErrorKind)
    (s' : PatchState) : Prop :=
  Observes s s' ∧ (kind = .notFound → s.files path = none) ∧
    (NoFaults faults → kind = .notFound)

theorem lookError_fault (hFault : ¬ NoFaults faults) :
    LookError faults path s .other { s with clock := s.clock + 1 } :=
  ⟨tick s, fun hKind => IoErrorKind.noConfusion hKind, fun hNone => (hFault hNone).elim⟩

variable (faults path s)

theorem readFileText_spec :
    Post (fun content s' => Observes s s' ∧ s.files path = some content)
      (LookError faults path s) (readFileText faults path s) := by
  refine post_call ?_ fun _ hFault => lookError_fault hFault
  cases hFile : s.files path with
  | none =>
    simp only [readFile, hFile]
    exact ⟨tick s, fun _ => hFile, fun _ => rfl⟩
  | some content =>
    simp only [readFile, hFile]
    exact ⟨tick s, rfl⟩

theorem getMetadata_spec :
    Post (fun metadata s' => Observes s s' ∧ metadata = ⟨false, true, false⟩)
      (LookError faults path s) (getMetadata faults path s) := by
  refine post_call ?_ fun _ hFault => lookError_fault hFault
  cases hFile : s.files path with
  | none =>
    simp only [readFile, hFile]
    exact ⟨tick s, fun _ => hFile, fun _ => rfl⟩
  | some content =>
    simp only [readFile, hFile]
    exact ⟨tick s, rfl⟩

theorem store_stores (content : Option Text) :
    Stores path content s (PatchState.store path content { s with clock := s.clock + 1 }) := by
  refine ⟨rfl, ?_, rfl, id⟩
  intro p
  exact List.mem_append

theorem writeFile_spec (contents : Text) (s : PatchState) :
    Post (fun _ s' => Stores path (some contents) s s')
      (fun _ s' => (∃ content, Stores path content s s') ∧ ¬ NoFaults faults)
      (writeFile faults path contents s) := by
  refine post_call (post_modify (store_stores path s _)) ?_
  intro fault hFault
  exact ⟨⟨_, store_stores path s _⟩, hFault⟩

theorem remove_spec :
    Post (fun _ s' => Stores path none s s' ∧ s.files path ≠ none)
      (LookError faults path s) (remove faults path s) := by
  refine post_call ?_ fun _ hFault => lookError_fault hFault
  cases hFile : s.files path with
  | none =>
    exact ⟨tick s, fun _ => hFile, fun _ => rfl⟩
  | some content =>
    exact ⟨store_stores path s none, Option.some_ne_none content⟩

theorem createDirectory_spec :
    Post (fun _ s' => Observes s s') (fun _ s' => Observes s s' ∧ ¬ NoFaults faults)
      (createDirectory faults path s) :=
  post_call (post_pure (tick s)) fun _ hFault => ⟨tick s, hFault⟩

end Calls

/-! ## The helpers -/

section Helpers

variable (faults : Faults) (path : AbsolutePathBuf) (s : PatchState) {ε : Type}

theorem markInexactIf_spec (unknown : Bool) (s : PatchState) :
    Post (fun _ s' => Observes s s' ∧ (unknown = true → s'.delta.isExact = false))
      (fun _ _ => False) ((markInexactIf unknown : Exec ε Unit) s) := by
  cases unknown with
  | true => exact ⟨(refl s).markInexact, fun _ => rfl⟩
  | false => exact ⟨refl s, fun hTrue => by cases hTrue⟩

theorem ensureNotDirectory_spec : Post (fun _ s' => Observes s s') (LookError faults path s)
      (ensureNotDirectory faults path s) := by
  refine post_bind ((getMetadata_spec faults path s).mono ?_ fun _ _ h => h)
  rintro metadata s' ⟨hObs, rfl⟩
  exact post_pure hObs

theorem noteExistingPathDeltaSupport_spec :
    Post (fun _ s' => Observes s s') (fun _ _ => False)
      ((noteExistingPathDeltaSupport faults path : Exec ε Unit) s) := by
  refine post_bind (post_attempt ((getMetadata_spec faults path s).mono ?_ ?_))
  · rintro metadata s' ⟨hObs, rfl⟩
    exact post_pure hObs
  rintro kind s' ⟨hObs, -⟩
  cases kind with
  | notFound => exact post_pure hObs
  | invalidInput | other => exact post_modify hObs.markInexact

/-- As long as the delta stays exact, the content recorded is the content there was. -/
theorem readOptionalFileTextForDelta_spec :
    Post (fun content s' => Observes s s' ∧ (s'.delta.isExact = true → content = s.files path))
      (fun _ _ => False)
      ((readOptionalFileTextForDelta faults path : Exec ε (Option Text)) s) := by
  refine post_bind ((noteExistingPathDeltaSupport_spec faults path s).mono ?_ fun _ _ h => h)
  intro _ s₁ hNote
  refine post_bind (post_attempt ((readFileText_spec faults path s₁).mono ?_ ?_))
  · rintro content s₂ ⟨hObs, hFile⟩
    refine post_pure ⟨hNote.trans hObs, fun _ => ?_⟩
    rw [← hNote.files, hFile]
  rintro kind s₂ ⟨hObs, hMissing, -⟩
  have hBoth := hNote.trans hObs
  have hInexact : ∀ content : Option Text, Observes s
        { s₂ with delta := { s₂.delta with isExact := false } } ∧
      (false = true → content = s.files path) :=
    fun _ => ⟨hBoth.markInexact, fun hFalse => Bool.noConfusion hFalse⟩
  cases kind with
  | notFound =>
    refine post_pure ⟨hBoth, fun _ => ?_⟩
    rw [← hNote.files, hMissing rfl]
  | invalidInput | other => exact post_bind (post_modify (post_pure (hInexact none)))

theorem writeFileWithMissingParentRetry_spec (contents : Text) :
    Post (fun _ s' => Stores path (some contents) s s')
      (fun _ s' => (∃ content, Stores path content s s') ∧ ¬ NoFaults faults)
      (writeFileWithMissingParentRetry faults path contents s) := by
  refine post_bind (post_attempt ((writeFile_spec faults path contents s).mono ?_ ?_))
  · exact fun _ s' hStores => post_pure hStores
  rintro kind s₁ ⟨⟨content, hFirst⟩, hFault⟩
  cases kind with
  | notFound =>
    -- whatever the first write left is overwritten by the second
    have hRetry : ∀ s₂, Observes s₁ s₂ →
        Post (fun _ s' => Stores path (some contents) s s')
          (fun _ s' => (∃ content, Stores path content s s') ∧ ¬ NoFaults faults)
          (withContext ("Failed to write file ".toList ++ path.display)
            (writeFile faults path contents) s₂) := by
      intro s₂ hObs
      refine post_mapError ((writeFile_spec faults path contents s₂).mono ?_ ?_)
      · exact fun _ s' hStores => hFirst.stores (hObs.stores hStores)
      · rintro _ s' ⟨⟨content', hStores⟩, -⟩
        exact ⟨⟨content', hFirst.stores (hObs.stores hStores)⟩, hFault⟩
    rcases hParent : path.parent with _ | parent
    · exact post_bind (post_pure (hRetry s₁ (refl s₁)))
    refine post_bind (post_mapError ((createDirectory_spec faults parent s₁).mono ?_ ?_))
    · exact fun _ s₂ hObs => hRetry s₂ hObs
    · rintro _ s₂ ⟨hObs, -⟩
      exact ⟨⟨content, hFirst.observes hObs⟩, hFault⟩
  | invalidInput | other => exact post_fail ⟨⟨content, hFirst⟩, hFault⟩

/-- A failed write costs the delta its exactness. -/
theorem tryWrite_spec {m : Exec ApplyPatchError Unit} {contents : Text}
    (h : Post (fun _ s' => Stores path (some contents) s s')
      (fun _ s' => (∃ content, Stores path content s s') ∧ ¬ NoFaults faults) (m s)) :
    Post (fun _ s' => Stores path (some contents) s s')
      (fun _ s' => s'.delta.isExact = false ∧ Touches [path] s s' ∧ ¬ NoFaults faults)
      (tryWrite m s) := by
  refine post_bind (post_attempt (h.mono ?_ ?_))
  · exact fun _ s' hStores => post_pure hStores
  · rintro error s₁ ⟨⟨content, hStores⟩, hFault⟩
    exact post_bind (post_modify (post_fail ⟨rfl, hStores.touched, hFault⟩))

/-- The contents an update starts from and ends in. -/
def Planned (files : Files) (path : AbsolutePathBuf) (chunks : List UpdateFileChunk)
    (plan : Text × Text) : Prop :=
  files path = some plan.1 ∧ deriveNewContents path chunks plan.1 = .ok plan.2

theorem planUpdate_spec (chunks : List UpdateFileChunk) :
    Post (fun plan s' => Observes s s' ∧ Planned s.files path chunks plan)
      (fun _ s' => Observes s s' ∧
        (NoFaults faults → ∀ plan, ¬ Planned s.files path chunks plan))
      (planUpdate faults path chunks s) := by
  refine post_bind ((noteExistingPathDeltaSupport_spec faults path s).mono ?_
    fun _ _ h => h.elim)
  intro _ s₁ hNote
  refine post_bind (post_mapError ((readFileText_spec faults path s₁).mono ?_ ?_))
  · rintro content s₂ ⟨hObs, hFile⟩
    rw [hNote.files] at hFile
    cases hDerive : deriveNewContents path chunks content with
    | ok newContents =>
      exact post_pure ⟨hNote.trans hObs, hFile, hDerive⟩
    | error error =>
      refine post_fail ⟨hNote.trans hObs, fun _ plan hPlan => ?_⟩
      obtain ⟨hFile', hOk⟩ := hPlan
      rw [hFile, Option.some.injEq] at hFile'
      rw [← hFile', hDerive] at hOk
      cases hOk
  · rintro kind s₂ ⟨hObs, hMissing, hKind⟩
    refine ⟨hNote.trans hObs, fun hNone plan hPlan => ?_⟩
    have hAbsent := hMissing (hKind hNone)
    rw [hNote.files, hPlan.1] at hAbsent
    cases hAbsent

theorem removeFile_spec (context : Text) (expectedContent : Option Text) :
    Post (fun _ s' => Stores path none s s' ∧ s.files path ≠ none)
      (fun _ s' => Observes s s' ∧ (NoFaults faults → s.files path = none))
      (removeFile faults context path expectedContent s) := by
  refine post_bind (post_mapError ((ensureNotDirectory_spec faults path s).mono ?_ ?_))
  · intro _ s₁ hCheck
    refine post_bind (post_attempt ((remove_spec faults path s₁).mono ?_ ?_))
    · rintro _ s₂ ⟨hStores, hPresent⟩
      rw [hCheck.files] at hPresent
      exact post_pure ⟨hCheck.stores hStores, hPresent⟩
    rintro kind s₂ ⟨hObs, hMissing, hKind⟩
    have hAbsent : NoFaults faults → s.files path = none := by
      intro hNone
      rw [← hCheck.files]
      exact hMissing (hKind hNone)
    refine post_bind (Post.mono (Q := fun _ s' => Observes s s') (E := fun _ _ => False)
      ?_ ?_ fun _ _ h => h.elim)
    · rcases expectedContent with _ | expected
      · exact post_pure (hCheck.trans hObs)
      refine post_bind (post_attempt ((readFileText_spec faults path s₂).mono ?_ ?_))
      all_goals
        rintro _ s₃ ⟨hRead, -⟩
        exact post_pure ((hCheck.trans hObs).trans hRead)
    · intro free s₃ hAll
      refine post_bind (post_modify (post_fail ⟨⟨hAll.files, hAll.touched, hAll.changes, ?_⟩,
        hAbsent⟩))
      intro hExact
      exact hAll.isExact (Bool.and_eq_true_iff.mp hExact).1
  · rintro kind s₁ ⟨hObs, hMissing, hKind⟩
    exact ⟨hObs, fun hNone => hMissing (hKind hNone)⟩

end Helpers

/-! ## The hunks -/

/-- The files became `files'`, and `change` was entered in the delta. -/
structure Commits (change : AppliedPatchChange) (files' : Files) (s s' : PatchState) : Prop where
  files : s'.files = files'
  changes : s'.delta.changes = s.delta.changes ++ [change]
  isExact : s'.delta.isExact = true → s.delta.isExact = true

theorem Stores.commits {s s' : PatchState} {path : AbsolutePathBuf} {content : Option Text}
    (h : Stores path content s s') (change : AppliedPatchChange) :
    Commits change (update s.files path content) s
      { s' with delta := { s'.delta with changes := s'.delta.changes ++ [change] } } := by
  refine ⟨h.files, ?_, h.isExact⟩
  show s'.delta.changes ++ [change] = s.delta.changes ++ [change]
  rw [h.changes]

section Hunks

variable (faults : Faults) (path : AbsolutePathBuf) (s : PatchState)

theorem addFile_spec (contents : Text) : Post
      (fun _ s' => Touches [path] s s' ∧ ∃ overwritten,
        Commits ⟨path, .add contents overwritten⟩ (update s.files path (some contents))
          s s' ∧ (s'.delta.isExact = true → overwritten = s.files path))
      (fun _ s' => s'.delta.isExact = false ∧ Touches [path] s s' ∧ ¬ NoFaults faults)
      (addFile faults path contents s) := by
  refine post_bind ((readOptionalFileTextForDelta_spec faults path s).mono ?_ fun _ _ h => h.elim)
  rintro overwritten s₁ ⟨hRead, hContent⟩
  refine post_bind ((tryWrite_spec faults path s₁
    (writeFileWithMissingParentRetry_spec faults path s₁ contents)).mono ?_ ?_)
  · intro _ s₂ hWrite
    have hStores := hRead.stores hWrite
    refine post_modify ⟨hStores.touched, overwritten, hStores.commits _, fun hExact => ?_⟩
    exact hContent (hWrite.isExact hExact)
  · rintro _ s₂ ⟨hInexact, hTouched, hFault⟩
    exact ⟨hInexact, hRead.touches hTouched, hFault⟩

theorem deleteFile_spec : Post
      (fun _ s' => Stores path none s { s' with delta := s.delta } ∧ ∃ content,
        s.files path = some content ∧ (s'.delta.isExact = true →
          Commits ⟨path, .delete content⟩ (update s.files path none) s s'))
      (fun _ s' => Observes s s' ∧ (NoFaults faults → s.files path = none))
      (deleteFile faults path s) := by
  refine post_bind ((noteExistingPathDeltaSupport_spec faults path s).mono ?_ fun _ _ h => h.elim)
  intro _ s₁ hNote
  -- the content is known, or the delta is no longer exact
  refine post_bind (Post.mono (Q := fun read s₂ => Observes s s₂ ∧
    ∀ content, read.toOption = some content → s.files path = some content) ?_ ?_
      (E := fun _ _ => False) fun _ _ h => h.elim)
  · refine post_attempt ((readFileText_spec faults path s₁).mono ?_ ?_)
    · rintro content s₂ ⟨hObs, hFile⟩
      rw [hNote.files] at hFile
      refine ⟨hNote.trans hObs, fun content' hSome => ?_⟩
      cases hSome
      exact hFile
    · rintro kind s₂ ⟨hObs, -⟩
      exact ⟨hNote.trans hObs, fun content' hSome => by cases hSome⟩
  · rintro read s₂ ⟨hObs, hContent⟩
    refine post_bind ((markInexactIf_spec read.toOption.isNone s₂).mono ?_ fun _ _ h => h.elim)
    rintro _ s₃ ⟨hMark, hInexact⟩
    have hObs₃ := hObs.trans hMark
    refine post_bind ((removeFile_spec faults path s₃ _ read.toOption).mono ?_ ?_)
    · rintro _ s₄ ⟨hRemove, hPresent⟩
      have hStores := hObs₃.stores hRemove
      rw [hObs₃.files] at hPresent
      obtain ⟨found, hFound⟩ := Option.ne_none_iff_exists'.mp hPresent
      cases hRead : read.toOption with
      | some content =>
        refine post_modify ⟨⟨hStores.files, hStores.touched, rfl, id⟩, content,
          hContent content hRead, fun _ => hStores.commits _⟩
      | none =>
        refine post_pure ⟨⟨hStores.files, hStores.touched, rfl, id⟩, found, hFound,
          fun hExact => ?_⟩
        have hStill := hRemove.isExact hExact
        rw [hInexact (by rw [hRead, Option.isNone_none])] at hStill
        cases hStill
    · rintro _ s₄ ⟨hObs₄, hMissing⟩
      rw [hObs₃.files] at hMissing
      exact ⟨hObs₃.trans hObs₄, hMissing⟩

theorem rewriteFile_spec (original new : Text) : Post
      (fun _ s' => Touches [path] s s' ∧
        Commits ⟨path, .update none original none new⟩ (update s.files path (some new)) s s')
      (fun _ s' => s'.delta.isExact = false ∧ Touches [path] s s' ∧ ¬ NoFaults faults)
      (rewriteFile faults path original new s) := by
  refine post_bind ((tryWrite_spec faults path s
    (post_mapError (writeFile_spec faults path new s))).mono ?_ fun _ _ h => h)
  intro _ s₁ hWrite
  exact post_modify ⟨hWrite.touched, hWrite.commits _⟩

/-- A move that fails after its write leaves the write in the delta as an addition. -/
theorem moveFile_spec (dest : AbsolutePathBuf) (original new : Text) : Post
      (fun _ s' => Touches [dest, path] s s' ∧ ∃ overwritten,
        Commits ⟨path, .update (some dest) original overwritten new⟩
          (update (update s.files dest (some new)) path none) s s' ∧
        (s'.delta.isExact = true → overwritten = s.files dest))
      (fun _ s' => Touches [dest] s s' ∧
        ((s'.delta.isExact = false ∧ ¬ NoFaults faults) ∨ ∃ overwritten,
          Commits ⟨dest, .add new overwritten⟩ (update s.files dest (some new)) s s' ∧
          (s'.delta.isExact = true → overwritten = s.files dest) ∧
          (NoFaults faults → update s.files dest (some new) path = none)))
      (moveFile faults path dest original new s) := by
  refine post_bind ((readOptionalFileTextForDelta_spec faults dest s).mono ?_ fun _ _ h => h.elim)
  rintro overwritten s₁ ⟨hRead, hContent⟩
  refine post_bind ((tryWrite_spec faults dest s₁
    (writeFileWithMissingParentRetry_spec faults dest s₁ new)).mono ?_ ?_)
  · intro _ s₂ hWrite
    have hStores := hRead.stores hWrite
    have hLogged := hStores.commits ⟨dest, .add new overwritten⟩
    refine post_bind (post_gets (post_bind (post_modify (post_bind
      ((removeFile_spec faults path _ _ (some original)).mono ?_ ?_)))))
    · rintro _ s₃ ⟨hRemove, -⟩
      refine post_modify ⟨fun p => ?_, overwritten, ⟨?_, ?_, fun hExact => ?_⟩, fun hExact => ?_⟩
      · rw [hRemove.touched p, hStores.touched p]
        simp [or_assoc]
      · rw [hRemove.files, hLogged.files]
      · -- the entry pushed for the write is the last one
        rw [hRemove.changes]
        show (s₂.delta.changes ++ [_]).set s₂.delta.changes.length _ = _
        rw [List.set_append_right _ _ (Nat.le_refl _), Nat.sub_self, hStores.changes]
        rfl
      · exact hLogged.isExact (hRemove.isExact hExact)
      · exact hContent (hWrite.isExact (hRemove.isExact hExact))
    · rintro _ s₃ ⟨hObs, hMissing⟩
      refine ⟨fun p => ?_, Or.inr ⟨overwritten, ⟨hObs.files.trans hLogged.files,
        hObs.changes.trans hLogged.changes, fun hExact => hLogged.isExact (hObs.isExact hExact)⟩,
        fun hExact => hContent (hWrite.isExact (hObs.isExact hExact)), ?_⟩⟩
      · rw [hObs.touched, hStores.touched p]
      · rw [← hLogged.files]
        exact hMissing
  · rintro _ s₂ ⟨hInexact, hTouched, hFault⟩
    exact ⟨hRead.touches hTouched, Or.inl ⟨hInexact, hFault⟩⟩

end Hunks

end Codex.ApplyPatch
