import Codex.Permissions.FullAccess

/-!
# Codex — materialised project roots

`materialize_project_roots_with_cwd` binds the entries for the project roots to a directory, so that
a policy can outlive a change of the working directory. Every entry resolves afterwards, from any
directory, to the path it resolved to before, so access and metadata protection stay as they are
(`resolvedEntries_materialize`).

What does change is which entries name one target: a symbolic entry never shares one with a literal
path, and its materialised form may. A read entry that narrowed the policy can so find a write entry
beside it (`OverriddenAt`). If all of them do, the policy counts as writable as a whole. Result:
`materialize_same_answers_iff`.
-/

namespace Codex

open FileSystemSandboxPolicy AbsolutePathBuf

/-! ## Definitions -/

def projectRootsGlobPatternPrefix : Text := "codex-project-roots://".toList

def parseProjectRootsGlobPattern (pattern : Text) : Option PathBuf :=
  (Text.stripPrefix? projectRootsGlobPatternPrefix pattern).map .ofText

def resolveProjectRootsGlobPattern (host : Host) (subpath : PathBuf) (root : AbsolutePathBuf) :
    Text :=
  (resolvePathAgainstBase host.toPathEnv subpath root).display

/-- The body of the loop, for the path of one entry. -/
def materializeProjectRoots (host : Host) (cwd : Option AbsolutePathBuf) (path : FileSystemPath) :
    FileSystemPath :=
  match path with
  | .special (.projectRoots _) =>
    match resolveFileSystemPath host cwd path with
    | some resolved => .path resolved
    | none => path
  | .globPattern pattern =>
    match cwd, parseProjectRootsGlobPattern pattern with
    | some cwd, some subpath => .globPattern (resolveProjectRootsGlobPattern host subpath cwd)
    | _, _ => path
  | .special _ | .path _ => path

def FileSystemSandboxPolicy.materializeProjectRootsWithCwd (policy : FileSystemSandboxPolicy)
    (host : Host) (cwd : PathBuf) : FileSystemSandboxPolicy :=
  { policy with
    entries := policy.entries.map fun entry =>
      { entry with path := materializeProjectRoots host (cwdAbsolute host cwd) entry.path } }

/-! ## What entries resolve to -/

variable {host : Host} {cwd cwd' path : PathBuf} {policy : FileSystemSandboxPolicy}
variable {base base' : AbsolutePathBuf} {entry : FileSystemSandboxEntry}

theorem resolveEntryPath_materialize (path : FileSystemPath) :
    resolveEntryPath host (some base') (materializeProjectRoots host (some base) path) =
      resolveEntryPath host (some base) path := by
  cases path with
  | path p => rfl
  | globPattern pattern =>
    unfold materializeProjectRoots
    dsimp only
    split <;> rfl
  | special value =>
    cases value with
    | projectRoots subpath => cases subpath <;> rfl
    | root | minimal | tmpdir | slashTmp | unknown _ _ => rfl

theorem resolvedEntries_materialize (hBase : cwdAbsolute host cwd = some base)
    (hBase' : cwdAbsolute host cwd' = some base') :
    (policy.materializeProjectRootsWithCwd host cwd).resolvedEntriesWithCwd host cwd' =
      policy.resolvedEntriesWithCwd host cwd := by
  unfold resolvedEntriesWithCwd
    materializeProjectRootsWithCwd
  rw [hBase, hBase', List.filterMap_map]
  congr 1
  funext entry
  simp [resolveEntryPath_materialize]

/-! ## What entries name one target -/

/-- Two entries for one target still name one. -/
theorem shareTarget_materialize {left right : FileSystemPath}
    (h : fileSystemPathsShareTarget left right = true) :
    fileSystemPathsShareTarget (materializeProjectRoots host (some base) left)
      (materializeProjectRoots host (some base) right) = true := by
  -- a special path that matches a literal one is no project root
  have hSpecial : ∀ value p, specialPathMatchesAbsolutePath value p = true →
      materializeProjectRoots host (some base) (.special value) = .special value := by
    intro value p hMatch
    cases value with
    | projectRoots _ => cases hMatch
    | root | minimal | tmpdir | slashTmp | unknown _ _ => rfl
  have hSelf : ∀ p, fileSystemPathsShareTarget p p = true := by
    intro p
    cases p with
    | path _ | globPattern _ => exact beq_self_eq_true _
    | special value =>
      cases value with
      | root | minimal | tmpdir | slashTmp => rfl
      | projectRoots _ => exact beq_self_eq_true _
      | unknown _ _ =>
        show (_ == _ && _ == _) = true
        rw [beq_self_eq_true, beq_self_eq_true]
        rfl
  cases left with
  | path l =>
    cases right with
    | path r => exact h
    | special value =>
      rw [hSpecial value l h]
      exact h
    | globPattern _ => cases h
  | globPattern l =>
    cases right with
    | globPattern r =>
      rw [beq_iff_eq.mp h]
      exact hSelf _
    | path _ | special _ => cases h
  | special l =>
    cases right with
    | path r =>
      rw [hSpecial l r h]
      exact h
    | globPattern _ => cases h
    | special r =>
      rw [eq_of_specialPathsShareTarget h]
      exact hSelf _

theorem not_glob_materialize_iff {path : FileSystemPath} :
    (∀ pattern, materializeProjectRoots host (some base) path ≠ .globPattern pattern) ↔
      ∀ pattern, path ≠ .globPattern pattern := by
  cases path with
  | path _ => simp [materializeProjectRoots]
  | globPattern own =>
    refine iff_of_false (fun h => ?_) fun h => h own rfl
    revert h
    unfold materializeProjectRoots
    dsimp only
    split <;> simp
  | special value =>
    cases value with
    | projectRoots subpath => cases subpath <;> exact iff_of_true nofun nofun
    | root | minimal | tmpdir | slashTmp | unknown _ _ => simp [materializeProjectRoots]

/-- Bound to a directory, only what was special before is special. -/
theorem eq_special_of_materialize {path : FileSystemPath} {value : FileSystemSpecialPath}
    (h : materializeProjectRoots host (some base) path = .special value) : path = .special value := by
  cases path with
  | path _ => cases h
  | globPattern own =>
    unfold materializeProjectRoots at h
    dsimp only at h
    split at h <;> cases h
  | special own =>
    cases own with
    | projectRoots subpath => cases subpath <;> cases h
    | root | minimal | tmpdir | slashTmp | unknown _ _ => exact h

/-- Bound to the directory, the entry has a write entry beside it. -/
def OverriddenAt (policy : FileSystemSandboxPolicy) (host : Host) (cwd : Option AbsolutePathBuf)
    (entry : FileSystemSandboxEntry) : Prop :=
  entry.access = .read ∧ (∀ pattern, entry.path ≠ .globPattern pattern) ∧
    ∃ writer ∈ policy.entries, writer.access = .write ∧
      fileSystemPathsShareTarget (materializeProjectRoots host cwd writer.path)
        (materializeProjectRoots host cwd entry.path) = true

theorem override_materialize_iff (hBase : cwdAbsolute host cwd = some base) :
    (policy.materializeProjectRootsWithCwd host cwd).hasSameTargetWriteOverride
        { entry with path := materializeProjectRoots host (some base) entry.path } = true ↔
      ∃ writer ∈ policy.entries, writer.access = .write ∧ writer.access > entry.access ∧
        fileSystemPathsShareTarget (materializeProjectRoots host (some base) writer.path)
          (materializeProjectRoots host (some base) entry.path) = true := by
  unfold hasSameTargetWriteOverride materializeProjectRootsWithCwd
  rw [hBase]
  simp only [List.any_map, List.any_eq_true, Function.comp_apply, Bool.and_eq_true, canWrite_iff,
    decide_eq_true_eq, and_assoc]

/-- What does not narrow once it is bound did not narrow before, or is overridden now. -/
theorem narrows_materialize_iff (hBase : cwdAbsolute host cwd = some base) :
    (policy.materializeProjectRootsWithCwd host cwd).narrows
        { entry with path := materializeProjectRoots host (some base) entry.path } = false ↔
      policy.narrows entry = false ∨ OverriddenAt policy host (some base) entry := by
  rw [narrows_eq_false_iff, override_materialize_iff hBase, not_glob_materialize_iff,
    narrows_eq_false_iff]
  constructor
  · rintro (hWrite | ⟨hGlob, ⟨writer, hMem, hWrite, hGt, hShare⟩ | ⟨hPath, hAccess⟩ | hPath |
      ⟨name, sub, hPath⟩⟩)
    · exact .inl (.inl hWrite)
    · have hRead : entry.access = .read := by
        rw [hWrite] at hGt
        revert hGt
        cases entry.access <;> decide
      exact .inr ⟨hRead, hGlob, writer, hMem, hWrite, hShare⟩
    · exact .inl (.inr ⟨hGlob, .inr (.inl ⟨eq_special_of_materialize hPath, hAccess⟩)⟩)
    · exact .inl (.inr ⟨hGlob, .inr (.inr (.inl (eq_special_of_materialize hPath)))⟩)
    · exact .inl (.inr ⟨hGlob, .inr (.inr (.inr ⟨name, sub, eq_special_of_materialize hPath⟩))⟩)
  · rintro ((hWrite | ⟨hGlob, hOverride | ⟨hPath, hAccess⟩ | hPath | ⟨name, sub, hPath⟩⟩) |
      ⟨hRead, hGlob, writer, hMem, hWrite, hShare⟩)
    · exact .inl hWrite
    · obtain ⟨writer, hMem, hWriter⟩ := List.any_eq_true.mp hOverride
      simp only [Bool.and_eq_true, canWrite_iff, decide_eq_true_eq] at hWriter
      obtain ⟨⟨hWrite, hGt⟩, hShare⟩ := hWriter
      exact .inr ⟨hGlob, .inl ⟨writer, hMem, hWrite, hGt, shareTarget_materialize hShare⟩⟩
    · exact .inr ⟨hGlob, .inr (.inl ⟨by rw [hPath]; rfl, hAccess⟩)⟩
    · exact .inr ⟨hGlob, .inr (.inr (.inl (by rw [hPath]; rfl)))⟩
    · exact .inr ⟨hGlob, .inr (.inr (.inr ⟨name, sub, by rw [hPath]; rfl⟩))⟩
    · refine .inr ⟨hGlob, .inl ⟨writer, hMem, hWrite, ?_, hShare⟩⟩
      rw [hWrite, hRead]
      decide

theorem hasFullDiskWriteAccess_materialize_iff (hBase : cwdAbsolute host cwd = some base) :
    (policy.materializeProjectRootsWithCwd host cwd).hasFullDiskWriteAccess =
        policy.hasFullDiskWriteAccess ↔ ¬ Opened policy (OverriddenAt policy host (some base)) := by
  refine hasFullDiskWriteAccess_eq_iff rfl fun hKind => ?_
  have hKind' : (policy.materializeProjectRootsWithCwd host cwd).kind = .restricted := hKind
  have hEntries : (policy.materializeProjectRootsWithCwd host cwd).entries = policy.entries.map
      fun entry => { entry with path := materializeProjectRoots host (some base) entry.path } := by
    unfold materializeProjectRootsWithCwd
    rw [hBase]
  rw [hasFullDiskWriteAccess_iff hKind', hEntries, List.forall_mem_map]
  simp only [narrows_materialize_iff hBase, List.mem_map, exists_exists_and_eq_and]
  refine and_congr (exists_congr fun entry => and_congr_right fun _ => and_congr_left fun _ => ?_)
    (forall₂_congr fun entry _ => ?_)
  · exact ⟨eq_special_of_materialize, fun hPath => by rw [hPath]; rfl⟩
  · cases policy.narrows entry <;> simp

/-- **Materialising project roots** keeps what may be read. It keeps what may be written too, except
that metadata directories lose their protection when it makes every entry that narrows the policy
share its target with a write entry. -/
theorem materialize_same_answers_iff (host : Host) (policy : FileSystemSandboxPolicy)
    (hCwd : cwd.hasRoot = true) (hCwd' : cwd'.hasRoot = true) (hPath : path.hasRoot = true) :
    (policy.materializeProjectRootsWithCwd host cwd).canReadPathWithCwd host path cwd' =
        policy.canReadPathWithCwd host path cwd ∧
      ((policy.materializeProjectRootsWithCwd host cwd).canWritePathWithCwd host path cwd' =
          policy.canWritePathWithCwd host path cwd ↔
        ¬ (Opened policy (OverriddenAt policy host (cwdAbsolute host cwd)) ∧
          Protected policy host path cwd)) := by
  obtain ⟨base, hBase⟩ := cwdAbsolute_of_hasRoot host hCwd
  obtain ⟨base', hBase'⟩ := cwdAbsolute_of_hasRoot host hCwd'
  obtain ⟨target, hTarget⟩ := exists_candidate_of_hasRoot host hPath
  have hSame : resolveCandidatePath host path cwd' = resolveCandidatePath host path cwd :=
    (hTarget cwd').trans (hTarget cwd).symm
  have hAccess : (policy.materializeProjectRootsWithCwd host cwd).resolveAccessWithCwd host path cwd' =
      policy.resolveAccessWithCwd host path cwd := by
    unfold resolveAccessWithCwd
    rw [hSame, resolvedEntries_materialize hBase hBase']
    rfl
  have hDenied : (policy.materializeProjectRootsWithCwd host cwd).isMetadataWriteDenied host path
      cwd' = policy.isMetadataWriteDenied host path cwd := by
    unfold isMetadataWriteDenied metadataChildOfWritableRoot hasExplicitWriteEntryForMetadataPath
    rw [hSame, resolvedEntries_materialize hBase hBase']
    rfl
  refine ⟨congrArg FileSystemAccessMode.canRead hAccess, ?_⟩
  rw [canWritePath_eq_iff hAccess hDenied, hasFullDiskWriteAccess_materialize_iff hBase, hBase,
    not_and']

/-- The project root is read-only here, and opened by its literal path. -/
def readOnlyProject : FileSystemSandboxPolicy :=
  .restricted [⟨.special .root, .write⟩, ⟨.special (.projectRoots none), .read⟩,
    ⟨.path ⟨["w"]⟩, .write⟩]

/-- Bound to another directory, the policy answers the same. -/
theorem other_project_same_answers :
    (readOnlyProject.materializeProjectRootsWithCwd Host.bare
        (toPathBuf ⟨["v"]⟩)).canWritePathWithCwd Host.bare
          (toPathBuf ⟨["w", ".git"]⟩) (toPathBuf ⟨["x"]⟩) =
      readOnlyProject.canWritePathWithCwd Host.bare (toPathBuf ⟨["w", ".git"]⟩)
        (toPathBuf ⟨["v"]⟩) :=
  (materialize_same_answers_iff Host.bare readOnlyProject rfl rfl rfl).2.mpr
    fun ⟨hOpens, _⟩ => by
      -- bound to `/v`, the read entry has no write entry beside it
      have hNone : ∀ writer ∈ readOnlyProject.entries, writer.access = .write →
          fileSystemPathsShareTarget (materializeProjectRoots Host.bare (some ⟨["v"]⟩) writer.path)
            (.path ⟨["v"]⟩) = false := by decide
      obtain ⟨-, -, writer, hMem, hWrite, hShare⟩ := hOpens.overridden
        ⟨.special (.projectRoots none), .read⟩ (by decide) (by decide)
      exact Bool.false_ne_true ((hNone writer hMem hWrite).symm.trans hShare)

/-- Bound to `/w`, it lets the metadata there be written. -/
theorem materialize_opens_git :
    readOnlyProject.canWritePathWithCwd Host.bare (toPathBuf ⟨["w", ".git"]⟩)
        (toPathBuf ⟨["w"]⟩) = false ∧
      (readOnlyProject.materializeProjectRootsWithCwd Host.bare
          (toPathBuf ⟨["w"]⟩)).canWritePathWithCwd Host.bare
            (toPathBuf ⟨["w", ".git"]⟩) (toPathBuf ⟨["x"]⟩) =
        true := by
  decide

end Codex
