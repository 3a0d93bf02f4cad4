import Codex.Permissions.Access

/-!
# Codex — policies that open the whole disk

`has_full_disk_write_access` and `has_full_disk_read_access` look at the entries as they are
written: the filesystem root is open, and no entry narrows it, where a read entry beside a write
entry for the same target does not count. Callers then skip the roots altogether. The lookup
resolves every entry and takes the nearest one.

The two agree where `/tmp` is a directory, which is what lets `:slash_tmp` and the literal path stand
for each other (`resolveEntryPath_of_shareTarget`). Result: `full_disk_flags_sound`.
-/

namespace Codex

open Nearest FileSystemSandboxPolicy AbsolutePathBuf List

variable {cwd path : PathBuf} {policy : FileSystemSandboxPolicy} {p : AbsolutePathBuf}

/-! ## Policies that restrict nothing -/

variable {host : Host} {base : AbsolutePathBuf} {entry : FileSystemSandboxEntry}

theorem resolveAccess_of_not_restricted (hKind : policy.kind ≠ .restricted) :
    policy.resolveAccessWithCwd host path cwd = .write := by
  unfold resolveAccessWithCwd
  cases h : policy.kind with
  | restricted => exact absurd h hKind
  | unrestricted | externalSandbox => rfl

theorem hasFullDiskWriteAccess_of_not_restricted (hKind : policy.kind ≠ .restricted) :
    policy.hasFullDiskWriteAccess = true := by
  unfold hasFullDiskWriteAccess
  cases h : policy.kind with
  | restricted => exact absurd h hKind
  | unrestricted | externalSandbox => rfl

/-! ## Entries for the whole disk -/

theorem cwdAbsolute_of_hasRoot (host : Host) (hCwd : cwd.hasRoot = true) :
    ∃ root, cwdAbsolute host cwd = some root := by
  have hExpand : cwd.maybeExpandHomeDirectory host.toPathEnv = cwd := by
    unfold PathBuf.maybeExpandHomeDirectory
    rw [hCwd]
    split
    · rename_i h _
      cases h
    · rfl
  unfold cwdAbsolute fromAbsolutePath
  rw [hExpand, if_pos hCwd]
  exact ⟨_, rfl⟩

/-- The entry for the whole file system sits at the root. -/
theorem mem_resolvedEntries_root (hBase : cwdAbsolute host cwd = some base)
    (hMem : entry ∈ policy.entries) (hPath : entry.path = .special .root) :
    ⟨AbsolutePathBuf.root, entry.access⟩ ∈ policy.resolvedEntriesWithCwd host cwd := by
  refine mem_resolvedEntries.mpr ⟨entry, hMem, ?_, rfl⟩
  rw [hPath, hBase]
  rfl

theorem eq_root_of_parent_isNone {q : AbsolutePathBuf} (h : q.parent.isNone = true) :
    q = AbsolutePathBuf.root := by
  unfold parent at h
  split at h
  · rename_i hNil
    exact AbsolutePathBuf.ext hNil
  · cases h

theorem eq_of_specialPathsShareTarget {left right : FileSystemSpecialPath}
    (h : specialPathsShareTarget left right = true) : left = right := by
  unfold specialPathsShareTarget at h
  split at h <;> simp_all

/-- Special and literal spellings that name one target resolve to one path. This is
where `/tmp` has to be a directory. -/
theorem resolveEntryPath_of_shareTarget {root q : AbsolutePathBuf} {left right : FileSystemPath}
    (hTmp : host.isDir slashTmpPath = true) (hShare : fileSystemPathsShareTarget left right = true)
    (hRight : resolveEntryPath host (some root) right = some q) :
    resolveEntryPath host (some root) left = some q := by
  have hSpecial : ∀ value path, specialPathMatchesAbsolutePath value path = true →
      resolveEntryPath host (some root) (.special value) = some path := by
    intro value path hMatch
    cases value with
    | root => rw [eq_root_of_parent_isNone hMatch]; rfl
    | slashTmp =>
      rw [beq_iff_eq.mp hMatch]
      show (if host.isDir slashTmpPath then some slashTmpPath else none) = some slashTmpPath
      rw [if_pos hTmp]
    | minimal | projectRoots _ | tmpdir | unknown _ _ => cases hMatch
  cases left with
  | path l =>
    cases right with
    | path r =>
      rw [beq_iff_eq.mp hShare]
      exact hRight
    | special value =>
      rw [hSpecial value l hShare] at hRight
      exact hRight
    | globPattern _ => cases hShare
  | special l =>
    cases right with
    | path r =>
      rw [hSpecial l r hShare]
      exact hRight
    | special r =>
      rw [eq_of_specialPathsShareTarget hShare]
      exact hRight
    | globPattern _ => cases hShare
  | globPattern _ =>
    cases right with
    | globPattern _ => cases hRight
    | path _ | special _ => cases hShare

/-- What `has_write_narrowing_entries` asks of one entry. -/
def FileSystemSandboxPolicy.narrows (policy : FileSystemSandboxPolicy)
    (entry : FileSystemSandboxEntry) : Bool :=
  if entry.access.canWrite then false
  else
    match entry.path with
    | .path _ => !policy.hasSameTargetWriteOverride entry
    | .globPattern _ => true
    | .special .root => entry.access == .deny
    | .special .minimal | .special (.unknown _ _) => false
    | .special _ => !policy.hasSameTargetWriteOverride entry

theorem hasFullDiskWriteAccess_iff (hKind : policy.kind = .restricted) :
    policy.hasFullDiskWriteAccess = true ↔
      (∃ entry ∈ policy.entries, entry.path = .special .root ∧ entry.access = .write) ∧
        ∀ entry ∈ policy.entries, policy.narrows entry = false := by
  have hNarrow : policy.hasWriteNarrowingEntries =
      (policy.kind == .restricted && policy.entries.any policy.narrows) := rfl
  unfold hasFullDiskWriteAccess hasRootAccess
  rw [hNarrow, hKind]
  simp

/-- Denial outranks writing, so it is never overridden. -/
theorem ne_deny_of_override (h : policy.hasSameTargetWriteOverride entry = true) :
    entry.access ≠ .deny := by
  intro hDeny
  obtain ⟨candidate, -, hBetter⟩ := any_eq_true.mp h
  simp only [Bool.and_eq_true, canWrite_iff] at hBetter
  obtain ⟨⟨hWrite, hGt⟩, -⟩ := hBetter
  rw [hWrite, hDeny] at hGt
  exact absurd hGt (by decide)

/-- All the ways not to narrow a policy. -/
theorem narrows_eq_false_iff : policy.narrows entry = false ↔
      entry.access.canWrite = true ∨
        (∀ pattern, entry.path ≠ .globPattern pattern) ∧
          (policy.hasSameTargetWriteOverride entry = true ∨
            (entry.path = .special .root ∧ entry.access ≠ .deny) ∨
            entry.path = .special .minimal ∨ ∃ name sub, entry.path = .special (.unknown name sub)) := by
  have hOverride : policy.hasSameTargetWriteOverride entry = true → entry.access ≠ .deny :=
    ne_deny_of_override
  unfold narrows
  cases entry.access.canWrite with
  | true => simp
  | false =>
    cases hPath : entry.path with
    | path _ | globPattern _ => simp
    | special value =>
      cases value with
      | root => simpa using hOverride
      | minimal | unknown _ _ | projectRoots _ | tmpdir | slashTmp => simp

/-- An entry that denies and does not narrow has no place. -/
theorem resolveEntryPath_of_deny {base : Option AbsolutePathBuf}
    (hNarrow : policy.narrows entry = false)
    (hDeny : entry.access = .deny) : resolveEntryPath host base entry.path = none := by
  rcases narrows_eq_false_iff.mp hNarrow with
    hWrite | ⟨-, hOverride | ⟨-, hNot⟩ | hPath | ⟨name, sub, hPath⟩⟩
  · rw [hDeny] at hWrite
    cases hWrite
  · exact absurd hDeny (ne_deny_of_override hOverride)
  · exact absurd hDeny hNot
  · rw [hPath]
    rfl
  · rw [hPath]
    rfl

/-! ## What the flags say of a path -/

section

variable (hFull : policy.hasFullDiskWriteAccess = true)
  (hTmp : host.isDir slashTmpPath = true)
  (hCwd : cwd.hasRoot = true)
include hFull hTmp hCwd

theorem resolveAccess_of_fullWrite :
    policy.resolveAccessWithCwd host p.toPathBuf cwd = .write := by
  by_cases hKind : policy.kind = .restricted
  swap
  · exact resolveAccess_of_not_restricted hKind
  refine (resolveAccess_eq_iff hKind (by decide)).mpr ?_
  obtain ⟨⟨rootEntry, hRootMem, hRootPath, hRootWrite⟩, hNarrow⟩ :=
    (hasFullDiskWriteAccess_iff hKind).mp hFull
  obtain ⟨root, hRoot⟩ := cwdAbsolute_of_hasRoot host hCwd
  have hAtRoot := mem_resolvedEntries_root hRoot hRootMem hRootPath
  rw [hRootWrite] at hAtRoot
  obtain ⟨w, hWins⟩ := exists_wins (p := p.components) hAtRoot nil_prefix
  refine ⟨w, hWins, ?_⟩
  obtain ⟨entry, hEntry, hResolve, hAccess⟩ := mem_resolvedEntries.mp hWins.1
  have hHere := hNarrow entry hEntry
  by_contra hNonWrite
  have hNotDeny : w.access ≠ .deny := by
    intro hDeny
    rw [resolveEntryPath_of_deny hHere (hAccess.trans hDeny)] at hResolve
    cases hResolve
  rw [hRoot] at hResolve
  -- a write entry beside the deciding one would decide in its place
  have hBeside : ⟨w.path, .write⟩ ∉ policy.resolvedEntriesWithCwd host cwd := by
    intro hMem
    have hLe : FileSystemAccessMode.write ≤ w.access :=
      (hWins.beside hMem hWins.2.1 (prefix_refl _)).2
    exact hNonWrite (le_antisymm (le_write_iff.mpr hNotDeny) hLe)
  rcases narrows_eq_false_iff.mp hHere with
    hWrite | ⟨-, hOverride | ⟨hPath, -⟩ | hPath | ⟨name, sub, hPath⟩⟩
  · rw [canWrite_iff, hAccess] at hWrite
    exact hNonWrite hWrite
  · obtain ⟨candidate, hCandidate, hBetter⟩ := any_eq_true.mp hOverride
    simp only [Bool.and_eq_true, canWrite_iff] at hBetter
    obtain ⟨⟨hWrite, -⟩, hShare⟩ := hBetter
    refine hBeside (mem_resolvedEntries.mpr ⟨candidate, hCandidate, ?_, hWrite⟩)
    rw [hRoot]
    exact resolveEntryPath_of_shareTarget hTmp hShare hResolve
  · rw [hPath] at hResolve
    have hAt : w.path = AbsolutePathBuf.root := (Option.some.inj hResolve).symm
    exact hBeside (hAt ▸ hAtRoot)
  · rw [hPath] at hResolve
    cases hResolve
  · rw [hPath] at hResolve
    cases hResolve

theorem access_of_fullWrite :
    policy.canReadPathWithCwd host p.toPathBuf cwd = true ∧
      policy.canWritePathWithCwd host p.toPathBuf cwd = true := by
  unfold canReadPathWithCwd canWritePathWithCwd
  rw [resolveAccess_of_fullWrite hFull hTmp hCwd, hFull]
  exact ⟨rfl, rfl⟩

end

/-- Under the flag for reading nothing is denied, so that every entry with a place opens what lies
below it. -/
theorem canRead_of_fullRead_of_covered (hFull : policy.hasFullDiskReadAccess = true)
    (hKind : policy.kind = .restricted) {covering : ResolvedFileSystemEntry}
    (hMem : covering ∈ policy.resolvedEntriesWithCwd host cwd)
    (hCovers : covering.path.components <+: p.components) :
    policy.canReadPathWithCwd host p.toPathBuf cwd = true := by
  unfold hasFullDiskReadAccess at hFull
  simp only [hasRootAccess, hasDeniedReadRestrictions, hKind, beq_self_eq_true, Bool.true_and,
    Bool.and_eq_true, Bool.not_eq_true', any_eq_false, beq_iff_eq] at hFull
  obtain ⟨w, hWins⟩ := exists_wins hMem hCovers
  obtain ⟨entry, hEntry, -, hAccess⟩ := mem_resolvedEntries.mp hWins.1
  exact (canRead_resolveAccess_iff hKind).mpr ⟨w, hWins, hAccess ▸ hFull.2 entry hEntry⟩

theorem canRead_of_fullRead (hFull : policy.hasFullDiskReadAccess = true)
    (hCwd : cwd.hasRoot = true) : policy.canReadPathWithCwd host p.toPathBuf cwd = true := by
  obtain ⟨base, hBase⟩ := cwdAbsolute_of_hasRoot host hCwd
  by_cases hKind : policy.kind = .restricted
  · have hRoot := hFull
    unfold hasFullDiskReadAccess at hRoot
    simp only [hasRootAccess, hKind, beq_self_eq_true, Bool.true_and, Bool.and_eq_true, any_eq_true,
      beq_iff_eq] at hRoot
    obtain ⟨⟨rootEntry, hRootMem, hRootPath, -⟩, -⟩ := hRoot
    exact canRead_of_fullRead_of_covered hFull hKind
      (mem_resolvedEntries_root hBase hRootMem hRootPath) nil_prefix
  · unfold canReadPathWithCwd
    rw [resolveAccess_of_not_restricted hKind]
    rfl

/-- A path is asked about through the absolute path it stands for. -/
theorem resolveAccess_of_candidate {target : AbsolutePathBuf}
    (hTarget : resolveCandidatePath host path cwd = some target) :
    policy.resolveAccessWithCwd host path cwd =
      policy.resolveAccessWithCwd host target.toPathBuf cwd := by
  unfold resolveAccessWithCwd
  rw [hTarget, resolveCandidatePath_toPathBuf]

/-- An absolute path stands for the same place under every directory. -/
theorem exists_candidate_of_hasRoot (host : Host) (hPath : path.hasRoot = true) :
    ∃ target, ∀ cwd, resolveCandidatePath host path cwd = some target := by
  obtain ⟨target, hTarget⟩ := cwdAbsolute_of_hasRoot host hPath
  refine ⟨target, fun cwd => ?_⟩
  unfold resolveCandidatePath
  rw [if_pos hPath]
  exact hTarget

/-- **The full-disk flags are sound**: under either of them no entry takes away what it promises, at
any absolute path. -/
theorem full_disk_flags_sound (host : Host) (hTmp : host.isDir slashTmpPath = true)
    (policy : FileSystemSandboxPolicy) (hCwd : cwd.hasRoot = true) (hPath : path.hasRoot = true) :
    (policy.hasFullDiskWriteAccess = true →
        policy.resolveAccessWithCwd host path cwd = .write) ∧
      (policy.hasFullDiskReadAccess = true → policy.canReadPathWithCwd host path cwd = true) := by
  obtain ⟨target, hTarget⟩ := exists_candidate_of_hasRoot host hPath
  unfold canReadPathWithCwd
  rw [resolveAccess_of_candidate (hTarget cwd)]
  exact ⟨fun hFull => resolveAccess_of_fullWrite hFull hTmp hCwd,
    fun hFull => canRead_of_fullRead hFull hCwd⟩

/-- `/tmp` is narrowed by a literal entry and opened again by the special one. -/
theorem shadowed_tmp_stays_open :
    (FileSystemSandboxPolicy.restricted
        [⟨.special .root, .write⟩, ⟨.path slashTmpPath, .read⟩,
          ⟨.special .slashTmp, .write⟩]).resolveAccessWithCwd
      { Host.bare with isDir := fun p => p == slashTmpPath }
      (toPathBuf ⟨["tmp", "a"]⟩) (toPathBuf ⟨["work"]⟩) = .write :=
  (full_disk_flags_sound _ (by decide) _ rfl rfl).1 (by decide)

/-! ## Losing protection -/

theorem canWritePath_eq : policy.canWritePathWithCwd host path cwd =
      ((policy.resolveAccessWithCwd host path cwd).canWrite &&
        (policy.hasFullDiskWriteAccess || !policy.isMetadataWriteDenied host path cwd)) := by
  unfold canWritePathWithCwd
  cases (policy.resolveAccessWithCwd host path cwd).canWrite <;>
    cases policy.hasFullDiskWriteAccess <;> rfl

/-- The path lies in a metadata directory below a writable root, which only a policy that is writable
as a whole opens. -/
structure Protected (policy : FileSystemSandboxPolicy) (host : Host) (path cwd : PathBuf) : Prop where
  writable : (policy.resolveAccessWithCwd host path cwd).canWrite = true
  denied : policy.isMetadataWriteDenied host path cwd = true

/-- Two policies that resolve a path alike differ on writing there only if it is protected and one of
them counts as writable as a whole. -/
theorem canWritePath_eq_iff {before after : FileSystemSandboxPolicy} {cwd' : PathBuf}
    (hAccess : after.resolveAccessWithCwd host path cwd' = before.resolveAccessWithCwd host path cwd)
    (hDenied : after.isMetadataWriteDenied host path cwd' =
      before.isMetadataWriteDenied host path cwd) :
    after.canWritePathWithCwd host path cwd' = before.canWritePathWithCwd host path cwd ↔
      (Protected before host path cwd →
        after.hasFullDiskWriteAccess = before.hasFullDiskWriteAccess) := by
  rw [canWritePath_eq, canWritePath_eq, hAccess, hDenied]
  constructor
  · intro hSame hProtected
    rw [hProtected.writable, hProtected.denied] at hSame
    simpa using hSame
  · intro hFlags
    cases hWritable : (before.resolveAccessWithCwd host path cwd).canWrite with
    | false => rfl
    | true =>
      cases hMeta : before.isMetadataWriteDenied host path cwd with
      | false => simp
      | true => rw [hFlags ⟨hWritable, hMeta⟩]

/-- An entry that narrows one policy and not another is overridden there. -/
theorem narrows_eq_false_of_narrows {policy' : FileSystemSandboxPolicy}
    (h : policy.narrows entry = true) : policy'.narrows entry = false ↔
      (∀ pattern, entry.path ≠ .globPattern pattern) ∧
        policy'.hasSameTargetWriteOverride entry = true := by
  have hNot : ¬ policy.narrows entry = false := by rw [h]; decide
  rw [narrows_eq_false_iff] at hNot ⊢
  push Not at hNot
  obtain ⟨hClosed, hHow⟩ := hNot
  constructor
  · rintro (hWrite | ⟨hNotGlob, hOverride | hElse⟩)
    · exact absurd hWrite hClosed
    · exact ⟨hNotGlob, hOverride⟩
    · obtain ⟨-, hRoot, hMinimal, hUnknown⟩ := hHow hNotGlob
      rcases hElse with ⟨hPath, hNotDeny⟩ | hPath | ⟨name, sub, hPath⟩
      · exact absurd (hRoot hPath) hNotDeny
      · exact absurd hPath hMinimal
      · exact absurd hPath (hUnknown name sub)
  · exact fun h => .inr ⟨h.1, .inl h.2⟩

/-- The disk is writable but for some entries that narrow it, and all of these are overridden. -/
structure Opened (policy : FileSystemSandboxPolicy) (overridden : FileSystemSandboxEntry → Prop) :
    Prop where
  restricted : policy.kind = .restricted
  root : ∃ entry ∈ policy.entries, entry.path = .special .root ∧ entry.access = .write
  narrowed : ∃ entry ∈ policy.entries, policy.narrows entry = true
  overridden : ∀ entry ∈ policy.entries, policy.narrows entry = true → overridden entry

/-- The flag for writing stays as it is, unless all that narrows the policy is overridden. -/
theorem hasFullDiskWriteAccess_eq_iff {policy' : FileSystemSandboxPolicy}
    {overridden : FileSystemSandboxEntry → Prop} (hSame : policy'.kind = policy.kind)
    (hFull : policy.kind = .restricted → (policy'.hasFullDiskWriteAccess = true ↔
      (∃ entry ∈ policy.entries, entry.path = .special .root ∧ entry.access = .write) ∧
        ∀ entry ∈ policy.entries, policy.narrows entry = true → overridden entry)) :
    policy'.hasFullDiskWriteAccess = policy.hasFullDiskWriteAccess ↔ ¬ Opened policy overridden := by
  by_cases hKind : policy.kind = .restricted
  swap
  · rw [hasFullDiskWriteAccess_of_not_restricted hKind,
      hasFullDiskWriteAccess_of_not_restricted (hSame ▸ hKind)]
    exact iff_of_true rfl fun h => hKind h.restricted
  rw [Bool.eq_iff_iff, hFull hKind, hasFullDiskWriteAccess_iff hKind]
  constructor
  · rintro hFlags ⟨-, hRoot, ⟨entry, hMem, hNarrows⟩, hOverridden⟩
    have hNot := (hFlags.mp ⟨hRoot, hOverridden⟩).2 entry hMem
    rw [hNarrows] at hNot
    cases hNot
  · intro hClosed
    refine and_congr_right fun hRoot => ⟨fun hAll entry hMem => ?_, fun hNone entry hMem hNarrows => ?_⟩
    · rw [← Bool.not_eq_true]
      exact fun hNarrows => hClosed ⟨hKind, hRoot, ⟨entry, hMem, hNarrows⟩, hAll⟩
    · rw [hNone entry hMem] at hNarrows
      cases hNarrows

end Codex
