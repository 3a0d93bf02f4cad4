import Codex.Permissions.Preapproval
import Codex.Permissions.FullAccess

/-!
# Codex — additional permissions for one call

`effective_file_system_sandbox_policy` puts the entries of a permission profile behind those of the
policy, as they are. The nearest entry decides, so an entry that grants may also take away: a read
entry below a writable directory makes that place read-only. Nothing but a read entry does so, and
reading itself never suffers from entries that do not deny.

Result: `additional_permissions_iff`.
-/

namespace Codex

open Nearest AbsolutePathBuf

variable {host : Host} {cwd path : PathBuf} {policy : FileSystemSandboxPolicy}
variable {profile : Option AdditionalPermissionProfile} {p : AbsolutePathBuf}

/-- A read entry of the profile lies above the path and below every write entry there is. -/
def ReadOnlyByProfile (policy : FileSystemSandboxPolicy)
    (profile : Option AdditionalPermissionProfile) (host : Host) (path cwd : PathBuf) : Prop :=
  ∃ target, resolveCandidatePath host path cwd = some target ∧
    ∃ entry ∈ rules host cwd (profileEntries profile), entry.access = .read ∧
      entry.path.components <+: target.components ∧
      ∀ other ∈ rules host cwd policy.entries ++ rules host cwd (profileEntries profile),
        other.access = .write → other.path.components <+: target.components →
          other.path.components.length < entry.path.components.length

/-- What decides under the effective policy, where something decided before: the access stays, or an
entry of the profile decides. -/
theorem effective_winner (hKind : policy.kind = .restricted) {w : ResolvedFileSystemEntry}
    (hWins : Wins (policy.resolvedEntriesWithCwd host cwd) p.components w) :
    ∃ w', Wins ((effectiveFileSystemSandboxPolicy policy profile).resolvedEntriesWithCwd host cwd)
        p.components w' ∧
      (w'.access = w.access ∨ w' ∈ rules host cwd (profileEntries profile)) := by
  have hSub : policy.resolvedEntriesWithCwd host cwd ⊆
      (effectiveFileSystemSandboxPolicy policy profile).resolvedEntriesWithCwd host cwd :=
    fun _ hMem => (mem_effective_rules hKind profile).mpr (.inl hMem)
  obtain ⟨w', hWins'⟩ := exists_wins (hSub hWins.1) hWins.2.1
  refine ⟨w', hWins', ?_⟩
  rcases hWins.of_superset hSub hWins' with hSame | hNew
  · exact .inl hSame
  · exact .inr (((mem_effective_rules hKind profile).mp hWins'.1).resolve_left hNew)

section Granted

variable (hKind : policy.kind = .restricted)
  (hGrants : ∀ entry ∈ profileEntries profile, entry.access ≠ .deny)

include hKind hGrants

theorem canWrite_effective_iff
    (h : (policy.resolveAccessWithCwd host p.toPathBuf cwd).canWrite = true) :
    ((effectiveFileSystemSandboxPolicy policy profile).resolveAccessWithCwd host p.toPathBuf
      cwd).canWrite = true ↔ ¬ ReadOnlyByProfile policy profile host p.toPathBuf cwd := by
  rw [canWrite_resolveAccess_iff (effective_kind hKind profile)]
  constructor
  · -- the deciding write entry is not above the read entry
    rintro ⟨w', hWins', hWrite⟩ ⟨target, hTarget, entry, hEntry, -, hCovers, hDeeper⟩
    rw [resolveCandidatePath_toPathBuf] at hTarget
    obtain rfl := Option.some.inj hTarget
    have hMem := List.mem_append.mpr ((mem_effective_rules hKind profile).mp hWins'.1)
    have hLt := hDeeper w' hMem hWrite hWins'.2.1
    have hAbove := hWins'.above ((mem_effective_rules hKind profile).mpr (.inr hEntry)) hCovers
    exact absurd hAbove.length_le (Nat.not_le.mpr hLt)
  · intro hNot
    obtain ⟨w, hWins, hw⟩ := (canWrite_resolveAccess_iff hKind).mp h
    obtain ⟨w', hWins', hFrom⟩ := effective_winner hKind hWins
    refine ⟨w', hWins', ?_⟩
    rcases hFrom with hSame | hNew
    · exact hSame.trans hw
    by_contra hNotWrite
    obtain ⟨entry, hEntry, -, hAccess⟩ := mem_rules.mp hNew
    have hRead : w'.access = .read :=
      eq_read_iff.mpr ⟨hNotWrite, hAccess ▸ hGrants entry hEntry⟩
    refine hNot ⟨p, resolveCandidatePath_toPathBuf p, w', hNew, hRead, hWins'.2.1, ?_⟩
    intro other hOther hWrite hCovers
    have hMem := (mem_effective_rules hKind profile).mpr (List.mem_append.mp hOther)
    rcases hWins'.2.2 other hMem hCovers with hLt | ⟨-, hLe⟩
    · exact hLt
    · have hLe' : other.access ≤ w'.access := hLe
      rw [hWrite, hRead] at hLe'
      exact absurd hLe' (by decide)

end Granted

/-- **Additional permissions**: what could be read still can. What could be written still can, unless
a read entry of the profile lies nearer to it than every write entry. -/
theorem additional_permissions_iff (host : Host) (policy : FileSystemSandboxPolicy)
    (profile : Option AdditionalPermissionProfile) (hKind : policy.kind = .restricted)
    (hGrants : ∀ entry ∈ profileEntries profile, entry.access ≠ .deny) (hPath : path.hasRoot = true) :
    ((policy.resolveAccessWithCwd host path cwd).canRead = true →
      ((effectiveFileSystemSandboxPolicy policy profile).resolveAccessWithCwd host path
        cwd).canRead = true) ∧
    ((policy.resolveAccessWithCwd host path cwd).canWrite = true →
      (((effectiveFileSystemSandboxPolicy policy profile).resolveAccessWithCwd host path
          cwd).canWrite = true ↔ ¬ ReadOnlyByProfile policy profile host path cwd)) := by
  obtain ⟨target, hTarget⟩ := exists_candidate_of_hasRoot host hPath
  have hOnly : ReadOnlyByProfile policy profile host path cwd ↔
      ReadOnlyByProfile policy profile host target.toPathBuf cwd := by
    unfold ReadOnlyByProfile
    rw [hTarget cwd, resolveCandidatePath_toPathBuf]
  rw [resolveAccess_of_candidate (hTarget cwd), resolveAccess_of_candidate (hTarget cwd), hOnly]
  refine ⟨fun hRead => ?_, canWrite_effective_iff hKind hGrants⟩
  obtain ⟨w, hWins, hw⟩ := (canRead_resolveAccess_iff hKind).mp hRead
  obtain ⟨w', hWins', hFrom⟩ := effective_winner hKind hWins
  refine (canRead_resolveAccess_iff (effective_kind hKind profile)).mpr ⟨w', hWins', ?_⟩
  rcases hFrom with hSame | hNew
  · rw [hSame]
    exact hw
  · obtain ⟨entry, hEntry, -, hAccess⟩ := mem_rules.mp hNew
    rw [← hAccess]
    exact hGrants entry hEntry

/-- A profile with one entry. -/
def oneEntryProfile (path : AbsolutePathBuf) (access : FileSystemAccessMode) :
    AdditionalPermissionProfile :=
  { network := none
    fileSystem := some { entries := [⟨.path path, access⟩], globScanMaxDepth := none } }

def workspaceOnly : FileSystemSandboxPolicy :=
  .restricted [⟨.special .root, .read⟩, ⟨.path ⟨["w"]⟩, .write⟩]

/-- Reading is granted beside the workspace, which stays writable. -/
theorem workspace_kept_writable :
    ((effectiveFileSystemSandboxPolicy workspaceOnly
        (some (oneEntryProfile ⟨["a"]⟩ .read))).resolveAccessWithCwd Host.bare
      (toPathBuf ⟨["w", "f"]⟩) (toPathBuf ⟨["w"]⟩)).canWrite =
        true := by
  have hAdded : rules Host.bare (toPathBuf ⟨["w"]⟩)
      (profileEntries (some (oneEntryProfile ⟨["a"]⟩ .read))) = [⟨⟨["a"]⟩, .read⟩] := by decide
  refine ((additional_permissions_iff Host.bare _ _ rfl (by decide) rfl).2 (by decide)).mpr ?_
  rintro ⟨target, hTarget, entry, hEntry, -, hCovers, -⟩
  cases hTarget
  rw [hAdded, List.mem_singleton] at hEntry
  rw [hEntry] at hCovers
  revert hCovers
  decide

/-- Reading is granted inside the workspace, which closes that place for writing. -/
theorem read_grant_closes_subdirectory :
    (workspaceOnly.resolveAccessWithCwd Host.bare (toPathBuf ⟨["w", "s", "f"]⟩)
        (toPathBuf ⟨["w"]⟩)).canWrite = true ∧
      ((effectiveFileSystemSandboxPolicy workspaceOnly
          (some (oneEntryProfile ⟨["w", "s"]⟩ .read))).resolveAccessWithCwd Host.bare
        (toPathBuf ⟨["w", "s", "f"]⟩)
        (toPathBuf ⟨["w"]⟩)).canWrite = false := by
  decide

end Codex
