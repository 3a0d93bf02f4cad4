import Codex.Permissions.Admission
import Codex.Permissions.FullAccess
import Codex.Permissions.Legacy

/-!
# Codex — signatures decide access

On a machine without symlinks and `.git` pointer files, where `/tmp` is a directory,
the semantic signature of a policy determines what the policy lets be read and
written:

* full write access opens everything, full read access everything for reading
  (`Codex.Permissions.FullAccess`);
* otherwise a path is readable when the nearest of the readable and unreadable roots
  above it is readable (`canRead_iff_reads`), and writable when the nearest writable
  root above it carves it out neither by a subpath nor by a metadata name
  (`canWrite_iff_grants`). A default carve-out of a metadata directory is no evidence
  either way; the protected names decide there.

Result: `semantic_equivalence_sound`, with its consequence for the legacy projection.
-/

namespace Codex

open Nearest List FileSystemSandboxPolicy AbsolutePathBuf

variable {machine : Machine} {cwd : PathBuf} {policy : FileSystemSandboxPolicy}
variable {p : AbsolutePathBuf} {host : Host}

/-- The nearest of the given roots above `p` is a readable one. -/
def Reads (readable unreadable : List AbsolutePathBuf) (p : AbsolutePathBuf) : Prop :=
  ∃ r ∈ readable, r.components <+: p.components ∧
    ∀ u ∈ unreadable, u.components <+: p.components → u.components.length < r.components.length

/-- The nearest of the given writable roots above `p` keeps it writable. -/
def Grants (roots : List WritableRoot) (p : AbsolutePathBuf) : Prop :=
  ∃ w ∈ roots, w.root.components <+: p.components ∧
    (∀ w' ∈ roots, w'.root.components <+: p.components →
      w'.root.components.length ≤ w.root.components.length) ∧
    (∀ s ∈ w.readOnlySubpaths, s.components <+: p.components →
      ∃ name ∈ protectedMetadataPathNames, s = w.root.child name) ∧
    ∀ name ∈ w.protectedMetadataNames, ¬(w.root.child name).components <+: p.components

/-! ## Reading through roots -/

section

variable (hHost : host.NoSymlinks)
  (hKind : policy.kind = .restricted)
  (hFull : policy.hasFullDiskReadAccess = false)
include hHost hKind hFull

/-- The readable roots are the nodes with entries, none of which denies. -/
theorem mem_getReadableRoots {r : AbsolutePathBuf} : r ∈ policy.getReadableRootsWithCwd host cwd ↔
      EntryAt (policy.resolvedEntriesWithCwd host cwd) r ∧
        ⟨r, .deny⟩ ∉ policy.resolvedEntriesWithCwd host cwd := by
  unfold getReadableRootsWithCwd dedupEffectivePaths canReadPathWithCwd
  rw [hFull, if_neg Bool.false_ne_true]
  simp only [map_normalizeEffective hHost, mem_foldl_pushUnique, not_mem_nil, false_or, mem_map,
    mem_filter, Bool.and_eq_true, canRead_resolveAccess_iff hKind]
  constructor
  · rintro ⟨e, ⟨hIn, -, w, hWins, hAccess⟩, rfl⟩
    refine ⟨⟨_, hIn⟩, fun hDeny => hAccess ?_⟩
    exact deny_of_wins hWins hDeny rfl hWins.2.1 (prefix_refl _)
  rintro ⟨⟨access, hIn⟩, hNoDeny⟩
  have hReadable : ∀ e ∈ policy.resolvedEntriesWithCwd host cwd, e.path = r →
      e.access ≠ .deny := by
    intro e he hPath hDeny
    exact hNoDeny (hPath ▸ hDeny ▸ he)
  obtain ⟨w, hWins⟩ := exists_wins (p := r.components) hIn (prefix_refl _)
  have hPath := (path_eq_of_wins hIn hWins).1
  exact ⟨_, ⟨hIn, canRead_iff.mpr (hReadable _ hIn rfl), w, hWins, hReadable w hWins.1 hPath⟩, rfl⟩

theorem canRead_iff_reads (hCwd : cwd.hasRoot = true) :
    policy.canReadPathWithCwd host p.toPathBuf cwd = true ↔
      Reads (policy.getReadableRootsWithCwd host cwd) (policy.getUnreadableRootsWithCwd host cwd)
        p := by
  unfold canReadPathWithCwd Reads
  rw [canRead_resolveAccess_iff hKind]
  simp only [mem_getReadableRoots hHost hKind hFull, mem_getUnreadableRoots hHost hKind]
  constructor
  · rintro ⟨w, hWins, hAccess⟩
    have hNoDeny : ⟨w.path, .deny⟩ ∉ policy.resolvedEntriesWithCwd host cwd :=
      fun hDeny => hAccess (deny_of_wins hWins hDeny rfl (prefix_refl _) hWins.2.1)
    refine ⟨w.path, ⟨⟨_, hWins.1⟩, hNoDeny⟩, hWins.2.1, fun u hu hPre => ?_⟩
    rcases hWins.2.2 _ hu.2 hPre with hLt | ⟨hNode, -⟩
    · exact hLt
    · have hEq : u = w.path := AbsolutePathBuf.ext hNode
      exact absurd (hEq ▸ hu.2) hNoDeny
  · rintro ⟨r, ⟨⟨access, hIn⟩, hNoDeny⟩, hPre, hNearest⟩
    obtain ⟨w, hWins⟩ := exists_wins (p := p.components) hIn hPre
    refine ⟨w, hWins, fun hDeny => ?_⟩
    have hLe := length_le_of_wins hWins ⟨_, hIn⟩ hPre
    have hMem : ⟨w.path, .deny⟩ ∈ policy.resolvedEntriesWithCwd host cwd := hDeny ▸ hWins.1
    by_cases hAtRoot : w.path = root
    · -- a denied file system root is not listed, but then `r` is the root as well
      have hLen : r.components = [] := by
        rw [hAtRoot] at hLe
        exact length_eq_zero_iff.mp (Nat.le_zero.mp hLe)
      have hEq : r = w.path := by
        rw [hAtRoot]
        exact AbsolutePathBuf.ext hLen
      exact hNoDeny (hEq ▸ hMem)
    · obtain ⟨root, hRoot⟩ := cwdAbsolute_of_hasRoot host hCwd
      have hLt := hNearest w.path ⟨by simpa [hRoot, eq_comm] using hAtRoot, hMem⟩ hWins.2.1
      omega

end

/-! ## Writing through roots -/

theorem canWrite_iff_grants (hMachine : machine.Plain) (hKind : policy.kind = .restricted)
    (hFull : policy.hasFullDiskWriteAccess = false) :
    policy.canWritePathWithCwd machine.toHost p.toPathBuf cwd = true ↔
      Grants (policy.getWritableRootsWithCwd machine cwd) p := by
  rw [canWritePath_iff hKind hFull]
  constructor
  · rintro ⟨w, hWins, hWrite, hFree⟩
    have hOpen := openAt_of_wins hWins hWrite
    refine ⟨_, (mem_getWritableRoots hMachine hKind hFull).mpr ⟨w.path, hOpen, rfl⟩, hWins.2.1,
      ?_, fun s hs hPre => ?_, fun name hn hChild => ?_⟩
    · intro given hGiven hPre
      obtain ⟨root, hRoot, rfl⟩ := (mem_getWritableRoots hMachine hKind hFull).mp hGiven
      exact length_le_of_wins hWins ⟨_, hRoot.1⟩ hPre
    · rcases (mem_readOnlySubpaths hMachine hKind hFull).mp hs with
        ⟨name, hMem, hEq, -⟩ | ⟨hClosed, hNe, hBelow⟩
      · exact ⟨name, hMem, hEq⟩
      · have hLe := length_le_of_wins hWins hClosed.1 hPre
        have hEq := hBelow.eq_of_length (le_antisymm hBelow.length_le hLe)
        exact absurd (AbsolutePathBuf.ext hEq.symm) hNe
    · obtain ⟨hMem, hCannot⟩ := (mem_protectedMetadataNames hMachine).mp hn
      refine hCannot ((canWritePath_child_iff hKind hFull hOpen hMem fun hClosed => ?_).mpr
        (Or.inr (hFree name hMem hChild)))
      have hLe := length_le_of_wins hWins hClosed.1 hChild
      rw [length_child] at hLe
      omega
  · rintro ⟨given, hGiven, hPre, hNearest, hSubpaths, hNames⟩
    obtain ⟨root, hOpen, rfl⟩ := (mem_getWritableRoots hMachine hKind hFull).mp hGiven
    obtain ⟨w, hWins⟩ := exists_wins (p := p.components) hOpen.1 hPre
    have hLe := length_le_of_wins hWins ⟨_, hOpen.1⟩ hPre
    have hBelow : root.components <+: w.path.components :=
      prefix_of_prefix_length_le hPre hWins.2.1 hLe
    have hWrite : w.access = .write := by
      by_contra hNonWrite
      have hClosed := closedAt_of_wins hWins hNonWrite
      have hNe : w.path ≠ root := fun hEq => hClosed.2 (hEq ▸ hOpen)
      obtain ⟨name, hMem, hEq⟩ := hSubpaths w.path
        ((mem_readOnlySubpaths hMachine hKind hFull).mpr (Or.inr ⟨hClosed, hNe, hBelow⟩)) hWins.2.1
      have hChild : w.path = root.child name := hEq
      refine hNames name ((mem_protectedMetadataNames hMachine).mpr ⟨hMem, ?_⟩) (hEq ▸ hWins.2.1)
      rw [← hChild, canWritePath_at_entry hKind hFull hClosed.1]
      exact hClosed.2
    have hPath : w.path = root := by
      have hGe := hNearest _ ((mem_getWritableRoots hMachine hKind hFull).mpr
        ⟨w.path, openAt_of_wins hWins hWrite, rfl⟩) hWins.2.1
      exact AbsolutePathBuf.ext (hBelow.eq_of_length (le_antisymm hLe hGe)).symm
    refine ⟨w, hWins, hWrite, fun name hMem hChild hLeads => ?_⟩
    rw [hPath] at hChild hLeads
    refine hNames name ((mem_protectedMetadataNames hMachine).mpr ⟨hMem, ?_⟩) hChild
    have hNoEntry : ¬EntryAt (policy.resolvedEntriesWithCwd machine.toHost cwd) (root.child name) := by
      intro hEntry
      have hDeep := length_le_of_wins hWins hEntry hChild
      rw [hPath, length_child] at hDeep
      omega
    rw [canWritePath_child_iff hKind hFull hOpen hMem fun hClosed => hNoEntry hClosed.1]
    exact fun h => h.elim hNoEntry fun hNot => hNot hLeads

/-! ## Equal signatures -/

theorem reads_sorted {readable unreadable : List AbsolutePathBuf} :
    Reads (sortedAbsolutePaths readable) (sortedAbsolutePaths unreadable) p ↔
      Reads readable unreadable p := by
  unfold Reads sortedAbsolutePaths
  simp

theorem grants_sorted {roots : List WritableRoot} :
    Grants (sortedWritableRoots roots) p ↔ Grants roots p := by
  unfold Grants sortedWritableRoots sortedAbsolutePaths
  simp [mem_foldl_pushUnique]

/-- Two policies read and write alike at `p`. -/
def SameAccess (machine : Machine) (cwd : PathBuf) (left right : FileSystemSandboxPolicy)
    (p : AbsolutePathBuf) : Prop :=
  left.canReadPathWithCwd machine.toHost p.toPathBuf cwd =
      right.canReadPathWithCwd machine.toHost p.toPathBuf cwd ∧
    left.canWritePathWithCwd machine.toHost p.toPathBuf cwd =
      right.canWritePathWithCwd machine.toHost p.toPathBuf cwd

theorem restricted_of_not_fullWrite (h : policy.hasFullDiskWriteAccess = false) :
    policy.kind = .restricted := by
  unfold hasFullDiskWriteAccess at h
  cases hKind : policy.kind with
  | restricted => rfl
  | unrestricted | externalSandbox =>
    rw [hKind] at h
    cases h

theorem sameAccess_of_signature_eq (hMachine : machine.Plain)
    (hTmp : machine.isDir slashTmpPath = true) (hCwd : cwd.hasRoot = true)
    {left right : FileSystemSandboxPolicy}
    (hSignature : left.semanticSignature machine cwd = right.semanticSignature machine cwd) :
    SameAccess machine cwd left right p := by
  have hWriteFlag : left.hasFullDiskWriteAccess = right.hasFullDiskWriteAccess :=
    congrArg FileSystemSemanticSignature.hasFullDiskWriteAccess hSignature
  have hReadFlag : left.hasFullDiskReadAccess = right.hasFullDiskReadAccess :=
    congrArg FileSystemSemanticSignature.hasFullDiskReadAccess hSignature
  have hReadable := congrArg FileSystemSemanticSignature.readableRoots hSignature
  have hUnreadable := congrArg FileSystemSemanticSignature.unreadableRoots hSignature
  have hWritable := congrArg FileSystemSemanticSignature.writableRoots hSignature
  simp only [semanticSignature] at hReadable hUnreadable hWritable
  cases hFullWrite : left.hasFullDiskWriteAccess with
  | true =>
    obtain ⟨hReadL, hWriteL⟩ := access_of_fullWrite (p := p) hFullWrite hTmp hCwd
    obtain ⟨hReadR, hWriteR⟩ :=
      access_of_fullWrite (p := p) (hWriteFlag.symm.trans hFullWrite) hTmp hCwd
    exact ⟨hReadL.trans hReadR.symm, hWriteL.trans hWriteR.symm⟩
  | false =>
    have hFullWriteR := hWriteFlag.symm.trans hFullWrite
    have hKindL := restricted_of_not_fullWrite hFullWrite
    have hKindR := restricted_of_not_fullWrite hFullWriteR
    refine ⟨?_, ?_⟩
    · cases hFullRead : left.hasFullDiskReadAccess with
      | true =>
        rw [canRead_of_fullRead hFullRead hCwd,
          canRead_of_fullRead (hReadFlag.symm.trans hFullRead) hCwd]
      | false =>
        have hFullReadR := hReadFlag.symm.trans hFullRead
        rw [Bool.eq_iff_iff, canRead_iff_reads hMachine.toNoSymlinks hKindL hFullRead hCwd,
          canRead_iff_reads hMachine.toNoSymlinks hKindR hFullReadR hCwd, ← reads_sorted,
          hReadable, hUnreadable, reads_sorted]
    · rw [Bool.eq_iff_iff, canWrite_iff_grants hMachine hKindL hFullWrite,
        canWrite_iff_grants hMachine hKindR hFullWriteR, ← grants_sorted, hWritable, grants_sorted]

/-- **Signatures are sound.** Semantically equivalent policies grant the same access at
every path, and a policy that needs no direct enforcement has a legacy projection that
grants exactly what the policy does. -/
theorem semantic_equivalence_sound (hMachine : machine.Plain)
    (hTmp : machine.isDir slashTmpPath = true) (hCwd : cwd.hasRoot = true) :
    (∀ left right : FileSystemSandboxPolicy,
      left.isSemanticallyEquivalentTo right machine cwd = true →
        ∀ p, SameAccess machine cwd left right p) ∧
    ∀ (policy : FileSystemSandboxPolicy) (network : NetworkSandboxPolicy),
      policy.needsDirectRuntimeEnforcement machine network cwd = false →
        ∃ legacy, policy.toLegacySandboxPolicy machine.toHost network cwd = .ok legacy ∧
          ∀ p, SameAccess machine cwd policy
            (legacyRuntimeFileSystemPolicyForCwd machine legacy cwd) p := by
  refine ⟨fun left right hEquivalent p => ?_, fun policy network hNoNeed => ?_⟩
  · exact sameAccess_of_signature_eq hMachine hTmp hCwd (of_decide_eq_true hEquivalent)
  unfold needsDirectRuntimeEnforcement at hNoNeed
  by_cases hKind : policy.kind = .restricted
  · rw [if_neg (not_not_intro hKind)] at hNoNeed
    cases hLegacy : policy.toLegacySandboxPolicy machine.toHost network cwd with
    | error _ =>
      rw [hLegacy] at hNoNeed
      cases hNoNeed
    | ok legacy =>
      rw [hLegacy] at hNoNeed
      simp only [Bool.or_eq_false_iff, decide_eq_false_iff_not, not_not] at hNoNeed
      exact ⟨legacy, rfl, fun p => sameAccess_of_signature_eq hMachine hTmp hCwd hNoNeed.2⟩
  · -- the projection has full access as well
    obtain ⟨legacy, hLegacy, hFullR⟩ : ∃ legacy,
        policy.toLegacySandboxPolicy machine.toHost network cwd = .ok legacy ∧
        (legacyRuntimeFileSystemPolicyForCwd machine legacy cwd).hasFullDiskWriteAccess = true := by
      unfold toLegacySandboxPolicy
      cases hPolicy : policy.kind with
      | restricted => exact absurd hPolicy hKind
      | externalSandbox => exact ⟨_, rfl, rfl⟩
      | unrestricted =>
        refine ⟨_, rfl, ?_⟩
        cases network <;> rfl
    have hFullL : policy.hasFullDiskWriteAccess = true := by
      by_contra hNot
      exact hKind (restricted_of_not_fullWrite (eq_false_of_ne_true hNot))
    refine ⟨legacy, hLegacy, fun p => ?_⟩
    obtain ⟨hReadL, hWriteL⟩ := access_of_fullWrite (p := p) hFullL hTmp hCwd
    obtain ⟨hReadR, hWriteR⟩ := access_of_fullWrite (p := p) hFullR hTmp hCwd
    exact ⟨hReadL.trans hReadR.symm, hWriteL.trans hWriteR.symm⟩

/-- A machine whose only directory is `/tmp`. -/
def Machine.onlyTmp : Machine := { Machine.bare with isDir := fun p => p == slashTmpPath }

theorem Machine.onlyTmp_plain : Machine.onlyTmp.Plain where
  not_symlink p h := by cases h
  canonicalize_eq p q h := by cases h
  no_git_pointer p h := by cases h

/-- Two spellings and orders of the same entries, and a read-only policy with its
projection. -/
theorem semantic_equivalence_of_workspace :
    (∀ p, SameAccess Machine.onlyTmp (toPathBuf ⟨["a"]⟩)
      (.restricted [⟨.special .root, .read⟩, ⟨.special .slashTmp, .write⟩])
      (.restricted [⟨.path ⟨["tmp"]⟩, .write⟩, ⟨.special .root, .read⟩]) p) ∧
    ∃ legacy, (FileSystemSandboxPolicy.restricted [⟨.special .root, .read⟩]).toLegacySandboxPolicy
        Machine.onlyTmp.toHost .restricted (toPathBuf ⟨["a"]⟩) = .ok legacy ∧
      ∀ p, SameAccess Machine.onlyTmp (toPathBuf ⟨["a"]⟩)
        (.restricted [⟨.special .root, .read⟩])
        (legacyRuntimeFileSystemPolicyForCwd Machine.onlyTmp legacy
          (toPathBuf ⟨["a"]⟩)) p :=
  ⟨(semantic_equivalence_sound Machine.onlyTmp_plain rfl rfl).1 _ _ (by decide),
    (semantic_equivalence_sound Machine.onlyTmp_plain rfl rfl).2 _ .restricted (by decide)⟩

end Codex
