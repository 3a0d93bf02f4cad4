import Codex.Permissions.Writing

/-!
# Codex — the order of a policy's entries

What a policy says should not depend on how its entries are listed. Access resolution
takes a maximum over the matching entries, so it does not (`resolveAccess_perm`).
Metadata protection does: `metadata_child_of_writable_root` stops at the first write
entry with a metadata name right below it on the way to the path. Listed first, an outer
entry finds an explicit write entry inside its own metadata directory and lifts the
protection that the inner entry gives to its metadata; listed second, it is never asked.

Result: `same_answers_iff`. Two orders of one policy answer alike at a path
unless the path lies in a metadata directory of the write entry that decides it, and
that entry leads (`Leads`) in one of the two orders only.
-/

namespace Codex

open Nearest FileSystemSandboxPolicy AbsolutePathBuf

variable {host : Host} {cwd path : PathBuf} {policy : FileSystemSandboxPolicy}
variable {entries : List FileSystemSandboxEntry}

/-! ## What does not depend on the order -/

section

variable (hPerm : entries.Perm policy.entries)
include hPerm

theorem resolvedEntries_perm : ({ policy with entries }.resolvedEntriesWithCwd host cwd).Perm
      (policy.resolvedEntriesWithCwd host cwd) :=
  hPerm.filterMap _

theorem resolveAccess_perm : { policy with entries }.resolveAccessWithCwd host path cwd =
      policy.resolveAccessWithCwd host path cwd := by
  unfold resolveAccessWithCwd
  simp only [resolve_perm (resolvedEntries_perm hPerm)]

theorem hasWriteNarrowingEntries_perm :
    { policy with entries }.hasWriteNarrowingEntries = policy.hasWriteNarrowingEntries := by
  have hOverride : ∀ entry, { policy with entries }.hasSameTargetWriteOverride entry =
      policy.hasSameTargetWriteOverride entry := by
    intro entry
    exact hPerm.any_eq
  unfold hasWriteNarrowingEntries
  simp only [hOverride, hPerm.any_eq]

theorem hasFullDiskWriteAccess_perm :
    { policy with entries }.hasFullDiskWriteAccess = policy.hasFullDiskWriteAccess := by
  unfold hasFullDiskWriteAccess hasRootAccess
  simp only [hasWriteNarrowingEntries_perm hPerm, hPerm.any_eq]

end

/-! ## Answers at a path -/

/-- A path is asked about through the absolute path it stands for. -/
theorem canWritePath_of_candidate {target : AbsolutePathBuf}
    (hTarget : resolveCandidatePath host path cwd = some target) :
    policy.canWritePathWithCwd host path cwd =
      policy.canWritePathWithCwd host target.toPathBuf cwd := by
  unfold canWritePathWithCwd resolveAccessWithCwd
    isMetadataWriteDenied
  rw [hTarget, resolveCandidatePath_toPathBuf]

theorem canWritePath_of_no_candidate (hKind : policy.kind = .restricted)
    (hNone : resolveCandidatePath host path cwd = none) :
    policy.canWritePathWithCwd host path cwd = false := by
  unfold canWritePathWithCwd resolveAccessWithCwd
  rw [hKind, hNone]
  rfl

theorem canWritePath_of_fullDisk (hFull : policy.hasFullDiskWriteAccess = true) :
    policy.canWritePathWithCwd host path cwd =
      (policy.resolveAccessWithCwd host path cwd).canWrite := by
  unfold canWritePathWithCwd
  rw [hFull]
  cases (policy.resolveAccessWithCwd host path cwd).canWrite <;> rfl

/-- Where `w` decides for writing, only its own metadata directories stay closed, and
only if it leads. -/
theorem canWritePath_of_wins (hKind : policy.kind = .restricted)
    (hFull : policy.hasFullDiskWriteAccess = false) {p : AbsolutePathBuf}
    {w : ResolvedFileSystemEntry}
    (hWins : Wins (policy.resolvedEntriesWithCwd host cwd) p.components w)
    (hWrite : w.access = .write) : policy.canWritePathWithCwd host p.toPathBuf cwd = true ↔
      ∀ name ∈ protectedMetadataPathNames, (w.path.child name).components <+: p.components →
        ¬Leads (policy.resolvedEntriesWithCwd host cwd) w.path := by
  rw [canWritePath_iff hKind hFull]
  constructor
  · intro ⟨w', hWins', _, hFree⟩ name hName hChild
    have hSame : w'.path = w.path := AbsolutePathBuf.ext (hWins'.node_unique hWins)
    rw [← hSame] at hChild ⊢
    exact hFree name hName hChild
  · intro hFree
    exact ⟨w, hWins, hWrite, hFree⟩

/-- **Two orders of one policy.** They answer alike at a path exactly when they agree on
whether the write entry that decides it leads, if it lies in a metadata directory of
that entry. -/
theorem same_answers_iff (hKind : policy.kind = .restricted)
    (hPerm : entries.Perm policy.entries) :
    ({ policy with entries }.canReadPathWithCwd host path cwd =
        policy.canReadPathWithCwd host path cwd ∧
      { policy with entries }.canWritePathWithCwd host path cwd =
        policy.canWritePathWithCwd host path cwd) ↔
      ∀ target w name, resolveCandidatePath host path cwd = some target →
        policy.hasFullDiskWriteAccess = false →
        Wins (policy.resolvedEntriesWithCwd host cwd) target.components w → w.access = .write →
        name ∈ protectedMetadataPathNames → (w.path.child name).components <+: target.components →
        (Leads ({ policy with entries }.resolvedEntriesWithCwd host cwd) w.path ↔
          Leads (policy.resolvedEntriesWithCwd host cwd) w.path) := by
  have hRead : { policy with entries }.canReadPathWithCwd host path cwd =
      policy.canReadPathWithCwd host path cwd := by
    unfold canReadPathWithCwd
    rw [resolveAccess_perm hPerm]
  simp only [hRead, true_and]
  have hKind' : ({ policy with entries } : FileSystemSandboxPolicy).kind = .restricted := hKind
  cases hTarget : resolveCandidatePath host path cwd with
  | none =>
    rw [canWritePath_of_no_candidate hKind hTarget, canWritePath_of_no_candidate hKind' hTarget]
    simp
  | some target =>
  cases hFull : policy.hasFullDiskWriteAccess with
  | true =>
    have hFull' := (hasFullDiskWriteAccess_perm hPerm).trans hFull
    rw [canWritePath_of_fullDisk hFull, canWritePath_of_fullDisk hFull', resolveAccess_perm hPerm]
    simp
  | false =>
    have hFull' := (hasFullDiskWriteAccess_perm hPerm).trans hFull
    have hResolved : ({ policy with entries }.resolvedEntriesWithCwd host cwd).Perm
        (policy.resolvedEntriesWithCwd host cwd) := resolvedEntries_perm hPerm
    rw [canWritePath_of_candidate hTarget, canWritePath_of_candidate hTarget]
    constructor
    · intro hSame target' w name hEq _ hWins hWrite hName hChild
      obtain rfl := Option.some.inj hEq
      have hHere := canWritePath_of_wins hKind hFull hWins hWrite
      have hThere := canWritePath_of_wins hKind' hFull' (hWins.perm hResolved.symm) hWrite
      rw [hSame, hHere] at hThere
      -- both sides say "some metadata directory on the way, hence not leading"
      exact not_iff_not.mp ⟨fun hNot => hThere.mpr (fun _ _ _ => hNot) name hName hChild,
        fun hNot => hThere.mp (fun _ _ _ => hNot) name hName hChild⟩
    · intro hLeads
      rw [Bool.eq_iff_iff]
      by_cases hDecided : ∃ w, Wins (policy.resolvedEntriesWithCwd host cwd) target.components w ∧
          w.access = .write
      · obtain ⟨w, hWins, hWrite⟩ := hDecided
        rw [canWritePath_of_wins hKind hFull hWins hWrite,
          canWritePath_of_wins hKind' hFull' (hWins.perm hResolved.symm) hWrite]
        exact forall₃_congr fun name hName hChild =>
          not_congr (hLeads target w name rfl rfl hWins hWrite hName hChild)
      · rw [canWritePath_iff hKind hFull, canWritePath_iff hKind' hFull']
        refine iff_of_false ?_ ?_
        · exact fun ⟨w, hWins, hWrite, _⟩ => hDecided ⟨w, hWins.perm hResolved, hWrite⟩
        · exact fun ⟨w, hWins, hWrite, _⟩ => hDecided ⟨w, hWins, hWrite⟩

/-- `/a` is writable but for `/a/docs`: the order does not matter inside `/a/.git`. -/
theorem same_answers_in_git :
    (restricted [⟨.path ⟨["a", "docs"]⟩, .read⟩, ⟨.path ⟨["a"]⟩, .write⟩]
      ).canReadPathWithCwd Host.bare (toPathBuf ⟨["a", ".git", "x"]⟩)
        (toPathBuf ⟨["a"]⟩) =
      (restricted [⟨.path ⟨["a"]⟩, .write⟩, ⟨.path ⟨["a", "docs"]⟩, .read⟩]
      ).canReadPathWithCwd Host.bare (toPathBuf ⟨["a", ".git", "x"]⟩)
        (toPathBuf ⟨["a"]⟩) ∧
    (restricted [⟨.path ⟨["a", "docs"]⟩, .read⟩, ⟨.path ⟨["a"]⟩, .write⟩]
      ).canWritePathWithCwd Host.bare (toPathBuf ⟨["a", ".git", "x"]⟩)
        (toPathBuf ⟨["a"]⟩) =
      (restricted [⟨.path ⟨["a"]⟩, .write⟩, ⟨.path ⟨["a", "docs"]⟩, .read⟩]
      ).canWritePathWithCwd Host.bare (toPathBuf ⟨["a", ".git", "x"]⟩)
        (toPathBuf ⟨["a"]⟩) := by
  have hSwap : [⟨.path ⟨["a", "docs"]⟩, .read⟩, ⟨.path ⟨["a"]⟩, .write⟩].Perm
      (restricted
        [⟨.path ⟨["a"]⟩, .write⟩, ⟨.path ⟨["a", "docs"]⟩, .read⟩]).entries := by decide
  refine (same_answers_iff rfl hSwap).mpr ?_
  intro target w name hTarget _ hWins hWrite _ _
  have hw : w = ⟨⟨["a"]⟩, .write⟩ := by
    have hMem : w ∈ ([⟨⟨["a"]⟩, .write⟩, ⟨⟨["a", "docs"]⟩, .read⟩] : List ResolvedFileSystemEntry) :=
      hWins.1
    rcases List.mem_pair.mp hMem with rfl | rfl
    · rfl
    · cases hWrite
  subst hw
  constructor
  · intro _
    exact ⟨[], [⟨⟨["a", "docs"]⟩, .read⟩], rfl, fun e he => absurd he List.not_mem_nil⟩
  · intro _
    refine ⟨[⟨⟨["a", "docs"]⟩, .read⟩], [], rfl, fun e he hWriteE => ?_⟩
    rw [List.mem_singleton.mp he] at hWriteE
    cases hWriteE

/-- `/a` and `/a/.git/b` are writable: whether `/a/.git/b/.codex` is depends on which of
the two entries is listed first. -/
theorem order_opens_nested_metadata :
    [⟨.path ⟨["a", ".git", "b"]⟩, .write⟩, ⟨.path ⟨["a"]⟩, .write⟩].Perm
      (restricted
        [⟨.path ⟨["a"]⟩, .write⟩, ⟨.path ⟨["a", ".git", "b"]⟩, .write⟩]).entries ∧
    (restricted
      [⟨.path ⟨["a"]⟩, .write⟩, ⟨.path ⟨["a", ".git", "b"]⟩, .write⟩]).canWritePathWithCwd Host.bare
        (toPathBuf ⟨["a", ".git", "b", ".codex", "x"]⟩)
        (toPathBuf ⟨["a"]⟩) = true ∧
    (restricted
      [⟨.path ⟨["a", ".git", "b"]⟩, .write⟩, ⟨.path ⟨["a"]⟩, .write⟩]).canWritePathWithCwd Host.bare
        (toPathBuf ⟨["a", ".git", "b", ".codex", "x"]⟩)
        (toPathBuf ⟨["a"]⟩) = false := by
  decide

end Codex
