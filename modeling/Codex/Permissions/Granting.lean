import Codex.Permissions.FullAccess
import Codex.Permissions.Order

/-!
# Codex — granting extra roots

`with_additional_readable_roots` and `with_additional_writable_roots`: for every requested root that
the policy does not open yet, an entry is put at the end of its list.

One more entry (`withEntry`) changes the access of paths below it only, and takes away nothing it
does not deny. Writing needs more care. A new writable root brings its own metadata protection, but a
path that was writable below it is decided by an entry that lies deeper (`canWrite_withEntry`). And
the entry may shadow the one that kept the policy from being writable as a whole, which lifts the
protection of every metadata directory there is; which entries do so is said in terms of the entries
before and the roots that are granted (`fullWrite_grantRoots_write_iff`).

Result: `extra_roots_only_grant_iff`.
-/

namespace Codex

open Nearest List FileSystemSandboxPolicy AbsolutePathBuf

/-! ## Definitions -/

namespace FileSystemSandboxPolicy

def withEntry (policy : FileSystemSandboxPolicy) (path : AbsolutePathBuf)
    (access : FileSystemAccessMode) : FileSystemSandboxPolicy :=
  { policy with entries := policy.entries ++ [{ path := .path path, access }] }

/-- The loop of both functions: an entry for every root that is not open yet. -/
def grantRoots (isOpen : FileSystemSandboxPolicy → AbsolutePathBuf → Bool)
    (access : FileSystemAccessMode) (policy : FileSystemSandboxPolicy)
    (roots : List AbsolutePathBuf) : FileSystemSandboxPolicy :=
  roots.foldl (fun policy path => if isOpen policy path then policy else policy.withEntry path access)
    policy

/-- The roots that the loop puts an entry for: those that are not open at their turn. -/
def grantedRoots (isOpen : FileSystemSandboxPolicy → AbsolutePathBuf → Bool)
    (access : FileSystemAccessMode) : FileSystemSandboxPolicy → List AbsolutePathBuf →
      List AbsolutePathBuf
  | _, [] => []
  | policy, root :: roots =>
    if isOpen policy root then grantedRoots isOpen access policy roots
    else root :: grantedRoots isOpen access (policy.withEntry root access) roots

def withAdditionalReadableRoots (policy : FileSystemSandboxPolicy) (host : Host) (cwd : PathBuf)
    (additionalReadableRoots : List AbsolutePathBuf) : FileSystemSandboxPolicy :=
  if policy.hasFullDiskReadAccess then policy
  else
    policy.grantRoots (fun policy path => policy.canReadPathWithCwd host path.toPathBuf cwd) .read
      additionalReadableRoots

def withAdditionalWritableRoots (policy : FileSystemSandboxPolicy) (host : Host) (cwd : PathBuf)
    (additionalWritableRoots : List AbsolutePathBuf) : FileSystemSandboxPolicy :=
  policy.grantRoots (fun policy path => policy.canWritePathWithCwd host path.toPathBuf cwd) .write
    additionalWritableRoots

end FileSystemSandboxPolicy

/-- The path stands for one at or below `root`. -/
def LiesUnder (host : Host) (cwd : PathBuf) (root : AbsolutePathBuf) (path : PathBuf) : Prop :=
  ∃ target, resolveCandidatePath host path cwd = some target ∧
    root.components <+: target.components

variable {host : Host} {cwd path : PathBuf} {policy : FileSystemSandboxPolicy}
variable {root p : AbsolutePathBuf} {access : FileSystemAccessMode}

/-! ## One more entry -/

theorem resolvedEntries_withEntry : (policy.withEntry root access).resolvedEntriesWithCwd host cwd =
      policy.resolvedEntriesWithCwd host cwd ++ [⟨root, access⟩] := by
  unfold resolvedEntriesWithCwd withEntry
  rw [filterMap_append]
  rfl

/-! ## Outside the new root -/

theorem resolveAccess_withEntry_of_not_under (hOut : ¬ LiesUnder host cwd root path) :
    (policy.withEntry root access).resolveAccessWithCwd host path cwd =
      policy.resolveAccessWithCwd host path cwd := by
  unfold resolveAccessWithCwd
  rw [resolvedEntries_withEntry]
  rcases hTarget : resolveCandidatePath host path cwd with _ | target
  · rfl
  have hNot : ¬ node (⟨root, access⟩ : ResolvedFileSystemEntry) <+: target.components :=
    fun hPre => hOut ⟨target, hTarget, hPre⟩
  simp only [resolve_concat_of_not_covers hNot]
  rfl

theorem isMetadataWriteDenied_withEntry_of_not_under (hOut : ¬ LiesUnder host cwd root path) :
    (policy.withEntry root access).isMetadataWriteDenied host path cwd =
      policy.isMetadataWriteDenied host path cwd := by
  unfold isMetadataWriteDenied
  have hKind : (policy.withEntry root access).kind = policy.kind := rfl
  rw [hKind]
  split
  · rfl
  rcases hTarget : resolveCandidatePath host path cwd with _ | target
  · rfl
  have hNot : target.startsWith root = false := by
    rw [← Bool.not_eq_true, startsWith_iff]
    exact fun hPre => hOut ⟨target, hTarget, hPre⟩
  have hStep : metadataStep target ⟨root, access⟩ = none := by
    unfold metadataStep
    rw [hNot, Bool.and_false, if_neg Bool.false_ne_true]
  have hChild : metadataChildOfWritableRoot (policy.withEntry root access) host target cwd =
      metadataChildOfWritableRoot policy host target cwd := by
    rw [metadataChild_eq, metadataChild_eq, resolvedEntries_withEntry]
    simp [hStep]
  have hExplicit : ∀ protectedPath,
      hasExplicitWriteEntryForMetadataPath (policy.withEntry root access) host protectedPath
          target cwd =
        hasExplicitWriteEntryForMetadataPath policy host protectedPath target cwd := by
    intro protectedPath
    unfold hasExplicitWriteEntryForMetadataPath
    rw [resolvedEntries_withEntry]
    simp [hNot]
  simp only [hChild, hExplicit]

/-! ## Nothing is taken away -/

/-- Reading survives every entry that does not deny. -/
theorem canRead_withEntry (hAccess : access ≠ .deny)
    (h : policy.canReadPathWithCwd host path cwd = true) :
    (policy.withEntry root access).canReadPathWithCwd host path cwd = true := by
  unfold canReadPathWithCwd at h ⊢
  have hSame : (policy.withEntry root access).kind = policy.kind := rfl
  by_cases hKind : policy.kind = .restricted
  · have hKind' : (policy.withEntry root access).kind = .restricted := hKind
    rcases hTarget : resolveCandidatePath host path cwd with _ | target
    · unfold resolveAccessWithCwd at h
      rw [hKind, hTarget] at h
      cases h
    rw [resolveAccess_of_candidate hTarget] at h ⊢
    obtain ⟨w, hWins, hw⟩ := (canRead_resolveAccess_iff hKind).mp h
    rw [canRead_resolveAccess_iff hKind', resolvedEntries_withEntry]
    rcases hWins.concat ⟨root, access⟩ with hKept | ⟨-, -, hNew⟩
    · exact ⟨w, hKept, hw⟩
    · exact ⟨_, hNew, hAccess⟩
  · rw [resolveAccess_of_not_restricted (hSame ▸ hKind)]
    rfl

/-- What does not narrow a policy does not narrow one with more entries. -/
theorem narrows_of_append {more : List FileSystemSandboxEntry} {entry : FileSystemSandboxEntry}
    (h : policy.narrows entry = false) :
    { policy with entries := policy.entries ++ more }.narrows entry = false := by
  rw [narrows_eq_false_iff] at h ⊢
  refine h.imp_right (And.imp_right (Or.imp_left fun hOverride => ?_))
  obtain ⟨candidate, hCandidate, hBetter⟩ := any_eq_true.mp hOverride
  exact any_eq_true.mpr ⟨candidate, mem_append_left _ hCandidate, hBetter⟩

/-- A write entry narrows nothing. -/
theorem hasFullDiskWriteAccess_withEntry_write (hFull : policy.hasFullDiskWriteAccess = true) :
    (policy.withEntry root .write).hasFullDiskWriteAccess = true := by
  have hSame : (policy.withEntry root .write).kind = policy.kind := rfl
  by_cases hKind : policy.kind = .restricted
  · obtain ⟨⟨rootEntry, hMem, hRoot⟩, hNarrow⟩ := (hasFullDiskWriteAccess_iff hKind).mp hFull
    refine (hasFullDiskWriteAccess_iff (hSame.trans hKind)).mpr
      ⟨⟨rootEntry, mem_append_left _ hMem, hRoot⟩, ?_⟩
    exact forall_mem_append.mpr ⟨fun entry hOld => narrows_of_append (hNarrow entry hOld),
      forall_mem_singleton.mpr rfl⟩
  · exact hasFullDiskWriteAccess_of_not_restricted (hSame ▸ hKind)

theorem leads_of_concat {entries : List ResolvedFileSystemEntry} {e : ResolvedFileSystemEntry}
    (h : Leads (entries ++ [e]) p) (hNe : e.path ≠ p) : Leads entries p := by
  obtain ⟨earlier, later, hEq, hEarlier⟩ := h
  rcases eq_nil_or_concat later with rfl | ⟨later, last, rfl⟩
  · have hLast := (append_inj' hEq rfl).2
    rw [singleton_inj.mp hLast] at hNe
    exact absurd rfl hNe
  · refine ⟨earlier, later, ?_, hEarlier⟩
    rw [concat_eq_append, ← cons_append, ← append_assoc] at hEq
    exact (append_inj' hEq rfl).1

/-- Only a restricted policy closes anything. -/
theorem restricted_of_not_canWrite (h : policy.canWritePathWithCwd host path cwd = false) :
    policy.kind = .restricted := by
  by_contra hKind
  rw [canWritePath_eq, resolveAccess_of_not_restricted hKind,
    hasFullDiskWriteAccess_of_not_restricted hKind] at h
  cases h

theorem restricted_of_not_canRead (h : policy.canReadPathWithCwd host path cwd = false) :
    policy.kind = .restricted := by
  by_contra hKind
  unfold canReadPathWithCwd at h
  rw [resolveAccess_of_not_restricted hKind] at h
  cases h

section

variable (hClosed : policy.canWritePathWithCwd host root.toPathBuf cwd = false)
include hClosed

/-- **Writing survives a new writable root**, if the root was not writable before. -/
theorem canWrite_withEntry (h : policy.canWritePathWithCwd host p.toPathBuf cwd = true) :
    (policy.withEntry root .write).canWritePathWithCwd host p.toPathBuf cwd = true := by
  have hKind : policy.kind = .restricted := restricted_of_not_canWrite hClosed
  have hKind' : (policy.withEntry root .write).kind = .restricted := hKind
  cases hFull' : (policy.withEntry root .write).hasFullDiskWriteAccess with
  | true =>
    rw [canWritePath_of_fullDisk hFull']
    rw [canWritePath_eq, Bool.and_eq_true] at h
    obtain ⟨w, hWins, hw⟩ := (canWrite_resolveAccess_iff hKind).mp h.1
    rw [canWrite_resolveAccess_iff hKind', resolvedEntries_withEntry]
    rcases hWins.concat ⟨root, .write⟩ with hKept | ⟨-, -, hNew⟩
    · exact ⟨w, hKept, hw⟩
    · exact ⟨_, hNew, rfl⟩
  | false =>
    have hFull : policy.hasFullDiskWriteAccess = false := by
      rw [← Bool.not_eq_true]
      intro hTrue
      rw [hasFullDiskWriteAccess_withEntry_write hTrue] at hFull'
      cases hFull'
    obtain ⟨w, hWins, hWrite, hFree⟩ := (canWritePath_iff hKind hFull).mp h
    -- otherwise the root would be as writable as the path
    have hNotBetween : w.path.components <+: root.components →
        ¬ root.components <+: p.components := by
      intro hAbove hCovers
      have hRoot := (canWritePath_iff hKind hFull).mpr
        ⟨w, hWins.of_between hAbove hCovers, hWrite,
          fun name hName hChild => hFree name hName (hChild.trans hCovers)⟩
      rw [hClosed] at hRoot
      cases hRoot
    rw [canWritePath_iff hKind' hFull', resolvedEntries_withEntry]
    rcases hWins.concat ⟨root, .write⟩ with hKept | ⟨hAbove, hCovers, -⟩
    · refine ⟨w, hKept, hWrite, fun name hName hChild hLeads => ?_⟩
      have hNe : root ≠ w.path := by
        intro hEq
        rw [hEq] at hNotBetween
        exact hNotBetween prefix_rfl hWins.2.1
      exact hFree name hName hChild (leads_of_concat hLeads hNe)
    · exact absurd hCovers (hNotBetween hAbove)

end

/-! ## The root itself -/

/-- Where nothing denies, the new entry is among those that decide. -/
theorem access_at_withEntry (hNoDeny : ⟨root, .deny⟩ ∉ policy.resolvedEntriesWithCwd host cwd)
    (hAccess : access ≠ .deny) :
    ∃ w, Wins ((policy.withEntry root access).resolvedEntriesWithCwd host cwd) root.components w ∧
      w.path = root ∧ access ≤ w.access ∧ w.access ≠ .deny := by
  rw [resolvedEntries_withEntry]
  have hMem : (⟨root, access⟩ : ResolvedFileSystemEntry) ∈
      policy.resolvedEntriesWithCwd host cwd ++ [⟨root, access⟩] :=
    mem_append_right _ mem_cons_self
  obtain ⟨w, hWins⟩ := exists_wins hMem (prefix_refl root.components)
  obtain ⟨hPath, hLe⟩ := path_eq_of_wins hMem hWins
  refine ⟨w, hWins, hPath, hLe, fun hDeny => ?_⟩
  have hEntry : w = ⟨root, .deny⟩ := by
    cases w
    simp_all
  rcases mem_append.mp hWins.1 with hOld | hNew
  · exact hNoDeny (hEntry ▸ hOld)
  · rw [mem_singleton.mp hNew] at hDeny
    exact hAccess hDeny

/-! ## The loop -/

section Loop

variable {isOpen : FileSystemSandboxPolicy → AbsolutePathBuf → Bool} {roots : List AbsolutePathBuf}

/-- What every added entry keeps holds of the result. -/
theorem grantRoots_induction {P : FileSystemSandboxPolicy → Prop} (hStart : P policy)
    (hStep : ∀ current, ∀ root ∈ roots, P current → isOpen current root = false →
      P (current.withEntry root access)) : P (policy.grantRoots isOpen access roots) := by
  refine foldlRecOn roots _ hStart fun current hCurrent root hMem => ?_
  cases hOpen : isOpen current root with
  | true => exact hCurrent
  | false => exact hStep current root hMem hCurrent hOpen

/-- Outside the requested roots the entries resolve as before. -/
theorem grantRoots_frame (hOut : ∀ root ∈ roots, ¬ LiesUnder host cwd root path) :
    (policy.grantRoots isOpen access roots).resolveAccessWithCwd host path cwd =
        policy.resolveAccessWithCwd host path cwd ∧
      (policy.grantRoots isOpen access roots).isMetadataWriteDenied host path cwd =
        policy.isMetadataWriteDenied host path cwd := by
  refine grantRoots_induction (P := fun current =>
    current.resolveAccessWithCwd host path cwd = policy.resolveAccessWithCwd host path cwd ∧
      current.isMetadataWriteDenied host path cwd = policy.isMetadataWriteDenied host path cwd)
    ⟨rfl, rfl⟩ ?_
  intro current root hMem hSame _
  rw [resolveAccess_withEntry_of_not_under (hOut root hMem),
    isMetadataWriteDenied_withEntry_of_not_under (hOut root hMem)]
  exact hSame

/-- A requested root is open at the end, if an added entry opens its root and later ones keep it. -/
theorem grantRoots_opens (isOpen : FileSystemSandboxPolicy → AbsolutePathBuf → Bool)
    (hRoot : root ∈ roots)
    (hNoDeny : ⟨root, .deny⟩ ∉ policy.resolvedEntriesWithCwd host cwd) (hAccess : access ≠ .deny)
    (hGrant : ∀ current : FileSystemSandboxPolicy, isOpen current root = false →
      ⟨root, .deny⟩ ∉ current.resolvedEntriesWithCwd host cwd →
      isOpen (current.withEntry root access) root = true)
    (hKeep : ∀ (current : FileSystemSandboxPolicy) (next : AbsolutePathBuf),
      isOpen current root = true → isOpen current next = false →
      isOpen (current.withEntry next access) root = true) :
    isOpen (policy.grantRoots isOpen access roots) root = true := by
  obtain ⟨before, after, rfl⟩ := append_of_mem hRoot
  have hSplit : policy.grantRoots isOpen access (before ++ root :: after) =
      ((policy.grantRoots isOpen access before).grantRoots isOpen access [root]).grantRoots isOpen
        access after := by
    unfold grantRoots
    rw [foldl_append]
    rfl
  have hStill : ⟨root, .deny⟩ ∉
      (policy.grantRoots isOpen access before).resolvedEntriesWithCwd host cwd := by
    refine grantRoots_induction (P := fun current =>
      ⟨root, .deny⟩ ∉ current.resolvedEntriesWithCwd host cwd) hNoDeny ?_
    intro current next _ hNone _ hMem
    rw [resolvedEntries_withEntry] at hMem
    rcases mem_append.mp hMem with hOld | hNew
    · exact hNone hOld
    · rw [mem_singleton, ResolvedFileSystemEntry.mk.injEq] at hNew
      exact hAccess hNew.2.symm
  rw [hSplit]
  refine grantRoots_induction (P := fun current => isOpen current root = true) ?_
    fun current next _ hOpen hClosed => hKeep current next hOpen hClosed
  show isOpen (if isOpen (policy.grantRoots isOpen access before) root then _ else _) root = true
  split
  · assumption
  · rename_i hClosed
    exact hGrant _ (eq_false_of_ne_true hClosed) hStill

end Loop

/-! ## The flag for writing -/

section Flag

variable {isOpen : FileSystemSandboxPolicy → AbsolutePathBuf → Bool} {roots : List AbsolutePathBuf}

theorem grantRoots_eq : policy.grantRoots isOpen access roots =
    { policy with entries := policy.entries ++
        (policy.grantedRoots isOpen access roots).map fun root => { path := .path root, access } } := by
  induction roots generalizing policy with
  | nil => simp [grantRoots, grantedRoots]
  | cons root roots ih =>
    have hStep : policy.grantRoots isOpen access (root :: roots) =
        (if isOpen policy root then policy else policy.withEntry root access).grantRoots isOpen access
          roots := rfl
    rw [hStep, ih]
    cases hOpen : isOpen policy root with
    | true => simp [grantedRoots, hOpen]
    | false => simp [grantedRoots, hOpen, withEntry]

/-- New entries are literal paths, so they do not open the whole disk. -/
theorem root_grantRoots_iff : (∃ entry ∈ (policy.grantRoots isOpen access roots).entries,
      entry.path = .special .root ∧ entry.access = .write) ↔
    ∃ entry ∈ policy.entries, entry.path = .special .root ∧ entry.access = .write := by
  rw [grantRoots_eq]
  constructor
  · rintro ⟨entry, hMem, hPath, hAccess⟩
    rcases mem_append.mp hMem with hOld | hNew
    · exact ⟨entry, hOld, hPath, hAccess⟩
    · obtain ⟨root, -, rfl⟩ := mem_map.mp hNew
      cases hPath
  · rintro ⟨entry, hMem, hRoot⟩
    exact ⟨entry, mem_append_left _ hMem, hRoot⟩

/-- **Granting for reading** keeps the flag if each new entry has a write entry beside it. -/
theorem fullWrite_grantRoots_read (hKind : policy.kind = .restricted) :
    (policy.grantRoots isOpen .read roots).hasFullDiskWriteAccess = true ↔
      policy.hasFullDiskWriteAccess = true ∧ ∀ root ∈ policy.grantedRoots isOpen .read roots,
        policy.hasSameTargetWriteOverride ⟨.path root, .read⟩ = true := by
  have hKind' : (policy.grantRoots isOpen .read roots).kind = .restricted := by rwa [grantRoots_eq]
  -- read entries override nothing
  have hOverride : (policy.grantRoots isOpen .read roots).hasSameTargetWriteOverride =
      policy.hasSameTargetWriteOverride := by
    rw [grantRoots_eq]
    funext entry
    simp [hasSameTargetWriteOverride, FileSystemAccessMode.canWrite]
  have hNarrows : (policy.grantRoots isOpen .read roots).narrows = policy.narrows := by
    unfold narrows
    rw [hOverride]
  have hNew : ∀ root, policy.narrows ⟨.path root, .read⟩ = false ↔
      policy.hasSameTargetWriteOverride ⟨.path root, .read⟩ = true :=
    fun _ => (Bool.not_eq_false' _).to_iff
  rw [hasFullDiskWriteAccess_iff hKind', hasFullDiskWriteAccess_iff hKind, hNarrows,
    root_grantRoots_iff, grantRoots_eq, forall_mem_append, forall_mem_map, and_assoc]
  simp only [hNew]

/-- The entry allows reading, and one of the roots takes its target. -/
def GrantedOver (granted : List AbsolutePathBuf) (entry : FileSystemSandboxEntry) : Prop :=
  entry.access = .read ∧ ∃ root ∈ granted, fileSystemPathsShareTarget (.path root) entry.path = true

theorem narrows_grantRoots_write {entry : FileSystemSandboxEntry} :
    (policy.grantRoots isOpen .write roots).narrows entry = false ↔
      (policy.narrows entry = true →
        GrantedOver (policy.grantedRoots isOpen .write roots) entry) := by
  rw [grantRoots_eq]
  cases hNarrows : policy.narrows entry with
  | false => exact iff_of_true (narrows_of_append hNarrows) nofun
  | true =>
    have hOld : (∀ pattern, entry.path ≠ .globPattern pattern) →
        policy.hasSameTargetWriteOverride entry = false := by
      intro hNotGlob
      rw [← Bool.not_eq_true]
      intro hOverride
      rw [narrows_eq_false_iff.mpr (.inr ⟨hNotGlob, .inl hOverride⟩)] at hNarrows
      cases hNarrows
    rw [narrows_eq_false_of_narrows hNarrows]
    constructor
    · rintro ⟨hNotGlob, hOverride⟩ -
      unfold hasSameTargetWriteOverride at hOverride hOld
      rw [any_append, hOld hNotGlob, Bool.false_or, any_map] at hOverride
      obtain ⟨root, hMem, hBetter⟩ := any_eq_true.mp hOverride
      simp only [Function.comp_apply, Bool.and_eq_true, decide_eq_true_eq] at hBetter
      refine ⟨?_, root, hMem, hBetter.2⟩
      have hGt := hBetter.1.2
      revert hGt
      cases entry.access <;> decide
    · intro hGranted
      obtain ⟨hRead, root, hMem, hShare⟩ := hGranted rfl
      refine ⟨fun pattern hPath => ?_, any_eq_true.mpr ⟨_, mem_append_right _ (mem_map_of_mem hMem), ?_⟩⟩
      · rw [hPath] at hShare
        cases hShare
      · rw [hRead, hShare]
        rfl

/-- **Granting for writing** keeps the flag, unless all that narrows the policy is granted. -/
theorem fullWrite_grantRoots_write_iff :
    (policy.grantRoots isOpen .write roots).hasFullDiskWriteAccess = policy.hasFullDiskWriteAccess ↔
      ¬ Opened policy (GrantedOver (policy.grantedRoots isOpen .write roots)) := by
  have hSame : (policy.grantRoots isOpen .write roots).kind = policy.kind := by rw [grantRoots_eq]
  refine hasFullDiskWriteAccess_eq_iff hSame fun hKind => ?_
  have hEntries : (policy.grantRoots isOpen .write roots).entries = policy.entries ++ _ :=
    congrArg FileSystemSandboxPolicy.entries grantRoots_eq
  rw [hasFullDiskWriteAccess_iff (hSame.trans hKind), root_grantRoots_iff, hEntries,
    forall_mem_append, forall_mem_map]
  simp only [narrows_grantRoots_write]
  refine and_congr_right fun _ => and_iff_left fun root _ hNarrows => ?_
  cases hNarrows

end Flag

/-! ## Both functions -/

section Granted

variable {roots : List AbsolutePathBuf}

/-- Everything may be read according to the flag, but no entry covers the root: `:root` has no place,
since the directory has no absolute form. -/
structure Uncovered (policy : FileSystemSandboxPolicy) (host : Host) (cwd : PathBuf)
    (root : AbsolutePathBuf) : Prop where
  full : policy.hasFullDiskReadAccess = true
  restricted : policy.kind = .restricted
  uncovered : ∀ entry ∈ policy.resolvedEntriesWithCwd host cwd,
    ¬ entry.path.components <+: root.components

/-- A requested root that is not denied can be read at the end, unless it is uncovered. -/
theorem root_readable_iff (hRoot : root ∈ roots)
    (hNoDeny : ⟨root, .deny⟩ ∉ policy.resolvedEntriesWithCwd host cwd) :
    (policy.withAdditionalReadableRoots host cwd roots).canReadPathWithCwd host root.toPathBuf cwd =
      true ↔ ¬ Uncovered policy host cwd root := by
  unfold withAdditionalReadableRoots
  split
  · rename_i hFull
    by_cases hKind : policy.kind = .restricted
    · constructor
      · intro hRead hUncovered
        obtain ⟨w, hWins, -⟩ := (canRead_resolveAccess_iff hKind).mp hRead
        exact hUncovered.uncovered w hWins.1 hWins.2.1
      · intro hCovered
        by_contra hClosed
        exact hCovered ⟨hFull, hKind, fun entry hMem hCovers =>
          hClosed (canRead_of_fullRead_of_covered hFull hKind hMem hCovers)⟩
    · unfold canReadPathWithCwd
      rw [resolveAccess_of_not_restricted hKind]
      exact iff_of_true rfl fun h => hKind h.restricted
  · rename_i hPartial
    refine iff_of_true ?_ fun h => hPartial h.full
    refine grantRoots_opens (fun policy path => policy.canReadPathWithCwd host path.toPathBuf cwd)
      hRoot hNoDeny (by decide) ?_ ?_
    · intro current hClosed hNone
      have hKind := restricted_of_not_canRead hClosed
      have hKind' : (current.withEntry root .read).kind = .restricted := hKind
      obtain ⟨w, hWins, -, -, hw⟩ :=
        access_at_withEntry hNone (by decide : FileSystemAccessMode.read ≠ .deny)
      exact (canRead_resolveAccess_iff hKind').mpr ⟨w, hWins, hw⟩
    · intro current next hRead _
      exact canRead_withEntry (by decide) hRead

/-- The policy counts as writable as a whole, but not as readable, and a root that is granted for
reading has no write entry beside it. -/
structure ReadingCloses (policy : FileSystemSandboxPolicy) (host : Host) (cwd : PathBuf)
    (roots : List AbsolutePathBuf) : Prop where
  unreadable : policy.hasFullDiskReadAccess = false
  writable : policy.hasFullDiskWriteAccess = true
  granted : ∃ root ∈ policy.grantedRoots
      (fun policy path => policy.canReadPathWithCwd host path.toPathBuf cwd) .read roots,
    policy.hasSameTargetWriteOverride ⟨.path root, .read⟩ = false

theorem fullWrite_withAdditionalReadableRoots_iff :
    (policy.withAdditionalReadableRoots host cwd roots).hasFullDiskWriteAccess =
      policy.hasFullDiskWriteAccess ↔ ¬ ReadingCloses policy host cwd roots := by
  unfold withAdditionalReadableRoots
  split
  · rename_i hFull
    exact iff_of_true rfl fun h => absurd (hFull.symm.trans h.unreadable) (by decide)
  rename_i hPartial
  have hKind : policy.kind = .restricted := by
    by_contra hKind
    unfold hasFullDiskReadAccess at hPartial
    cases h : policy.kind with
    | restricted => exact hKind h
    | unrestricted | externalSandbox =>
      rw [h] at hPartial
      exact hPartial rfl
  rw [Bool.eq_iff_iff, fullWrite_grantRoots_read hKind, and_iff_left_iff_imp]
  constructor
  · rintro hAll ⟨-, hWrite, root, hMem, hNone⟩
    rw [hAll hWrite root hMem] at hNone
    cases hNone
  · intro hNot hWrite root hMem
    rw [← Bool.not_eq_false]
    exact fun hNone => hNot ⟨eq_false_of_ne_true hPartial, hWrite, root, hMem, hNone⟩

theorem root_writable (hRoot : root ∈ roots)
    (hNoDeny : ⟨root, .deny⟩ ∉ policy.resolvedEntriesWithCwd host cwd) :
    (policy.withAdditionalWritableRoots host cwd roots).canWritePathWithCwd host root.toPathBuf cwd =
      true := by
  refine grantRoots_opens (fun policy path => policy.canWritePathWithCwd host path.toPathBuf cwd)
    hRoot hNoDeny (by decide) ?_ ?_
  · intro current hClosed hNone
    have hRestricted := restricted_of_not_canWrite hClosed
    have hKind : (current.withEntry root .write).kind = .restricted := hRestricted
    have hNotDeny : FileSystemAccessMode.write ≠ .deny := by decide
    obtain ⟨w, hWins, hPath, hLe, hw⟩ := access_at_withEntry hNone hNotDeny
    have hWrite : w.access = .write := by
      revert hLe hw
      cases w.access <;> decide
    cases hFull : (current.withEntry root .write).hasFullDiskWriteAccess with
    | true =>
      rw [canWritePath_of_fullDisk hFull]
      exact (canWrite_resolveAccess_iff hKind).mpr ⟨w, hWins, hWrite⟩
    | false =>
      have hOpen := openAt_of_wins hWins hWrite
      rw [hPath] at hOpen
      exact (canWritePath_at_entry hKind hFull ⟨_, hOpen.1⟩).mpr hOpen
  · intro current next hWrite hClosed
    exact canWrite_withEntry hClosed hWrite

end Granted

/-- **Granting extra roots only grants.** What could be read (written) before still can, outside the
requested roots no answer changes, and every requested root that is not denied itself is open. There
are three exceptions. Protected metadata is opened when the writable roots take over all that narrowed
the policy. It is closed when a readable root narrows a policy that counted as writable as a whole. And
a root stays closed where the flag for reading is set and no entry covers the root. -/
theorem extra_roots_only_grant_iff (host : Host) (cwd : PathBuf) (policy : FileSystemSandboxPolicy)
    (roots : List AbsolutePathBuf) :
    let reading := policy.withAdditionalReadableRoots host cwd roots
    let writing := policy.withAdditionalWritableRoots host cwd roots
    let granted := policy.grantedRoots
      (fun policy path => policy.canWritePathWithCwd host path.toPathBuf cwd) .write roots
    (∀ path, policy.canReadPathWithCwd host path cwd = true →
        reading.canReadPathWithCwd host path cwd = true) ∧
      (∀ path, policy.canWritePathWithCwd host path cwd = true →
        writing.canWritePathWithCwd host path cwd = true) ∧
      (∀ path, (∀ root ∈ roots, ¬ LiesUnder host cwd root path) →
        reading.canReadPathWithCwd host path cwd = policy.canReadPathWithCwd host path cwd ∧
        writing.canReadPathWithCwd host path cwd = policy.canReadPathWithCwd host path cwd ∧
        (reading.canWritePathWithCwd host path cwd = policy.canWritePathWithCwd host path cwd ↔
          ¬ (ReadingCloses policy host cwd roots ∧ Protected policy host path cwd)) ∧
        (writing.canWritePathWithCwd host path cwd = policy.canWritePathWithCwd host path cwd ↔
          ¬ (Opened policy (GrantedOver granted) ∧ Protected policy host path cwd))) ∧
      ∀ root ∈ roots, ⟨root, .deny⟩ ∉ policy.resolvedEntriesWithCwd host cwd →
        (reading.canReadPathWithCwd host root.toPathBuf cwd = true ↔
          ¬ Uncovered policy host cwd root) ∧
        writing.canWritePathWithCwd host root.toPathBuf cwd = true := by
  intro reading writing granted
  refine ⟨fun path hRead => ?_, fun path hWrite => ?_, fun path hOut => ?_, fun root hRoot hNoDeny =>
    ⟨root_readable_iff hRoot hNoDeny, root_writable hRoot hNoDeny⟩⟩
  · unfold reading withAdditionalReadableRoots
    split
    · exact hRead
    · exact grantRoots_induction (P := fun current => current.canReadPathWithCwd host path cwd = true)
        hRead fun _ _ _ hRead _ => canRead_withEntry (by decide) hRead
  · exact grantRoots_induction (P := fun current => current.canWritePathWithCwd host path cwd = true)
      hWrite fun _ _ _ hWrite hClosed => by
        cases hTarget : resolveCandidatePath host path cwd with
        | some target =>
          rw [canWritePath_of_candidate hTarget] at hWrite ⊢
          exact canWrite_withEntry hClosed hWrite
        | none =>
          rw [canWritePath_of_no_candidate (restricted_of_not_canWrite hClosed) hTarget] at hWrite
          cases hWrite
  · obtain ⟨hReadAccess, hReadDenied⟩ : reading.resolveAccessWithCwd host path cwd = _ ∧
        reading.isMetadataWriteDenied host path cwd = policy.isMetadataWriteDenied host path cwd := by
      unfold reading withAdditionalReadableRoots
      split
      · exact ⟨rfl, rfl⟩
      · exact grantRoots_frame hOut
    obtain ⟨hWriteAccess, hWriteDenied⟩ : writing.resolveAccessWithCwd host path cwd = _ ∧
        writing.isMetadataWriteDenied host path cwd = _ := grantRoots_frame hOut
    refine ⟨congrArg FileSystemAccessMode.canRead hReadAccess,
      congrArg FileSystemAccessMode.canRead hWriteAccess, ?_, ?_⟩
    · rw [canWritePath_eq_iff hReadAccess hReadDenied, fullWrite_withAdditionalReadableRoots_iff,
        not_and']
    · rw [canWritePath_eq_iff hWriteAccess hWriteDenied, not_and']
      exact imp_congr_right fun _ => fullWrite_grantRoots_write_iff

/-- `/a` is the one read-only place of the disk. Granting it opens the metadata of `/b`. -/
theorem grant_opens_other_git :
    let policy := FileSystemSandboxPolicy.restricted
      [⟨.special .root, .write⟩, ⟨.path ⟨["a"]⟩, .read⟩, ⟨.path ⟨["b"]⟩, .write⟩]
    let cwd := toPathBuf ⟨["b"]⟩
    let path := toPathBuf ⟨["b", ".git"]⟩
    ¬ LiesUnder Host.bare cwd ⟨["a"]⟩ path ∧
      policy.canWritePathWithCwd Host.bare path cwd = false ∧
      (policy.withAdditionalWritableRoots Host.bare cwd [⟨["a"]⟩]).canWritePathWithCwd Host.bare path
        cwd = true := by
  refine ⟨?_, by decide, by decide⟩
  rintro ⟨target, hTarget, hPrefix⟩
  cases hTarget
  revert hPrefix
  decide

end Codex
