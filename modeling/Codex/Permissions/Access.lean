import Codex.Permissions.Transforms

/-!
# Codex — access resolution

The lemmas through which later modules talk about policies:

* a restricted policy grants read (write) on a path exactly when the winning
  resolved entry does (`canRead_resolveAccess_iff`, `canWrite_resolveAccess_iff`);
* which entries a `pushUnique` loop collects (`mem_foldl_pushUnique`) and which
  resolved entries a policy has (`mem_resolvedEntries`);
* without symlinks the read-deny matcher is a subtree test over the unreadable
  roots (`isReadDenied_iff`).
-/

namespace Codex

open Nearest List FileSystemSandboxPolicy

variable {host : Host} {cwd : PathBuf} {policy : FileSystemSandboxPolicy} {α : Type*}

/-- A machine with no files, no environment and no glob compiler. -/
def Host.bare : Host :=
  { homeDir := none, currentDir := none, tmpdir := none, isDir := fun _ => false
    symlinkMetadata := fun _ => none, canonicalize := fun _ => none
    buildGlobMatcher := fun _ => none }

theorem Host.bare_noSymlinks : Host.bare.NoSymlinks where
  not_symlink p h := by cases h
  canonicalize_eq p q h := by cases h

/-! ## Lists of distinct entries -/

/-- Pushing adds the entry, or finds it there. -/
theorem mem_pushUnique [DecidableEq α] {xs : List α} {x y : α} :
    y ∈ pushUnique xs x ↔ y ∈ xs ∨ y = x := by
  unfold pushUnique
  split
  · rename_i hMem
    constructor
    · exact Or.inl
    · rintro (h | rfl)
      · exact h
      · exact hMem
  · simp

theorem mem_foldl_pushUnique [DecidableEq α] {xs acc : List α} {y : α} :
    y ∈ xs.foldl pushUnique acc ↔ y ∈ acc ∨ y ∈ xs := by
  induction xs generalizing acc with
  | nil => simp
  | cons x rest ih =>
    rw [foldl_cons, ih, mem_pushUnique, mem_cons, or_assoc]

/-! ## Access modes -/

variable {mode : FileSystemAccessMode} {p : AbsolutePathBuf} {r : ResolvedFileSystemEntry}

@[simp] theorem canRead_iff : mode.canRead = true ↔ mode ≠ .deny := by
  cases mode <;> decide

@[simp] theorem canWrite_iff : mode.canWrite = true ↔ mode = .write := by
  cases mode <;> decide

theorem le_write_iff : mode ≤ .write ↔ mode ≠ .deny := by
  cases mode <;> decide

theorem eq_read_iff : mode = .read ↔ mode ≠ .write ∧ mode ≠ .deny := by
  cases mode <;> decide

theorem accessCovers_iff {requested granted : FileSystemAccessMode} :
    accessCovers requested granted = true ↔
      (granted = .read ∧ requested ≠ .deny) ∨ (granted = .write ∧ requested = .write) := by
  cases granted <;> simp [accessCovers]

/-! ## Resolved entries -/

/-- `r` is what `entry` resolves to. -/
def ResolvesTo (host : Host) (cwd : PathBuf) (entry : FileSystemSandboxEntry)
    (r : ResolvedFileSystemEntry) : Prop :=
  resolveEntryPath host (cwdAbsolute host cwd) entry.path = some r.path ∧ entry.access = r.access

theorem mem_resolvedEntries :
    r ∈ policy.resolvedEntriesWithCwd host cwd ↔
      ∃ entry ∈ policy.entries, ResolvesTo host cwd entry r := by
  obtain ⟨path, access⟩ := r
  simp [resolvedEntriesWithCwd, ResolvesTo]

/-- The resolved entries of a restricted policy. -/
def rules (host : Host) (cwd : PathBuf) (entries : List FileSystemSandboxEntry) :
    List ResolvedFileSystemEntry :=
  (FileSystemSandboxPolicy.restricted entries).resolvedEntriesWithCwd host cwd

theorem mem_rules {entries : List FileSystemSandboxEntry} :
    r ∈ rules host cwd entries ↔ ∃ entry ∈ entries, ResolvesTo host cwd entry r :=
  mem_resolvedEntries

@[simp] theorem resolveCandidatePath_toPathBuf (p : AbsolutePathBuf) :
    resolveCandidatePath host p.toPathBuf cwd = some p := by
  have hRoot : p.toPathBuf.hasRoot = true := rfl
  unfold resolveCandidatePath
  rw [if_pos hRoot, fromAbsolutePath_toPathBuf]

/-! ### The entry that decides -/

section Decides

variable {entries : List ResolvedFileSystemEntry} {e w : ResolvedFileSystemEntry} {q : List String}

/-- Where an entry sits, an entry at the same path decides, of at least its rank. -/
theorem path_eq_of_wins (he : e ∈ entries) (h : Wins entries e.path.components w) :
    w.path = e.path ∧ e.access ≤ w.access := by
  obtain ⟨hNode, hLe⟩ := h.beside he (prefix_refl _) h.2.1
  exact ⟨AbsolutePathBuf.ext hNode.symm, hLe⟩

/-- A denial that does not lie above the deciding entry decides with it. -/
theorem deny_of_wins (h : Wins entries q w) (he : e ∈ entries) (hDeny : e.access = .deny)
    (hBelow : w.path.components <+: e.path.components) (hq : e.path.components <+: q) :
    w.access = .deny :=
  le_antisymm (by cases w.access <;> decide) (hDeny ▸ (h.beside he hq hBelow).2)

end Decides

section

variable (hKind : policy.kind = .restricted)
include hKind

/-- A restricted policy denies what no entry covers. -/
theorem resolveAccess_eq (p : AbsolutePathBuf) : policy.resolveAccessWithCwd host p.toPathBuf cwd =
      (resolve (policy.resolvedEntriesWithCwd host cwd) p.components).getD .deny := by
  unfold resolveAccessWithCwd
  rw [hKind, resolveCandidatePath_toPathBuf]

/-- A path no entry covers is denied, so an access other than `deny` comes from
the winning entry. -/
theorem resolveAccess_eq_iff (hMode : mode ≠ .deny) :
    policy.resolveAccessWithCwd host p.toPathBuf cwd = mode ↔
      ∃ w, Wins (policy.resolvedEntriesWithCwd host cwd) p.components w ∧ w.access = mode := by
  rw [resolveAccess_eq hKind]
  constructor
  · intro h
    cases hRes : resolve (policy.resolvedEntriesWithCwd host cwd) p.components with
    | none =>
      rw [hRes] at h
      exact absurd h.symm hMode
    | some found =>
      rw [hRes] at h
      obtain ⟨w, hWins, hValue⟩ := resolve_eq_some_iff.mp hRes
      exact ⟨w, hWins, hValue.trans h⟩
  · rintro ⟨w, hWins, hAccess⟩
    rw [hWins.resolve_eq]
    exact hAccess

/-- A path is readable if the entry that decides is no denial. -/
theorem canRead_resolveAccess_iff :
    (policy.resolveAccessWithCwd host p.toPathBuf cwd).canRead = true ↔
      ∃ w, Wins (policy.resolvedEntriesWithCwd host cwd) p.components w ∧ w.access ≠ .deny := by
  rw [canRead_iff]
  constructor
  · intro h
    obtain ⟨w, hWins, hAccess⟩ := (resolveAccess_eq_iff hKind h).mp rfl
    exact ⟨w, hWins, hAccess ▸ h⟩
  · rintro ⟨w, hWins, hAccess⟩
    rw [(resolveAccess_eq_iff hKind hAccess).mpr ⟨w, hWins, rfl⟩]
    exact hAccess

/-- A path is writable if the entry that decides is a write. -/
theorem canWrite_resolveAccess_iff :
    (policy.resolveAccessWithCwd host p.toPathBuf cwd).canWrite = true ↔
      ∃ w, Wins (policy.resolvedEntriesWithCwd host cwd) p.components w ∧ w.access = .write := by
  rw [canWrite_iff, resolveAccess_eq_iff hKind (by decide)]

/-- Without glob entries no glob is unreadable. -/
theorem getUnreadableGlobs_eq_nil
    (hGlobs : ∀ entry ∈ policy.entries, ∀ pattern, entry.path ≠ .globPattern pattern) :
    policy.getUnreadableGlobsWithCwd host cwd = [] := by
  rw [eq_nil_iff_forall_not_mem]
  intro text hMem
  unfold getUnreadableGlobsWithCwd at hMem
  rw [if_neg (not_not_intro hKind), mem_foldl_pushUnique, mem_filterMap] at hMem
  rcases hMem with hMem | ⟨entry, hEntry, hSome⟩
  · cases hMem
  · split at hSome
    · rename_i pattern _ hPath
      exact hGlobs entry hEntry pattern hPath
    · cases hSome

end

/-! ## Without symlinks -/

section NoSymlinks

variable (hHost : host.NoSymlinks)
include hHost

/-- Without symlinks a path is its only candidate. -/
theorem normalizedAndCanonicalCandidates_eq (p : AbsolutePathBuf) :
    normalizedAndCanonicalCandidates host p = [p] := by
  unfold normalizedAndCanonicalCandidates
  cases hCanon : host.canonicalize p with
  | none => rfl
  | some canonical =>
    have hEq := hHost.canonicalize_eq p canonical hCanon
    simp [pushUnique, hEq]

theorem canonicalizePreservingSymlinks_eq (p : AbsolutePathBuf) :
    canonicalizePreservingSymlinks host p = p := by
  unfold canonicalizePreservingSymlinks
  cases hCanon : host.canonicalize p with
  | none => rfl
  | some canonical =>
    have hEq := hHost.canonicalize_eq p canonical hCanon
    simp [hEq]

/-- An ancestor that exists stands for itself. -/
theorem normalizeEffectiveAbsolutePath_eq (p : AbsolutePathBuf) :
    normalizeEffectiveAbsolutePath host p = p := by
  unfold normalizeEffectiveAbsolutePath
  split
  · rename_i ancestor hFind
    have hMem := mem_of_find?_eq_some hFind
    rw [AbsolutePathBuf.ancestors, mem_map] at hMem
    obtain ⟨names, hNames, rfl⟩ := hMem
    rw [mem_reverse, mem_inits] at hNames
    obtain ⟨suffix, hSuffix⟩ := hNames
    rw [canonicalizePreservingSymlinks_eq hHost]
    ext1
    simp [← hSuffix]
  · rfl

theorem map_normalizeEffective (paths : List AbsolutePathBuf) :
    paths.map (normalizeEffectiveAbsolutePath host) = paths := by
  rw [map_congr_left fun p _ => normalizeEffectiveAbsolutePath_eq hHost p, map_id']

/-- The unreadable roots are the resolved deny entries, except the filesystem
root. A deny entry always wins at its own path, so the readability filter of the
source removes nothing. -/
theorem mem_getUnreadableRoots (hKind : policy.kind = .restricted) {u : AbsolutePathBuf} :
    u ∈ policy.getUnreadableRootsWithCwd host cwd ↔
      (cwdAbsolute host cwd).map (fun _ => AbsolutePathBuf.root) ≠ some u ∧
        ⟨u, .deny⟩ ∈ policy.resolvedEntriesWithCwd host cwd := by
  have hDenied : ∀ r ∈ policy.resolvedEntriesWithCwd host cwd, r.access = .deny →
      policy.canReadPathWithCwd host r.path.toPathBuf cwd = false := by
    intro r hMem hAccess
    rw [← Bool.not_eq_true, canReadPathWithCwd, canRead_resolveAccess_iff hKind]
    rintro ⟨w, hWins, hwAccess⟩
    exact hwAccess (deny_of_wins hWins hMem hAccess hWins.2.1 (prefix_refl _))
  unfold getUnreadableRootsWithCwd dedupEffectivePaths
  simp only [hKind, ne_eq, not_true_eq_false, if_false, map_normalizeEffective hHost,
    mem_foldl_pushUnique, not_mem_nil, false_or, mem_map, mem_filter, Bool.and_eq_true, beq_iff_eq,
    bne_iff_ne]
  constructor
  · rintro ⟨r, ⟨hMem, ⟨hAccess, -⟩, hRoot⟩, rfl⟩
    refine ⟨hRoot, ?_⟩
    rw [← hAccess]
    exact hMem
  · rintro ⟨hRoot, hMem⟩
    refine ⟨⟨u, .deny⟩, ⟨hMem, ⟨rfl, ?_⟩, hRoot⟩, rfl⟩
    rw [hDenied _ hMem rfl]
    rfl

/-- **Subtree denial.** With no deny globs, the matcher refuses exactly what lies
at or below an unreadable root. -/
theorem isReadDenied_iff (hKind : policy.kind = .restricted)
    (hGlobs : ∀ entry ∈ policy.entries, ∀ pattern, entry.path ≠ .globPattern pattern) :
    ((ReadDenyMatcher.new policy host cwd).any fun matcher => matcher.isReadDenied host p) = true ↔
      ∃ u ∈ policy.getUnreadableRootsWithCwd host cwd, u.components <+: p.components := by
  have hNoGlobs : policy.getUnreadableGlobsWithCwd host cwd = [] :=
    getUnreadableGlobs_eq_nil hKind hGlobs
  have hNone : policy.hasDeniedReadRestrictions = false →
      policy.getUnreadableRootsWithCwd host cwd = [] := by
    intro hNo
    rw [eq_nil_iff_forall_not_mem]
    intro u hu
    obtain ⟨entry, hMem, -, hAccess⟩ :=
      mem_resolvedEntries.mp ((mem_getUnreadableRoots hHost hKind).mp hu).2
    have hAny : policy.entries.any (fun entry => entry.access == .deny) = true :=
      any_eq_true.mpr ⟨entry, hMem, by rw [hAccess]; rfl⟩
    rw [hasDeniedReadRestrictions, hKind, hAny] at hNo
    cases hNo
  unfold ReadDenyMatcher.new
  rcases hHas : policy.hasDeniedReadRestrictions with _ | _
  -- without restrictions there is no matcher, and no root
  · simp [hNone hHas]
  simp only [ReadDenyMatcher.isReadDenied, normalizedAndCanonicalCandidates_eq hHost, any_cons,
    any_nil, Bool.or_false, Bool.not_true,
    Bool.false_eq_true, ↓reduceIte, Function.comp_apply, hNoGlobs,
    filterMap_nil, map_nil, Option.any_some, any_map, any_eq_true, Bool.or_eq_true,
    beq_iff_eq, AbsolutePathBuf.startsWith_iff]
  constructor
  · rintro ⟨u, hu, rfl | hPre⟩
    · exact ⟨p, hu, prefix_refl _⟩
    · exact ⟨u, hu, hPre⟩
  · rintro ⟨u, hu, hPre⟩
    exact ⟨u, hu, Or.inr hPre⟩

end NoSymlinks

end Codex
