import Codex.Permissions.Access

/-!
# Codex — a grant cut down to the request

`intersect_permission_profiles` keeps the granted entries that the request
covers *at their own path*, and adds back the deny entries of both sides that
overlap a kept entry. On concrete entries and without symlinks:

* whatever the result lets a command read, both sides let it read, and whatever
  it lets a command write, the grant does (`requested_winner_of_wins`,
  `granted_winner_of_wins`);
* the request's own read-only carve-outs below an accepted write grant are *not*
  added back, so the result stays within the request for writes exactly when no
  such carve-out is exposed (`CarveoutsKept`).
-/

namespace Codex

open Nearest FileSystemSandboxPolicy List

variable {host : Host} {cwd : PathBuf}

/-- A concrete path or a project root. -/
def FileSystemSandboxEntry.isConcrete (entry : FileSystemSandboxEntry) : Bool :=
  match entry.path with
  | .path _ | .special (.projectRoots _) => true
  | .globPattern _ | .special _ => false

/-- All entries are concrete paths or project roots. -/
def ConcreteEntries (entries : List FileSystemSandboxEntry) : Prop :=
  ∀ entry ∈ entries, entry.isConcrete = true

/-- `granted_file_system_entry_within_request`, as `intersect_permission_profiles` calls it. -/
def withinRequest (host : Host) (cwd : PathBuf) (requested : FileSystemPermissions)
    (entry : FileSystemSandboxEntry) : Bool :=
  grantedFileSystemEntryWithinRequest host requested (restricted requested.entries)
    (ReadDenyMatcher.new (restricted requested.entries) host cwd) cwd entry

/-- The resolved entries of the grant that the request covers. -/
def acceptedRules (host : Host) (cwd : PathBuf) (requested granted : FileSystemPermissions) :
    List ResolvedFileSystemEntry :=
  rules host cwd (granted.entries.filter (withinRequest host cwd requested))

/-- No read-only entry of the request lies exposed below an accepted write grant:
between the two, or at the grant itself, there is a deny entry of either side, or
there is another accepted entry on the way down. -/
def CarveoutsKept (host : Host) (cwd : PathBuf) (requested granted : FileSystemPermissions) :
    Prop :=
  ∀ g ∈ acceptedRules host cwd requested granted, g.access = .write →
    ∀ q ∈ rules host cwd requested.entries, g.path.components <+: q.path.components →
      g.path ≠ q.path →
      (restricted requested.entries).resolveAccessWithCwd host q.path.toPathBuf cwd = .read →
      (∃ d ∈ rules host cwd requested.entries ++ rules host cwd granted.entries,
        d.access = .deny ∧ g.path.components <+: d.path.components ∧
          d.path.components <+: q.path.components) ∨
      ∃ a ∈ acceptedRules host cwd requested granted,
        g.path.components <+: a.path.components ∧ g.path ≠ a.path ∧
          a.path.components <+: q.path.components

instance (entries : List FileSystemSandboxEntry) : Decidable (ConcreteEntries entries) :=
  inferInstanceAs (Decidable (∀ entry ∈ entries, entry.isConcrete = true))

instance (requested granted : FileSystemPermissions) :
    Decidable (CarveoutsKept host cwd requested granted) := by
  have hImp (p q : Prop) [Decidable p] [Decidable q] : Decidable (p → q) := instDecidableForall
  unfold CarveoutsKept
  infer_instance

/-! ## Concrete entries -/

variable {entry : FileSystemSandboxEntry}

section

variable (hEntry : entry.isConcrete = true)
include hEntry

theorem resolvePermissionPath_eq :
    resolvePermissionPath host cwd entry.path =
      resolveEntryPath host (cwdAbsolute host cwd) entry.path := by
  obtain ⟨path, access⟩ := entry
  match path with
  | .path _ => rfl
  | .special (.projectRoots subpath) =>
    cases hCwd : cwdAbsolute host cwd <;> cases subpath <;>
      simp [resolvePermissionPath, resolveEntryPath, resolveFileSystemPath,
        resolveFileSystemSpecialPath, hCwd]

theorem not_glob_of_isConcrete (pattern : Text) : entry.path ≠ .globPattern pattern := by
  intro hPath
  rw [FileSystemSandboxEntry.isConcrete, hPath] at hEntry
  cases hEntry

/-- Materializing an entry changes its spelling, not what it resolves to. -/
theorem resolvesTo_materialize {r : ResolvedFileSystemEntry} :
    ResolvesTo host cwd (materializeCwdDependentEntry host cwd entry) r ↔
      ResolvesTo host cwd entry r := by
  have hPath : resolvePermissionPath host cwd entry.path =
      resolveEntryPath host (cwdAbsolute host cwd) entry.path := resolvePermissionPath_eq hEntry
  obtain ⟨path, access⟩ := entry
  match path with
  | .path _ => rfl
  | .special (.projectRoots subpath) =>
    unfold materializeCwdDependentEntry ResolvesTo
    cases hRes : resolvePermissionPath host cwd (.special (.projectRoots subpath)) with
    | none => exact Iff.rfl
    | some p =>
      rw [hRes] at hPath
      rw [← hPath]
      rfl

end

/-! ## What the intersection consists of -/

section Intersection

variable {requested granted : FileSystemPermissions}

variable {r : ResolvedFileSystemEntry} {entry : FileSystemSandboxEntry}
variable {a : ResolvedFileSystemEntry}

theorem mem_rules_accepted (hGranted : ConcreteEntries granted.entries) :
    r ∈ rules host cwd (acceptedGrantEntries host cwd requested granted) ↔
      r ∈ acceptedRules host cwd requested granted := by
  unfold acceptedGrantEntries acceptedRules
  rw [mem_rules, mem_rules]
  simp only [mem_foldl_pushUnique, not_mem_nil, false_or, mem_map, exists_exists_and_eq_and]
  exact exists_congr fun entry => and_congr_right fun hEntry =>
    resolvesTo_materialize (hGranted entry (mem_filter.mp hEntry).1)

/-- Being accepted depends only on the resolved entry. -/
theorem accepted_iff (hHost : host.NoSymlinks) (hRequested : ConcreteEntries requested.entries)
    (hGranted : ConcreteEntries granted.entries) :
    a ∈ acceptedRules host cwd requested granted ↔
      a ∈ rules host cwd granted.entries ∧ a.access ≠ .deny ∧
        (¬ ∃ u ∈ (restricted requested.entries).getUnreadableRootsWithCwd host cwd,
          u.components <+: a.path.components) ∧
        accessCovers ((restricted requested.entries).resolveAccessWithCwd host
          a.path.toPathBuf cwd) a.access = true := by
  unfold acceptedRules
  rw [mem_rules, mem_rules, ← exists_and_right]
  refine exists_congr fun entry => ?_
  rw [mem_filter, and_right_comm]
  refine and_congr_right fun ⟨hMem, hRes⟩ => ?_
  have hPath := (resolvePermissionPath_eq (hGranted entry hMem)).trans hRes.1
  have hGlobs : ∀ entry ∈ (restricted requested.entries).entries, ∀ pattern,
      entry.path ≠ .globPattern pattern :=
    fun entry h => not_glob_of_isConcrete (hRequested entry h)
  rw [← isReadDenied_iff hHost rfl hGlobs]
  unfold withinRequest grantedFileSystemEntryWithinRequest
  rw [hPath, hRes.2]
  simp

section

variable (hGranted : ConcreteEntries granted.entries)
include hGranted

/-- Accepted entries as the source lists them: concrete, and never a denial. -/
theorem acceptedGrantEntries_spec
    (hEntry : entry ∈ acceptedGrantEntries host cwd requested granted) :
    entry.isConcrete = true ∧ entry.access ≠ .deny := by
  unfold acceptedGrantEntries at hEntry
  simp only [mem_foldl_pushUnique, not_mem_nil, false_or, mem_map] at hEntry
  obtain ⟨source, hSource, rfl⟩ := hEntry
  obtain ⟨hMem, hWithin⟩ := mem_filter.mp hSource
  have hConcrete := hGranted source hMem
  refine ⟨?_, ?_⟩
  · obtain ⟨path, access⟩ := source
    match path with
    | .path _ => rfl
    | .special (.projectRoots subpath) =>
      unfold materializeCwdDependentEntry
      cases hRes : resolvePermissionPath host cwd (.special (.projectRoots subpath)) <;> rfl
  have hAccess : (materializeCwdDependentEntry host cwd source).access = source.access := by
    unfold materializeCwdDependentEntry
    split
    · split <;> rfl
    · rfl
    · rfl
    · rfl
  intro hDeny
  rw [hAccess] at hDeny
  simp [grantedFileSystemEntryWithinRequest, hDeny] at hWithin

/-- A deny entry is retained when it lies above or below an accepted entry. -/
theorem denyEntryConstrains_iff (hEntry : entry.isConcrete = true)
    (hRes : ResolvesTo host cwd entry r) :
    denyEntryConstrainsAcceptedGrant host cwd (acceptedGrantEntries host cwd requested granted)
        entry = true ↔
      ∃ a ∈ acceptedRules host cwd requested granted,
        a.path.components <+: r.path.components ∨ r.path.components <+: a.path.components := by
  have hPath := (resolvePermissionPath_eq hEntry).trans hRes.1
  have hOverlap : ∀ grantPath : AbsolutePathBuf,
      denyEntryOverlapsGrant host cwd entry grantPath = true ↔
        grantPath.components <+: r.path.components ∨
          r.path.components <+: grantPath.components := by
    intro grantPath
    unfold denyEntryOverlapsGrant
    split
    · rename_i pattern hGlob
      exact absurd hGlob (not_glob_of_isConcrete hEntry pattern)
    · simp [hPath, pathsOverlap, AbsolutePathBuf.startsWith_iff]
    · simp [hPath, pathsOverlap, AbsolutePathBuf.startsWith_iff]
  unfold denyEntryConstrainsAcceptedGrant
  simp only [any_eq_true, mem_filter, Option.any_eq_true]
  constructor
  · rintro ⟨grant, ⟨hGrant, -⟩, grantPath, hGrantPath, hOver⟩
    have hSpec := acceptedGrantEntries_spec hGranted hGrant
    rw [resolvePermissionPath_eq hSpec.1] at hGrantPath
    exact ⟨⟨grantPath, grant.access⟩,
      (mem_rules_accepted hGranted).mp (mem_rules.mpr ⟨grant, hGrant, hGrantPath, rfl⟩),
      (hOverlap grantPath).mp hOver⟩
  · rintro ⟨a, ha, hOver⟩
    obtain ⟨grant, hGrant, hGrantRes⟩ := mem_rules.mp ((mem_rules_accepted hGranted).mpr ha)
    have hSpec := acceptedGrantEntries_spec hGranted hGrant
    refine ⟨grant, ⟨hGrant, canRead_iff.mpr hSpec.2⟩, a.path, ?_, (hOverlap a.path).mpr hOver⟩
    rw [resolvePermissionPath_eq hSpec.1, hGrantRes.1]

theorem mem_rules_retained {source : List FileSystemSandboxEntry}
    (hSource : ConcreteEntries source) :
    r ∈ rules host cwd (retainConstrainingDenyEntries host cwd source
        (acceptedGrantEntries host cwd requested granted)) ↔
      r ∈ rules host cwd source ∧ r.access = .deny ∧
        ∃ a ∈ acceptedRules host cwd requested granted,
          a.path.components <+: r.path.components ∨ r.path.components <+: a.path.components := by
  unfold retainConstrainingDenyEntries
  rw [mem_rules, mem_rules, ← exists_and_right]
  simp only [mem_map, mem_filter, beq_iff_eq, exists_exists_and_eq_and]
  refine exists_congr fun entry => ?_
  rw [and_assoc, and_assoc, and_assoc]
  refine and_congr_right fun hMem => ?_
  rw [resolvesTo_materialize (hSource entry hMem), ← and_assoc, and_comm]
  refine and_congr_right fun hRes => ?_
  rw [hRes.2, denyEntryConstrains_iff hGranted (hSource entry hMem) hRes]

end

/-- **What the intersection consists of**: the accepted entries, and the deny
entries of both sides that overlap one of them. -/
theorem mem_rules_intersect (hRequested : ConcreteEntries requested.entries)
    (hGranted : ConcreteEntries granted.entries) :
    r ∈ rules host cwd (intersectFileSystemPermissions host cwd requested granted).entries ↔
      r ∈ acceptedRules host cwd requested granted ∨
        (r ∈ rules host cwd requested.entries ++ rules host cwd granted.entries ∧
          r.access = .deny ∧
          ∃ a ∈ acceptedRules host cwd requested granted,
            a.path.components <+: r.path.components ∨ r.path.components <+: a.path.components) := by
  have hSplit : ∀ xs ys zs : List FileSystemSandboxEntry,
      r ∈ rules host cwd (zs.foldl pushUnique (ys.foldl pushUnique xs)) ↔
        (r ∈ rules host cwd xs ∨ r ∈ rules host cwd ys) ∨ r ∈ rules host cwd zs := by
    intro xs ys zs
    simp only [mem_rules, mem_foldl_pushUnique, or_and_right, exists_or]
  unfold intersectFileSystemPermissions
  rw [hSplit, mem_rules_accepted hGranted, mem_rules_retained hGranted hRequested,
    mem_rules_retained hGranted hGranted, mem_append, or_assoc, ← or_and_right]

/-! ## Winners of the intersection -/

section Winners

variable (hHost : host.NoSymlinks)
variable (hRequested : ConcreteEntries requested.entries)
variable (hGranted : ConcreteEntries granted.entries)
variable {p : List String} {g : ResolvedFileSystemEntry}

include hRequested hGranted

section

variable (hWins : Wins
  (rules host cwd (intersectFileSystemPermissions host cwd requested granted).entries) p g)
include hWins

theorem accepted_of_wins (hg : g.access ≠ .deny) : g ∈ acceptedRules host cwd requested granted := by
  rcases (mem_rules_intersect hRequested hGranted).mp hWins.1 with h | ⟨-, hDeny, -⟩
  · exact h
  · exact absurd hDeny hg

/-- Below a winning grant there is no denial of either side: it would have been
retained and would win itself. -/
theorem no_deny_below_winner (hg : g.access ≠ .deny) {d : ResolvedFileSystemEntry}
    (hd : d ∈ rules host cwd requested.entries ++ rules host cwd granted.entries)
    (hDeny : d.access = .deny) (hAbove : g.path.components <+: d.path.components)
    (hBelow : d.path.components <+: p) : False := by
  have hAccepted := accepted_of_wins hRequested hGranted hWins hg
  have hMem := (mem_rules_intersect hRequested hGranted).mpr
    (Or.inr ⟨hd, hDeny, g, hAccepted, Or.inl hAbove⟩)
  exact hg (deny_of_wins hWins hMem hDeny hAbove hBelow)

/-- No accepted entry lies strictly below a winning grant. -/
theorem no_accepted_below_winner (ha : a ∈ acceptedRules host cwd requested granted)
    (hAbove : g.path.components <+: a.path.components) (hNe : g.path ≠ a.path)
    (hBelow : a.path.components <+: p) : False := by
  have hMem := (mem_rules_intersect hRequested hGranted).mpr (Or.inl ha)
  exact hNe (AbsolutePathBuf.ext (hWins.beside hMem hBelow hAbove).1.symm)

include hHost

/-- Where the intersection lets a command read, the request does. -/
theorem requested_winner_of_wins (hg : g.access ≠ .deny) :
    ∃ w, Wins (rules host cwd requested.entries) p w ∧ w.access ≠ .deny ∧
      (g.access = .write → w.path.components <+: g.path.components → w.access = .write) := by
  have hAccepted := accepted_of_wins hRequested hGranted hWins hg
  obtain ⟨-, -, -, hCovers⟩ := (accepted_iff hHost hRequested hGranted).mp hAccepted
  -- what the request says at the grant's own path
  have hOwn : ∃ v, Wins (rules host cwd requested.entries) g.path.components v ∧
      v.access ≠ .deny ∧ (g.access = .write → v.access = .write) := by
    rcases accessCovers_iff.mp hCovers with ⟨hRead, hReq⟩ | ⟨hWrite, hReq⟩
    · obtain ⟨v, hv, hvAccess⟩ := (canRead_resolveAccess_iff rfl).mp (canRead_iff.mpr hReq)
      refine ⟨v, hv, hvAccess, fun h => ?_⟩
      rw [hRead] at h
      cases h
    · obtain ⟨v, hv, hvAccess⟩ := (canWrite_resolveAccess_iff rfl).mp (canWrite_iff.mpr hReq)
      refine ⟨v, hv, ?_, fun _ => hvAccess⟩
      rw [hvAccess]
      decide
  obtain ⟨v, hv, hvAccess, hvWrite⟩ := hOwn
  obtain ⟨w, hw⟩ := exists_wins hv.1 (hv.2.1.trans hWins.2.1)
  have hSame : w.path.components <+: g.path.components → w.access = v.access := fun hPre =>
    (hw.of_between hPre hWins.2.1).value_unique hv
  refine ⟨w, hw, ?_, fun hWrite hPre => (hSame hPre).trans (hvWrite hWrite)⟩
  intro hDeny
  rcases prefix_or_prefix hw.2.1 hWins.2.1 with hPre | ⟨hPre, -⟩
  · exact hvAccess ((hSame hPre).symm.trans hDeny)
  · exact no_deny_below_winner hRequested hGranted hWins hg (mem_append_left _ hw.1) hDeny
      hPre hw.2.1

/-- Where the intersection lets a command read or write, so does the grant: a
narrower granted entry on the way down would have been accepted itself. -/
theorem granted_winner_of_wins (hg : g.access ≠ .deny) :
    ∃ w, Wins (rules host cwd granted.entries) p w ∧ w.access ≠ .deny ∧
      (g.access = .write → w.access = .write) := by
  have hAccepted := accepted_of_wins hRequested hGranted hWins hg
  obtain ⟨hgMem, -, hgRoots, -⟩ := (accepted_iff hHost hRequested hGranted).mp hAccepted
  obtain ⟨w, hw⟩ := exists_wins hgMem hWins.2.1
  -- the winner of the grant is at or below `g`
  have hBelow : g.path.components <+: w.path.components := hw.above hgMem hWins.2.1
  have hwAccess : w.access ≠ .deny := fun hDeny =>
    no_deny_below_winner hRequested hGranted hWins hg (mem_append_right _ hw.1) hDeny
      hBelow hw.2.1
  refine ⟨w, hw, hwAccess, fun hWrite => ?_⟩
  by_contra hNotWrite
  have hRead : w.access = .read := eq_read_iff.mpr ⟨hNotWrite, hwAccess⟩
  have hNe : g.path ≠ w.path := by
    intro hEq
    have hPre : w.path.components <+: g.path.components := by rw [hEq]
    have hLe : g.access ≤ w.access := (hw.beside hgMem hWins.2.1 hPre).2
    rw [hWrite, hRead] at hLe
    exact absurd hLe (by decide)
  -- `w` is accepted, hence retained below `g`
  have hwAccepted : w ∈ acceptedRules host cwd requested granted := by
    refine (accepted_iff hHost hRequested hGranted).mpr ⟨hw.1, hwAccess, ?_, ?_⟩
    · rintro ⟨u, hu, hPre⟩
      rcases prefix_or_prefix hPre hBelow with hAbove | ⟨hInside, -⟩
      · exact hgRoots ⟨u, hu, hAbove⟩
      · exact no_deny_below_winner hRequested hGranted hWins hg
          (mem_append_left _ ((mem_getUnreadableRoots hHost rfl).mp hu).2) rfl
          hInside (hPre.trans hw.2.1)
    · obtain ⟨v, hv, hvAccess, -⟩ := requested_winner_of_wins hHost hRequested hGranted
        (hWins.of_between hBelow hw.2.1) hg
      refine accessCovers_iff.mpr (Or.inl ⟨hRead, ?_⟩)
      exact canRead_iff.mp ((canRead_resolveAccess_iff rfl).mpr ⟨v, hv, hvAccess⟩)
  exact no_accepted_below_winner hRequested hGranted hWins hwAccepted hBelow hNe hw.2.1

/-- With the carve-outs kept, where the intersection lets a command write, the
request does. -/
theorem requested_write_of_wins (hKept : CarveoutsKept host cwd requested granted)
    (hg : g.access = .write) :
    ∃ w, Wins (rules host cwd requested.entries) p w ∧ w.access = .write := by
  have hgNe : g.access ≠ .deny := by rw [hg]; decide
  obtain ⟨w, hw, hwAccess, hAtGrant⟩ :=
    requested_winner_of_wins hHost hRequested hGranted hWins hgNe
  refine ⟨w, hw, ?_⟩
  rcases prefix_or_prefix hw.2.1 hWins.2.1 with hAbove | ⟨hBelow, hLt⟩
  · exact hAtGrant hg hAbove
  -- the request is decided strictly below the grant: by a write entry, or by an exposed read
  by_contra hNotWrite
  have hRead : w.access = .read := eq_read_iff.mpr ⟨hNotWrite, hwAccess⟩
  have hNe : g.path ≠ w.path := by
    intro hEq
    simp only [Rule.node, hEq] at hLt
    omega
  have hResolves : (restricted requested.entries).resolveAccessWithCwd host w.path.toPathBuf cwd
      = .read :=
    (resolveAccess_eq_iff rfl (by decide)).mpr
      ⟨w, hw.of_between (prefix_refl _) hw.2.1, hRead⟩
  have hAccepted := accepted_of_wins hRequested hGranted hWins hgNe
  rcases hKept g hAccepted hg w hw.1 hBelow hNe hResolves with
    ⟨d, hd, hDeny, hdAbove, hdBelow⟩ | ⟨a, ha, haAbove, haNe, haBelow⟩
  · exact no_deny_below_winner hRequested hGranted hWins hgNe hd hDeny hdAbove
      (hdBelow.trans hw.2.1)
  · exact no_accepted_below_winner hRequested hGranted hWins ha haAbove haNe
      (haBelow.trans hw.2.1)

end

/-- An exposed carve-out is writable in the intersection: the grant above it wins. -/
theorem wins_of_exposed {q : ResolvedFileSystemEntry}
    (hg : g ∈ acceptedRules host cwd requested granted) (hWrite : g.access = .write)
    (hAbove : g.path.components <+: q.path.components)
    (hNoDeny : ∀ d ∈ rules host cwd requested.entries ++ rules host cwd granted.entries,
      d.access = .deny → g.path.components <+: d.path.components →
        ¬ d.path.components <+: q.path.components)
    (hNoAccepted : ∀ a ∈ acceptedRules host cwd requested granted,
      g.path.components <+: a.path.components → g.path ≠ a.path →
        ¬ a.path.components <+: q.path.components) :
    Wins (rules host cwd (intersectFileSystemPermissions host cwd requested granted).entries)
      q.path.components g := by
  refine ⟨(mem_rules_intersect hRequested hGranted).mpr (Or.inl hg), hAbove, ?_⟩
  intro r hr hrPre
  rcases prefix_or_prefix hAbove hrPre with hBelow | ⟨-, hLt⟩
  · rcases (mem_rules_intersect hRequested hGranted).mp hr with ha | ⟨hd, hDeny, -⟩
    · by_cases hEq : g.path = r.path
      · right
        refine ⟨congrArg AbsolutePathBuf.components hEq.symm, ?_⟩
        show r.access ≤ g.access
        rw [hWrite, le_write_iff]
        -- an accepted entry is not a denial
        intro hDeny
        obtain ⟨entry, hEntry, hRes⟩ := mem_rules.mp ha
        have hWithin := (mem_filter.mp hEntry).2
        rw [← hRes.2] at hDeny
        simp [withinRequest, grantedFileSystemEntryWithinRequest, hDeny] at hWithin
      · exact absurd hrPre (hNoAccepted r ha hBelow hEq)
    · exact absurd hrPre (hNoDeny r hd hDeny hBelow)
  · exact Or.inl hLt

end Winners

end Intersection

/-! ## Profiles -/

/-- Dropping an empty `file_system` does not change the entries. -/
theorem entries_filter (network : Option NetworkPermissions) (fileSystem : FileSystemPermissions) :
    AdditionalPermissionProfile.entries
        { network, fileSystem := Option.filter (fun fs => !fs.isEmpty) (some fileSystem) } =
      fileSystem.entries := by
  rw [Option.filter_some]
  cases hEmpty : fileSystem.isEmpty with
  | false => rfl
  | true => exact (isEmpty_iff.mp hEmpty).symm

theorem intersect_entries {requested granted : AdditionalPermissionProfile}
    {requestedFileSystem : FileSystemPermissions}
    (hFs : requested.fileSystem = some requestedFileSystem) :
    (intersectPermissionProfiles host requested granted cwd).entries =
      (intersectFileSystemPermissions host cwd requestedFileSystem
        (granted.fileSystem.getD .default)).entries := by
  unfold intersectPermissionProfiles
  rw [hFs]
  exact entries_filter _ _

theorem entries_eq (profile : AdditionalPermissionProfile) :
    profile.entries = (profile.fileSystem.getD .default).entries := by
  unfold AdditionalPermissionProfile.entries
  cases profile.fileSystem <;> rfl

@[simp] theorem enablesNetwork_intersect {requested granted : AdditionalPermissionProfile} :
    (intersectPermissionProfiles host requested granted cwd).enablesNetwork =
      (requested.enablesNetwork && granted.enablesNetwork) := by
  unfold intersectPermissionProfiles
  cases h : requested.enablesNetwork && granted.enablesNetwork <;>
    simp [AdditionalPermissionProfile.enablesNetwork]

/-- The access a restricted policy with these entries gives to `p`. -/
def accessOf (host : Host) (cwd : PathBuf) (entries : List FileSystemSandboxEntry)
    (p : AbsolutePathBuf) : FileSystemAccessMode :=
  (restricted entries).resolveAccessWithCwd host p.toPathBuf cwd

/-- The result gives no access that one of the two sides does not give. -/
structure WithinBoth (host : Host) (cwd : PathBuf)
    (result requested granted : AdditionalPermissionProfile) : Prop where
  read : ∀ p, (accessOf host cwd result.entries p).canRead = true →
    (accessOf host cwd requested.entries p).canRead = true ∧
      (accessOf host cwd granted.entries p).canRead = true
  write : ∀ p, (accessOf host cwd result.entries p).canWrite = true →
    (accessOf host cwd requested.entries p).canWrite = true ∧
      (accessOf host cwd granted.entries p).canWrite = true
  network : result.enablesNetwork = true →
    requested.enablesNetwork = true ∧ granted.enablesNetwork = true

/-- **A grant stays within the request and the answer exactly when no carve-out
is exposed.** Reads and the network are always within both; a write exceeds the
request exactly below an accepted write grant, at a path where the request has a
read-only entry that nothing in the result reproduces. -/
theorem intersection_within_both_iff (hHost : host.NoSymlinks)
    {requested granted : AdditionalPermissionProfile}
    (hRequested : ConcreteEntries requested.entries) (hGranted : ConcreteEntries granted.entries) :
    WithinBoth host cwd (intersectPermissionProfiles host requested granted cwd) requested granted ↔
      CarveoutsKept host cwd (requested.fileSystem.getD .default)
        (granted.fileSystem.getD .default) := by
  cases hFs : requested.fileSystem with
  | none =>
    -- nothing was requested: the result has no entries, and there is nothing to carve out
    have hNone : (intersectPermissionProfiles host requested granted cwd).entries = [] := by
      simp [AdditionalPermissionProfile.entries, intersectPermissionProfiles, hFs]
    have hDenied : ∀ p, accessOf host cwd [] p = .deny := fun p => by
      rw [accessOf, resolveAccess_eq rfl]
      rfl
    constructor
    · intro _ g _ _ q hq
      cases hq
    intro _
    refine ⟨fun p h => ?_, fun p h => ?_, fun h => by simpa using h⟩
    · rw [hNone, hDenied] at h
      cases h
    · rw [hNone, hDenied] at h
      cases h
  | some requestedFileSystem =>
    rw [entries_eq] at hGranted
    rw [entries_eq, hFs] at hRequested
    rw [Option.getD_some]
    constructor
    · intro hWithin g hg hWrite q hq hAbove hNe hRead
      by_contra hExposed
      push Not at hExposed
      have hWins := wins_of_exposed hRequested hGranted hg hWrite hAbove hExposed.1 hExposed.2
      have hResult : (accessOf host cwd
          (intersectPermissionProfiles host requested granted cwd).entries q.path).canWrite
          = true := by
        rw [intersect_entries hFs]
        exact (canWrite_resolveAccess_iff rfl).mpr ⟨g, hWins, hWrite⟩
      have hReq := (hWithin.write q.path hResult).1
      rw [entries_eq, hFs, Option.getD_some, accessOf, hRead] at hReq
      cases hReq
    · intro hKept
      refine ⟨fun p h => ?_, fun p h => ?_, fun h => by simpa using h⟩
      · rw [intersect_entries hFs] at h
        obtain ⟨g, hWins, hg⟩ := (canRead_resolveAccess_iff rfl).mp h
        obtain ⟨v, hv, hvAccess, -⟩ :=
          requested_winner_of_wins hHost hRequested hGranted hWins hg
        obtain ⟨w, hw, hwAccess, -⟩ := granted_winner_of_wins hHost hRequested hGranted hWins hg
        rw [entries_eq, entries_eq, hFs]
        exact ⟨(canRead_resolveAccess_iff rfl).mpr ⟨v, hv, hvAccess⟩,
          (canRead_resolveAccess_iff rfl).mpr ⟨w, hw, hwAccess⟩⟩
      · rw [intersect_entries hFs] at h
        obtain ⟨g, hWins, hg⟩ := (canWrite_resolveAccess_iff rfl).mp h
        obtain ⟨v, hv, hvAccess⟩ :=
          requested_write_of_wins hHost hRequested hGranted hWins hKept hg
        obtain ⟨w, hw, -, hwAccess⟩ := granted_winner_of_wins hHost hRequested hGranted hWins
          (by rw [hg]; decide)
        rw [entries_eq, entries_eq, hFs]
        exact ⟨(canWrite_resolveAccess_iff rfl).mpr ⟨v, hv, hvAccess⟩,
          (canWrite_resolveAccess_iff rfl).mpr ⟨w, hw, hwAccess hg⟩⟩

/-- A read-only directory inside a requested write directory, and a grant of the
write alone. -/
def exposedRequest : AdditionalPermissionProfile :=
  { network := none
    fileSystem := some
      { entries := [⟨.path ⟨["a"]⟩, .write⟩, ⟨.path ⟨["a", "b"]⟩, .read⟩]
        globScanMaxDepth := none } }

def exposedGrant : AdditionalPermissionProfile :=
  { network := none
    fileSystem := some { entries := [⟨.path ⟨["a"]⟩, .write⟩], globScanMaxDepth := none } }

/-- The request keeps `/a/b` read-only, the result makes it writable. -/
theorem intersection_exposes_carveout :
    Host.bare.NoSymlinks ∧ ConcreteEntries exposedRequest.entries ∧
      ConcreteEntries exposedGrant.entries ∧
      accessOf .bare ⟨true, []⟩
        (intersectPermissionProfiles .bare exposedRequest exposedGrant ⟨true, []⟩).entries
        ⟨["a", "b"]⟩ = .write ∧
      accessOf .bare ⟨true, []⟩ exposedRequest.entries ⟨["a", "b"]⟩ = .read :=
  ⟨Host.bare_noSymlinks, by decide, by decide, by decide, by decide⟩

/-- Granting the carve-out along with the write keeps the result within both. -/
theorem intersection_within_both_of_full_grant :
    WithinBoth .bare ⟨true, []⟩
      (intersectPermissionProfiles .bare exposedRequest exposedRequest ⟨true, []⟩)
      exposedRequest exposedRequest :=
  (intersection_within_both_iff Host.bare_noSymlinks (by decide) (by decide)).mpr (by decide)

end Codex
