import Codex.Permissions.Writing

/-!
# Codex — what the writable roots admit

`getWritableRootsWithCwd` tells a sandbox which paths to open for writing. On a
machine without symlinks and `.git` pointer files, a root admits a path when

* no closed entry lies between them, and
* the path does not enter a metadata directory of the root that the root guards:
  one without an entry of its own that is protected because the root's entry leads,
  or because the directory is there already (`Guards`).

Result: `can_write_iff_admitted_iff`, the paths at which this agrees with
`canWritePathWithCwd`. They part ways only in the metadata directories of a
writable entry: a wider root may still admit what the nearer entry protects, and a
directory that is there stays read-only although an earlier entry lifts the protection.
-/

namespace Codex

open Nearest List AbsolutePathBuf FileSystemSandboxPolicy

/-- No symlinks, and no `.git` file that leads to another directory. -/
structure Machine.Plain (machine : Machine) : Prop extends machine.toHost.NoSymlinks where
  no_git_pointer : ∀ p, isGitPointerFile machine p = true → resolveGitdirFromFile machine p = none

/-- A metadata directory that stays read-only because it is there, or because it is
the `.codex` of the working directory. -/
def protectedByDefault (machine : Machine) (cwd : PathBuf) (root : AbsolutePathBuf)
    (name : String) : Bool :=
  machine.isDir (root.child name) || (name == ".git" && machine.isFile (root.child name)) ||
    (name == ".codex" && cwdAbsolute machine.toHost cwd == some root)

variable {machine : Machine} {cwd : PathBuf} {policy : FileSystemSandboxPolicy}
variable {p q r root : AbsolutePathBuf} {w : ResolvedFileSystemEntry} {name : String}

/-- The root keeps its metadata directory `name` read-only. -/
def Guards (policy : FileSystemSandboxPolicy) (machine : Machine) (cwd : PathBuf)
    (root : AbsolutePathBuf) (name : String) : Prop :=
  ¬EntryAt (policy.resolvedEntriesWithCwd machine.toHost cwd) (root.child name) ∧
    (Leads (policy.resolvedEntriesWithCwd machine.toHost cwd) root ∨
      protectedByDefault machine cwd root name = true)

/-- The way from `root` down to `p` is open: no closed entry on it, no guarded metadata
directory entered. -/
structure Reaches (policy : FileSystemSandboxPolicy) (machine : Machine) (cwd : PathBuf)
    (root p : AbsolutePathBuf) : Prop where
  above : root.components <+: p.components
  not_closed : ∀ q, ClosedAt (policy.resolvedEntriesWithCwd machine.toHost cwd) q →
    root.components <+: q.components → q ≠ root → ¬q.components <+: p.components
  not_guarded : ∀ name ∈ protectedMetadataPathNames,
    (root.child name).components <+: p.components → ¬Guards policy machine cwd root name

/-! ## The parts of a writable root -/

theorem mem_defaultReadOnlySubpaths (hMachine : machine.Plain) :
    q ∈ defaultReadOnlySubpathsForWritableRoot machine root
        ((cwdAbsolute machine.toHost cwd).any fun cwd => cwd == root) ↔
      ∃ name ∈ protectedMetadataPathNames, q = root.child name ∧
        protectedByDefault machine cwd root name = true := by
  have hNoPointer : (if isGitPointerFile machine (root.child ".git") then
      (resolveGitdirFromFile machine (root.child ".git")).toList else []) = [] := by
    split
    · rename_i hPointer
      rw [hMachine.no_git_pointer _ hPointer, Option.toList_none]
    · rfl
  have hCwd : ((cwdAbsolute machine.toHost cwd).any fun cwd => cwd == root) =
      (cwdAbsolute machine.toHost cwd == some root) := by
    cases cwdAbsolute machine.toHost cwd <;> rfl
  unfold defaultReadOnlySubpathsForWritableRoot
  simp only [hNoPointer, hCwd, mem_foldl_pushUnique, mem_append, mem_ite_nil_right,
    protectedMetadataPathNames, mem_cons, exists_eq_or_imp, protectedByDefault, Bool.or_eq_true,
    Bool.and_eq_true]
  tauto

theorem readOnlyCarveout_eq_some_iff (hMachine : machine.Plain) {raws : List AbsolutePathBuf}
    (hRaws : ∀ raw ∈ raws, raw = root) {s : AbsolutePathBuf} :
    readOnlyCarveout machine.toHost root raws q = some s ↔
      s = q ∧ q ≠ root ∧ root.components <+: q.components := by
  unfold readOnlyCarveout
  simp only [normalizeEffectiveAbsolutePath_eq hMachine.toNoSymlinks]
  by_cases hUnder : q ≠ root ∧ root.components <+: q.components
  · have hStarts : q.startsWith root = true := startsWith_iff.mpr hUnder.2
    rw [hStarts]
    have hNe : (q == root) = false := by simpa using hUnder.1
    -- a root with a parent gives the path first, any other one last
    cases root.parent.isSome with
    | true => simp [hUnder, eq_comm]
    | false => simp [hNe, hUnder, eq_comm]
  · -- no raw root contains the entry either
    have hRawNone : (raws.findSome? fun rawRoot =>
        if q.startsWith rawRoot && q != rawRoot then
          some (root.join machine.toPathEnv
            { hasRoot := false
              components := (q.components.drop rawRoot.components.length).map .normal })
        else none) = none := by
      rw [findSome?_eq_none_iff]
      intro raw hRaw
      rw [hRaws raw hRaw, if_neg]
      rw [Bool.and_eq_true, bne_iff_ne, startsWith_iff]
      exact fun h => hUnder ⟨h.2, h.1⟩
    have hFinal : ¬(s = q ∧ q ≠ root ∧ root.components <+: q.components) := fun h => hUnder h.2
    simp only [hFinal]
    by_cases hEq : q = root
    · simp [hEq]
    · have hNot : q.startsWith root = false := by
        rw [← Bool.not_eq_true, startsWith_iff]
        exact fun h => hUnder ⟨hEq, h⟩
      simp only [hNot, hRawNone, if_false, ite_self, Bool.not_false,
        Bool.or_true, if_true, reduceCtorEq]

section Plain

variable (hMachine : machine.Plain) (hKind : policy.kind = .restricted)
  (hFull : policy.hasFullDiskWriteAccess = false)
include hMachine hKind hFull

theorem mem_readOnlySubpaths : q ∈ (policy.writableRootAt machine cwd root).readOnlySubpaths ↔
      (∃ name ∈ protectedMetadataPathNames, q = root.child name ∧
        protectedByDefault machine cwd root name = true ∧
        ¬EntryAt (policy.resolvedEntriesWithCwd machine.toHost cwd) q) ∨
      (ClosedAt (policy.resolvedEntriesWithCwd machine.toHost cwd) q ∧ q ≠ root ∧
        root.components <+: q.components) := by
  unfold writableRootAt
  have hRaws : ∀ raw ∈ (policy.writableEntries machine.toHost cwd).filter
      (fun path => normalizeEffectiveAbsolutePath machine.toHost path == root), raw = root := by
    intro raw hRaw
    have hEq := (mem_filter.mp hRaw).2
    rw [normalizeEffectiveAbsolutePath_eq hMachine.toNoSymlinks, beq_iff_eq] at hEq
    exact hEq
  have hExplicit : hasExplicitResolvedPathEntry (policy.resolvedEntriesWithCwd machine.toHost cwd) q
      = true ↔ EntryAt (policy.resolvedEntriesWithCwd machine.toHost cwd) q := by
    unfold hasExplicitResolvedPathEntry
    rw [any_eq_true]
    constructor
    · rintro ⟨e, hIn, hPath⟩
      exact ⟨e.access, beq_iff_eq.mp hPath ▸ hIn⟩
    · rintro ⟨access, hIn⟩
      exact ⟨_, hIn, beq_self_eq_true _⟩
  simp only [normalizeEffectiveAbsolutePath_eq hMachine.toNoSymlinks] at hRaws ⊢
  rw [mem_foldl_pushUnique, mem_append, mem_filter, mem_filterMap,
    mem_defaultReadOnlySubpaths hMachine, Bool.not_eq_true', ← Bool.not_eq_true, hExplicit]
  simp only [not_mem_nil, false_or, mem_filter, readOnlyCarveout_eq_some_iff hMachine hRaws,
    Bool.and_eq_true, Bool.not_eq_true', ← Bool.not_eq_true (b := canWritePathWithCwd _ _ _ _)]
  refine or_congr ?_ ?_
  · constructor
    · rintro ⟨⟨name, hn, rfl, hDefault⟩, hNone⟩
      exact ⟨name, hn, rfl, hDefault, hNone⟩
    · rintro ⟨name, hn, rfl, hDefault, hNone⟩
      exact ⟨⟨name, hn, rfl, hDefault⟩, hNone⟩
  · constructor
    · rintro ⟨e, ⟨hIn, -, hCannot⟩, rfl, hNe, hPre⟩
      exact ⟨⟨⟨_, hIn⟩, fun hOpen =>
        hCannot ((canWritePath_at_entry hKind hFull ⟨_, hIn⟩).mpr hOpen)⟩, hNe, hPre⟩
    rintro ⟨⟨hEntry, hNotOpen⟩, hNe, hPre⟩
    obtain ⟨e, hIn, hPath, hNonWrite⟩ :
        ∃ e ∈ policy.resolvedEntriesWithCwd machine.toHost cwd, e.path = q ∧ e.access ≠ .write := by
      obtain ⟨access, hIn⟩ := hEntry
      by_cases hWrite : access = .write
      · have hDeny : ⟨q, .deny⟩ ∈ policy.resolvedEntriesWithCwd machine.toHost cwd := by
          by_contra hNo
          exact hNotOpen ⟨hWrite ▸ hIn, hNo⟩
        exact ⟨_, hDeny, rfl, fun h => nomatch h⟩
      · exact ⟨_, hIn, rfl, hWrite⟩
    subst hPath
    refine ⟨e, ⟨hIn, ?_, ?_⟩, rfl, hNe, hPre⟩
    · rw [← Bool.not_eq_true, canWrite_iff]
      exact hNonWrite
    · rw [canWritePath_at_entry hKind hFull ⟨_, hIn⟩]
      exact hNotOpen

omit hKind hFull in
theorem mem_protectedMetadataNames :
    name ∈ (policy.writableRootAt machine cwd root).protectedMetadataNames ↔
      name ∈ protectedMetadataPathNames ∧
        ¬policy.canWritePathWithCwd machine.toHost (root.child name).toPathBuf cwd = true := by
  unfold writableRootAt protectedMetadataNamesForWritableRoot
  simp only [mem_filter, all_eq_true, map_cons, mem_cons, mem_map,
    normalizeEffectiveAbsolutePath_eq hMachine.toNoSymlinks, beq_iff_eq, Bool.not_eq_true',
    Bool.not_eq_true]
  refine and_congr_right fun _ => ⟨fun h => h _ (Or.inl rfl), fun h path hPath => ?_⟩
  rcases hPath with rfl | ⟨raw, ⟨-, rfl⟩, rfl⟩
  · exact h
  · exact h

/-! ## What a root admits -/

/-- The roots are the open entries. -/
theorem mem_getWritableRoots {given : WritableRoot} :
    given ∈ policy.getWritableRootsWithCwd machine cwd ↔
      ∃ root, OpenAt (policy.resolvedEntriesWithCwd machine.toHost cwd) root ∧
        policy.writableRootAt machine cwd root = given := by
  unfold getWritableRootsWithCwd dedupEffectivePaths
  rw [hFull]
  simp [map_normalizeEffective hMachine.toNoSymlinks, mem_foldl_pushUnique,
    mem_writableEntries hKind hFull]

/-- An open root admits exactly the paths that it reaches. -/
theorem isPathWritable_writableRootAt_iff
    (hOpen : OpenAt (policy.resolvedEntriesWithCwd machine.toHost cwd) root) :
    (policy.writableRootAt machine cwd root).isPathWritable p = true ↔
      Reaches policy machine cwd root p := by
  have hRoot : (policy.writableRootAt machine cwd root).root = root := rfl
  by_cases hAbove : root.components <+: p.components
  · have hStarts : p.startsWith root = true := startsWith_iff.mpr hAbove
    have hNames : (policy.writableRootAt machine cwd root).pathContainsProtectedMetadataName p = true ↔
        ∃ name, (root.child name).components <+: p.components ∧
          name ∈ (policy.writableRootAt machine cwd root).protectedMetadataNames := by
      unfold WritableRoot.pathContainsProtectedMetadataName
      rw [hRoot, if_pos hStarts]
      simp only [← head?_drop_eq_some_iff hAbove]
      cases (p.components.drop root.components.length).head? with
      | none | some _ => simp
    have hAdmits : (policy.writableRootAt machine cwd root).isPathWritable p = true ↔
        (∀ s ∈ (policy.writableRootAt machine cwd root).readOnlySubpaths,
          ¬s.components <+: p.components) ∧
        ∀ name ∈ (policy.writableRootAt machine cwd root).protectedMetadataNames,
          ¬(root.child name).components <+: p.components := by
      unfold WritableRoot.isPathWritable
      rw [hRoot, hStarts, Bool.not_true, if_neg Bool.false_ne_true, Bool.if_false_left,
        Bool.and_eq_true, Bool.not_eq_true', Bool.not_eq_true', ← Bool.not_eq_true,
        ← Bool.not_eq_true (WritableRoot.pathContainsProtectedMetadataName _ _), hNames,
        decide_eq_true_eq, any_eq_true]
      simp only [startsWith_iff, not_exists, not_and]
      exact and_congr_right fun _ => forall_congr' fun name => imp_not_comm
    rw [hAdmits]
    constructor
    · rintro ⟨hSubpaths, hProtected⟩
      refine ⟨hAbove, fun q hClosed hBelow hNe => ?_, fun name hMem hChild => ?_⟩
      · exact hSubpaths q ((mem_readOnlySubpaths hMachine hKind hFull).mpr
          (Or.inr ⟨hClosed, hNe, hBelow⟩))
      rintro ⟨hNoEntry, hLeads | hDefault⟩
      · refine hProtected name ((mem_protectedMetadataNames hMachine).mpr ⟨hMem, ?_⟩) hChild
        rw [canWritePath_child_iff hKind hFull hOpen hMem fun hClosed => hNoEntry hClosed.1]
        exact fun h => h.elim hNoEntry fun hNot => hNot hLeads
      · exact hSubpaths _ ((mem_readOnlySubpaths hMachine hKind hFull).mpr
          (Or.inl ⟨name, hMem, rfl, hDefault, hNoEntry⟩)) hChild
    · intro hReach
      refine ⟨fun s hs hPre => ?_, fun name hn hChild => ?_⟩
      · rcases (mem_readOnlySubpaths hMachine hKind hFull).mp hs with
          ⟨name, hMem, rfl, hDefault, hNoEntry⟩ | ⟨hClosed, hNe, hBelow⟩
        · exact hReach.not_guarded name hMem hPre ⟨hNoEntry, Or.inr hDefault⟩
        · exact hReach.not_closed s hClosed hBelow hNe hPre
      · obtain ⟨hMem, hCannot⟩ := (mem_protectedMetadataNames hMachine).mp hn
        have hNotClosed : ¬ClosedAt (policy.resolvedEntriesWithCwd machine.toHost cwd)
            (root.child name) := by
          intro hClosed
          exact hReach.not_closed _ hClosed prefix_child child_ne hChild
        rw [canWritePath_child_iff hKind hFull hOpen hMem hNotClosed, not_or, not_not] at hCannot
        exact hReach.not_guarded name hMem hChild ⟨hCannot.1, Or.inl hCannot.2⟩
  · have hNot : p.startsWith root = false := by
      rw [← Bool.not_eq_true, startsWith_iff]
      exact hAbove
    unfold WritableRoot.isPathWritable
    rw [hRoot, hNot, Bool.not_false]
    exact ⟨fun h => absurd h Bool.false_ne_true, fun h => absurd h.above hAbove⟩

/-! ## Agreement -/

omit hMachine hKind hFull in
/-- The entry that decides a path for writing reaches it, up to its own guards. -/
theorem reaches_of_wins
    (hWins : Wins (policy.resolvedEntriesWithCwd machine.toHost cwd) p.components w) :
    Reaches policy machine cwd w.path p ↔
      ∀ name ∈ protectedMetadataPathNames, (w.path.child name).components <+: p.components →
        ¬Leads (policy.resolvedEntriesWithCwd machine.toHost cwd) w.path ∧
          ¬protectedByDefault machine cwd w.path name = true := by
  have hNoEntry : ∀ q, w.path.components <+: q.components → q ≠ w.path →
      q.components <+: p.components →
      ¬EntryAt (policy.resolvedEntriesWithCwd machine.toHost cwd) q := by
    intro q hBelow hNe hPre hEntry
    have hLe := length_le_of_wins hWins hEntry hPre
    exact hNe (AbsolutePathBuf.ext (hBelow.eq_of_length (le_antisymm hBelow.length_le hLe)).symm)
  constructor
  · intro hReach name hMem hChild
    have hNot := hReach.not_guarded name hMem hChild
    unfold Guards at hNot
    rw [not_and, not_or] at hNot
    exact hNot (hNoEntry _ prefix_child child_ne hChild)
  · intro hFree
    refine ⟨hWins.2.1, fun q hClosed hBelow hNe hPre => hNoEntry q hBelow hNe hPre hClosed.1, ?_⟩
    rintro name hMem hChild ⟨-, hLeads | hDefault⟩
    · exact (hFree name hMem hChild).1 hLeads
    · exact (hFree name hMem hChild).2 hDefault

end Plain

/-- A wider writable root than the one at `w` reaches `p`. -/
def WiderReach (policy : FileSystemSandboxPolicy) (machine : Machine) (cwd : PathBuf)
    (w p : AbsolutePathBuf) : Prop :=
  ∃ root, root ≠ w ∧ OpenAt (policy.resolvedEntriesWithCwd machine.toHost cwd) root ∧
    Reaches policy machine cwd root p

/-- The metadata directories of the entry that decides `p` are settled at `p`: if the
entry leads, no wider root reaches `p`; if it does not, a directory that is protected
by default is opened again by a wider root. -/
def MetadataSettled (policy : FileSystemSandboxPolicy) (machine : Machine) (cwd : PathBuf)
    (p : AbsolutePathBuf) : Prop :=
  ∀ w name, Wins (policy.resolvedEntriesWithCwd machine.toHost cwd) p.components w →
    w.access = .write → name ∈ protectedMetadataPathNames →
    (w.path.child name).components <+: p.components →
      (Leads (policy.resolvedEntriesWithCwd machine.toHost cwd) w.path →
        ¬WiderReach policy machine cwd w.path p) ∧
      (¬Leads (policy.resolvedEntriesWithCwd machine.toHost cwd) w.path →
        protectedByDefault machine cwd w.path name = true →
        WiderReach policy machine cwd w.path p)

/-! ### In a metadata directory of the deciding entry -/

section Metadata

variable (hWins : Wins (policy.resolvedEntriesWithCwd machine.toHost cwd) p.components w)
  (hWrite : w.access = .write) (hMem : name ∈ protectedMetadataPathNames)
  (hChild : (w.path.child name).components <+: p.components)
include hWins hWrite hMem hChild

theorem canWritePath_in_metadata (hKind : policy.kind = .restricted)
    (hFull : policy.hasFullDiskWriteAccess = false) :
    policy.canWritePathWithCwd machine.toHost p.toPathBuf cwd = true ↔
      ¬Leads (policy.resolvedEntriesWithCwd machine.toHost cwd) w.path := by
  rw [canWritePath_iff hKind hFull]
  constructor
  · rintro ⟨w', hWins', -, hFree⟩
    rw [AbsolutePathBuf.ext (hWins'.node_unique hWins)] at hFree
    exact hFree name hMem hChild
  · intro hNot
    exact ⟨w, hWins, hWrite, fun _ _ _ => hNot⟩

/-- Either the deciding entry itself reaches the path, or a wider root does. -/
theorem reached_in_metadata :
    (∃ root, OpenAt (policy.resolvedEntriesWithCwd machine.toHost cwd) root ∧
        Reaches policy machine cwd root p) ↔
      (¬Leads (policy.resolvedEntriesWithCwd machine.toHost cwd) w.path ∧
        ¬protectedByDefault machine cwd w.path name = true) ∨
      WiderReach policy machine cwd w.path p := by
  constructor
  · rintro ⟨root, hRoot, hReach⟩
    by_cases hEq : root = w.path
    · subst hEq
      exact Or.inl ((reaches_of_wins hWins).mp hReach name hMem hChild)
    · exact Or.inr ⟨root, hEq, hRoot, hReach⟩
  · rintro (hFree | ⟨root, -, hRoot, hReach⟩)
    · refine ⟨w.path, openAt_of_wins hWins hWrite,
        (reaches_of_wins hWins).mpr fun name' _ hChild' => ?_⟩
      rw [child_injective hChild' hChild]
      exact hFree
    · exact ⟨root, hRoot, hReach⟩

theorem metadataSettled_in_metadata : MetadataSettled policy machine cwd p ↔
      (Leads (policy.resolvedEntriesWithCwd machine.toHost cwd) w.path →
        ¬WiderReach policy machine cwd w.path p) ∧
      (¬Leads (policy.resolvedEntriesWithCwd machine.toHost cwd) w.path →
        protectedByDefault machine cwd w.path name = true →
        WiderReach policy machine cwd w.path p) := by
  constructor
  · intro h
    exact h w name hWins hWrite hMem hChild
  · intro h w' name' hWins' _ _ hChild'
    rw [AbsolutePathBuf.ext (hWins'.node_unique hWins)] at hChild' ⊢
    rw [child_injective hChild' hChild]
    exact h

end Metadata

/-- **The sandbox is told what the policy decides, outside unsettled metadata.** -/
theorem can_write_iff_admitted_iff (hMachine : machine.Plain) (hKind : policy.kind = .restricted)
    (hFull : policy.hasFullDiskWriteAccess = false) :
    (policy.canWritePathWithCwd machine.toHost p.toPathBuf cwd = true ↔
        ∃ root ∈ policy.getWritableRootsWithCwd machine cwd, root.isPathWritable p = true) ↔
      MetadataSettled policy machine cwd p := by
  -- the paths some given root admits are those some open entry reaches
  have hAdmitted :
      (∃ root ∈ policy.getWritableRootsWithCwd machine cwd, root.isPathWritable p = true) ↔
        ∃ root, OpenAt (policy.resolvedEntriesWithCwd machine.toHost cwd) root ∧
          Reaches policy machine cwd root p := by
    simp only [mem_getWritableRoots hMachine hKind hFull, exists_exists_and_eq_and]
    exact exists_congr fun root => and_congr_right fun hOpen =>
      isPathWritable_writableRootAt_iff hMachine hKind hFull hOpen
  rw [hAdmitted]
  by_cases hDecided : ∃ w, Wins (policy.resolvedEntriesWithCwd machine.toHost cwd) p.components w ∧
      w.access = .write
  · obtain ⟨w, hWins, hWrite⟩ := hDecided
    by_cases hMeta : ∃ name ∈ protectedMetadataPathNames,
        (w.path.child name).components <+: p.components
    · obtain ⟨name, hMem, hChild⟩ := hMeta
      rw [canWritePath_in_metadata hWins hWrite hMem hChild hKind hFull,
        reached_in_metadata hWins hWrite hMem hChild,
        metadataSettled_in_metadata hWins hWrite hMem hChild]
      by_cases hLeads : Leads (policy.resolvedEntriesWithCwd machine.toHost cwd) w.path
      · simp only [hLeads, not_true_eq_false, false_and, false_or, false_iff, true_implies,
          false_implies, and_true]
      · simp only [hLeads, not_false_eq_true, true_and, true_iff, true_implies, false_implies,
          or_iff_not_imp_left, not_not]
    · have hNoMeta : ∀ name ∈ protectedMetadataPathNames,
          ¬(w.path.child name).components <+: p.components :=
        fun name hMem hChild => hMeta ⟨name, hMem, hChild⟩
      refine iff_of_true (iff_of_true ?_ ?_) ?_
      · exact (canWritePath_iff hKind hFull).mpr
          ⟨w, hWins, hWrite, fun name hMem hChild => absurd hChild (hNoMeta name hMem)⟩
      · exact ⟨w.path, openAt_of_wins hWins hWrite, (reaches_of_wins hWins).mpr
          fun name hMem hChild => absurd hChild (hNoMeta name hMem)⟩
      · intro w' name hWins' _ hMem hChild
        rw [AbsolutePathBuf.ext (hWins'.node_unique hWins)] at hChild
        exact absurd hChild (hNoMeta name hMem)
  · -- nothing decides the path for writing, and no root reaches it
    refine iff_of_true (iff_of_false ?_ ?_) ?_
    · intro hCan
      obtain ⟨w, hWins, hWrite, -⟩ := (canWritePath_iff hKind hFull).mp hCan
      exact hDecided ⟨w, hWins, hWrite⟩
    · rintro ⟨root, hOpen, hReach⟩
      obtain ⟨w, hWins⟩ := exists_wins hOpen.1 hReach.above
      refine hDecided ⟨w, hWins, ?_⟩
      -- a path that an open root reaches is decided for writing
      by_contra hNonWrite
      have hClosed := closedAt_of_wins hWins hNonWrite
      have hLe := length_le_of_wins hWins ⟨_, hOpen.1⟩ hReach.above
      have hBelow := prefix_of_prefix_length_le hReach.above hWins.2.1 hLe
      refine hReach.not_closed w.path hClosed hBelow (fun hEq => ?_) hWins.2.1
      exact hClosed.2 (hEq ▸ hOpen)
    · intro w name hWins hWrite
      exact absurd ⟨w, hWins, hWrite⟩ hDecided

/-! ### On a machine without files -/

/-- A machine with no files at all. -/
def Machine.bare : Machine :=
  { Host.bare with
    pathExists := fun _ => false, isFile := fun _ => false, readToString := fun _ => none }

theorem Machine.bare_plain : Machine.bare.Plain where
  toNoSymlinks := Host.bare_noSymlinks
  no_git_pointer p h := by cases h

/-- `/a` and `/a/b` are writable: `/a/b/.git` is protected by the entry at `/a/b`,
and the root `/a` opens it. -/
theorem nested_root_opens_metadata :
    Machine.bare.Plain ∧
    (restricted [⟨.path ⟨["a"]⟩, .write⟩, ⟨.path ⟨["a", "b"]⟩, .write⟩]
      ).hasFullDiskWriteAccess = false ∧
    ¬((restricted [⟨.path ⟨["a"]⟩, .write⟩, ⟨.path ⟨["a", "b"]⟩, .write⟩]
      ).canWritePathWithCwd Machine.bare.toHost
        (toPathBuf ⟨["a", "b", ".git", "x"]⟩) (toPathBuf ⟨["a"]⟩)
        = true ↔
      ∃ root ∈ (restricted
        [⟨.path ⟨["a"]⟩, .write⟩, ⟨.path ⟨["a", "b"]⟩, .write⟩]).getWritableRootsWithCwd Machine.bare
          (toPathBuf ⟨["a"]⟩),
        root.isPathWritable ⟨["a", "b", ".git", "x"]⟩ = true) :=
  ⟨Machine.bare_plain, by decide, by decide⟩

/-- With `/a` as the only writable entry, its `.git` is settled. -/
theorem single_root_settles_metadata :
    (restricted [⟨.path ⟨["a"]⟩, .write⟩]).canWritePathWithCwd
        Machine.bare.toHost (toPathBuf ⟨["a", ".git", "x"]⟩)
        (toPathBuf ⟨["a"]⟩) = true ↔
      ∃ root ∈ (restricted [⟨.path ⟨["a"]⟩, .write⟩]).getWritableRootsWithCwd
        Machine.bare (toPathBuf ⟨["a"]⟩),
        root.isPathWritable ⟨["a", ".git", "x"]⟩ = true := by
  refine (can_write_iff_admitted_iff Machine.bare_plain rfl (by decide)).mpr ?_
  intro w name hWins _ _ _
  have hw : w = ⟨⟨["a"]⟩, .write⟩ := mem_singleton.mp hWins.1
  subst hw
  refine ⟨fun _ hWider => ?_, fun hNot => ?_⟩
  · obtain ⟨root, hNe, hOpen, -⟩ := hWider
    have hRoot := mem_singleton.mp hOpen.1
    exact hNe (congrArg ResolvedFileSystemEntry.path hRoot)
  · exact absurd ⟨[], [], rfl, fun e he => absurd he not_mem_nil⟩ hNot

end Codex
