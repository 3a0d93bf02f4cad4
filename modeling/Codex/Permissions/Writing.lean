import Codex.Permissions.Access
import Codex.Permissions.Roots

/-!
# Codex — who may write where

`canWritePathWithCwd` in terms of the resolved entries alone:

* a path is open at its own node when a write entry and no deny entry sits there
  (`OpenAt`); a node with entries that is not open is closed (`ClosedAt`);
* metadata protection depends on the order of the entries. Only the *first* write
  entry with a metadata name right below it on the way to the path is consulted,
  so the entry that decides a path protects its metadata only if no earlier one
  reaches it through a metadata directory (`Leads`);
* `canWritePath_iff`: a path is writable when the deciding entry writes and does not
  protect a metadata name on the way.
-/

namespace Codex

open Nearest List AbsolutePathBuf

/-! ## Entries at a node -/

/-- Some entry sits at `q`. -/
def EntryAt (entries : List ResolvedFileSystemEntry) (q : AbsolutePathBuf) : Prop :=
  ∃ access, ⟨q, access⟩ ∈ entries

/-- Writing is granted at `q` itself. -/
def OpenAt (entries : List ResolvedFileSystemEntry) (q : AbsolutePathBuf) : Prop :=
  ⟨q, .write⟩ ∈ entries ∧ ⟨q, .deny⟩ ∉ entries

/-- Entries sit at `q` and do not grant writing. -/
def ClosedAt (entries : List ResolvedFileSystemEntry) (q : AbsolutePathBuf) : Prop :=
  EntryAt entries q ∧ ¬OpenAt entries q

/-- A write entry at `w` is listed before every write entry that reaches `w`
through a metadata directory. -/
def Leads (entries : List ResolvedFileSystemEntry) (w : AbsolutePathBuf) : Prop :=
  ∃ earlier later, entries = earlier ++ ⟨w, .write⟩ :: later ∧
    ∀ e ∈ earlier, e.access = .write →
      ∀ name ∈ protectedMetadataPathNames, ¬(e.path.child name).components <+: w.components

variable {entries : List ResolvedFileSystemEntry} {p q r : AbsolutePathBuf}
variable {w : ResolvedFileSystemEntry} {name : String} {entry : ResolvedFileSystemEntry}

theorem wins_of_openAt (h : OpenAt entries r) : Wins entries r.components ⟨r, .write⟩ := by
  refine ⟨h.1, prefix_refl _, fun e hMem hPre => ?_⟩
  rcases Nat.lt_or_ge e.path.components.length r.components.length with hLt | hGe
  · exact Or.inl hLt
  have hPath : e.path.components = r.components :=
    hPre.eq_of_length (le_antisymm hPre.length_le hGe)
  refine Or.inr ⟨hPath, ?_⟩
  have hNotDeny : e.access ≠ .deny := by
    intro hDeny
    have hEq : e = ⟨r, .deny⟩ := by
      cases e
      simp only [ResolvedFileSystemEntry.mk.injEq]
      exact ⟨AbsolutePathBuf.ext hPath, hDeny⟩
    exact h.2 (hEq ▸ hMem)
  exact le_write_iff.mpr hNotDeny

section

variable (h : Wins entries p.components w)
include h

/-- An entry that decides some path for writing is open at its own. -/
theorem openAt_of_wins (hWrite : w.access = .write) : OpenAt entries w.path := by
  refine ⟨hWrite ▸ h.1, fun hDeny => ?_⟩
  have hBoth := hWrite.symm.trans (deny_of_wins h hDeny rfl (prefix_refl _) h.2.1)
  cases hBoth

/-- An entry that decides some path against writing is closed at its own. -/
theorem closedAt_of_wins (hWrite : w.access ≠ .write) : ClosedAt entries w.path := by
  refine ⟨⟨w.access, h.1⟩, fun hOpen => hWrite ?_⟩
  exact (h.of_between (q := w.path.components) (prefix_refl _) h.2.1).value_unique
    (wins_of_openAt hOpen)

/-- No entry lies strictly between the deciding entry and the path. -/
theorem length_le_of_wins (hq : EntryAt entries q) (hPre : q.components <+: p.components) :
    q.components.length ≤ w.path.components.length := by
  obtain ⟨access, hMem⟩ := hq
  exact (h.above hMem hPre).length_le

end

theorem prefix_child : p.components <+: (p.child name).components :=
  prefix_append _ _

theorem not_child_prefix : ¬(p.child name).components <+: p.components := by
  intro h
  have hLen := h.length_le
  simp only [child, length_append, length_singleton] at hLen
  omega

theorem child_ne : p.child name ≠ p := by
  intro h
  have hLen := congrArg (fun path => path.components.length) h
  simp [child] at hLen

@[simp] theorem length_child : (p.child name).components.length = p.components.length + 1 := by
  simp [child]

/-- The child of a shorter ancestor is an ancestor of the longer one. -/
theorem child_prefix_of_lt (hChild : (q.child name).components <+: p.components)
    (hPre : r.components <+: p.components) (hLt : q.components.length < r.components.length) :
    (q.child name).components <+: r.components :=
  prefix_of_prefix_length_le hChild hPre (by rw [length_child]; omega)

theorem child_injective {name' : String} (h : (p.child name).components <+: q.components)
    (h' : (p.child name').components <+: q.components) : name = name' := by
  have hEq := (prefix_of_prefix_length_le h h' (by simp)).eq_of_length (by simp)
  simpa [child] using hEq

theorem head?_drop_eq_some_iff (h : p.components <+: q.components) :
    (q.components.drop p.components.length).head? = some name ↔
      (p.child name).components <+: q.components := by
  obtain ⟨rest, hRest⟩ := h
  rw [← hRest, drop_left]
  unfold child
  rw [prefix_append_right_inj]
  cases rest with
  | nil => simp
  | cons first rest =>
    simp only [head?_cons, Option.some.injEq, cons_prefix_cons, nil_prefix, and_true]
    exact eq_comm

/-! ## Metadata protection -/

/-- What one entry contributes to `metadataChildOfWritableRoot`. -/
def metadataStep (target : AbsolutePathBuf) (entry : ResolvedFileSystemEntry) :
    Option (AbsolutePathBuf × String) :=
  if entry.access.canWrite && target.startsWith entry.path then
    match (target.components.drop entry.path.components.length).head? with
    | none => none
    | some first =>
      (metadataPathName first).map fun name => (⟨entry.path.components ++ [name]⟩, name)
  else none

theorem metadataPathName_eq_some_iff {first : String} :
    metadataPathName first = some name ↔ first = name ∧ name ∈ protectedMetadataPathNames := by
  unfold metadataPathName
  constructor
  · intro h
    have hEq := find?_some h
    rw [beq_iff_eq] at hEq
    exact ⟨hEq.symm, mem_of_find?_eq_some h⟩
  · rintro ⟨rfl, hMem⟩
    cases hFind : protectedMetadataPathNames.find? (· == first) with
    | none => exact absurd (find?_eq_none.mp hFind first hMem) (by simp)
    | some found =>
      have hEq := find?_some hFind
      rw [beq_iff_eq] at hEq
      rw [hEq]

theorem metadataStep_eq_some_iff :
    metadataStep p entry = some (q, name) ↔
      entry.access = .write ∧ name ∈ protectedMetadataPathNames ∧
        (entry.path.child name).components <+: p.components ∧ q = entry.path.child name := by
  unfold metadataStep
  by_cases hReach : entry.access = .write ∧ entry.path.components <+: p.components
  · obtain ⟨hWrite, hPre⟩ := hReach
    rw [if_pos (by simp [hWrite, hPre, startsWith_iff])]
    have hHead : (p.components.drop entry.path.components.length).head? = some name ↔
        (entry.path.child name).components <+: p.components := head?_drop_eq_some_iff hPre
    rcases hFirst : (p.components.drop entry.path.components.length).head? with _ | first
    · rw [hFirst] at hHead
      simp [← hHead]
    rw [hFirst, Option.some.injEq] at hHead
    simp only [Option.map_eq_some_iff, Prod.mk.injEq, metadataPathName_eq_some_iff, ← hHead]
    constructor
    · rintro ⟨_, ⟨rfl, hMem⟩, rfl, rfl⟩
      exact ⟨hWrite, hMem, rfl, rfl⟩
    · rintro ⟨-, hMem, rfl, rfl⟩
      exact ⟨first, ⟨rfl, hMem⟩, rfl, rfl⟩
  · rw [if_neg (by simpa [startsWith_iff] using hReach)]
    refine ⟨fun h => (Option.some_ne_none _ h.symm).elim, fun h => ?_⟩
    exact absurd ⟨h.1, prefix_child.trans h.2.2.1⟩ hReach

/-- The entry that protects a metadata directory on the way to `p`, if it is the one
that decides `p`. -/
theorem findSome_metadataStep_of_leads (hWins : Wins entries p.components w)
    (hMem : name ∈ protectedMetadataPathNames)
    (hPre : (w.path.child name).components <+: p.components) (hLeads : Leads entries w.path) :
    entries.findSome? (metadataStep p) = some (w.path.child name, name) := by
  obtain ⟨earlier, later, hEq, hEarlier⟩ := hLeads
  have hHere : metadataStep p ⟨w.path, .write⟩ = some (w.path.child name, name) :=
    metadataStep_eq_some_iff.mpr ⟨rfl, hMem, hPre, rfl⟩
  -- an earlier entry that takes part sits at the same node
  have hSame : ∀ e ∈ earlier, ∀ found, metadataStep p e = some found →
      found = (w.path.child name, name) := by
    rintro e he ⟨m, n⟩ hSome
    obtain ⟨hWrite, hn, hChild, rfl⟩ := metadataStep_eq_some_iff.mp hSome
    have hIn : e ∈ entries := hEq ▸ mem_append_left _ he
    rcases hWins.2.2 e hIn (prefix_child.trans hChild) with hLt | ⟨hNode, -⟩
    · exact absurd (child_prefix_of_lt hChild hWins.2.1 hLt) (hEarlier e he hWrite n hn)
    · have hPath : e.path = w.path := AbsolutePathBuf.ext hNode
      rw [hPath] at hChild ⊢
      rw [child_injective hChild hPre]
  rw [hEq, findSome?_append]
  cases hFind : earlier.findSome? (metadataStep p) with
  | none => rw [Option.none_or, findSome?_cons_of_isSome (by rw [hHere]; rfl), hHere]
  | some found =>
    obtain ⟨e, he, hSome⟩ := exists_of_findSome?_eq_some hFind
    rw [hSame e he found hSome, Option.some_or]

section Policy

variable {host : Host} {cwd : PathBuf} {policy : FileSystemSandboxPolicy}

theorem metadataChild_eq : metadataChildOfWritableRoot policy host p cwd =
      (policy.resolvedEntriesWithCwd host cwd).findSome? (metadataStep p) :=
  rfl

section

variable (hKind : policy.kind = .restricted)
include hKind

/-- Where `w` decides for writing, metadata protection refuses exactly the paths in a
metadata directory of `w`, and only if `w` leads. -/
theorem isMetadataWriteDenied_iff
    (hWins : Wins (policy.resolvedEntriesWithCwd host cwd) p.components w)
    (hWrite : w.access = .write) : policy.isMetadataWriteDenied host p.toPathBuf cwd = true ↔
      ∃ name ∈ protectedMetadataPathNames, (w.path.child name).components <+: p.components ∧
        Leads (policy.resolvedEntriesWithCwd host cwd) w.path := by
  unfold FileSystemSandboxPolicy.isMetadataWriteDenied
  rw [if_neg (not_not_intro hKind), resolveCandidatePath_toPathBuf]
  simp only [metadataChild_eq]
  constructor
  · intro h
    split at h
    · cases h
    rename_i m n hFind
    obtain ⟨earlier, e, later, hEq, hStep, hNone⟩ := findSome?_eq_some_iff.mp hFind
    obtain ⟨hE, hn, hChild, rfl⟩ := metadataStep_eq_some_iff.mp hStep
    have hIn : e ∈ policy.resolvedEntriesWithCwd host cwd := by simp [hEq]
    -- an entry above `w` would find `w` itself to be an explicit write entry
    have hPath : e.path = w.path := by
      rcases hWins.2.2 e hIn (prefix_child.trans hChild) with hLt | ⟨hNode, -⟩
      · have hExplicit : hasExplicitWriteEntryForMetadataPath policy host (e.path.child n) p cwd
            = true := by
          refine any_eq_true.mpr ⟨w, hWins.1, ?_⟩
          have hBelow := child_prefix_of_lt hChild hWins.2.1 hLt
          have hAbove : w.path.components <+: p.components := hWins.2.1
          simp [hWrite, startsWith_iff, hBelow, hAbove]
        rw [hExplicit] at h
        cases h
      · exact AbsolutePathBuf.ext hNode
    refine ⟨n, hn, hPath ▸ hChild, earlier, later, ?_, ?_⟩
    · have hEntry : e = ⟨w.path, .write⟩ := by
        cases e
        simp_all
      rw [hEq, hEntry]
    · intro e' he' hW' n' hn' hPre
      have hSome := metadataStep_eq_some_iff.mpr ⟨hW', hn', hPre.trans hWins.2.1, rfl⟩
      cases (hNone e' he').symm.trans hSome
  · rintro ⟨n, hn, hChild, hLeads⟩
    rw [findSome_metadataStep_of_leads hWins hn hChild hLeads]
    rw [Bool.not_eq_true', ← Bool.not_eq_true]
    intro hExplicit
    obtain ⟨e, hIn, hE⟩ := any_eq_true.mp hExplicit
    simp only [Bool.and_eq_true, startsWith_iff] at hE
    have hLen := length_le_of_wins hWins ⟨e.access, hIn⟩ hE.1.2
    have hDeep := hE.2.length_le
    rw [length_child] at hDeep
    omega

variable (hFull : policy.hasFullDiskWriteAccess = false)
include hFull

/-- **Writing.** A path is writable when the entry that decides it writes and does not
protect the metadata directory the path lies in. -/
theorem canWritePath_iff :
    policy.canWritePathWithCwd host p.toPathBuf cwd = true ↔
      ∃ w, Wins (policy.resolvedEntriesWithCwd host cwd) p.components w ∧ w.access = .write ∧
        ∀ name ∈ protectedMetadataPathNames, (w.path.child name).components <+: p.components →
          ¬Leads (policy.resolvedEntriesWithCwd host cwd) w.path := by
  unfold FileSystemSandboxPolicy.canWritePathWithCwd
  rw [hFull, if_neg Bool.false_ne_true]
  by_cases hAccess : (policy.resolveAccessWithCwd host p.toPathBuf cwd).canWrite = true
  · obtain ⟨w, hWins, hWrite⟩ := (canWrite_resolveAccess_iff hKind).mp hAccess
    rw [hAccess, Bool.not_true, if_neg Bool.false_ne_true, Bool.not_eq_true', ← Bool.not_eq_true,
      isMetadataWriteDenied_iff hKind hWins hWrite]
    constructor
    · intro h
      exact ⟨w, hWins, hWrite, fun name hn hPre hLeads => h ⟨name, hn, hPre, hLeads⟩⟩
    · rintro ⟨w', hWins', hWrite', hFree⟩ ⟨name, hn, hPre, hLeads⟩
      have hSame : w'.path = w.path := AbsolutePathBuf.ext (hWins'.node_unique hWins)
      exact hFree name hn (hSame ▸ hPre) (hSame ▸ hLeads)
  · have hNot : (policy.resolveAccessWithCwd host p.toPathBuf cwd).canWrite = false :=
      eq_false_of_ne_true hAccess
    rw [hNot, Bool.not_false]
    refine ⟨fun h => absurd h Bool.false_ne_true, ?_⟩
    rintro ⟨w, hWins, hWrite, -⟩
    exact absurd ((canWrite_resolveAccess_iff hKind).mpr ⟨w, hWins, hWrite⟩) hAccess

/-- At a node with entries of its own, writing means being open. -/
theorem canWritePath_at_entry (hEntry : EntryAt (policy.resolvedEntriesWithCwd host cwd) q) :
    policy.canWritePathWithCwd host q.toPathBuf cwd = true ↔
      OpenAt (policy.resolvedEntriesWithCwd host cwd) q := by
  rw [canWritePath_iff hKind hFull]
  constructor
  · rintro ⟨w, hWins, hWrite, -⟩
    obtain ⟨access, hMem⟩ := hEntry
    obtain rfl : w.path = q := (path_eq_of_wins hMem hWins).1
    exact openAt_of_wins hWins hWrite
  · intro hOpen
    exact ⟨_, wins_of_openAt hOpen, rfl, fun name _ hPre => absurd hPre not_child_prefix⟩

theorem mem_writableEntries :
    q ∈ policy.writableEntries host cwd ↔ OpenAt (policy.resolvedEntriesWithCwd host cwd) q := by
  unfold FileSystemSandboxPolicy.writableEntries
  simp only [mem_map, mem_filter, Bool.and_eq_true]
  constructor
  · rintro ⟨e, ⟨hIn, -, hCan⟩, rfl⟩
    exact (canWritePath_at_entry hKind hFull ⟨_, hIn⟩).mp hCan
  · intro hOpen
    exact ⟨_, ⟨hOpen.1, rfl, (canWritePath_at_entry hKind hFull ⟨_, hOpen.1⟩).mpr hOpen⟩, rfl⟩

/-- Under an open root, a metadata directory that no closed entry shuts is writable
unless the root's own entry protects it. -/
theorem canWritePath_child_iff {root : AbsolutePathBuf}
    (hOpen : OpenAt (policy.resolvedEntriesWithCwd host cwd) root)
    (hMem : name ∈ protectedMetadataPathNames)
    (hNotClosed : ¬ClosedAt (policy.resolvedEntriesWithCwd host cwd) (root.child name)) :
    policy.canWritePathWithCwd host (root.child name).toPathBuf cwd = true ↔
      EntryAt (policy.resolvedEntriesWithCwd host cwd) (root.child name) ∨
        ¬Leads (policy.resolvedEntriesWithCwd host cwd) root := by
  by_cases hEntry : EntryAt (policy.resolvedEntriesWithCwd host cwd) (root.child name)
  · rw [canWritePath_at_entry hKind hFull hEntry]
    have hOpenChild : OpenAt (policy.resolvedEntriesWithCwd host cwd) (root.child name) := by
      by_contra hNo
      exact hNotClosed ⟨hEntry, hNo⟩
    simp [hEntry, hOpenChild]
  · -- the root's own entry decides its child
    have hWins : Wins (policy.resolvedEntriesWithCwd host cwd)
        (root.child name).components ⟨root, .write⟩ := by
      refine ⟨hOpen.1, prefix_child, fun e hIn hPre => ?_⟩
      obtain hEq | hPre := prefix_concat_iff.mp hPre
      · have hPath : e.path = root.child name := AbsolutePathBuf.ext hEq
        exact absurd ⟨e.access, hPath ▸ hIn⟩ hEntry
      · exact (wins_of_openAt hOpen).2.2 e hIn hPre
    rw [canWritePath_iff hKind hFull]
    simp only [hEntry, false_or]
    constructor
    · rintro ⟨w, hWins', hWrite, hFree⟩ hLeads
      have hPath : w.path = root := AbsolutePathBuf.ext (hWins'.node_unique hWins)
      exact hFree name hMem (hPath ▸ prefix_refl _) (hPath ▸ hLeads)
    · intro hNot
      exact ⟨_, hWins, rfl, fun _ _ _ => hNot⟩

end

end Policy

end Codex
