import Codex.Permissions.Intersection

/-!
# Codex — pre-approved permissions

`apply_granted_turn_permissions` merges what a command asks for (`R`) with what
was granted before (`G`) into an effective profile `E`, and skips the approval
prompt when `E` cut down to `G` equals `E` cut down to itself. The comparison
drops entries that a subtree denial hides, while `E` itself is enforced by
nearest-entry lookup; so the two can disagree.

Skipping the prompt is harmless exactly when every allowing entry of `R` sits on
a path where `R` also denies, or where `G` has an entry of at least its rank
(`AllowsCovered`).
-/

namespace Codex

open Nearest FileSystemSandboxPolicy List

variable {host : Host} {cwd : PathBuf}

/-- The file system entries of an optional profile. -/
def profileEntries (profile : Option AdditionalPermissionProfile) : List FileSystemSandboxEntry :=
  match profile with
  | some profile => profile.entries
  | none => []

def profileEnablesNetwork (profile : Option AdditionalPermissionProfile) : Bool :=
  profile.any (·.enablesNetwork)

/-- The profile `e` allows nothing, on any restricted base policy, that `g` does
not allow. -/
structure NotWider (host : Host) (cwd : PathBuf) (e g : Option AdditionalPermissionProfile) :
    Prop where
  read : ∀ base : FileSystemSandboxPolicy, base.kind = .restricted → ∀ p : AbsolutePathBuf,
    ((effectiveFileSystemSandboxPolicy base e).resolveAccessWithCwd host p.toPathBuf cwd).canRead
      = true →
    ((effectiveFileSystemSandboxPolicy base g).resolveAccessWithCwd host p.toPathBuf cwd).canRead
      = true
  write : ∀ base : FileSystemSandboxPolicy, base.kind = .restricted → ∀ p : AbsolutePathBuf,
    ((effectiveFileSystemSandboxPolicy base e).resolveAccessWithCwd host p.toPathBuf cwd).canWrite
      = true →
    ((effectiveFileSystemSandboxPolicy base g).resolveAccessWithCwd host p.toPathBuf cwd).canWrite
      = true
  network : profileEnablesNetwork e = true → profileEnablesNetwork g = true

/-- Every allowing entry of the command's own permissions is decided at its own
path by something else: a denial of the command's, or a granted entry of at
least its rank. -/
def AllowsCovered (host : Host) (cwd : PathBuf) (r g : Option AdditionalPermissionProfile) : Prop :=
  ∀ e ∈ rules host cwd (profileEntries r), e.access ≠ .deny →
    (∃ d ∈ rules host cwd (profileEntries r), d.path = e.path ∧ d.access = .deny) ∨
    ∃ c ∈ rules host cwd (profileEntries g), c.path = e.path ∧ e.access ≤ c.access

instance (r g : Option AdditionalPermissionProfile) : Decidable (AllowsCovered host cwd r g) := by
  unfold AllowsCovered
  infer_instance

/-! ## Merged profiles and effective policies -/

theorem profileEntries_filter (profile : AdditionalPermissionProfile) :
    profileEntries (Option.filter (fun p => !p.isEmpty) (some profile)) = profile.entries := by
  rw [Option.filter_some]
  cases hEmpty : profile.isEmpty with
  | false => rfl
  | true =>
    unfold AdditionalPermissionProfile.isEmpty at hEmpty
    rw [Bool.and_eq_true, Option.isNone_iff_eq_none, Option.isNone_iff_eq_none] at hEmpty
    simp [profileEntries, AdditionalPermissionProfile.entries, hEmpty.2]

variable {x : FileSystemSandboxEntry} {base : FileSystemSandboxPolicy}

/-- A merge has the entries of both sides. -/
theorem mem_profileEntries_merge (base permissions : Option AdditionalPermissionProfile) :
    x ∈ profileEntries (mergePermissionProfiles base permissions) ↔
      x ∈ profileEntries base ∨ x ∈ profileEntries permissions := by
  rcases permissions with _ | permissions
  · cases base <;> simp [mergePermissionProfiles, profileEntries]
  rcases base with _ | base
  · unfold mergePermissionProfiles
    rw [profileEntries_filter]
    simp [profileEntries]
  unfold mergePermissionProfiles
  rw [profileEntries_filter]
  have hMem : ∀ xs ys : List FileSystemSandboxEntry,
      x ∈ mergePermissionEntries xs ys ↔ x ∈ xs ∨ x ∈ ys := by
    intro xs ys
    simp [mergePermissionEntries, mem_foldl_pushUnique]
  obtain ⟨network, base⟩ := base
  obtain ⟨network', permissions⟩ := permissions
  rcases base with _ | base
  · simp [profileEntries, AdditionalPermissionProfile.entries, mergeFileSystemPermissions]
  cases permissions with
  | none =>
    simp [profileEntries, AdditionalPermissionProfile.entries, mergeFileSystemPermissions]
  | some permissions =>
    unfold mergeFileSystemPermissions
    rw [entries_filter]
    exact hMem base.entries permissions.entries

section

variable (hBase : base.kind = .restricted)
include hBase

variable (profile : Option AdditionalPermissionProfile)

theorem effective_kind :
    (effectiveFileSystemSandboxPolicy base profile).kind = .restricted := by
  unfold effectiveFileSystemSandboxPolicy
  split
  · exact hBase
  · split
    · exact hBase
    · unfold mergeFileSystemPolicyWithAdditionalPermissions
      rw [hBase]

theorem mem_effective_entries :
    x ∈ (effectiveFileSystemSandboxPolicy base profile).entries ↔
      x ∈ base.entries ∨ x ∈ profileEntries profile := by
  unfold effectiveFileSystemSandboxPolicy
  rcases profile with _ | profile
  · simp [profileEntries]
  rw [Option.bind_some]
  rcases hFs : profile.fileSystem with _ | fileSystem
  · simp [profileEntries, AdditionalPermissionProfile.entries, hFs]
  have hEntries : profileEntries (some profile) = fileSystem.entries := by
    simp [profileEntries, AdditionalPermissionProfile.entries, hFs]
  rw [hEntries]
  cases hEmpty : fileSystem.isEmpty with
  | true => simp [hEmpty, isEmpty_iff.mp hEmpty]
  | false =>
    simp [hEmpty, mergeFileSystemPolicyWithAdditionalPermissions, hBase, mem_foldl_pushUnique]

/-- The rules a profile puts on top of a base policy. -/
theorem mem_effective_rules
    {r : ResolvedFileSystemEntry} :
    r ∈ (effectiveFileSystemSandboxPolicy base profile).resolvedEntriesWithCwd host cwd ↔
      r ∈ rules host cwd base.entries ∨ r ∈ rules host cwd (profileEntries profile) := by
  simp only [mem_resolvedEntries, mem_rules, mem_effective_entries hBase, or_and_right, exists_or]

end

theorem mem_rules_merge (base permissions : Option AdditionalPermissionProfile)
    {r : ResolvedFileSystemEntry} :
    r ∈ rules host cwd (profileEntries (mergePermissionProfiles base permissions)) ↔
      r ∈ rules host cwd (profileEntries base) ∨
        r ∈ rules host cwd (profileEntries permissions) := by
  simp only [mem_rules, mem_profileEntries_merge, or_and_right, exists_or]

variable {r g : Option AdditionalPermissionProfile}

theorem mem_effective_merge
    {e : ResolvedFileSystemEntry} (hBase : base.kind = .restricted)
    (he : e ∈ rules host cwd (profileEntries r)) :
    e ∈ (effectiveFileSystemSandboxPolicy base
      (mergePermissionProfiles r g)).resolvedEntriesWithCwd host cwd :=
  (mem_effective_rules hBase _).mpr (Or.inr ((mem_rules_merge r g).mpr (Or.inl he)))

/-! ## Covered entries decide nothing -/

/-- The rules of both profiles, over a base policy, decide a readable path as the
granted rules alone do. -/
theorem granted_winner_of_covered
    (hCovered : AllowsCovered host cwd r g)
    (hBase : base.kind = .restricted) {p : List String} {w : ResolvedFileSystemEntry}
    (hWins : Wins ((effectiveFileSystemSandboxPolicy base
      (mergePermissionProfiles r g)).resolvedEntriesWithCwd host cwd) p w)
    (hw : w.access ≠ .deny) :
    ∃ v, Wins ((effectiveFileSystemSandboxPolicy base g).resolvedEntriesWithCwd host cwd) p v ∧
      v.access = w.access := by
  have hSub : (effectiveFileSystemSandboxPolicy base g).resolvedEntriesWithCwd host cwd ⊆
      (effectiveFileSystemSandboxPolicy base
        (mergePermissionProfiles r g)).resolvedEntriesWithCwd host cwd := by
    intro x hx
    rw [mem_effective_rules hBase] at hx
    rw [mem_effective_rules hBase, mem_rules_merge]
    exact hx.imp_right Or.inr
  -- a rule of the base or the grant at the winner's path, of at least its rank
  have hTwin : ∃ v ∈ (effectiveFileSystemSandboxPolicy base g).resolvedEntriesWithCwd host cwd,
      v.path = w.path ∧ w.access ≤ v.access := by
    have hMem := hWins.1
    rw [mem_effective_rules hBase, mem_rules_merge] at hMem
    rcases hMem with hMem | hMem | hMem
    · exact ⟨w, (mem_effective_rules hBase g).mpr (Or.inl hMem), rfl, le_refl _⟩
    · rcases hCovered w hMem hw with ⟨d, hd, hPath, hDeny⟩ | ⟨c, hc, hPath, hLe⟩
      · -- a denial at the winner's own path would have won
        refine absurd (deny_of_wins hWins (mem_effective_merge hBase hd) hDeny ?_ ?_) hw
        · rw [hPath]
        · rw [hPath]
          exact hWins.2.1
      · exact ⟨c, (mem_effective_rules hBase g).mpr (Or.inr hc), hPath, hLe⟩
    · exact ⟨w, (mem_effective_rules hBase g).mpr (Or.inr hMem), rfl, le_refl _⟩
  obtain ⟨v, hv, hPath, hLe⟩ := hTwin
  have hNode : node v = node w := congrArg AbsolutePathBuf.components hPath
  have hvLe : v.access ≤ w.access :=
    (hWins.beside (hSub hv) (hNode ▸ hWins.2.1) (by rw [hNode])).2
  have hEq : v.access = w.access := le_antisymm hvLe hLe
  -- `v` equals `w`, so it wins among all rules, hence among the granted ones
  have hvw : v = w := by
    cases v
    cases w
    simp only at hPath hEq
    rw [hPath, hEq]
  exact ⟨v, (hvw ▸ hWins).of_subset hSub hv, hEq⟩

/-! ## An uncovered entry widens -/

@[simp] theorem rules_single (p : AbsolutePathBuf) (access : FileSystemAccessMode) :
    rules host cwd [⟨.path p, access⟩] = [⟨p, access⟩] := rfl

section Uncovered

variable {r g : Option AdditionalPermissionProfile} {e : ResolvedFileSystemEntry}
variable (he : e ∈ rules host cwd (profileEntries r))
variable (hNoDeny : ∀ d ∈ rules host cwd (profileEntries r), d.path = e.path → d.access ≠ .deny)
variable (hNoGrant : ∀ c ∈ rules host cwd (profileEntries g), c.path = e.path →
  ¬ e.access ≤ c.access)
include he hNoDeny hNoGrant

/-- At its own path the uncovered entry decides the merged policy, over any base
that does not deny there. -/
theorem merged_winner_at_uncovered (hBase : base.kind = .restricted)
    (hBaseDeny : ∀ x ∈ rules host cwd base.entries, x.path = e.path → x.access ≠ .deny) :
    ∃ w, Wins ((effectiveFileSystemSandboxPolicy base
        (mergePermissionProfiles r g)).resolvedEntriesWithCwd host cwd) e.path.components w ∧
      w.access ≠ .deny ∧ e.access ≤ w.access := by
  have heMem := mem_effective_merge (g := g) hBase he
  obtain ⟨w, hw⟩ := exists_wins heMem (prefix_refl _)
  obtain ⟨hPath, hLe⟩ := path_eq_of_wins heMem hw
  refine ⟨w, hw, ?_, hLe⟩
  intro hDeny
  have hMem := hw.1
  rw [mem_effective_rules hBase, mem_rules_merge] at hMem
  rcases hMem with hMem | hMem | hMem
  · exact hBaseDeny w hMem hPath hDeny
  · exact hNoDeny w hMem hPath hDeny
  · exact hNoGrant w hMem hPath hLe

/-- An uncovered write entry makes a read-only path writable. -/
theorem wider_of_uncovered_write (hWrite : e.access = .write) :
    ¬ NotWider host cwd (mergePermissionProfiles r g) g := by
  intro hNot
  have hBase : (restricted [⟨.path e.path, .read⟩]).kind = .restricted := rfl
  have hRules : rules host cwd (restricted [⟨.path e.path, .read⟩]).entries =
      [⟨e.path, .read⟩] := rfl
  obtain ⟨w, hw, hwDeny, hwLe⟩ := merged_winner_at_uncovered he hNoDeny hNoGrant hBase (by
    intro x hx _ hDeny
    rw [hRules, mem_singleton] at hx
    rw [hx] at hDeny
    cases hDeny)
  have hwWrite : w.access = .write := le_antisymm (le_write_iff.mpr hwDeny) (hWrite ▸ hwLe)
  have hGrant := hNot.write _ hBase e.path
    ((canWrite_resolveAccess_iff (effective_kind hBase _)).mpr ⟨w, hw, hwWrite⟩)
  obtain ⟨v, hv, hvWrite⟩ := (canWrite_resolveAccess_iff (effective_kind hBase _)).mp hGrant
  -- the base's own read entry pins the winner to this path
  have hBaseMem : (⟨e.path, .read⟩ : ResolvedFileSystemEntry) ∈
      (effectiveFileSystemSandboxPolicy (restricted [⟨.path e.path, .read⟩])
        g).resolvedEntriesWithCwd host cwd := by
    rw [mem_effective_rules hBase]
    exact Or.inl (mem_singleton.mpr rfl)
  have hPath : v.path = e.path := (path_eq_of_wins hBaseMem hv).1
  have hMem := hv.1
  rw [mem_effective_rules hBase, hRules, mem_singleton] at hMem
  rcases hMem with rfl | hMem
  · cases hvWrite
  · exact hNoGrant v hMem hPath (by rw [hWrite, hvWrite])

/-- An uncovered read entry makes a path readable whose parent the base denies. -/
theorem wider_of_uncovered_read (hRead : e.access = .read) :
    ¬ NotWider host cwd (mergePermissionProfiles r g) g := by
  intro hNot
  -- no granted rule sits at the path at all: any rank would do
  have hNone : ∀ c ∈ rules host cwd (profileEntries g), c.path ≠ e.path := by
    intro c hc hPath
    refine hNoGrant c hc hPath ?_
    rw [hRead]
    cases c.access <;> decide
  let parentEntries : List FileSystemSandboxEntry :=
    if e.path.components = [] then [] else [⟨.path ⟨e.path.components.dropLast⟩, .deny⟩]
  have hRules : ∀ x ∈ rules host cwd parentEntries, e.path.components ≠ [] ∧
      x = ⟨⟨e.path.components.dropLast⟩, .deny⟩ := by
    intro x hx
    by_cases hRoot : e.path.components = []
    · simp only [parentEntries, hRoot] at hx
      cases hx
    · simp only [parentEntries, if_neg hRoot, rules_single, mem_singleton] at hx
      exact ⟨hRoot, hx⟩
  have hBase : (restricted parentEntries).kind = .restricted := rfl
  have hAbove : ∀ x ∈ rules host cwd parentEntries, x.path ≠ e.path := by
    intro x hx hPath
    obtain ⟨hRoot, rfl⟩ := hRules x hx
    have hLen := congrArg (fun p : AbsolutePathBuf => p.components.length) hPath
    have hPos := length_pos_of_ne_nil hRoot
    simp only [length_dropLast] at hLen
    omega
  obtain ⟨w, hw, hwDeny, -⟩ := merged_winner_at_uncovered he hNoDeny hNoGrant hBase
    (fun x hx hPath => absurd hPath (hAbove x hx))
  have hGrant := hNot.read _ hBase e.path
    ((canRead_resolveAccess_iff (effective_kind hBase _)).mpr ⟨w, hw, hwDeny⟩)
  obtain ⟨v, hv, hvDeny⟩ := (canRead_resolveAccess_iff (effective_kind hBase _)).mp hGrant
  have hMem := hv.1
  rw [mem_effective_rules hBase] at hMem
  have hvNe : v.path ≠ e.path := by
    rcases hMem with hMem | hMem
    · exact hAbove v hMem
    · exact hNone v hMem
  -- the winner sits strictly above, where the base's denial of the parent is nearer
  have hLt : v.path.components.length < e.path.components.length := by
    rcases Nat.lt_or_ge v.path.components.length e.path.components.length with h | h
    · exact h
    · exact absurd (AbsolutePathBuf.ext (hv.2.1.eq_of_length_le h)) hvNe
  have hRoot : e.path.components ≠ [] := by
    intro hNil
    rw [hNil] at hLt
    cases hLt
  have hBaseMem : (⟨⟨e.path.components.dropLast⟩, .deny⟩ : ResolvedFileSystemEntry) ∈
      (effectiveFileSystemSandboxPolicy (restricted parentEntries)
        g).resolvedEntriesWithCwd host cwd := by
    rw [mem_effective_rules hBase]
    left
    simp only [restricted, parentEntries, if_neg hRoot, rules_single, mem_singleton]
  refine hvDeny (deny_of_wins hv hBaseMem rfl ?_ (List.dropLast_prefix _))
  refine prefix_of_prefix_length_le hv.2.1 (List.dropLast_prefix _) ?_
  simp only [length_dropLast]
  omega

end Uncovered

/-! ## Pre-approval -/

/-- **Skipping the prompt widens nothing exactly when every allowing entry of the
command is covered.** The network is never widened; the file system is not
widened, over any restricted base, exactly when each Read or Write entry of the
command's own permissions meets, at its own path, a denial of the command or a
granted entry of at least its rank. -/
theorem preapproved_not_wider_iff {session turn additional : Option AdditionalPermissionProfile}
    {sandboxPermissions : SandboxPermissions}
    (hPre : (applyGrantedTurnPermissions host session turn cwd sandboxPermissions
      additional).permissionsPreapproved = true) :
    NotWider host cwd
        (applyGrantedTurnPermissions host session turn cwd sandboxPermissions
          additional).additionalPermissions
        (mergePermissionProfiles session turn) ↔
      AllowsCovered host cwd additional (mergePermissionProfiles session turn) := by
  unfold applyGrantedTurnPermissions at hPre ⊢
  by_cases hEsc : sandboxPermissions = .requireEscalated
  · rw [if_pos hEsc] at hPre
    cases hPre
  rw [if_neg hEsc] at hPre ⊢
  dsimp only at hPre ⊢
  split at hPre
  swap
  · cases hPre
  rename_i effective granted hEffective hGranted
  constructor
  · intro hNot e he heDeny
    by_contra hUncovered
    simp only [not_or, not_exists, not_and] at hUncovered
    obtain ⟨hNoDeny, hNoGrant⟩ := hUncovered
    cases hMode : e.access with
    | read => exact wider_of_uncovered_read he hNoDeny hNoGrant hMode hNot
    | write => exact wider_of_uncovered_write he hNoDeny hNoGrant hMode hNot
    | deny => exact heDeny hMode
  · intro hCovered
    refine ⟨fun base hBase p h => ?_, fun base hBase p h => ?_, fun h => ?_⟩
    · obtain ⟨w, hw, hwDeny⟩ := (canRead_resolveAccess_iff (effective_kind hBase _)).mp h
      obtain ⟨v, hv, hvEq⟩ := granted_winner_of_covered hCovered hBase hw hwDeny
      exact (canRead_resolveAccess_iff (effective_kind hBase _)).mpr ⟨v, hv, hvEq ▸ hwDeny⟩
    · obtain ⟨w, hw, hwWrite⟩ := (canWrite_resolveAccess_iff (effective_kind hBase _)).mp h
      have hwDeny : w.access ≠ .deny := by rw [hwWrite]; decide
      obtain ⟨v, hv, hvEq⟩ := granted_winner_of_covered hCovered hBase hw hwDeny
      exact (canWrite_resolveAccess_iff (effective_kind hBase _)).mpr
        ⟨v, hv, hvEq.trans hwWrite⟩
    · -- both self-intersections agree on the network, and one of them is `E` itself
      rw [hEffective] at h
      rw [hGranted]
      have hNet := congrArg AdditionalPermissionProfile.enablesNetwork (beq_iff_eq.mp hPre)
      simp only [enablesNetwork_intersect] at hNet
      simp only [profileEnablesNetwork, Option.any_some] at h ⊢
      rw [h] at hNet
      exact hNet

/-- The command asks to write below a directory that was granted as denied. -/
def hiddenRequest : AdditionalPermissionProfile :=
  { network := none
    fileSystem := some
      { entries := [⟨.path ⟨["p", "s", "b"]⟩, .write⟩], globScanMaxDepth := none } }

/-- A project is granted, all but one directory. -/
def denyingGrant : AdditionalPermissionProfile :=
  { network := none
    fileSystem := some
      { entries := [⟨.path ⟨["p"]⟩, .write⟩, ⟨.path ⟨["p", "s"]⟩, .deny⟩]
        globScanMaxDepth := none } }

/-- The denial hides the requested entry from the comparison, so the request is
pre-approved; the enforced policy lets the command write there all the same. -/
theorem preapproved_hidden_request :
    let result := applyGrantedTurnPermissions .bare none (some denyingGrant) ⟨true, []⟩
      .withAdditionalPermissions (some hiddenRequest)
    Host.bare.NoSymlinks ∧ ConcreteEntries hiddenRequest.entries ∧
      ConcreteEntries denyingGrant.entries ∧
      result.permissionsPreapproved = true ∧
      (effectiveFileSystemSandboxPolicy (restricted []) result.additionalPermissions
        ).resolveAccessWithCwd .bare (AbsolutePathBuf.toPathBuf ⟨["p", "s", "b"]⟩) ⟨true, []⟩ = .write ∧
      (effectiveFileSystemSandboxPolicy (restricted []) (some denyingGrant)
        ).resolveAccessWithCwd .bare (AbsolutePathBuf.toPathBuf ⟨["p", "s", "b"]⟩) ⟨true, []⟩ = .deny :=
  ⟨Host.bare_noSymlinks, by decide, by decide, by decide, by decide, by decide⟩

/-- A request for exactly what was granted is pre-approved and widens nothing. -/
theorem preapproved_same_request :
    NotWider .bare ⟨true, []⟩
      (applyGrantedTurnPermissions .bare none (some hiddenRequest) ⟨true, []⟩
        .withAdditionalPermissions (some hiddenRequest)).additionalPermissions
      (mergePermissionProfiles none (some hiddenRequest)) :=
  (preapproved_not_wider_iff (by decide)).mpr (by decide)

end Codex
