import Codex.ApplyPatch.Verify
import Codex.Lib.Overlay

/-!
# Codex — when what was announced is what happens

Verification looks at every hunk against the untouched files; application runs the
hunks one after the other. The two agree on one hunk (`applyHunk_realizes`), so they
can only part over hunks that share a path.

1. `Consistent` is a condition on the kinds and paths of the hunks alone: an update
   reads a file no earlier hunk has touched, a delete finds a file, and the last hunk
   to touch a path is the one that announces what becomes of it.
2. `applyHunkLoop_realizesAll`: under it every hunk runs and does what was announced.
3. `verified_patch_agrees`: so the final files are the announced ones.
-/

namespace Codex.ApplyPatch

open Effect List Function Hunk

/-! ## The condition -/

section Condition

variable (env : PathEnv) (cwd : AbsolutePathBuf)

/-- Whether there is a file at a path the hunk has just touched. -/
def leavesFile (hunk : Hunk) (path : AbsolutePathBuf) : Bool :=
  match hunk with
  | .addFile .. | .updateFile _ none _ => true
  | .deleteFile _ => false
  | .updateFile _ (some _) _ => path ≠ hunk.resolvePath env cwd

/-- Whether the last of the hunks to touch the path leaves a file there; a path that
none has touched counts as present, since verification has read it. -/
def presentAfter (earlier : List Hunk) (path : AbsolutePathBuf) : Bool :=
  earlier.foldl (fun present hunk =>
    if path ∈ hunk.touches env cwd then leavesFile env cwd hunk path else present) true

/-- The hunk finds what verification found. -/
def Applicable (earlier : List Hunk) (hunk : Hunk) : Prop :=
  match hunk with
  | .addFile .. => True
  | .deleteFile _ => presentAfter env cwd earlier (hunk.resolvePath env cwd) = true
  | .updateFile .. => ∀ g ∈ earlier, hunk.resolvePath env cwd ∉ g.touches env cwd

/-- What the hunk announces is not changed by a later one, and what it does is announced.
If a later hunk names the same path, only that one is announced, and the destination of
the move must be touched again. -/
def Decides (hunk : Hunk) (later : List Hunk) : Prop :=
  if ∃ k ∈ later, k.resolvePath env cwd = hunk.resolvePath env cwd then
    ∀ dest ∈ hunk.dest env cwd, ∃ k ∈ later, dest ∈ k.touches env cwd
  else
    (∀ k ∈ later, hunk.resolvePath env cwd ∉ k.touches env cwd) ∧
      ∀ dest ∈ hunk.dest env cwd,
        dest ≠ hunk.resolvePath env cwd ∧ ∀ k ∈ later, dest ∉ k.touches env cwd

def ConsistentAfter : List Hunk → List Hunk → Prop
  | _, [] => True
  | earlier, hunk :: later =>
    Applicable env cwd earlier hunk ∧ Decides env cwd hunk later ∧
      ConsistentAfter (earlier ++ [hunk]) later

/-- The hunks do not get in each other's way. An empty patch is announced but refused. -/
def Consistent (hunks : List Hunk) : Prop :=
  hunks ≠ [] ∧ ConsistentAfter env cwd [] hunks

instance (earlier : List Hunk) (hunk : Hunk) : Decidable (Applicable env cwd earlier hunk) := by
  unfold Applicable
  split <;> infer_instance

instance (hunk : Hunk) (later : List Hunk) : Decidable (Decides env cwd hunk later) := by
  unfold Decides
  infer_instance

instance ConsistentAfter.decidable :
    (earlier hunks : List Hunk) → Decidable (ConsistentAfter env cwd earlier hunks)
  | _, [] => isTrue trivial
  | earlier, hunk :: later =>
    have : Decidable (ConsistentAfter env cwd (earlier ++ [hunk]) later) :=
      ConsistentAfter.decidable (earlier ++ [hunk]) later
    inferInstanceAs (Decidable (_ ∧ _ ∧ _))

instance (hunks : List Hunk) : Decidable (Consistent env cwd hunks) := by
  unfold Consistent
  infer_instance

end Condition

/-! ## Announced changes -/

def ApplyPatchFileChange.movePath : ApplyPatchFileChange → Option AbsolutePathBuf
  | .update _ movePath _ => movePath
  | _ => none

/-- The content a change leaves, where it leaves a file. -/
def ApplyPatchFileChange.written : ApplyPatchFileChange → Text
  | .add content => content
  | .delete _ => []
  | .update _ _ newContent => newContent

/-- The files show the announced result. -/
def Holds (files : Files) (path : AbsolutePathBuf) : ApplyPatchFileChange → Prop
  | .add content => files path = some content
  | .delete _ => files path = none
  | .update _ none newContent => files path = some newContent
  | .update _ (some dest) newContent => files dest = some newContent ∧ files path = none

/-- The action says something about the path. -/
def Mentions (action : ApplyPatchAction) (path : AbsolutePathBuf) : Prop :=
  ∃ key change, action.changes.lookup key = some change ∧
    (key = path ∨ change.movePath = some path)

/-- The announced changes, and no others, were made. -/
structure Agrees (action : ApplyPatchAction) (files final : Files) : Prop where
  announced : ∀ path change, action.changes.lookup path = some change → Holds final path change
  others : ∀ path, ¬ Mentions action path → final path = files path

section Realize

variable {path p : AbsolutePathBuf} {change : ApplyPatchFileChange} {files : Files}

theorem realize_of_not_touched (hPath : p ≠ path) (hDest : change.movePath ≠ some p) :
    realize path change files p = files p := by
  cases change with
  | add _ | delete _ => exact update_of_ne hPath _ _
  | update diff movePath new =>
    cases movePath with
    | none => exact update_of_ne hPath _ _
    | some dest =>
      have hNe : p ≠ dest := fun hEq => hDest (congrArg some hEq.symm)
      exact (update_of_ne hPath _ _).trans (update_of_ne hNe _ _)

end Realize

section Verified

variable {unifiedDiff : Text → Text → Text} {env : PathEnv} {cwd : AbsolutePathBuf}
  {files : Files} {hunk : Hunk} {change : ApplyPatchFileChange}

theorem movePath_of_verifyHunk (h : verifyHunk unifiedDiff env cwd files hunk = .ok change) :
    change.movePath = hunk.dest env cwd := by
  obtain ⟨path, contents, rfl, rfl⟩ | ⟨path, content, rfl, rfl, -⟩ |
    ⟨path, movePath, chunks, original, new, rfl, rfl, -⟩ := verifyHunk_kind h
  · rfl
  · rfl
  · rfl

variable {p : AbsolutePathBuf}

/-- What a hunk touches is its path and the destination announced. -/
theorem mem_touches_iff (h : verifyHunk unifiedDiff env cwd files hunk = .ok change) :
    p ∈ hunk.touches env cwd ↔ p = hunk.resolvePath env cwd ∨ change.movePath = some p := by
  rw [movePath_of_verifyHunk h]
  unfold touches
  rw [mem_cons, Option.mem_toList]

/-- What is announced for a path the hunk touches. -/
def announcedAt (env : PathEnv) (cwd : AbsolutePathBuf) (hunk : Hunk)
    (change : ApplyPatchFileChange) (p : AbsolutePathBuf) : Option Text :=
  if leavesFile env cwd hunk p then some change.written else none

theorem announcedAt_move {path target : PathBuf} {chunks : List UpdateFileChunk}
    (p : AbsolutePathBuf) : announcedAt env cwd (.updateFile path (some target) chunks) change p =
      if p = (updateFile path (some target) chunks).resolvePath env cwd then none
      else some change.written := by
  unfold announcedAt leavesFile
  by_cases hSource : p = (updateFile path (some target) chunks).resolvePath env cwd
  · simp [hSource]
  · simp [hSource]

section

variable (h : verifyHunk unifiedDiff env cwd files hunk = .ok change)
include h

/-- A change, once made, is as announced at every path it touches. -/
theorem realize_of_touched (hTouch : p ∈ hunk.touches env cwd) (m : Files) :
    realize (hunk.resolvePath env cwd) change m p = announcedAt env cwd hunk change p := by
  rw [mem_touches_iff h] at hTouch
  obtain ⟨path, contents, rfl, rfl⟩ | ⟨path, content, rfl, rfl, -⟩ |
    ⟨path, movePath, chunks, original, new, rfl, rfl, -⟩ := verifyHunk_kind h
  · obtain rfl | hNo := hTouch
    · exact update_self _ _ m
    · cases hNo
  · obtain rfl | hNo := hTouch
    · exact update_self _ _ m
    · cases hNo
  · rcases movePath with _ | target
    · obtain rfl | hNo := hTouch
      · exact update_self _ _ m
      · cases hNo
    rw [announcedAt_move]
    split_ifs with hSource
    · rw [hSource]
      exact update_self _ _ _
    · have hDest := hTouch.resolve_left hSource
      obtain rfl := Option.some.inj hDest
      exact (update_of_ne hSource _ _).trans (update_self _ _ m)

/-- An announcement holds when every path the hunk touches is as announced, except that a move
onto itself announces both a file and none. -/
theorem holds_iff {final : Files} : Holds final (hunk.resolvePath env cwd) change ↔
      (∀ p ∈ hunk.touches env cwd, final p = announcedAt env cwd hunk change p) ∧
        ∀ dest ∈ hunk.dest env cwd, dest ≠ hunk.resolvePath env cwd := by
  obtain ⟨path, contents, rfl, rfl⟩ | ⟨path, content, rfl, rfl, -⟩ |
    ⟨path, movePath, chunks, original, new, rfl, rfl, -⟩ := verifyHunk_kind h
  · simp [Holds, touches, dest, announcedAt, leavesFile, ApplyPatchFileChange.written]
  · simp [Holds, touches, dest, announcedAt, leavesFile]
  rcases movePath with _ | target
  · simp [Holds, touches, dest, announcedAt, leavesFile, ApplyPatchFileChange.written]
  simp only [announcedAt_move]
  show (_ ∧ _) ↔ _
  simp only [touches, dest, Option.toList_some, forall_mem_cons,
    not_mem_nil, IsEmpty.forall_iff, implies_true, and_true, Option.mem_def, Option.some.injEq,
    forall_eq', ApplyPatchFileChange.written]
  constructor
  · rintro ⟨hThere, hGone⟩
    have hNe : AbsolutePathBuf.resolvePathAgainstBase env target cwd ≠
        (updateFile path (some target) chunks).resolvePath env cwd := by
      intro hEq
      rw [hEq, hGone] at hThere
      cases hThere
    exact ⟨⟨hGone, by rw [if_neg hNe, hThere]⟩, hNe⟩
  · rintro ⟨⟨hGone, hThere⟩, hNe⟩
    rw [if_neg hNe] at hThere
    exact ⟨hThere, hGone⟩

theorem realize_frame (hNot : p ∉ hunk.touches env cwd) (m : Files) :
    realize (hunk.resolvePath env cwd) change m p = m p := by
  rw [mem_touches_iff h, not_or] at hNot
  exact realize_of_not_touched hNot.1 hNot.2

end

end Verified

/-! ## Running the hunks -/

section Run

variable (unifiedDiff : Text → Text → Text) (env : PathEnv) (cwd : AbsolutePathBuf) (files : Files)

/-- The announced changes, each verified against the untouched `files`, are made one
after the other. -/
inductive RealizesAll : List Hunk → Files → Files → Prop
  | nil (m : Files) : RealizesAll [] m m
  | cons {hunk : Hunk} {hunks : List Hunk} {change : ApplyPatchFileChange} {m m' : Files}
      (hVerify : verifyHunk unifiedDiff env cwd files hunk = .ok change)
      (hRest : RealizesAll hunks (realize (hunk.resolvePath env cwd) change m) m') :
      RealizesAll (hunk :: hunks) m m'

/-- What is known of the files after some hunks without looking at contents. -/
structure Tracked (earlier : List Hunk) (m : Files) : Prop where
  untouched : ∀ p, (∀ g ∈ earlier, p ∉ g.touches env cwd) → m p = files p
  touched : ∀ p, (∃ g ∈ earlier, p ∈ g.touches env cwd) →
    (m p).isSome = presentAfter env cwd earlier p

variable {unifiedDiff env cwd files}

theorem presentAfter_concat (earlier : List Hunk) (hunk : Hunk) (p : AbsolutePathBuf) :
    presentAfter env cwd (earlier ++ [hunk]) p =
      if p ∈ hunk.touches env cwd then leavesFile env cwd hunk p
      else presentAfter env cwd earlier p := by
  unfold presentAfter
  rw [foldl_append]
  rfl

variable {earlier : List Hunk} {m : Files} {hunk : Hunk} {hunks : List Hunk} {m' : Files}

variable {change : ApplyPatchFileChange}

theorem Tracked.realize (hTracked : Tracked env cwd files earlier m)
    (hVerify : verifyHunk unifiedDiff env cwd files hunk = .ok change) :
    Tracked env cwd files (earlier ++ [hunk])
      (realize (hunk.resolvePath env cwd) change m) := by
  constructor
  · intro p hNot
    rw [realize_frame hVerify (hNot hunk (mem_append_right _ mem_cons_self))]
    exact hTracked.untouched p fun g hMem => hNot g (mem_append_left _ hMem)
  rintro p ⟨g, hMem, hTouch⟩
  rw [presentAfter_concat]
  by_cases hHunk : p ∈ hunk.touches env cwd
  · rw [if_pos hHunk, realize_of_touched hVerify hHunk, announcedAt]
    split_ifs with hLeaves
    · exact hLeaves.symm
    · simpa using hLeaves
  rw [if_neg hHunk, realize_frame hVerify hHunk]
  refine hTracked.touched p ⟨g, ?_, hTouch⟩
  rw [mem_append, mem_singleton] at hMem
  obtain hMem | rfl := hMem
  · exact hMem
  · exact (hHunk hTouch).elim

/-- An applicable hunk still verifies, with the same effect; the content a delete reads
may be another one. -/
theorem verifyHunk_of_tracked
    (hTracked : Tracked env cwd files earlier m) (hApplicable : Applicable env cwd earlier hunk)
    (hVerify : verifyHunk unifiedDiff env cwd files hunk = .ok change) :
    ∃ change', verifyHunk unifiedDiff env cwd m hunk = .ok change' ∧
      realize (hunk.resolvePath env cwd) change' m =
        realize (hunk.resolvePath env cwd) change m := by
  obtain ⟨path, contents, rfl, rfl⟩ | ⟨path, content, rfl, rfl, hFile⟩ |
    ⟨path, movePath, chunks, original, new, rfl, rfl, hFile, hDerive⟩ := verifyHunk_kind hVerify
  · exact ⟨_, rfl, rfl⟩
  · have hSome : (m ((Hunk.deleteFile path).resolvePath env cwd)).isSome = true := by
      by_cases hTouched : ∃ g ∈ earlier,
          (Hunk.deleteFile path).resolvePath env cwd ∈ g.touches env cwd
      · rw [hTracked.touched _ hTouched]
        exact hApplicable
      · push Not at hTouched
        rw [hTracked.untouched _ hTouched, hFile, Option.isSome_some]
    obtain ⟨content', hContent'⟩ := Option.isSome_iff_exists.mp hSome
    refine ⟨.delete content', ?_, rfl⟩
    simp only [verifyHunk, readFile, hContent']
  · refine ⟨_, ?_, rfl⟩
    rw [← hVerify]
    simp only [verifyHunk, readFile, hTracked.untouched _ hApplicable]

/-- **Every hunk runs, and does what was announced for it.** -/
theorem applyHunkLoop_realizesAll {faults : Faults} (hNone : NoFaults faults)
    {s : PatchState} (affected : AffectedPaths)
    (hVerify : ∀ hunk ∈ hunks, ∃ change, verifyHunk unifiedDiff env cwd files hunk = .ok change)
    (hConsistent : ConsistentAfter env cwd earlier hunks)
    (hTracked : Tracked env cwd files earlier s.files) :
    Post (fun _ s' => RealizesAll unifiedDiff env cwd files hunks s.files s'.files)
      (fun _ _ => False) (applyHunkLoop faults env cwd hunks affected s) := by
  induction hunks generalizing earlier s affected with
  | nil => exact post_pure (RealizesAll.nil _)
  | cons hunk hunks ih =>
    obtain ⟨hApplicable, -, hConsistent'⟩ := hConsistent
    obtain ⟨change, hChange⟩ := hVerify hunk mem_cons_self
    obtain ⟨change', hChange', hSame⟩ := verifyHunk_of_tracked hTracked hApplicable hChange
    refine post_bind ((applyHunk_realizes hNone hChange').mono ?_ fun _ _ h => h)
    intro _ s₁ hFiles
    rw [hSame] at hFiles
    refine (ih _ (fun k hMem => hVerify k (mem_cons_of_mem hunk hMem)) hConsistent'
      (hFiles ▸ hTracked.realize hChange)).mono ?_ fun _ _ h => h
    intro _ s' hRest
    rw [hFiles] at hRest
    exact RealizesAll.cons hChange hRest

theorem RealizesAll.frame (h : RealizesAll unifiedDiff env cwd files hunks m m')
    {p : AbsolutePathBuf}
    (hNot : ∀ k ∈ hunks, p ∉ k.touches env cwd) : m' p = m p := by
  induction h with
  | nil m => rfl
  | cons hVerify hRest ih =>
    rw [forall_mem_cons] at hNot
    rw [ih hNot.2, realize_frame hVerify hNot.1]

theorem RealizesAll.split {later : List Hunk}
    (h : RealizesAll unifiedDiff env cwd files (earlier ++ hunk :: later) m m') :
    ∃ m₁ change, verifyHunk unifiedDiff env cwd files hunk = .ok change ∧
      RealizesAll unifiedDiff env cwd files later
        (realize (hunk.resolvePath env cwd) change m₁) m' := by
  induction earlier generalizing m with
  | nil =>
    cases h with
    | cons hVerify hRest => exact ⟨m, _, hVerify, hRest⟩
  | cons e earlier ih =>
    cases h with
    | cons hVerify hRest => exact ih hRest

theorem ConsistentAfter.decides {before later : List Hunk}
    (h : ConsistentAfter env cwd earlier (before ++ hunk :: later)) :
    Decides env cwd hunk later := by
  induction before generalizing earlier with
  | nil => exact h.2.1
  | cons e before ih => exact ih h.2.2

end Run

/-! ## The whole patch -/

section Patch

variable {unifiedDiff : Text → Text → Text} {env : PathEnv} {files final : Files}
  {args : ApplyPatchArgs} {cwd : AbsolutePathBuf} {action : ApplyPatchAction}

section

variable (hVerify : verifyApplyPatchArgs unifiedDiff env files args cwd = .ok action)
include hVerify

section

variable (hConsistent : ConsistentAfter env action.cwd [] args.hunks)
  (hRun : RealizesAll unifiedDiff env action.cwd files args.hunks files final)
include hConsistent hRun

theorem holds_of_realizesAll {path : AbsolutePathBuf} {change : ApplyPatchFileChange}
    (hLookup : action.changes.lookup path = some change) : Holds final path change := by
  obtain ⟨hunk, ⟨before, later, hSplit, rfl, hLast⟩, hChange⟩ := (lookup_action hVerify).mp hLookup
  rw [hSplit] at hRun hConsistent
  obtain ⟨m, change', hChange', hRest⟩ := hRun.split
  rw [hChange, Except.ok.injEq] at hChange'
  subst hChange'
  have hDecides := hConsistent.decides
  unfold Decides at hDecides
  rw [if_neg (by push Not; exact hLast)] at hDecides
  obtain ⟨hSource, hDest⟩ := hDecides
  refine (holds_iff hChange).mpr ⟨fun p hTouch => ?_, fun dest hMem => (hDest dest hMem).1⟩
  -- no later hunk touches what this one has touched
  have hFree : ∀ k ∈ later, p ∉ k.touches env action.cwd := by
    rcases mem_cons.mp hTouch with rfl | hMem
    · exact hSource
    · exact (hDest p (Option.mem_toList.mp hMem)).2
  rw [hRest.frame hFree, realize_of_touched hChange hTouch]

theorem unchanged_of_realizesAll {path : AbsolutePathBuf} (hMention : ¬ Mentions action path) :
    final path = files path := by
  by_cases hTouched : ∃ k ∈ args.hunks, path ∈ k.touches env action.cwd
  · -- the last hunk to touch the path announces it
    obtain ⟨before, hunk, later, hSplit, hTouch, hAfter⟩ := Overlay.exists_last hTouched
    refine (hMention ?_).elim
    have hMem : hunk ∈ args.hunks := by
      rw [hSplit]
      exact mem_append_right _ mem_cons_self
    obtain ⟨change, hChange⟩ := verifyHunk_of_mem (verifyApplyPatchArgs_eq_ok hVerify) hunk hMem
    have hAnnounced : (∀ k ∈ later, k.resolvePath env action.cwd ≠ hunk.resolvePath env action.cwd) →
        action.changes.lookup (hunk.resolvePath env action.cwd) = some change := fun hLast =>
      (lookup_action hVerify).mpr ⟨hunk, ⟨before, later, hSplit, rfl, hLast⟩, hChange⟩
    obtain rfl | hDest := (mem_touches_iff hChange).mp hTouch
    · refine ⟨_, change, hAnnounced fun k hLater hSame => ?_, Or.inl rfl⟩
      exact hAfter k hLater (hSame ▸ mem_cons_self)
    refine ⟨_, change, hAnnounced fun k hLater hSame => ?_, Or.inr hDest⟩
    -- superseded at its source, the move would have to be followed at its destination
    rw [hSplit] at hConsistent
    have hDecides := hConsistent.decides
    unfold Decides at hDecides
    rw [if_pos ⟨k, hLater, hSame⟩] at hDecides
    rw [movePath_of_verifyHunk hChange] at hDest
    obtain ⟨k', hLater', hTouch'⟩ := hDecides path hDest
    exact hAfter k' hLater' hTouch'
  · push Not at hTouched
    exact hRun.frame hTouched

end

/-- **What was announced is what happens**: a consistent patch that verifies is applied
without an error, every announced change holds of the final files, and no other file
has changed. -/
theorem verified_patch_agrees (hConsistent : Consistent env action.cwd args.hunks) :
    let outcome := applyHunksToFiles (fun _ => none) env action.cwd args.hunks (.start files)
    (∃ affected, outcome.1 = .ok affected) ∧ Agrees action files outcome.2.files := by
  obtain ⟨hNonempty, hAfter⟩ := hConsistent
  have hTracked : Tracked env action.cwd files [] files :=
    ⟨fun _ _ => rfl, fun _ hTouched => by
      obtain ⟨g, hMem, -⟩ := hTouched
      exact (not_mem_nil hMem).elim⟩
  have hRun : Post
      (fun _ s => RealizesAll unifiedDiff env action.cwd files args.hunks files s.files)
      (fun _ _ => False)
      (applyHunksToFiles (fun _ => none) env action.cwd args.hunks (.start files)) := by
    unfold applyHunksToFiles
    rw [if_neg hNonempty]
    exact applyHunkLoop_realizesAll (fun _ => rfl) _
      (verifyHunk_of_mem (verifyApplyPatchArgs_eq_ok hVerify)) hAfter hTracked
  intro outcome
  change Post _ _ outcome at hRun
  obtain ⟨error | affected, final⟩ := outcome
  · exact hRun.elim
  · refine ⟨⟨affected, rfl⟩, ?_, ?_⟩
    · exact fun path change hLookup => holds_of_realizesAll hVerify hAfter hRun hLookup
    · exact fun path hMention => unchanged_of_realizesAll hVerify hAfter hRun hMention

end

end Patch

end Codex.ApplyPatch
