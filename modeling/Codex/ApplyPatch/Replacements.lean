import Codex.ApplyPatch.Definitions
import Mathlib.Order.Interval.Finset.Nat

/-!
# Codex — when the chunks of an update keep out of each other's way

`compute_replacements` schedules one replacement per chunk. Two of its rules
ignore what has been scheduled before: an end-of-file chunk is looked up at the
tail of the file whatever the running line index is, and a chunk without old
lines goes before a final empty line even when that line is being replaced.

1. `LoopInv` is what the chunk loop keeps: every region lies in the file and every
   non-empty one ends before the running line index.
2. `StepClear` is the condition under which one more chunk does no harm
   (`apart_scheduled_iff`), `ChunksClear` the same along a run.
3. `computeReplacements_clean_iff`: exactly then are the regions disjoint and the
   file the original with each region swapped for its chunk's lines.
-/

namespace Codex.ApplyPatch

open List Splice

open Splice (InOrder replaced)

/-! ## What a clean schedule is -/

/-- The line numbers a replacement removes. -/
def region (r : Replacement) : Finset Nat := Finset.Ico r.start r.stop

/-- Two replacements do not meet: their regions are disjoint, and neither inserts
inside, or at the start of, what the other removes. -/
def Apart (r s : Replacement) : Prop :=
  Disjoint (region r) (region s) ∧
    (r.oldLen = 0 → r.start ∉ region s) ∧ (s.oldLen = 0 → s.start ∉ region r)

instance (r s : Replacement) : Decidable (Apart r s) := by
  unfold Apart
  infer_instance

/-- The new lines of `r` are those of the chunk. When the old lines were found only
without the empty line that stands for the final newline, the new lines lose
theirs too. -/
def NewLinesOf (chunk : UpdateFileChunk) (r : Replacement) : Prop :=
  r.new = chunk.newLines ∨
    (chunk.oldLines.getLast? = some [] ∧ r.oldLen + 1 = chunk.oldLines.length ∧
      chunk.newLines.getLast? = some [] ∧ r.new = chunk.newLines.dropLast)

/-- The outcome a caller expects of a schedule. -/
structure Clean (lines : List Text) (chunks : List UpdateFileChunk) (rs : List Replacement) :
    Prop where
  inside : ∀ r ∈ rs, r.stop ≤ lines.length
  apart : rs.Pairwise Apart
  /-- One replacement for each chunk, with that chunk's lines. -/
  chunkwise : ∃ scheduled, scheduled.Perm rs ∧ List.Forall₂ NewLinesOf chunks scheduled
  /-- The file is the original with each region swapped for the new lines. -/
  result : applyReplacements lines rs = replaced lines 0 rs

variable {r s : Replacement} {lines : List Text} {start i : Nat} {path : AbsolutePathBuf}
variable {chunk : UpdateFileChunk} {loop loop' : ChunkLoop} {chunks : List UpdateFileChunk}
variable {rs : List Replacement}

theorem Apart.symm (h : Apart r s) : Apart s r :=
  ⟨h.1.symm, h.2.2, h.2.1⟩

theorem apart_iff : Apart r s ↔
      (r.oldLen ≠ 0 → s.oldLen ≠ 0 → r.stop ≤ s.start ∨ s.stop ≤ r.start) ∧
      (r.oldLen = 0 → r.start < s.start ∨ s.stop ≤ r.start) ∧
      (s.oldLen = 0 → s.start < r.start ∨ r.stop ≤ s.start) := by
  have hDisjoint : Disjoint (region r) (region s) ↔
      (r.oldLen ≠ 0 → s.oldLen ≠ 0 → r.stop ≤ s.start ∨ s.stop ≤ r.start) := by
    simp only [region, Finset.disjoint_left, Finset.mem_Ico, Edit.stop]
    constructor
    · intro h hr hs
      -- the later of the two starts would be shared
      have hMax := @h (max r.start s.start)
      omega
    · intro h i hr hs
      omega
  unfold Apart
  rw [hDisjoint]
  simp only [region, Finset.mem_Ico]
  omega

theorem stop_le_start_of_apart (h : Apart r s) (hLe : r.start ≤ s.start) : r.stop ≤ s.start := by
  rw [apart_iff] at h
  simp only [Edit.stop] at h ⊢
  omega

/-! ## The line search -/

/-- Where a match can be: at the start itself for an empty pattern, at the tail for
an end-of-file search, from the start on otherwise. -/
theorem seekSequence_bounds {pattern : List Text} {eof : Bool}
    (h : seekSequence lines pattern start eof = some i) (hStart : start ≤ lines.length) :
    i + pattern.length ≤ lines.length ∧
      (pattern.length = 0 → i = start) ∧
      (pattern.length ≠ 0 → if eof then i + pattern.length = lines.length else start ≤ i) := by
  unfold seekSequence at h
  by_cases hNil : pattern = []
  · rw [if_pos hNil, Option.some.injEq] at h
    subst hNil h
    simpa using hStart
  rw [if_neg hNil] at h
  have hPos : pattern.length ≠ 0 := by simpa using hNil
  by_cases hLong : pattern.length > lines.length
  · rw [if_pos hLong] at h
    cases h
  rw [if_neg hLong] at h
  obtain ⟨norm, -, hPass⟩ := exists_of_findSome?_eq_some h
  have hBounds := mem_range'_1.mp (mem_of_find?_eq_some hPass)
  cases eof <;> simp only [Bool.false_eq_true, if_true, if_false] at hBounds ⊢ <;> omega

theorem seekContext_bounds (h : seekContext lines path chunk start = .ok i)
    (hStart : start ≤ lines.length) : start ≤ i ∧ i ≤ lines.length := by
  unfold seekContext at h
  split at h
  · cases h
    exact ⟨Nat.le_refl _, hStart⟩
  split at h
  · next ctxLine _ idx hSeek =>
    have hBounds := seekSequence_bounds hSeek hStart
    simp only [length_singleton, Bool.false_eq_true, if_false] at hBounds
    cases h
    omega
  · cases h

/-- A located region is a match of the old lines, or of all but the last. -/
theorem locateOldLines_eq_some (h : locateOldLines lines chunk start = some r) :
    NewLinesOf chunk r ∧ ∃ pattern : List Text, pattern.length = r.oldLen ∧
      seekSequence lines pattern start chunk.isEndOfFile = some r.start := by
  unfold locateOldLines at h
  split at h
  · next startIdx hSeek =>
    cases h
    exact ⟨Or.inl rfl, chunk.oldLines, rfl, hSeek⟩
  split at h
  · next hLast =>
    obtain ⟨startIdx, hSeek, rfl⟩ := Option.map_eq_some_iff.mp h
    refine ⟨?_, chunk.oldLines.dropLast, rfl, hSeek⟩
    have hPos : chunk.oldLines.length ≠ 0 := by
      intro hZero
      rw [length_eq_zero_iff.mp hZero] at hLast
      cases hLast
    by_cases hNew : chunk.newLines.getLast? = some []
    · refine Or.inr ⟨hLast, ?_, hNew, if_pos hNew⟩
      have hLen : chunk.oldLines.dropLast.length = chunk.oldLines.length - 1 :=
        length_dropLast
      show chunk.oldLines.dropLast.length + 1 = chunk.oldLines.length
      omega
    · exact Or.inl (if_neg hNew)
  · cases h

/-! ## The chunk loop -/

structure LoopInv (lines : List Text) (loop : ChunkLoop) : Prop where
  inside : ∀ r ∈ loop.replacements, r.stop ≤ lines.length
  behind : ∀ r ∈ loop.replacements, r.oldLen ≠ 0 → r.stop ≤ loop.lineIndex
  index_le : loop.lineIndex ≤ lines.length

/-- Everything one iteration can do: it appends an insertion near the end of the file,
or a located region. -/
theorem scheduleChunk_eq_ok (h : scheduleChunk lines path loop chunk = .ok loop') :
    ∃ lineIndex r, seekContext lines path chunk loop.lineIndex = .ok lineIndex ∧
      loop'.replacements = loop.replacements ++ [r] ∧
      ((chunk.oldLines = [] ∧ r = ⟨insertionIdx lines, 0, chunk.newLines⟩ ∧
          loop'.lineIndex = lineIndex) ∨
        (chunk.oldLines ≠ [] ∧ locateOldLines lines chunk lineIndex = some r ∧
          loop'.lineIndex = r.stop)) := by
  obtain ⟨lineIndex, hContext, h⟩ := exists_ok_of_bind h
  by_cases hOld : chunk.oldLines = []
  · rw [if_pos hOld] at h
    cases h
    exact ⟨lineIndex, _, hContext, rfl, Or.inl ⟨hOld, rfl, rfl⟩⟩
  rw [if_neg hOld] at h
  cases hLocate : locateOldLines lines chunk lineIndex with
  | none =>
    rw [hLocate] at h
    cases h
  | some r =>
    rw [hLocate] at h
    cases h
    exact ⟨lineIndex, r, hContext, rfl, Or.inr ⟨hOld, hLocate, rfl⟩⟩

/-- What the search guarantees of a located region, given the running line index. -/
theorem locateOldLines_bounds (h : locateOldLines lines chunk start = some r)
    (hStart : start ≤ lines.length) : r.stop ≤ lines.length ∧ (r.oldLen = 0 → r.start = start) ∧
      (r.oldLen ≠ 0 →
        if chunk.isEndOfFile then r.stop = lines.length else start ≤ r.start) := by
  obtain ⟨-, pattern, hLen, hSeek⟩ := locateOldLines_eq_some h
  have hBounds := seekSequence_bounds hSeek hStart
  rw [hLen] at hBounds
  exact hBounds

theorem LoopInv.step (hInv : LoopInv lines loop)
    (h : scheduleChunk lines path loop chunk = .ok loop') : LoopInv lines loop' := by
  obtain ⟨lineIndex, r, hContext, hAppend, hKind⟩ := scheduleChunk_eq_ok h
  have hIndex := seekContext_bounds hContext hInv.index_le
  have hNew : r.stop ≤ lines.length ∧ (r.oldLen ≠ 0 → r.stop ≤ loop'.lineIndex) ∧
      (∀ s ∈ loop.replacements, s.oldLen ≠ 0 → s.stop ≤ loop'.lineIndex) ∧
      loop'.lineIndex ≤ lines.length := by
    obtain ⟨-, rfl, hLine⟩ | ⟨-, hLocate, hLine⟩ := hKind
    · have hAt : insertionIdx lines ≤ lines.length := by
        unfold insertionIdx
        split <;> omega
      rw [hLine]
      refine ⟨hAt, fun hPos => (hPos rfl).elim, ?_, hIndex.2⟩
      intro s hMem hPos
      exact (hInv.behind s hMem hPos).trans hIndex.1
    · have hBounds := locateOldLines_bounds hLocate hIndex.2
      rw [hLine]
      refine ⟨hBounds.1, fun _ => Nat.le_refl _, ?_, hBounds.1⟩
      intro s hMem hPos
      -- an end-of-file region stops at the very end, any other one starts at the index
      have hBehind := hInv.behind s hMem hPos
      have hStop : r.stop = r.start + r.oldLen := rfl
      by_cases hEof : chunk.isEndOfFile = true
      · rw [if_pos hEof] at hBounds
        omega
      · rw [if_neg hEof] at hBounds
        omega
  obtain ⟨hInside, hBehind, hOthers, hLe⟩ := hNew
  refine ⟨?_, ?_, hLe⟩
  · rw [hAppend, forall_mem_append, forall_mem_singleton]
    exact ⟨hInv.inside, hInside⟩
  · rw [hAppend, forall_mem_append, forall_mem_singleton]
    exact ⟨hOthers, hBehind⟩

/-! ## The condition on one chunk -/

/-- The next chunk keeps clear of the regions scheduled before it.

A chunk without old lines only matters when the file ends in an empty line: it goes
before that line, which no earlier chunk may be replacing. Any other chunk must not
sit on a scheduled insertion, and, when it is looked up at the end of the file, must
not reach back over a scheduled region. -/
def StepClear (lines : List Text) (path : AbsolutePathBuf) (loop : ChunkLoop)
    (chunk : UpdateFileChunk) : Prop :=
  if chunk.oldLines = [] then
    lines.getLast? = some [] → ∀ s ∈ loop.replacements, s.oldLen ≠ 0 → s.stop < lines.length
  else
    ∀ r ∈ (seekContext lines path chunk loop.lineIndex).toOption.bind (locateOldLines lines chunk),
      r.oldLen ≠ 0 → ∀ s ∈ loop.replacements,
        (s.oldLen = 0 → s.start < r.start ∨ r.stop ≤ s.start) ∧
        (chunk.isEndOfFile = true → s.oldLen ≠ 0 → s.stop + r.oldLen ≤ lines.length)

instance (lines : List Text) (path : AbsolutePathBuf) (loop : ChunkLoop)
    (chunk : UpdateFileChunk) : Decidable (StepClear lines path loop chunk) := by
  unfold StepClear
  infer_instance

/-- Every chunk of the run is clear of those before it. -/
def ChunksClear (lines : List Text) (path : AbsolutePathBuf) :
    ChunkLoop → List UpdateFileChunk → Prop
  | _, [] => True
  | loop, chunk :: chunks => StepClear lines path loop chunk ∧
      ∀ loop' ∈ (scheduleChunk lines path loop chunk).toOption,
        ChunksClear lines path loop' chunks

instance ChunksClear.decidable (lines : List Text) (path : AbsolutePathBuf) :
    (loop : ChunkLoop) → (chunks : List UpdateFileChunk) →
      Decidable (ChunksClear lines path loop chunks)
  | _, [] => isTrue trivial
  | loop, chunk :: chunks =>
    have (loop' : ChunkLoop) : Decidable (ChunksClear lines path loop' chunks) :=
      ChunksClear.decidable lines path loop' chunks
    inferInstanceAs (Decidable (StepClear lines path loop chunk ∧
      ∀ loop' ∈ (scheduleChunk lines path loop chunk).toOption,
        ChunksClear lines path loop' chunks))

/-- **One chunk.** The replacement it schedules is apart from the earlier ones exactly
when the chunk is clear. -/
theorem apart_scheduled_iff (hInv : LoopInv lines loop)
    (h : scheduleChunk lines path loop chunk = .ok loop') :
    ∃ r, loop'.replacements = loop.replacements ++ [r] ∧ NewLinesOf chunk r ∧
      ((∀ s ∈ loop.replacements, Apart s r) ↔ StepClear lines path loop chunk) := by
  obtain ⟨lineIndex, r, hContext, hAppend, ⟨hOld, rfl, -⟩ | ⟨hOld, hLocate, -⟩⟩ :=
    scheduleChunk_eq_ok h
  · refine ⟨_, hAppend, Or.inl rfl, ?_⟩
    unfold StepClear
    rw [if_pos hOld]
    constructor
    · intro hApart hLast s hMem hPos
      have hIns : insertionIdx lines = lines.length - 1 := if_pos hLast
      have hOne := (apart_iff.mp (hApart s hMem)).2.2 rfl
      have hInside := hInv.inside s hMem
      simp only [Edit.stop] at hOne hInside ⊢
      omega
    · intro hClear s hMem
      have hInside := hInv.inside s hMem
      rw [apart_iff]
      by_cases hLast : lines.getLast? = some []
      · have hIns : insertionIdx lines = lines.length - 1 := if_pos hLast
        have hBefore := hClear hLast s hMem
        simp only [Edit.stop] at hInside hBefore ⊢
        omega
      · have hIns : insertionIdx lines = lines.length := if_neg hLast
        simp only [Edit.stop] at hInside ⊢
        omega
  · refine ⟨r, hAppend, (locateOldLines_eq_some hLocate).1, ?_⟩
    have hIndex := seekContext_bounds hContext hInv.index_le
    have hBounds := locateOldLines_bounds hLocate hIndex.2
    have hTarget : (seekContext lines path chunk loop.lineIndex).toOption.bind
        (locateOldLines lines chunk) = some r := by
      rw [hContext]
      exact hLocate
    unfold StepClear
    rw [if_neg hOld, hTarget]
    simp only [Option.mem_some_iff, forall_eq']
    constructor
    · intro hApart hPos s hMem
      have hOne := apart_iff.mp (hApart s hMem)
      refine ⟨fun hZero => hOne.2.1 hZero, ?_⟩
      intro hEof hPosS
      have hStop := hBounds.2.2 hPos
      rw [if_pos hEof] at hStop
      have hInside := hInv.inside s hMem
      have hTwo := hOne.1 hPosS hPos
      simp only [Edit.stop] at hStop hInside hTwo ⊢
      omega
    · intro hClear s hMem
      rw [apart_iff]
      have hBehind := hInv.behind s hMem
      -- a retried pattern can be empty: its insertion is at the line index, past every region
      by_cases hZero : r.oldLen = 0
      · simp only [Edit.stop] at hBehind ⊢
        omega
      have hOne := hClear hZero s hMem
      have hSide := hBounds.2.2 hZero
      by_cases hEof : chunk.isEndOfFile = true
      · have hTail := hOne.2 hEof
        rw [if_pos hEof] at hSide
        simp only [Edit.stop] at hTail hSide hOne ⊢
        omega
      · rw [if_neg hEof] at hSide
        omega

/-- **The whole run.** -/
theorem scheduleChunks_spec (hInv : LoopInv lines loop)
    (h : scheduleChunks lines path loop chunks = .ok loop') : LoopInv lines loop' ∧
      (∃ rs, loop'.replacements = loop.replacements ++ rs ∧ List.Forall₂ NewLinesOf chunks rs) ∧
      (loop'.replacements.Pairwise Apart ↔
        loop.replacements.Pairwise Apart ∧ ChunksClear lines path loop chunks) := by
  induction chunks generalizing loop with
  | nil =>
    cases h
    exact ⟨hInv, ⟨[], (append_nil _).symm, List.Forall₂.nil⟩, by simp [ChunksClear]⟩
  | cons chunk chunks ih =>
    obtain ⟨mid, hStep, hRest⟩ := exists_ok_of_bind h
    obtain ⟨hInv', ⟨rs, hRs, hLines⟩, hIff⟩ := ih (hInv.step hStep) hRest
    obtain ⟨r, hAppend, hNew, hClear⟩ := apart_scheduled_iff hInv hStep
    refine ⟨hInv', ⟨r :: rs, ?_, List.Forall₂.cons hNew hLines⟩, ?_⟩
    · rw [hRs, hAppend, append_assoc, singleton_append]
    have hMid : mid.replacements.Pairwise Apart ↔
        loop.replacements.Pairwise Apart ∧ StepClear lines path loop chunk := by
      rw [hAppend, pairwise_append, ← hClear]
      simp
    rw [hIff, hMid, ChunksClear, hStep]
    simp only [Except.toOption, Option.mem_some_iff, forall_eq', and_assoc]

/-! ## Applying the schedule -/

theorem inOrder_of_apart {limit pos : Nat} (hPos : pos ≤ limit)
    (hInside : ∀ r ∈ rs, r.stop ≤ limit) (hFrom : ∀ r ∈ rs, pos ≤ r.start)
    (hSorted : rs.Pairwise fun r s => r.start ≤ s.start) (hApart : rs.Pairwise Apart) :
    InOrder limit pos rs := by
  induction rs generalizing pos with
  | nil => exact hPos
  | cons r rs ih =>
    rw [pairwise_cons] at hSorted hApart
    refine ⟨hFrom r mem_cons_self, ih (hInside r mem_cons_self) ?_ ?_ hSorted.2 hApart.2⟩
    · exact fun s hMem => hInside s (mem_cons_of_mem r hMem)
    · exact fun s hMem => stop_le_start_of_apart (hApart.1 s hMem) (hSorted.1 s hMem)

/-- Line by line removal and insertion is the splice of the library, as long as no
start is past the end of what is left. -/
theorem applyReplacements_eq_replaced {pos : Nat} (h : InOrder lines.length pos rs) :
    applyReplacements lines rs = lines.take pos ++ replaced lines pos rs := by
  rw [← applyAll_eq_replaced h]
  induction rs generalizing pos with
  | nil => rfl
  | cons r rs ih =>
    have hRest := h.2
    have hStart : r.start ≤ (applyAll rs lines).length := by
      have hLe := hRest.le
      rw [applyAll_eq_replaced hRest, length_append, length_take]
      simp only [Edit.stop] at hLe ⊢
      omega
    calc applyReplacements lines (r :: rs)
        = insertMany r.start r.new
            (eraseMany r.start r.oldLen (applyReplacements lines rs)) := rfl
      _ = r.apply (applyAll rs lines) := by
          rw [ih hRest, insertMany_eraseMany r hStart]
      _ = applyAll (r :: rs) lines := rfl

theorem computeReplacements_eq_ok (h : computeReplacements lines path chunks = .ok rs) :
    ∃ loop, scheduleChunks lines path ⟨[], 0⟩ chunks = .ok loop ∧
      loop.replacements.Perm rs ∧ rs.Pairwise fun r s => r.start ≤ s.start := by
  obtain ⟨loop, hLoop, hSort⟩ := exists_ok_of_bind h
  cases hSort
  exact ⟨loop, hLoop, (perm_insertionSort _ _).symm, pairwise_insertionSort _ _⟩

/-- **A schedule is clean exactly when every chunk is clear of those before it.** -/
theorem computeReplacements_clean_iff {lines : List Text} {path : AbsolutePathBuf}
    {chunks : List UpdateFileChunk} {rs : List Replacement}
    (h : computeReplacements lines path chunks = .ok rs) :
    Clean lines chunks rs ↔ ChunksClear lines path ⟨[], 0⟩ chunks := by
  obtain ⟨loop, hLoop, hPerm, hSorted⟩ := computeReplacements_eq_ok h
  have hStart : LoopInv lines ⟨[], 0⟩ :=
    ⟨forall_mem_nil _, forall_mem_nil _,
      Nat.zero_le _⟩
  obtain ⟨hInv, ⟨scheduled, hScheduled, hLines⟩, hIff⟩ := scheduleChunks_spec hStart hLoop
  have hApart : rs.Pairwise Apart ↔ ChunksClear lines path ⟨[], 0⟩ chunks := by
    rw [← hPerm.pairwise_iff Apart.symm, hIff]
    simp
  constructor
  · intro hClean
    exact hApart.mp hClean.apart
  intro hClear
  have hPairwise := hApart.mpr hClear
  have hInside : ∀ r ∈ rs, r.stop ≤ lines.length :=
    fun r hMem => hInv.inside r (hPerm.mem_iff.mpr hMem)
  have hOrder : InOrder lines.length 0 rs :=
    inOrder_of_apart (Nat.zero_le _) hInside (fun r _ => Nat.zero_le _) hSorted hPairwise
  refine ⟨hInside, hPairwise, ⟨_, hPerm, hScheduled ▸ hLines⟩, ?_⟩
  rw [applyReplacements_eq_replaced hOrder, take_zero, nil_append]

theorem computeReplacements_clean_two_chunks :
    Clean ["a".toList, "b".toList, "c".toList]
      [⟨none, ["a".toList], ["x".toList], false⟩, ⟨none, ["c".toList], ["y".toList], true⟩]
      [⟨0, 1, ["x".toList]⟩, ⟨2, 1, ["y".toList]⟩] :=
  (@computeReplacements_clean_iff _ AbsolutePathBuf.root _ _ (by decide)).mpr (by decide)

/-- The second chunk, looked up at the end of the file, reaches back over the line the
first one replaces: its new line is lost. -/
theorem endOfFile_chunk_overlaps :
    computeReplacements ["a".toList] AbsolutePathBuf.root
        [⟨none, ["a".toList], ["b".toList], false⟩, ⟨none, ["a".toList], ["c".toList], true⟩] =
      .ok [⟨0, 1, ["b".toList]⟩, ⟨0, 1, ["c".toList]⟩] ∧
    applyReplacements ["a".toList] [⟨0, 1, ["b".toList]⟩, ⟨0, 1, ["c".toList]⟩] = ["b".toList] ∧
    ¬ Clean ["a".toList]
        [⟨none, ["a".toList], ["b".toList], false⟩, ⟨none, ["a".toList], ["c".toList], true⟩]
        [⟨0, 1, ["b".toList]⟩, ⟨0, 1, ["c".toList]⟩] := by
  refine ⟨by decide, by decide, fun hClean => ?_⟩
  exact absurd hClean.apart (by decide)

end Codex.ApplyPatch
