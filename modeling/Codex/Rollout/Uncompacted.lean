import Codex.Rollout.Scan

/-!
# Codex — rollouts without compactions

Without a compaction the reverse scan finds no base, and the whole rollout is replayed
(`reconstruct_history_of_uncompacted`). What a rollback counts are the user-turn boundaries of the
history. They form an undo log of their own: each boundary is one entry, whatever turn it is in
(`boundaries_replayFrom`).
-/

namespace Codex

open UndoLog List

variable {env : HistoryEnv}

def isCompactedItem : RolloutItem → Bool
  | .compacted _ => true
  | _ => false

/-! ## No base -/

/-- The scan has found no replacement history. -/
structure ReplayScan.NoBase (scan : ReplayScan) : Prop where
  base : scan.baseReplacementHistory = none
  segment : scan.segment.baseReplacementHistory = none
  start : scan.suffixStart = 0

variable {scan : ReplayScan} {item : RolloutItem} {items : List RolloutItem}
variable (history : List ResponseItem) (start : List ResponseItem)

theorem ReplayScan.NoBase.finalize (h : scan.NoBase)
    {segment : ActiveReplaySegment} (hActive : scan.activeSegment = some segment) :
    (scan.finalizeActiveSegment segment).NoBase := by
  have hSegment : segment.baseReplacementHistory = none := by
    have hOpen := h.segment
    unfold ReplayScan.segment at hOpen
    rw [hActive] at hOpen
    exact hOpen
  unfold ReplayScan.finalizeActiveSegment
  split
  · exact ⟨h.base, rfl, h.start⟩
  · refine ⟨?_, rfl, h.start⟩
    show scan.baseReplacementHistory.or segment.baseReplacementHistory = none
    rw [h.base, hSegment]
    rfl

theorem ReplayScan.NoBase.scanItem (h : scan.NoBase) (index : Nat)
    (hItem : isCompactedItem item = false) :
    (scan.scanItem env index item).NoBase := by
  have hNone : replacementOf item = none := by
    cases item with
    | compacted c => cases hItem
    | _ => rfl
  have hScanned := scanned_scanItem env scan index item
  generalize scan.scanItem env index item = scan' at hScanned ⊢
  cases hScanned with
  | same | owes => exact ⟨h.base, h.segment, h.start⟩
  | edits _ hBase hStart =>
    rw [hNone] at hStart
    exact ⟨h.base, (hBase hNone).trans h.segment, (hStart.resolve_right (by simp)).trans h.start⟩
  | closes hActive => exact h.finalize hActive

theorem ReplayScan.NoBase.scanBackward {pairs : List (RolloutItem × Nat)}
    (hPairs : ∀ p ∈ pairs, isCompactedItem p.1 = false) (h : scan.NoBase) :
    (Codex.scanBackward env pairs scan).NoBase := by
  induction pairs generalizing scan with
  | nil => exact h
  | cons p older ih =>
    obtain ⟨hFirst, hOlder⟩ := forall_mem_cons.mp hPairs
    have hNext : (scan.scanItem env p.2 p.1).NoBase := h.scanItem p.2 hFirst
    rw [Codex.scanBackward]
    split
    · exact hNext
    · exact ih hOlder hNext

/-- **Without compactions** the whole rollout is replayed from an empty history. -/
theorem reconstruct_history_of_uncompacted (hItems : ∀ item ∈ items, isCompactedItem item = false) :
    (reconstructHistoryFromRollout env items).history = replayFrom env [] items := by
  have hPairs : ∀ p ∈ items.zipIdx.reverse, isCompactedItem p.1 = false := by
    intro p hp
    exact hItems p.1 (fst_mem_of_mem_zipIdx (mem_reverse.mp hp))
  have hScan : (scanBackward env items.zipIdx.reverse .new).NoBase :=
    ReplayScan.NoBase.scanBackward hPairs ⟨rfl, rfl, rfl⟩
  unfold reconstructHistoryFromRollout
  generalize scanBackward env items.zipIdx.reverse .new = scan at hScan
  rcases hActive : scan.activeSegment with _ | segment
  · simp only [hActive, hScan.base, hScan.start]
    exact foldl_replayItem_items items _
  -- the last open segment is finalized, which finds no base either
  have hFinal := hScan.finalize hActive
  simp only [hActive, hFinal.base, hFinal.start]
  exact foldl_replayItem_items items _

/-! ## User-turn boundaries -/

def boundariesOf (env : HistoryEnv) (history : List ResponseItem) : List ResponseItem :=
  history.filter (isUserTurnBoundary env)

/-- What an item does to the boundaries of the history. -/
def boundaryEntry (env : HistoryEnv) : RolloutItem → Option (Entry ResponseItem)
  | .responseItem item => if isUserTurnBoundary env item then some (.push item) else none
  | .eventMsg (.threadRolledBack numTurns) => some (.rollback numTurns)
  | _ => none

theorem boundariesOf_append (older newer : List ResponseItem) :
    boundariesOf env (older ++ newer) = boundariesOf env older ++ boundariesOf env newer :=
  filter_append older newer

theorem length_boundariesOf :
    (boundariesOf env history).length = history.countP (isUserTurnBoundary env) :=
  countP_eq_length_filter.symm

theorem boundariesOf_eq_nil {history : List ResponseItem}
    (h : history.any (isUserTurnBoundary env) = false) : boundariesOf env history = [] := by
  unfold boundariesOf
  rw [filter_eq_nil_iff]
  exact any_eq_false.mp h

/-- Trimming takes away no boundary. -/
theorem boundariesOf_trimContextUpdates :
    boundariesOf env (trimContextUpdates env history) = boundariesOf env history := by
  unfold trimContextUpdates
  split
  · exact filter_rdropWhile_isContextUpdate
  · rfl

/-- A rollback drops the newest boundaries. -/
theorem boundariesOf_dropLastNUserTurns (history : ContextManager) (n : Nat) :
    boundariesOf env (history.dropLastNUserTurns env n).items =
      (boundariesOf env history.items).rdrop n := by
  by_cases hAny : n ≠ 0 ∧ history.items.any (isUserTurnBoundary env) = true
  · obtain ⟨older, hCut⟩ := exists_cutBefore hAny.1 hAny.2
    rw [dropLastNUserTurns_eq hCut]
    obtain ⟨u, newer, hItems, hU, hCount⟩ := hCut
    have hDropped : (boundariesOf env (u :: newer)).length =
        newer.countP (isUserTurnBoundary env) + 1 := by
      rw [length_boundariesOf, countP_cons_of_pos hU]
    rw [hItems, boundariesOf_append]
    refine (boundariesOf_trimContextUpdates older).trans ?_
    unfold List.rdrop
    rcases hCount with hCount | ⟨hOlder, hCount⟩
    · simp [hDropped, ← hCount]
    · rw [boundariesOf_eq_nil hOlder, nil_append, Nat.sub_eq_zero_of_le (by omega), take_zero]
  · rcases not_and_or.mp hAny with hZero | hNone
    · rw [not_not.mp hZero, dropLastNUserTurns_zero, rdrop_zero]
    · have hFree := eq_false_of_ne_true hNone
      rw [(dropLastNUserTurns_none n hFree).1, boundariesOf_eq_nil hFree, rdrop_nil]

/-- A response item is appended, or else it is no boundary. -/
theorem replayFrom_response_boundaries (item : ResponseItem) :
    ∃ added, replayFrom env start [.responseItem item] = start ++ added ∧
      boundariesOf env added = boundariesOf env [item] := by
  by_cases hItem : isUserTurnBoundary env item = true
  · exact ⟨[item], replayFrom_user hItem start, rfl⟩
  obtain ⟨added, hAdded, hEach⟩ := replayFrom_response start item
  refine ⟨added, hAdded, ?_⟩
  unfold boundariesOf
  rw [filter_cons_of_neg hItem, filter_nil, filter_eq_nil_iff]
  intro x hx
  rwa [hEach x hx, processItem_boundary]

/-- One item of the rollout. -/
theorem boundariesOf_replayFrom_item (hItem : isCompactedItem item = false) :
    boundariesOf env (replayFrom env start [item]) =
      (boundaryEntry env item).toList.foldl survive (boundariesOf env start) := by
  match item with
  | .compacted _ => cases hItem
  | .sessionMeta | .turnContext _ => rfl
  | .responseItem item =>
    obtain ⟨added, hReplay, hAdded⟩ := replayFrom_response_boundaries start item
    rw [hReplay, boundariesOf_append, hAdded, boundaryEntry]
    by_cases hBoundary : isUserTurnBoundary env item = true
    · have hOne : boundariesOf env [item] = [item] := filter_cons_of_pos hBoundary
      rw [if_pos hBoundary, hOne]
      rfl
    · have hNone : boundariesOf env [item] = [] := filter_cons_of_neg hBoundary
      rw [if_neg hBoundary, hNone]
      exact append_nil _
  | .eventMsg event =>
    match event with
    | .threadRolledBack n => exact boundariesOf_dropLastNUserTurns _ n
    | .turnStarted _ | .turnComplete _ | .turnAborted _ | .userMessage _ | .other => rfl

/-- **The boundaries of the rebuilt history** are the survivors of their undo log. -/
theorem boundaries_replayFrom (hItems : ∀ item ∈ items, isCompactedItem item = false) :
    boundariesOf env (replayFrom env [] items) =
      survivors (items.filterMap (boundaryEntry env)) := by
  induction items using List.reverseRecOn with
  | nil => rfl
  | append_singleton items item ih =>
    have hOlder := ih fun other hOther => hItems other (mem_append_left _ hOther)
    have hItem := hItems item (mem_append_right _ mem_cons_self)
    rw [replayFrom_append, boundariesOf_replayFrom_item _ hItem, hOlder, filterMap_append]
    unfold survivors
    rw [foldl_append, filterMap_eq_flatMap_toList _ [item], flatMap_singleton]

end Codex
