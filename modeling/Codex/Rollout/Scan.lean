import Codex.Rollout.Turns

/-!
# Codex — the reverse scan over complete turns

What the backward pass of the reconstruction knows after the newest part of a
rollout. `scanRange` is the pass without its early exit, which complete turns
never take (`scanBackward_eq_scanRange`): they carry no turn context, so the
previous turn's settings stay unknown.

* A turn pays off one pending rollback, or else offers its compaction as the base
  (`scan_turn`); a whole log leaves `UndoLog.excess` rollbacks pending
  (`scan_log_pending`).
* The suffix start only ever moves to just after a compaction
  (`scanItem_suffixStart`).
-/

namespace Codex

open UndoLog List ReplayScan

variable {env : HistoryEnv}

/-- The backward pass over `items`, which sit at indices `first, first + 1, …`. -/
def scanRange (env : HistoryEnv) (items : List RolloutItem) (first : Nat) (scan : ReplayScan) :
    ReplayScan :=
  (items.zipIdx first).reverse.foldl (fun scan p => scan.scanItem env p.2 p.1) scan

@[simp] theorem scanRange_nil (first : Nat) (scan : ReplayScan) :
    scanRange env [] first scan = scan := rfl

/-- The oldest item is scanned last. -/
theorem scanRange_cons (item : RolloutItem) (items : List RolloutItem) (first : Nat)
    (scan : ReplayScan) : scanRange env (item :: items) first scan =
      (scanRange env items (first + 1) scan).scanItem env first item := by
  simp [scanRange]

theorem scanRange_append (older newer : List RolloutItem) (first : Nat) (scan : ReplayScan) :
    scanRange env (older ++ newer) first scan =
      scanRange env older first (scanRange env newer (first + older.length) scan) := by
  simp [scanRange, zipIdx_append]

/-! ## One item -/

/-- What an item does to the scan: nothing, one more rollback to pay off, an edit of the open
segment, or its end. -/
inductive ReplayScan.Scanned (scan : ReplayScan) (index : Nat) (item : RolloutItem) :
    ReplayScan → Prop
  | same : Scanned scan index item scan
  | owes (pendingRollbackTurns : Nat) : Scanned scan index item { scan with pendingRollbackTurns }
  | edits {segment : ActiveReplaySegment} {suffixStart : Nat}
    (hSettings : (∀ ctx, item ≠ .turnContext ctx) →
      segment.previousTurnSettings = scan.segment.previousTurnSettings)
    (hBase : replacementOf item = none →
      segment.baseReplacementHistory = scan.segment.baseReplacementHistory)
    (hStart : suffixStart = scan.suffixStart ∨
      suffixStart = index + 1 ∧ (replacementOf item).isSome = true) :
    Scanned scan index item { scan with activeSegment := some segment, suffixStart }
  | closes {segment : ActiveReplaySegment} (hActive : scan.activeSegment = some segment) :
    Scanned scan index item (scan.finalizeActiveSegment segment)

/-- An item does one of these. -/
theorem scanned_scanItem (env : HistoryEnv) (scan : ReplayScan) (index : Nat) (item : RolloutItem) :
    scan.Scanned index item (scan.scanItem env index item) := by
  have hEdits : ∀ segment : ActiveReplaySegment,
      segment.previousTurnSettings = scan.segment.previousTurnSettings →
      segment.baseReplacementHistory = scan.segment.baseReplacementHistory →
      scan.Scanned index item { scan with activeSegment := some segment } :=
    fun _ hSettings hBase => .edits (fun _ => hSettings) (fun _ => hBase) (.inl rfl)
  match item with
  | .sessionMeta | .eventMsg .other => exact .same
  | .eventMsg (.threadRolledBack _) => exact .owes _
  | .responseItem _ | .eventMsg (.turnComplete _) | .eventMsg (.userMessage _) =>
    exact hEdits _ rfl rfl
  | .turnContext ctx =>
    refine .edits (fun hItem => absurd rfl (hItem ctx)) (fun _ => ?_) (.inl rfl)
    split <;> rfl
  | .compacted c =>
    simp only [scanItem, scanCompacted]
    split
    · refine .edits (fun _ => ?_) (fun hNone => ?_) (.inr ⟨rfl, by simp [replacementOf, *]⟩)
      · split <;> rfl
      · simp [replacementOf, *] at hNone
    · refine hEdits _ ?_ ?_ <;> split <;> rfl
  | .eventMsg (.turnAborted turnId) =>
    simp only [scanItem, scanTurnAborted]
    split
    · refine hEdits _ ?_ ?_ <;> simp [ReplayScan.segment, *]
    · refine hEdits _ ?_ ?_ <;> simp [ReplayScan.segment, *]
    · exact .same
  | .eventMsg (.turnStarted turnId) =>
    simp only [scanItem, scanTurnStarted]
    split
    · split
      · exact .closes ‹_›
      · exact .same
    · exact .same

/-! ## No early exit -/

/-- No turn context has been seen. -/
def ReplayScan.NoSettings (scan : ReplayScan) : Prop :=
  scan.previousTurnSettings = none ∧
    ∀ segment, scan.activeSegment = some segment → segment.previousTurnSettings = none

variable {scan : ReplayScan} {items : List RolloutItem} {item : RolloutItem} (t : Turn env)
variable (log : List (Entry (Turn env)))

theorem ReplayScan.NoSettings.segment (h : scan.NoSettings) :
    scan.segment.previousTurnSettings = none := by
  unfold ReplayScan.segment
  cases hActive : scan.activeSegment with
  | none => rfl
  | some segment => exact h.2 segment hActive

theorem ReplayScan.NoSettings.not_isComplete (h : scan.NoSettings) : scan.isComplete = false := by
  simp [isComplete, h.1]

/-- Only a turn context brings settings. -/
theorem noSettings_scanItem (h : scan.NoSettings) (index : Nat)
    (hItem : ∀ ctx, item ≠ .turnContext ctx) :
    (scan.scanItem env index item).NoSettings := by
  have hScanned := scanned_scanItem env scan index item
  generalize scan.scanItem env index item = scan' at hScanned ⊢
  cases hScanned with
  | same | owes => exact ⟨h.1, h.2⟩
  | edits hSettings =>
    refine ⟨h.1, fun s hs => ?_⟩
    cases hs
    exact (hSettings hItem).trans h.segment
  | closes hActive =>
    unfold finalizeActiveSegment
    split
    · exact ⟨h.1, fun s hs => by cases hs⟩
    · refine ⟨?_, fun s hs => by cases hs⟩
      simp [h.1, h.2 _ hActive]

/-- Without turn contexts the scan runs to the start of the rollout. -/
theorem scanBackward_eq_scanRange (hItems : ∀ item ∈ items, ∀ ctx, item ≠ .turnContext ctx) :
    scanBackward env items.zipIdx.reverse .new = scanRange env items 0 .new := by
  have hLoop : ∀ (pairs : List (RolloutItem × Nat)) (scan : ReplayScan), scan.NoSettings →
      (∀ p ∈ pairs, ∀ ctx, p.1 ≠ .turnContext ctx) →
      scanBackward env pairs scan =
        pairs.foldl (fun scan p => scan.scanItem env p.2 p.1) scan := by
    intro pairs
    induction pairs with
    | nil => exact fun _ _ _ => rfl
    | cons p older ih =>
      intro scan hScan hPairs
      have hNext : (scan.scanItem env p.2 p.1).NoSettings :=
        noSettings_scanItem hScan p.2 (hPairs p mem_cons_self)
      rw [scanBackward]
      simp only [hNext.not_isComplete]
      exact ih _ hNext fun q hq => hPairs q (mem_cons_of_mem _ hq)
  refine hLoop _ _ ⟨rfl, fun s hs => by cases hs⟩ ?_
  intro p hp
  exact hItems p.1 (fst_mem_of_mem_zipIdx (mem_reverse.mp hp))

/-! ## Where the suffix starts -/

/-- Only a replacement history moves the start, to just behind itself. -/
theorem scanItem_suffixStart (env : HistoryEnv) (scan : ReplayScan) (index : Nat)
    (item : RolloutItem) : (scan.scanItem env index item).suffixStart = scan.suffixStart ∨
      ((scan.scanItem env index item).suffixStart = index + 1 ∧
        (replacementOf item).isSome = true) := by
  have hScanned := scanned_scanItem env scan index item
  generalize scan.scanItem env index item = scan' at hScanned ⊢
  cases hScanned with
  | same | owes => exact .inl rfl
  | edits _ _ hStart => exact hStart
  | closes =>
    left
    unfold finalizeActiveSegment
    split <;> rfl

theorem scanRange_suffixStart_of_none (hNone : ∀ item ∈ items, replacementOf item = none)
    (first : Nat) (scan : ReplayScan) :
    (scanRange env items first scan).suffixStart = scan.suffixStart := by
  induction items generalizing first with
  | nil => rfl
  | cons item items ih =>
    rw [scanRange_cons]
    rcases scanItem_suffixStart env (scanRange env items (first + 1) scan) first item with h | ⟨-, h⟩
    · rw [h]
      exact ih (fun i hi => hNone i (mem_cons_of_mem _ hi)) _
    · rw [hNone item mem_cons_self] at h
      cases h

/-- The start moves into the range, if at all. -/
theorem scanRange_suffixStart_le (env : HistoryEnv) (items : List RolloutItem) (first : Nat)
    (scan : ReplayScan) : (scanRange env items first scan).suffixStart = scan.suffixStart ∨
      (scanRange env items first scan).suffixStart ≤ first + items.length := by
  induction items generalizing first with
  | nil => exact Or.inl rfl
  | cons item items ih =>
    rw [scanRange_cons, length_cons]
    rcases scanItem_suffixStart env (scanRange env items (first + 1) scan) first item with h | ⟨h, -⟩
    · rw [h]
      rcases ih (first + 1) with h' | h'
      · exact Or.inl h'
      · right
        omega
    · right
      omega

/-! ## Inside a turn -/

/-- The items that stand between the start and the completion of a turn. -/
def isBodyItem : RolloutItem → Bool
  | .responseItem _ | .compacted _ | .eventMsg (.userMessage _) => true
  | _ => false

/-- What the items of a turn do to its open segment: they keep its id, offer the
newest replacement history, and leave the rest of the scan alone. -/
structure BodyScanned (items : List RolloutItem) (scan : ReplayScan) (segment : ActiveReplaySegment)
    (scan' : ReplayScan) (segment' : ActiveReplaySegment) : Prop where
  active : scan'.activeSegment = some segment'
  turnId : segment'.turnId = segment.turnId
  settings : segment'.previousTurnSettings = segment.previousTurnSettings
  base : segment'.baseReplacementHistory =
    segment.baseReplacementHistory.or (items.reverse.findSome? replacementOf)
  counts : (∃ message, .eventMsg (.userMessage message) ∈ items) ∨ segment.countsAsUserTurn = true →
    segment'.countsAsUserTurn = true
  scanBase : scan'.baseReplacementHistory = scan.baseReplacementHistory
  scanSettings : scan'.previousTurnSettings = scan.previousTurnSettings
  scanPending : scan'.pendingRollbackTurns = scan.pendingRollbackTurns

/-- A compaction offers its history to a segment that has none. -/
theorem scanCompacted_segment (scan : ReplayScan) (index : Nat) (c : CompactedItem) :
    ∃ segment', BodyScanned [.compacted c] scan scan.segment (scan.scanCompacted index c)
      segment' := by
  unfold scanCompacted
  dsimp only
  -- clearing the reference context leaves the fields at hand as they are
  obtain ⟨cleared, hEq, hTurnId, hSettings, hBase, hCounts⟩ : ∃ cleared,
      (if scan.segment.referenceContextItem = .neverSet then
        { scan.segment with referenceContextItem := .cleared } else scan.segment) = cleared ∧
      cleared.turnId = scan.segment.turnId ∧
      cleared.previousTurnSettings = scan.segment.previousTurnSettings ∧
      cleared.baseReplacementHistory = scan.segment.baseReplacementHistory ∧
      cleared.countsAsUserTurn = scan.segment.countsAsUserTurn := by
    refine ⟨_, rfl, ?_⟩
    split <;> exact ⟨rfl, rfl, rfl, rfl⟩
  rw [hEq, hBase]
  have hUser : (∃ message, .eventMsg (.userMessage message) ∈ [RolloutItem.compacted c]) ∨
      scan.segment.countsAsUserTurn = true → scan.segment.countsAsUserTurn = true := by
    simp
  cases hOld : scan.segment.baseReplacementHistory with
  | some old =>
    refine ⟨cleared, rfl, hTurnId, hSettings, ?_, fun h => hCounts.trans (hUser h), rfl, rfl, rfl⟩
    simp [hBase, hOld]
  | none =>
    cases hNew : c.replacementHistory with
    | none =>
      refine ⟨cleared, rfl, hTurnId, hSettings, ?_, fun h => hCounts.trans (hUser h), rfl, rfl,
        rfl⟩
      simp [hBase, replacementOf, hNew]
    | some new =>
      refine ⟨{ cleared with baseReplacementHistory := some new }, rfl, hTurnId, hSettings, ?_,
        fun h => hCounts.trans (hUser h), rfl, rfl, rfl⟩
      simp [hOld, replacementOf, hNew]

/-- From the newest item back, each keeps the segment open. -/
theorem scanRange_body (hItems : ∀ item ∈ items, isBodyItem item = true)
    (first : Nat) {segment : ActiveReplaySegment} (hActive : scan.activeSegment = some segment) :
    ∃ segment', BodyScanned items scan segment (scanRange env items first scan) segment' := by
  induction items generalizing first with
  | nil =>
    exact ⟨segment, hActive, rfl, rfl, by simp, fun h => by simpa using h, rfl, rfl, rfl⟩
  | cons item items ih =>
    obtain ⟨mid, hMid⟩ := ih (fun i hi => hItems i (mem_cons_of_mem _ hi)) (first + 1)
    have hSegment : (scanRange env items (first + 1) scan).segment = mid := by
      rw [ReplayScan.segment, hMid.active]
      rfl
    have hTail : (∃ message, .eventMsg (.userMessage message) ∈ items) ∨
        segment.countsAsUserTurn = true → mid.countsAsUserTurn = true := hMid.counts
    rw [scanRange_cons]
    cases item with
    | responseItem item =>
      refine ⟨{ mid with countsAsUserTurn := mid.countsAsUserTurn || isUserTurnBoundary env item },
        by simp [scanItem, hSegment], hMid.turnId, hMid.settings, ?_, ?_,
        hMid.scanBase, hMid.scanSettings, hMid.scanPending⟩
      · simp [hMid.base, replacementOf]
      · intro h
        have hMidCounts := hTail (by simpa using h)
        simp [hMidCounts]
    | compacted c =>
      obtain ⟨next, hNext⟩ := scanCompacted_segment (scanRange env items (first + 1) scan) first c
      rw [hSegment] at hNext
      refine ⟨next, hNext.active, hNext.turnId.trans hMid.turnId,
        hNext.settings.trans hMid.settings, ?_, ?_, hNext.scanBase.trans hMid.scanBase,
        hNext.scanSettings.trans hMid.scanSettings, hNext.scanPending.trans hMid.scanPending⟩
      · rw [hNext.base, hMid.base]
        simp [Option.or_assoc]
      · intro h
        exact hNext.counts (Or.inr (hTail (by simpa using h)))
    | eventMsg event =>
      cases event with
      | userMessage message =>
        refine ⟨{ mid with countsAsUserTurn := true }, by simp [scanItem, hSegment],
          hMid.turnId, hMid.settings, ?_, fun _ => rfl, hMid.scanBase, hMid.scanSettings,
          hMid.scanPending⟩
        simp [hMid.base, replacementOf]
      | _ => cases hItems _ mem_cons_self
    | _ => cases hItems _ mem_cons_self

/-! ## Whole turns -/

/-- Between turns: no segment is open, and no settings were found. -/
def ReplayScan.Idle (scan : ReplayScan) : Prop :=
  scan.activeSegment = none ∧ scan.previousTurnSettings = none

theorem isBodyItem_of_mem_body {t : Turn env} (h : item ∈ t.body) :
    isBodyItem item = true := by
  unfold Turn.body at h
  rw [mem_append, mem_cons, mem_cons, mem_map] at h
  rcases h with h | rfl | rfl | ⟨entry, -, rfl⟩
  · rcases hLead : t.lead with _ | r
    · simp [hLead] at h
    rw [hLead] at h
    simp only [Option.map_some, Option.toList_some, mem_singleton] at h
    rw [h]
    rfl
  · rfl
  · rfl
  · cases entry <;> rfl

/-- The segment a turn's completion opens. -/
def openedSegment (turnId : String) : ActiveReplaySegment :=
  { ActiveReplaySegment.default with turnId := some turnId }

/-- Between turns a completion opens a segment. -/
theorem scanItem_turnComplete (hIdle : scan.Idle) (index : Nat)
    (turnId : String) : scan.scanItem env index (.eventMsg (.turnComplete turnId)) =
      { scan with activeSegment := some (openedSegment turnId) } := by
  simp [scanItem, ReplayScan.segment, hIdle.1, openedSegment, ActiveReplaySegment.default]

/-- **One turn of the backward pass** pays off a pending rollback, or else offers
its compaction as the base. -/
theorem scan_turn (first : Nat) (hIdle : scan.Idle) :
    (scanRange env t.items first scan).Idle ∧
    (scanRange env t.items first scan).pendingRollbackTurns = scan.pendingRollbackTurns - 1 ∧
    (scanRange env t.items first scan).baseReplacementHistory =
      if scan.pendingRollbackTurns = 0 then scan.baseReplacementHistory.or t.compaction
      else scan.baseReplacementHistory := by
  let opened : ReplayScan := { scan with activeSegment := some (openedSegment t.turnId) }
  have hItems : ∀ item ∈ t.body, isBodyItem item = true := fun _ h => isBodyItem_of_mem_body h
  obtain ⟨segment, hBody⟩ : ∃ segment, BodyScanned t.body opened (openedSegment t.turnId)
      (scanRange env t.body (first + 1) opened) segment := scanRange_body hItems (first + 1) rfl
  have hScan : scanRange env t.items first scan =
      (scanRange env t.body (first + 1) opened).finalizeActiveSegment segment := by
    have hId : turnIdsAreCompatible segment.turnId (some t.turnId) = true := by
      rw [hBody.turnId]
      simp [openedSegment, turnIdsAreCompatible]
    rw [Turn.items, cons_append, scanRange_cons, scanRange_append, scanRange_cons,
      scanRange_nil, scanItem_turnComplete hIdle]
    simp only [scanItem, scanTurnStarted]
    rw [hBody.active]
    simp only [hId]
    rfl
  have hCounts : segment.countsAsUserTurn = true :=
    hBody.counts (Or.inl ⟨t.message, by simp [Turn.body]⟩)
  have hCompaction : segment.baseReplacementHistory = t.compaction := by
    rw [hBody.base, Turn.compaction]
    simp [openedSegment, ActiveReplaySegment.default]
  have hSettings := hBody.scanSettings.trans hIdle.2
  have hSegment : segment.previousTurnSettings = none := hBody.settings
  rw [hScan]
  unfold finalizeActiveSegment
  rw [show (scanRange ..).pendingRollbackTurns = scan.pendingRollbackTurns from hBody.scanPending,
    hBody.scanBase, hCompaction]
  -- closing a user turn pays off a pending rollback, or else takes its base
  by_cases hZero : scan.pendingRollbackTurns = 0
  · rw [if_neg (by omega), if_pos hZero]
    exact ⟨⟨rfl, by simp [hSettings, hSegment]⟩, by simp [hZero], rfl⟩
  · rw [if_pos (by omega), if_neg hZero]
    exact ⟨⟨rfl, hSettings⟩, by simp [hCounts], rfl⟩

theorem rolloutOf_cons_push :
    rolloutOf (.push t :: log) = t.items ++ rolloutOf log := rfl

theorem rolloutOf_cons_rollback (n : Nat) (log : List (Entry (Turn env))) :
    rolloutOf (.rollback n :: log) = .eventMsg (.threadRolledBack n) :: rolloutOf log := rfl

theorem rolloutOf_append (older newer : List (Entry (Turn env))) :
    rolloutOf (older ++ newer) = rolloutOf older ++ rolloutOf newer := by
  simp [rolloutOf]

/-- A log without compactions leaves its excess rollbacks pending and no base. -/
theorem scan_log_pending {log : List (Entry (Turn env))}
    (hNone : ∀ t ∈ pushed log, t.compaction = none) (first : Nat)
    (hIdle : scan.Idle) (hZero : scan.pendingRollbackTurns = 0) :
    (scanRange env (rolloutOf log) first scan).Idle ∧
    (scanRange env (rolloutOf log) first scan).pendingRollbackTurns = excess log ∧
    (scanRange env (rolloutOf log) first scan).baseReplacementHistory =
      scan.baseReplacementHistory := by
  induction log generalizing first with
  | nil => exact ⟨hIdle, hZero, rfl⟩
  | cons e log ih =>
    cases e with
    | push t =>
      rw [rolloutOf_cons_push, scanRange_append, excess]
      obtain ⟨hOwn, hLater⟩ := forall_mem_cons.mp hNone
      obtain ⟨hIdle', hPending, hBase⟩ := ih hLater (first + t.items.length)
      obtain ⟨hIdle'', hPending', hBase'⟩ := scan_turn t first hIdle'
      refine ⟨hIdle'', hPending'.trans (by rw [hPending]), ?_⟩
      rw [hBase', hBase, hOwn]
      simp
    | rollback n =>
      rw [rolloutOf_cons_rollback, scanRange_cons, excess]
      obtain ⟨hIdle', hPending, hBase⟩ := ih hNone (first + 1)
      refine ⟨⟨hIdle'.1, hIdle'.2⟩, ?_, hBase⟩
      simp only [scanItem]
      omega

/-- A base once found stays. -/
theorem scan_log_base (first : Nat)
    {history : List ResponseItem} (hIdle : scan.Idle)
    (hBase : scan.baseReplacementHistory = some history) :
    (scanRange env (rolloutOf log) first scan).Idle ∧
    (scanRange env (rolloutOf log) first scan).baseReplacementHistory = some history := by
  induction log generalizing first with
  | nil => exact ⟨hIdle, hBase⟩
  | cons e log ih =>
    cases e with
    | push t =>
      rw [rolloutOf_cons_push, scanRange_append]
      obtain ⟨hIdle', hBase'⟩ := ih (first + t.items.length)
      obtain ⟨hIdle'', -, hBase''⟩ := scan_turn t first hIdle'
      refine ⟨hIdle'', ?_⟩
      rw [hBase'', hBase']
      simp
    | rollback n =>
      rw [rolloutOf_cons_rollback, scanRange_cons]
      obtain ⟨hIdle', hBase'⟩ := ih (first + 1)
      exact ⟨⟨hIdle'.1, hIdle'.2⟩, hBase'⟩

end Codex
