import Codex.History.Definitions

/-!
# Codex — rebuilding a session from its rollout

`core/src/session/rollout_reconstruction.rs`. A reverse scan over the rollout
finds the newest surviving replacement history, the settings of the previous
turn and the reference context, and may stop early; then a suffix of the rollout
is replayed forward.

The scan is `scanItem`, one case per kind of item; `scanBackward` is its loop,
with the early exit. The pending rollback count is a `Nat`: the source saturates
at `usize::MAX`, which is more turns than a slice can hold.
-/

namespace Codex

structure PreviousTurnSettings where
  model : String
  realtimeActive : Option Bool
  deriving DecidableEq, Repr

inductive TurnReferenceContextItem where
  | neverSet
  | cleared
  | latest (item : TurnContextItem)
  deriving DecidableEq, Repr

structure ActiveReplaySegment where
  turnId : Option String
  countsAsUserTurn : Bool
  previousTurnSettings : Option PreviousTurnSettings
  referenceContextItem : TurnReferenceContextItem
  baseReplacementHistory : Option (List ResponseItem)
  deriving DecidableEq, Repr

def ActiveReplaySegment.default : ActiveReplaySegment :=
  { turnId := none, countsAsUserTurn := false, previousTurnSettings := none
    referenceContextItem := .neverSet, baseReplacementHistory := none }

/-- The variables of the reverse scan. `suffixStart` is where `rollout_suffix`
begins. -/
structure ReplayScan where
  baseReplacementHistory : Option (List ResponseItem)
  previousTurnSettings : Option PreviousTurnSettings
  referenceContextItem : TurnReferenceContextItem
  pendingRollbackTurns : Nat
  suffixStart : Nat
  activeSegment : Option ActiveReplaySegment
  deriving DecidableEq, Repr

def ReplayScan.new : ReplayScan :=
  { baseReplacementHistory := none, previousTurnSettings := none, referenceContextItem := .neverSet
    pendingRollbackTurns := 0, suffixStart := 0, activeSegment := none }

def turnIdsAreCompatible (activeTurnId itemTurnId : Option String) : Bool :=
  match activeTurnId, itemTurnId with
  | some active, some item => item == active
  | _, _ => true

namespace ReplayScan

/-- `active_segment.get_or_insert_with(ActiveReplaySegment::default)`. -/
def segment (scan : ReplayScan) : ActiveReplaySegment :=
  scan.activeSegment.getD .default

variable (scan : ReplayScan)

/-- `finalize_active_segment`, after the segment was taken. -/
def finalizeActiveSegment (segment : ActiveReplaySegment) : ReplayScan :=
  if scan.pendingRollbackTurns > 0 then
    { scan with
      activeSegment := none
      pendingRollbackTurns :=
        if segment.countsAsUserTurn then scan.pendingRollbackTurns - 1
        else scan.pendingRollbackTurns }
  else
    { scan with
      activeSegment := none
      baseReplacementHistory := scan.baseReplacementHistory.or segment.baseReplacementHistory
      previousTurnSettings :=
        if scan.previousTurnSettings.isNone && segment.countsAsUserTurn then
          segment.previousTurnSettings
        else scan.previousTurnSettings
      referenceContextItem :=
        if scan.referenceContextItem = .neverSet ∧
            (segment.countsAsUserTurn = true ∨ segment.referenceContextItem = .cleared) then
          segment.referenceContextItem
        else scan.referenceContextItem }

def scanCompacted (index : Nat) (compacted : CompactedItem) : ReplayScan :=
  let segment := scan.segment
  let segment :=
    if segment.referenceContextItem = .neverSet then
      { segment with referenceContextItem := .cleared }
    else segment
  match segment.baseReplacementHistory, compacted.replacementHistory with
  | none, some replacementHistory =>
    { scan with
      activeSegment := some { segment with baseReplacementHistory := some replacementHistory }
      suffixStart := index + 1 }
  | _, _ => { scan with activeSegment := some segment }

def scanTurnContext (ctx : TurnContextItem) : ReplayScan :=
  let segment := scan.segment
  let segment := { segment with turnId := segment.turnId.or ctx.turnId }
  let segment :=
    if turnIdsAreCompatible segment.turnId ctx.turnId then
      { segment with
        previousTurnSettings := some { model := ctx.model, realtimeActive := ctx.realtimeActive }
        referenceContextItem :=
          if segment.referenceContextItem = .neverSet then .latest ctx
          else segment.referenceContextItem }
    else segment
  { scan with activeSegment := some segment }

def scanTurnAborted (turnId : Option String) : ReplayScan :=
  match scan.activeSegment, turnId with
  | some segment, turnId =>
    { scan with activeSegment := some { segment with turnId := segment.turnId.or turnId } }
  | none, some turnId =>
    { scan with activeSegment := some { ActiveReplaySegment.default with turnId := some turnId } }
  | none, none => scan

def scanTurnStarted (turnId : String) : ReplayScan :=
  match scan.activeSegment with
  | some segment =>
    if turnIdsAreCompatible segment.turnId (some turnId) then scan.finalizeActiveSegment segment
    else scan
  | none => scan

/-- One iteration of the reverse loop. -/
def scanItem (env : HistoryEnv) (scan : ReplayScan) (index : Nat) : RolloutItem → ReplayScan
  | .compacted compacted => scan.scanCompacted index compacted
  | .eventMsg (.threadRolledBack numTurns) =>
    { scan with pendingRollbackTurns := scan.pendingRollbackTurns + numTurns }
  | .eventMsg (.turnComplete turnId) =>
    let segment := scan.segment
    { scan with
      activeSegment := some { segment with turnId := segment.turnId.or (some turnId) } }
  | .eventMsg (.turnAborted turnId) => scan.scanTurnAborted turnId
  | .eventMsg (.userMessage _) =>
    { scan with activeSegment := some { scan.segment with countsAsUserTurn := true } }
  | .turnContext ctx => scan.scanTurnContext ctx
  | .eventMsg (.turnStarted turnId) => scan.scanTurnStarted turnId
  | .responseItem item =>
    let segment := scan.segment
    { scan with
      activeSegment := some
        { segment with
          countsAsUserTurn := segment.countsAsUserTurn || isUserTurnBoundary env item } }
  | .eventMsg .other | .sessionMeta => scan

/-- The condition of the early exit. -/
def isComplete : Bool :=
  scan.baseReplacementHistory.isSome && scan.previousTurnSettings.isSome &&
    scan.referenceContextItem != .neverSet

end ReplayScan

/-- The reverse loop, over the items with their indices, newest first. -/
def scanBackward (env : HistoryEnv) : List (RolloutItem × Nat) → ReplayScan → ReplayScan
  | [], scan => scan
  | (item, index) :: older, scan =>
    let scan := scan.scanItem env index item
    if scan.isComplete then scan else scanBackward env older scan

/-- One iteration of the forward loop: the history, and whether a compaction
without replacement history was seen. -/
def replayItem (env : HistoryEnv) (state : ContextManager × Bool) :
    RolloutItem → ContextManager × Bool
  | .responseItem item => (state.1.recordItem env item, state.2)
  | .compacted compacted =>
    match compacted.replacementHistory with
    | some replacementHistory => (state.1.replace replacementHistory, state.2)
    | none =>
      let userMessages := collectUserMessages env state.1.items
      (state.1.replace (buildCompactedHistory [] userMessages compacted.message), true)
  | .eventMsg (.threadRolledBack numTurns) => (state.1.dropLastNUserTurns env numTurns, state.2)
  | .eventMsg _ | .turnContext _ | .sessionMeta => state

structure RolloutReconstruction where
  history : List ResponseItem
  previousTurnSettings : Option PreviousTurnSettings
  referenceContextItem : Option TurnContextItem
  deriving DecidableEq, Repr

/-- `Session::reconstruct_history_from_rollout`. -/
def reconstructHistoryFromRollout (env : HistoryEnv) (rolloutItems : List RolloutItem) :
    RolloutReconstruction :=
  let scan := scanBackward env rolloutItems.zipIdx.reverse .new
  let scan :=
    match scan.activeSegment with
    | some segment => scan.finalizeActiveSegment segment
    | none => scan
  let start :=
    match scan.baseReplacementHistory with
    | some base => ContextManager.new.replace base
    | none => ContextManager.new
  let (history, sawLegacyCompaction) :=
    (rolloutItems.drop scan.suffixStart).foldl (replayItem env) (start, false)
  { history := history.items
    previousTurnSettings := scan.previousTurnSettings
    referenceContextItem :=
      if sawLegacyCompaction then none
      else
        match scan.referenceContextItem with
        | .neverSet | .cleared => none
        | .latest item => some item }

end Codex
