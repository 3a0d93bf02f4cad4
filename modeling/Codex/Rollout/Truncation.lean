import Codex.Rollout.Replay
import Codex.Rollout.Uncompacted

/-!
# Codex — cutting a rollout before a user message

`core/src/thread_rollout_truncation.rs`: `user_message_positions_in_rollout` and
`truncate_rollout_before_nth_user_message_from_start`. The positions are an undo log of user
messages. A rollback marker counts instruction turns, though: agent messages and inter-agent
instructions as well. So the two counts can part (`UndoLog.CountsAlike`).

* `positions_eq_survivors`    — the loop of the source, as an undo log of user messages.
* `replayFrom_keeps`          — what stands before a surviving message is not touched any more.
* `user_positions_iff`        — when the positions are those of the surviving messages, and what
  the truncated rollout replays to.
-/

namespace Codex

open UndoLog List

variable {env : HistoryEnv} {turn : ResponseItem × Nat}

/-! ## Definitions -/

/-- `parse_turn_item` gives a `UserMessage`. A message that is read as a hook prompt has a
contextual fragment, so it is no user message in either order of the two tests. -/
def isUserMessage (env : HistoryEnv) : ResponseItem → Bool
  | .message _ role content _ => role == "user" && !isContextualUserMessageContent env content
  | _ => false

def userPositionsStep (env : HistoryEnv) (userPositions : List Nat) : RolloutItem × Nat → List Nat
  | (.responseItem item, idx) =>
    if isUserMessage env item then userPositions ++ [idx] else userPositions
  | (.eventMsg (.threadRolledBack numTurns), _) =>
    userPositions.take (userPositions.length - numTurns)
  | _ => userPositions

def userMessagePositionsInRollout (env : HistoryEnv) (items : List RolloutItem) : List Nat :=
  items.zipIdx.foldl (userPositionsStep env) []

def truncateRolloutBeforeNthUserMessageFromStart (env : HistoryEnv) (items : List RolloutItem)
    (nFromStart : Nat) : List RolloutItem :=
  if nFromStart = usizeMax then items
  else
    let userPositions := userMessagePositionsInRollout env items
    if userPositions.length ≤ nFromStart then items
    else items.take (userPositions.getD nFromStart 0)

/-! ## Instruction turns -/

/-- What an item of the rollout does to the instruction turns, with its position. -/
def turnEntry (env : HistoryEnv) : RolloutItem × Nat → Option (Entry (ResponseItem × Nat))
  | (.responseItem item, idx) =>
    if isUserTurnBoundary env item then some (.push (item, idx)) else none
  | (.eventMsg (.threadRolledBack numTurns), _) => some (.rollback numTurns)
  | _ => none

/-- The instruction turns of a rollout, and its rollback markers. -/
def turnLog (env : HistoryEnv) (items : List RolloutItem) : List (Entry (ResponseItem × Nat)) :=
  items.zipIdx.filterMap (turnEntry env)

/-- The position of an instruction turn that is a user message. -/
def userPosition (env : HistoryEnv) (turn : ResponseItem × Nat) : List Nat :=
  if isUserMessage env turn.1 then [turn.2] else []

/-- The user messages that survive when each marker removes the newest instruction turns. -/
def survivingUserPositions (env : HistoryEnv) (items : List RolloutItem) : List Nat :=
  (survivors (turnLog env items)).flatMap (userPosition env)

/-- The history before its `n`-th user message, counted from zero. -/
def beforeUserMessage (env : HistoryEnv) : Nat → List ResponseItem → List ResponseItem
  | _, [] => []
  | n, item :: rest =>
    if isUserMessage env item then
      if n = 0 then [] else item :: beforeUserMessage env (n - 1) rest
    else item :: beforeUserMessage env n rest

theorem isUserTurnBoundary_of_isUserMessage {item : ResponseItem}
    (h : isUserMessage env item = true) : isUserTurnBoundary env item = true := by
  cases item with
  | message id role content phase =>
    simp only [isUserMessage] at h
    simp [isUserTurnBoundary, h]
  | _ => cases h

/-! ## Positions -/

theorem foldl_userPositionsStep (pairs : List (RolloutItem × Nat)) (kept : List Nat) :
    pairs.foldl (userPositionsStep env) kept =
      (expand (userPosition env) (pairs.filterMap (turnEntry env))).foldl survive kept := by
  rw [filterMap_eq_flatMap_toList, expand, flatMap_assoc, foldl_flatMap]
  congr
  funext kept pair
  match pair with
  | (.responseItem item, idx) =>
    simp only [userPositionsStep, turnEntry]
    by_cases hUser : isUserMessage env item = true
    · rw [if_pos (isUserTurnBoundary_of_isUserMessage hUser)]
      simp [userPosition, hUser, survive]
    · rw [if_neg hUser]
      split
      · simp [userPosition, hUser]
      · rfl
  | (.eventMsg event, _) => cases event <;> rfl
  | (.sessionMeta, _) | (.compacted _, _) | (.turnContext _, _) => rfl

theorem positions_eq_iff (items : List RolloutItem) :
    userMessagePositionsInRollout env items = survivingUserPositions env items ↔
      CountsAlike (userPosition env) (turnLog env items) := by
  -- the loop is an undo log of user messages
  rw [userMessagePositionsInRollout, foldl_userPositionsStep]
  exact survivors_expand_eq_iff (fun turn => by unfold userPosition; split <;> simp) _

/-! ## A turn in the rollout -/

/-- The boundaries of the history are the instruction turns. -/
theorem boundaryLog_eq (items : List RolloutItem) (start : Nat) :
    items.filterMap (boundaryEntry env) =
      expand (fun turn => [turn.1]) ((items.zipIdx start).filterMap (turnEntry env)) := by
  conv_lhs => rw [← zipIdx_map_fst start items, filterMap_map]
  rw [filterMap_eq_flatMap_toList, filterMap_eq_flatMap_toList, expand, flatMap_assoc]
  congr
  funext pair
  match pair with
  | (.responseItem item, idx) =>
    simp only [Function.comp, boundaryEntry, turnEntry]
    split <;> rfl
  | (.eventMsg event, _) => cases event <;> rfl
  | (.sessionMeta, _) | (.compacted _, _) | (.turnContext _, _) => rfl

theorem turnEntry_eq_push {pair : RolloutItem × Nat}
    (h : turnEntry env pair = some (.push turn)) :
    pair = (.responseItem turn.1, turn.2) ∧ isUserTurnBoundary env turn.1 = true := by
  unfold turnEntry at h
  split at h
  · split at h
    · next hBoundary =>
      cases h
      exact ⟨rfl, hBoundary⟩
    · cases h
  · cases h
  · cases h

variable {items : List RolloutItem} {u : ResponseItem} {n : Nat}

/-- An entry of the log stands at its position in the rollout. -/
theorem turnLog_split {start : Nat}
    {older newer : List (Entry (ResponseItem × Nat))}
    (h : (items.zipIdx start).filterMap (turnEntry env) = older ++ .push turn :: newer) :
    ∃ before after, items = before ++ .responseItem turn.1 :: after ∧
      turn.2 = start + before.length ∧ isUserTurnBoundary env turn.1 = true ∧
      (before.zipIdx start).filterMap (turnEntry env) = older ∧
      (after.zipIdx (turn.2 + 1)).filterMap (turnEntry env) = newer := by
  induction items generalizing start older with
  | nil => exact absurd h (by simp)
  | cons item rest ih =>
    rw [zipIdx_cons] at h
    cases hEntry : turnEntry env (item, start) with
    | none =>
      rw [filterMap_cons_none hEntry] at h
      obtain ⟨before, after, rfl, hIdx, hTurn, hOlder, hNewer⟩ := ih h
      refine ⟨item :: before, after, rfl, by rw [length_cons]; omega, hTurn, ?_, hNewer⟩
      rw [zipIdx_cons, filterMap_cons_none hEntry, hOlder]
    | some entry =>
      rw [filterMap_cons_some hEntry] at h
      cases older with
      | nil =>
        obtain ⟨rfl, hNewer⟩ := List.cons.inj h
        obtain ⟨hPair, hTurn⟩ := turnEntry_eq_push hEntry
        obtain ⟨rfl, rfl⟩ := Prod.mk.inj hPair
        exact ⟨[], rest, rfl, rfl, hTurn, rfl, hNewer⟩
      | cons first older =>
        obtain ⟨rfl, hRest⟩ := List.cons.inj h
        obtain ⟨before, after, rfl, hIdx, hTurn, hOlder, hNewer⟩ := ih hRest
        refine ⟨item :: before, after, rfl, by rw [length_cons]; omega, hTurn, ?_, hNewer⟩
        rw [zipIdx_cons, filterMap_cons_some hEntry, hOlder]

/-! ## Replay after a surviving message -/

/-- One item. A rollback that stays above `u` cuts what came after it only. -/
theorem replayFrom_item_keeps {item : RolloutItem} (hItem : isCompactedItem item = false)
    {kept middle : List ResponseItem} (hu : isUserTurnBoundary env u = true)
    {rest : List (Entry ResponseItem)} (hExcess : excess ((boundaryEntry env item).toList ++ rest) ≤
      middle.countP (isUserTurnBoundary env)) :
    ∃ middle', replayFrom env (kept ++ u :: middle) [item] = kept ++ u :: middle' ∧
      excess rest ≤ middle'.countP (isUserTurnBoundary env) := by
  match item with
  | .compacted _ => cases hItem
  | .sessionMeta | .turnContext _ => exact ⟨middle, rfl, hExcess⟩
  | .responseItem item =>
    obtain ⟨added, hReplay, hAdded⟩ := replayFrom_response_boundaries (kept ++ u :: middle) item
    refine ⟨middle ++ added, by rw [hReplay]; simp, ?_⟩
    rw [countP_append, ← length_boundariesOf added, hAdded, length_boundariesOf, countP_singleton]
    simp only [boundaryEntry] at hExcess
    split at hExcess
    · rw [if_pos ‹_›]
      exact Nat.sub_le_iff_le_add.mp hExcess
    · exact Nat.le_add_right_of_le hExcess
  | .eventMsg (.threadRolledBack 0) =>
    have hRest : 0 + excess rest ≤ middle.countP (isUserTurnBoundary env) := hExcess
    exact ⟨middle, rfl, by omega⟩
  | .eventMsg (.threadRolledBack (n + 1)) =>
    have hSum : n + 1 + excess rest ≤ middle.countP (isUserTurnBoundary env) := hExcess
    obtain ⟨first, v, second, rfl, hv, hCount⟩ :=
      exists_nth_last (by omega : n < middle.countP (isUserTurnBoundary env))
    refine ⟨first.rdropWhile (isContextUpdate env), ?_, ?_⟩
    · have hCut : CutBefore env (n + 1) (kept ++ u :: (first ++ v :: second)) (kept ++ u :: first) :=
        ⟨v, second, by simp, hv, .inl (by rw [hCount])⟩
      rw [replayFrom_rollback, dropLastNUserTurns_eq hCut]
      exact trimContextUpdates_split hu kept first
    · rw [countP_rdropWhile_isContextUpdate]
      rw [countP_append, countP_cons_of_pos hv] at hSum
      omega
  | .eventMsg (.turnStarted _) | .eventMsg (.turnComplete _) | .eventMsg (.turnAborted _)
  | .eventMsg (.userMessage _) | .eventMsg .other => exact ⟨middle, rfl, hExcess⟩

/-- A message that the markers after it do not reach stays, with all that stood before it. -/
theorem replayFrom_keeps (hItems : ∀ item ∈ items, isCompactedItem item = false)
    {kept middle : List ResponseItem}
    (hu : isUserTurnBoundary env u = true) (hExcess : excess (items.filterMap (boundaryEntry env)) ≤
      middle.countP (isUserTurnBoundary env)) :
    ∃ later, replayFrom env (kept ++ u :: middle) items = kept ++ u :: later := by
  induction items generalizing middle with
  | nil => exact ⟨middle, rfl⟩
  | cons item rest ih =>
    obtain ⟨hFirst, hRest⟩ := forall_mem_cons.mp hItems
    rw [filterMap_eq_flatMap_toList, flatMap_cons, ← filterMap_eq_flatMap_toList] at hExcess
    obtain ⟨middle', hStep, hNext⟩ := replayFrom_item_keeps hFirst hu hExcess
    rw [replayFrom_cons, hStep]
    exact ih hRest hNext

theorem beforeUserMessage_append (hu : isUserMessage env u = true)
    (older newer : List ResponseItem) :
    beforeUserMessage env (older.countP (isUserMessage env)) (older ++ u :: newer) = older := by
  induction older with
  | nil =>
    rw [countP_nil, nil_append, beforeUserMessage, if_pos hu, if_pos rfl]
  | cons item older ih =>
    rw [cons_append, beforeUserMessage]
    by_cases hItem : isUserMessage env item = true
    · rw [if_pos hItem, countP_cons_of_pos hItem, if_neg (Nat.succ_ne_zero _),
        Nat.add_sub_cancel, ih]
    · rw [if_neg hItem, countP_cons_of_neg hItem, ih]

theorem length_flatMap_userPosition (turns : List (ResponseItem × Nat)) :
    (turns.flatMap (userPosition env)).length =
      turns.countP fun turn => isUserMessage env turn.1 := by
  induction turns with
  | nil => rfl
  | cons turn turns ih =>
    rw [flatMap_cons, length_append, ih, countP_cons, Nat.add_comm]
    unfold userPosition
    split <;> rfl

/-- The history before a surviving user message, and all of it. -/
structure CutAt (env : HistoryEnv) (items : List RolloutItem) (n : Nat) (before : List RolloutItem) :
    Prop where
  cut : ∃ u after, items = before ++ .responseItem u :: after ∧ isUserMessage env u = true ∧
    excess (after.filterMap (boundaryEntry env)) = 0
  position : (survivingUserPositions env items)[n]? = some before.length
  older : (survivors (before.filterMap (boundaryEntry env))).countP (isUserMessage env) = n

theorem exists_cutAt (h : n < (survivingUserPositions env items).length) :
    ∃ before, CutAt env items n before := by
  unfold survivingUserPositions at h
  rw [length_flatMap_userPosition] at h
  obtain ⟨keptBefore, turn, keptAfter, hSurvivors, hUser, hLast⟩ :=
    exists_nth_last (Nat.sub_one_sub_lt_of_lt h)
  have hCount : keptBefore.countP (isUserMessage env ·.1) = n := by
    rw [hSurvivors, countP_append, countP_cons_of_pos (by exact hUser)] at h hLast
    omega
  obtain ⟨older, newer, hLog, hOlder, hExcess, -⟩ := survivors_split hSurvivors
  obtain ⟨before, after, hItems, hIdx, -, hBefore, hAfter⟩ := turnLog_split hLog
  refine ⟨before, ⟨turn.1, after, hItems, hUser, ?_⟩, ?_, ?_⟩
  · rw [boundaryLog_eq after (turn.2 + 1), excess_expand_singleton, hAfter, hExcess]
  · have hPosition : userPosition env turn = [before.length] := by
      unfold userPosition
      rw [if_pos hUser, hIdx, Nat.zero_add]
    unfold survivingUserPositions
    rw [hSurvivors, flatMap_append, flatMap_cons, hPosition,
      List.getElem?_append_right (by rw [length_flatMap_userPosition, hCount]),
      length_flatMap_userPosition, hCount, Nat.sub_self]
    rfl
  · rw [boundaryLog_eq before 0, survivors_expand_singleton, hBefore, hOlder, countP_map]
    exact hCount

theorem countP_boundariesOf (history : List ResponseItem) :
    (boundariesOf env history).countP (isUserMessage env) =
      history.countP (isUserMessage env) := by
  unfold boundariesOf
  rw [countP_filter]
  refine countP_congr fun item _ => ?_
  rw [Bool.and_eq_true]
  exact ⟨fun h => h.1, fun h => ⟨h, isUserTurnBoundary_of_isUserMessage h⟩⟩

/-- Replaying what stands before a surviving user message. -/
theorem CutAt.replay {before : List RolloutItem} (h : CutAt env items n before)
    (hItems : ∀ item ∈ items, isCompactedItem item = false) :
    (reconstructHistoryFromRollout env before).history =
      beforeUserMessage env n (reconstructHistoryFromRollout env items).history := by
  obtain ⟨⟨u, after, rfl, hUser, hExcess⟩, -, hCount⟩ := h
  obtain ⟨hBefore, hRest⟩ := forall_mem_append.mp hItems
  have hBoundary := isUserTurnBoundary_of_isUserMessage hUser
  have hCons : RolloutItem.responseItem u :: after = [.responseItem u] ++ after := rfl
  have hReach : excess (after.filterMap (boundaryEntry env)) ≤
      ([] : List ResponseItem).countP (isUserTurnBoundary env) := le_of_eq hExcess
  obtain ⟨later, hLater⟩ : ∃ later, replayFrom env (replayFrom env [] before ++ [u]) after =
      replayFrom env [] before ++ u :: later :=
    replayFrom_keeps (forall_mem_cons.mp hRest).2 hBoundary hReach
  rw [reconstruct_history_of_uncompacted hBefore, reconstruct_history_of_uncompacted hItems,
    replayFrom_append, hCons, replayFrom_append, replayFrom_user hBoundary, hLater,
    ← hCount, ← boundaries_replayFrom hBefore, countP_boundariesOf]
  exact (beforeUserMessage_append hUser _ _).symm

/-- **Positions of user messages.** They are those of the surviving user messages, and cutting before
the `n`-th one replays to the history of the rollout up to there, if and only if no marker that counts
user messages reaches a user message that counting instruction turns spares. In a rollout without
compactions that history is the effective one before its `n`-th user message. -/
theorem user_positions_iff (env : HistoryEnv) (items : List RolloutItem) :
    ((userMessagePositionsInRollout env items = survivingUserPositions env items ∧
        ∀ n p, n ≠ usizeMax → (survivingUserPositions env items)[n]? = some p →
          (reconstructHistoryFromRollout env
            (truncateRolloutBeforeNthUserMessageFromStart env items n)).history =
          (reconstructHistoryFromRollout env (items.take p)).history) ↔
      CountsAlike (userPosition env) (turnLog env items)) ∧
    ((∀ item ∈ items, isCompactedItem item = false) →
      ∀ n p, (survivingUserPositions env items)[n]? = some p →
        (reconstructHistoryFromRollout env (items.take p)).history =
          beforeUserMessage env n (reconstructHistoryFromRollout env items).history) := by
  refine ⟨?_, fun hItems n p hPosition => ?_⟩
  · rw [← positions_eq_iff, and_iff_left_iff_imp]
    intro hSame n p hMax hPosition
    obtain ⟨hn, -⟩ := List.getElem?_eq_some_iff.mp hPosition
    unfold truncateRolloutBeforeNthUserMessageFromStart
    rw [if_neg hMax, hSame, if_neg (Nat.not_le_of_lt hn), getD_eq_getElem?_getD, hPosition,
      Option.getD_some]
  · obtain ⟨hn, -⟩ := List.getElem?_eq_some_iff.mp hPosition
    obtain ⟨before, hCut⟩ := exists_cutAt hn
    obtain ⟨u, after, hSplit, -, -⟩ := hCut.cut
    have hTake : items.take p = before := by
      rw [hCut.position, Option.some.injEq] at hPosition
      rw [← hPosition, hSplit, take_left]
    rw [hTake]
    exact hCut.replay hItems

def userItem (message : String) : RolloutItem := .responseItem (userTextMessage message.toList)

/-- A user message and a message from another agent. The rollback takes back the agent's turn; the
positions lose the user message, and nothing is cut off before it. -/
theorem user_message_lost_to_agent_turn :
    let items := [userItem "a", .responseItem (.agentMessage "helper" "main" []),
      .eventMsg (.threadRolledBack 1)]
    userMessagePositionsInRollout .plain items = [] ∧
      survivingUserPositions .plain items = [0] ∧
      (reconstructHistoryFromRollout .plain
        (truncateRolloutBeforeNthUserMessageFromStart .plain items 0)).history =
          [userTextMessage ['a']] ∧
      beforeUserMessage .plain 0 (reconstructHistoryFromRollout .plain items).history = [] := by
  refine ⟨?_, ?_, ?_, ?_⟩ <;> decide

end Codex
