import Codex.Rollout.Replay
import Codex.ThreadHistory.ExplicitTurns

/-!
# Codex — the thread and the model's history

Clients see the turns of `ThreadHistoryBuilder`, the model sees the rebuilt history. Both replay the
same rollback markers, but count different things: the thread drops its newest turns of any kind,
the history its newest user-turn boundaries. A turn without a user message, such as a standalone
task, is one turn for the thread and nothing for the history.

`RollbacksAgree` says that both counts reach the same user messages. If no turn has more than one
boundary, or no two user messages are the same, thread and history show the same user messages if
and only if it holds (`thread_agrees_iff`).
-/

namespace Codex.ThreadHistory

open UndoLog List ExplicitTurn ThreadRolloutItem

variable {env : HistoryEnv} {Tool : Type}

/-! ## Two selections from a list -/

section Selections

variable {α : Type}

/-- Two tests select the same only if they agree, when one of them is weaker or the elements are
distinct. -/
theorem eq_of_selections_eq {marked : List (α × Bool × Bool)}
    (h : (∀ mark ∈ marked, mark.2.2 = true → mark.2.1 = true) ∨ (marked.map Prod.fst).Nodup)
    (hEq : (marked.filter fun mark => mark.2.1).map Prod.fst =
      (marked.filter fun mark => mark.2.2).map Prod.fst) :
    ∀ mark ∈ marked, mark.2.1 = mark.2.2 := by
  induction marked with
  | nil => exact forall_mem_nil _
  | cons mark rest ih =>
    obtain ⟨a, first, second⟩ := mark
    have hRest : (∀ mark ∈ rest, mark.2.2 = true → mark.2.1 = true) ∨ (rest.map Prod.fst).Nodup :=
      h.imp (fun hWeaker => (forall_mem_cons.mp hWeaker).2)
        fun hNodup => (nodup_cons.mp hNodup).2
    have hMem : ∀ test : α × Bool × Bool → Bool, a ∈ (rest.filter test).map Prod.fst →
        a ∈ rest.map Prod.fst := fun test hA => (filter_sublist.map Prod.fst).subset hA
    match first, second with
    | true, true =>
      have hTail := (cons.inj hEq).2
      exact forall_mem_cons.mpr ⟨rfl, ih hRest hTail⟩
    | false, false => exact forall_mem_cons.mpr ⟨rfl, ih hRest hEq⟩
    | true, false =>
      -- the element is selected once more on the other side
      have hHead : a :: (rest.filter fun mark => mark.2.1).map Prod.fst =
          (rest.filter fun mark => mark.2.2).map Prod.fst := hEq
      rcases h with hWeaker | hNodup
      · have hLength := congrArg length hHead
        rw [length_cons, length_map, length_map, ← countP_eq_length_filter,
          ← countP_eq_length_filter] at hLength
        have hLe : rest.countP (fun mark => mark.2.2) ≤ rest.countP fun mark => mark.2.1 :=
          countP_mono_left (forall_mem_cons.mp hWeaker).2
        omega
      · refine absurd (hMem (fun mark => mark.2.2) ?_) (nodup_cons.mp hNodup).1
        rw [← hHead]
        exact mem_cons_self
    | false, true =>
      have hHead : (rest.filter fun mark => mark.2.1).map Prod.fst =
          a :: (rest.filter fun mark => mark.2.2).map Prod.fst := hEq
      rcases h with hWeaker | hNodup
      · cases (forall_mem_cons.mp hWeaker).1 rfl
      · refine absurd (hMem (fun mark => mark.2.1) ?_) (nodup_cons.mp hNodup).1
        rw [hHead]
        exact mem_cons_self

/-- Of a list with one marked element at most, all is left until the element is dropped. -/
theorem filterMap_rdrop {β : Type} (f : α → Option β) {as : List α}
    (h : (as.filterMap f).length ≤ 1) (k : Nat) : (as.rdrop k).filterMap f =
      if k ≤ (as.reverse.takeWhile fun a => (f a).isNone).length then as.filterMap f else [] := by
  induction as using reverseRecOn generalizing k with
  | nil => simp [rdrop]
  | append_singleton as a ih =>
    rw [filterMap_append, length_append] at h
    match k with
    | 0 => rw [rdrop_zero, if_pos (Nat.zero_le _)]
    | k + 1 =>
      rw [rdrop_concat_succ, reverse_append, reverse_singleton, singleton_append, filterMap_append]
      rcases hA : f a with _ | b
      · rw [takeWhile_cons_of_pos (by rw [hA]; rfl),
          filterMap_cons_none hA, filterMap_nil, ih (by omega)]
        simp
      have hOlder : as.filterMap f = [] := by
        rw [filterMap_cons_some hA, length_cons] at h
        exact eq_nil_of_length_eq_zero (by omega)
      have hDropped : (as.rdrop k).filterMap f = [] :=
        eq_nil_of_sublist_nil (hOlder ▸ (take_sublist _ _).filterMap f)
      rw [takeWhile_cons_of_neg (by rw [hA]; exact Bool.false_ne_true), hDropped,
        if_neg (by simp)]

end Selections

/-! ## The history of explicit turns -/

def boundaryOf (env : HistoryEnv) : ThreadRolloutItem Tool → Option ResponseItem
  | .responseItem item => if isUserTurnBoundary env item then some item else none
  | _ => none

/-- The user-turn boundaries of a turn. -/
def ExplicitTurn.boundaries (t : ExplicitTurn env Tool) : List ResponseItem :=
  t.body.filterMap (boundaryOf env)

theorem boundaryEntry_of_isInTurn {item : ThreadRolloutItem Tool} (h : isInTurn item = true) :
    boundaryEntry env item.toRolloutItem = (boundaryOf env item).map .push := by
  match item with
  | .compacted _ => cases h
  | .sessionMeta | .turnContext _ => rfl
  | .responseItem item =>
    show (if isUserTurnBoundary env item then some (Entry.push item) else none) =
      (if isUserTurnBoundary env item then some item else none).map .push
    split <;> rfl
  | .eventMsg event =>
    match event with
    | .turnStarted _ | .turnComplete _ | .threadRolledBack _ => cases h
    | .userMessage _ | .agentMessage _ | .agentReasoning _ | .agentReasoningRawContent _
    | .item _ _ _ | .contextCompacted | .enteredReviewMode _ | .exitedReviewMode _ | .error _
    | .turnAborted _ | .other => rfl

variable (log : List (Entry (ExplicitTurn env Tool))) (t : ExplicitTurn env Tool)

theorem boundaryEntries_log :
    ((threadRolloutOf log).map toRolloutItem).filterMap (boundaryEntry env) =
      expand boundaries log := by
  unfold threadRolloutOf
  rw [map_flatMap, filterMap_flatMap]
  congr
  funext entry
  match entry with
  | .push t =>
    -- for the history, a turn is the list of its boundaries
    have hBody : (t.body.map toRolloutItem).filterMap (boundaryEntry env) =
        t.boundaries.map .push := by
      unfold boundaries
      rw [filterMap_map, map_filterMap]
      exact filterMap_congr fun item hItem => boundaryEntry_of_isInTurn (t.in_turn item hItem)
    show (t.items.map toRolloutItem).filterMap (boundaryEntry env) = _
    unfold items
    rw [cons_append, map_cons, filterMap_cons_none rfl, map_append, filterMap_append, hBody]
    exact append_nil _
  | .rollback n => rfl

theorem not_isCompactedItem_of_mem {log : List (Entry (ExplicitTurn env Tool))} {item : RolloutItem}
    (h : item ∈ (threadRolloutOf log).map toRolloutItem) :
    isCompactedItem item = false := by
  obtain ⟨item, hItem, rfl⟩ := mem_map.mp h
  obtain ⟨entry, -, hEntry⟩ := mem_flatMap.mp hItem
  match entry with
  | .rollback n =>
    cases mem_singleton.mp hEntry
    rfl
  | .push t =>
    rcases mem_cons.mp hEntry with rfl | hBody
    · rfl
    rcases mem_append.mp hBody with hBody | hEnd
    · have hIn := t.in_turn item hBody
      match item with
      | .compacted _ => cases hIn
      | .sessionMeta | .turnContext _ | .responseItem _ | .eventMsg _ => rfl
    · cases mem_singleton.mp hEnd
      rfl

/-- A real user message is a boundary. -/
theorem isUserTurnBoundary_of_userText {item : ResponseItem} {text : Text}
    (h : userText env item = some text) : isUserTurnBoundary env item = true := by
  match item with
  | .message id role content phase =>
    by_cases hUser : (role == "user" && !isContextualUserMessageContent env content) = true
    · rw [isUserTurnBoundary, hUser, Bool.true_or]
    · rw [userText, if_neg hUser] at h
      cases h

theorem filterMap_userText_boundariesOf (history : List ResponseItem) :
    (boundariesOf env history).filterMap (userText env) = history.filterMap (userText env) := by
  unfold boundariesOf
  rw [filterMap_filter]
  refine filterMap_congr fun item _ => ?_
  cases hText : userText env item with
  | none => exact ite_self none
  | some text => exact if_pos (isUserTurnBoundary_of_userText hText)

theorem filterMap_userText_boundaries :
    t.boundaries.filterMap (userText env) = t.body.filterMap eventText := by
  rw [t.messages_match]
  unfold boundaries
  rw [filterMap_filterMap]
  refine filterMap_congr fun item _ => ?_
  match item with
  | .compacted _ | .sessionMeta | .turnContext _ | .eventMsg _ => rfl
  | .responseItem item =>
    show (if isUserTurnBoundary env item then some item else none).bind (userText env) =
      userText env item
    cases hText : userText env item with
    | none => split <;> simp [hText]
    | some text => rw [if_pos (isUserTurnBoundary_of_userText hText), Option.bind_some, hText]

/-- The user messages of the rebuilt history. -/
theorem historyMessages_reconstruct : historyMessages env (reconstructHistoryFromRollout env
        ((threadRolloutOf log).map toRolloutItem)).history =
      ((survivors (expand boundaries log)).filterMap (userText env)).map shownText := by
  unfold historyMessages
  rw [reconstruct_history_of_uncompacted fun _ hItem => not_isCompactedItem_of_mem hItem,
    ← filterMap_userText_boundariesOf,
    boundaries_replayFrom fun _ hItem => not_isCompactedItem_of_mem hItem, boundaryEntries_log]

/-! ## What both keep -/

/-- The boundaries that a turn has after its user message. -/
def ExplicitTurn.later : Nat :=
  (t.boundaries.reverse.takeWhile fun item => (userText env item).isNone).length

/-- After every turn with a user message: the rollbacks reach the turn, when turns are counted, if
and only if they reach its user message, when boundaries are counted. -/
def RollbacksAgree : List (Entry (ExplicitTurn env Tool)) → Prop
  | [] => True
  | .rollback _ :: rest => RollbacksAgree rest
  | .push t :: rest =>
    (t.messages ≠ [] →
      (excess rest = 0 ↔ excess (expand ExplicitTurn.boundaries rest) ≤ t.later)) ∧
    RollbacksAgree rest

/-- The user messages of a log, each with whether the thread and whether the history keeps it. -/
def marks : List (Entry (ExplicitTurn env Tool)) → List (Text × Bool × Bool)
  | [] => []
  | .rollback _ :: rest => marks rest
  | .push t :: rest =>
    (t.messages.map fun message =>
      (message, decide (excess rest = 0),
        decide (excess (expand ExplicitTurn.boundaries rest) ≤ t.later))) ++ marks rest

theorem marks_push (rest : List (Entry (ExplicitTurn env Tool))) (test : Bool × Bool → Bool) :
    ((marks (.push t :: rest)).filter fun mark => test mark.2).map Prod.fst =
      (if test (decide (excess rest = 0),
          decide (excess (expand boundaries rest) ≤ t.later)) then t.messages else []) ++
        ((marks rest).filter fun mark => test mark.2).map Prod.fst := by
  rw [marks, filter_append, map_append, filter_map]
  congr 1
  split
  · next hTest => simp [Function.comp_def, hTest]
  · next hTest => simp [hTest]

theorem thread_eq_marks : (survivors log).flatMap messages =
      ((marks log).filter fun mark => mark.2.1).map Prod.fst := by
  induction log with
  | nil => rfl
  | cons entry rest ih =>
    match entry with
    | .rollback n =>
      rw [survivors_cons_rollback, ih]
      rfl
    | .push t =>
      have hMarks := marks_push t rest Prod.fst
      rw [survivors_cons_push, flatMap_append, hMarks]
      congr 1
      by_cases hKept : excess rest = 0
      · rw [if_pos hKept, if_pos (decide_eq_true hKept), flatMap_singleton]
      · rw [if_neg hKept, if_neg (by simpa using hKept)]
        rfl

theorem history_eq_marks :
    ((survivors (expand boundaries log)).filterMap (userText env)).map shownText =
      ((marks log).filter fun mark => mark.2.2).map Prod.fst := by
  induction log with
  | nil => rfl
  | cons entry rest ih =>
    match entry with
    | .rollback n =>
      rw [survivors_expand_rollback, ih]
      rfl
    | .push t =>
      have hMarks := marks_push t rest Prod.snd
      have hOne : (t.boundaries.filterMap (userText env)).length ≤ 1 := by
        rw [filterMap_userText_boundaries]
        exact t.one_message
      rw [survivors_expand_push, filterMap_append, map_append, hMarks,
        filterMap_rdrop _ hOne, filterMap_userText_boundaries]
      congr 1
      show (if excess (expand boundaries rest) ≤ t.later then
        t.body.filterMap eventText else []).map shownText = _
      by_cases hKept : excess (expand boundaries rest) ≤ t.later
      · rw [if_pos hKept, if_pos (decide_eq_true hKept)]
        rfl
      · rw [if_neg hKept, if_neg (by simpa using hKept)]
        rfl

theorem rollbacksAgree_iff : RollbacksAgree log ↔ ∀ mark ∈ marks log, mark.2.1 = mark.2.2 := by
  induction log with
  | nil =>
    refine ⟨fun _ mark hMark => ?_, fun _ => trivial⟩
    cases hMark
  | cons entry rest ih =>
    match entry with
    | .rollback n => exact ih
    | .push t =>
      rw [RollbacksAgree, marks, ih, forall_mem_append]
      refine and_congr ⟨fun hAgree mark hMark => ?_, fun hAgree hMessages => ?_⟩ Iff.rfl
      · obtain ⟨message, hMessage, rfl⟩ := mem_map.mp hMark
        exact decide_eq_decide.mpr (hAgree (ne_nil_of_mem hMessage))
      · obtain ⟨message, hMessage⟩ := exists_mem_of_ne_nil _ hMessages
        exact decide_eq_decide.mp (hAgree _ (mem_map_of_mem hMessage))

/-- If the user message is the only boundary, none comes after it. -/
theorem ExplicitTurn.later_eq_zero {t : ExplicitTurn env Tool} (hSingle : t.boundaries.length ≤ 1)
    (hMessages : t.messages ≠ []) : t.later = 0 := by
  have hTexts := filterMap_userText_boundaries t
  unfold later
  match hBoundaries : t.boundaries with
  | [] => rfl
  | [item] =>
    rw [hBoundaries] at hTexts
    have hSome : (userText env item).isNone = false := by
      cases hText : userText env item with
      | some _ => rfl
      | none =>
        rw [filterMap_cons_none hText, filterMap_nil] at hTexts
        refine absurd ?_ hMessages
        unfold messages
        rw [← hTexts, map_nil]
    rw [reverse_singleton, takeWhile_cons_of_neg (by rw [hSome]; exact Bool.false_ne_true)]
    rfl
  | _ :: _ :: _ =>
    rw [hBoundaries] at hSingle
    exact absurd hSingle (by simp)

/-- With one boundary at most in each turn, the history keeps no message that the thread drops. -/
theorem marks_weaker {log : List (Entry (ExplicitTurn env Tool))}
    (hSingle : ∀ t ∈ pushed log, t.boundaries.length ≤ 1) :
    ∀ mark ∈ marks log, mark.2.2 = true → mark.2.1 = true := by
  induction log with
  | nil => exact forall_mem_nil _
  | cons entry rest ih =>
    match entry with
    | .rollback n => exact ih hSingle
    | .push t =>
      obtain ⟨hFirst, hRest⟩ : t.boundaries.length ≤ 1 ∧
        ∀ t ∈ pushed rest, t.boundaries.length ≤ 1 := forall_mem_cons.mp hSingle
      refine forall_mem_append.mpr ⟨fun mark hMark hKept => ?_, ih hRest⟩
      obtain ⟨message, hMessage, rfl⟩ := mem_map.mp hMark
      have hKept : excess (expand boundaries rest) ≤ t.later := of_decide_eq_true hKept
      have hLe := excess_le_excess_expand boundaries hRest
      have hLater := later_eq_zero hFirst (ne_nil_of_mem hMessage)
      exact decide_eq_true (by omega)

theorem map_fst_marks : (marks log).map Prod.fst = (pushed log).flatMap messages := by
  induction log with
  | nil => rfl
  | cons entry rest ih =>
    match entry with
    | .rollback n => exact ih
    | .push t =>
      have hPushed : pushed (.push t :: rest) = t :: pushed rest := rfl
      rw [hPushed, marks, map_append, map_map]
      congr 1
      exact map_id _

/-! ## Agreement -/

/-- If the rollbacks agree, clients see the user messages of the model's history. -/
theorem thread_agrees_of_rollbacksAgree (tenv : ThreadEnv)
    {log : List (Entry (ExplicitTurn env Tool))} (h : RollbacksAgree log) :
    threadMessages (buildTurnsFromRolloutItems tenv (threadRolloutOf log)) =
      historyMessages env (reconstructHistoryFromRollout env
        ((threadRolloutOf log).map toRolloutItem)).history := by
  have hSame := (rollbacksAgree_iff log).mp h
  rw [threadMessages_build, historyMessages_reconstruct, thread_eq_marks, history_eq_marks,
    filter_congr fun mark hMark => by rw [hSame mark hMark]]

/-- **Thread and history.** The user messages that clients see are those of the model's history if
and only if the rollbacks agree; for turns with one boundary at most, or messages that are all
different. -/
theorem thread_agrees_iff (tenv : ThreadEnv) (log : List (Entry (ExplicitTurn env Tool)))
    (hScope : (∀ t ∈ pushed log, t.boundaries.length ≤ 1) ∨
      ((pushed log).flatMap ExplicitTurn.messages).Nodup) :
    threadMessages (buildTurnsFromRolloutItems tenv (threadRolloutOf log)) =
        historyMessages env (reconstructHistoryFromRollout env
          ((threadRolloutOf log).map toRolloutItem)).history ↔
      RollbacksAgree log := by
  refine ⟨fun hEq => ?_, thread_agrees_of_rollbacksAgree tenv⟩
  rw [threadMessages_build, historyMessages_reconstruct, thread_eq_marks, history_eq_marks] at hEq
  rw [rollbacksAgree_iff]
  refine eq_of_selections_eq (hScope.imp marks_weaker fun hNodup => ?_) hEq
  rwa [map_fst_marks]

/-! Turns with a user message and its event, and a turn in which only the assistant speaks. -/

def plainThreadEnv : ThreadEnv :=
  { parseHookPromptFragment := fun _ => none, uuid := fun _ => "" }

def userTurn (message : Text) : ExplicitTurn HistoryEnv.plain Unit where
  turnId := "user"
  body :=
    [.eventMsg (.userMessage ⟨none, message, none, [], [], [], []⟩),
      .responseItem (userTextMessage message)]
  in_turn := by simp [isInTurn]
  foreign_ids := by simp [HasForeignId]
  one_message := Nat.le_refl 1
  messages_match := by
    show [message] = [userMessageText [.inputText message]]
    simp [userMessageText]

def standaloneTurn : ExplicitTurn HistoryEnv.plain Unit where
  turnId := "standalone"
  body := [.responseItem (.message none "assistant" [.outputText ['c']] none)]
  in_turn := by simp [isInTurn]
  foreign_ids := by simp [HasForeignId]
  one_message := by decide
  messages_match := rfl

/-- A rollback after user turns. -/
theorem agrees_after_user_turns :
    threadMessages (buildTurnsFromRolloutItems plainThreadEnv
        (threadRolloutOf [.push (userTurn ['a']), .push (userTurn ['b']), .rollback 1])) =
      historyMessages .plain (reconstructHistoryFromRollout .plain
        ((threadRolloutOf [.push (userTurn ['a']), .push (userTurn ['b']), .rollback 1]).map
          toRolloutItem)).history := by
  refine (thread_agrees_iff plainThreadEnv _ (.inl ?_)).mpr ⟨fun _ => ?_, fun _ => ?_, trivial⟩
  · decide
  · decide
  · decide

/-- A rollback after a standalone turn: the thread loses that turn and shows the second user message
still, the history has lost it. -/
theorem departs_after_standalone_turn :
    threadMessages (buildTurnsFromRolloutItems plainThreadEnv (threadRolloutOf
        [.push (userTurn ['a']), .push (userTurn ['b']), .push standaloneTurn, .rollback 1])) =
      [['a'], ['b']] ∧
    historyMessages .plain (reconstructHistoryFromRollout .plain
        ((threadRolloutOf
          [.push (userTurn ['a']), .push (userTurn ['b']), .push standaloneTurn, .rollback 1]).map
          toRolloutItem)).history = [['a']] := by
  decide

end Codex.ThreadHistory
