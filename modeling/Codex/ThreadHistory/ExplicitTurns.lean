import Codex.ThreadHistory.Builder
import Codex.Rollout.Uncompacted

/-!
# Codex — explicit turns in the thread

A rollout of turns that are started and completed, with rollback markers between them. The builder
keeps one turn for each of them, and a marker takes away the newest turns of any kind: the thread
that clients see is an undo log of turns (`between_of_log`).
-/

namespace Codex.ThreadHistory

open UndoLog List ThreadHistoryBuilder

variable {env : HistoryEnv} {Tool : Type} (payload : UserMessageEvent)

/-! ## User messages -/

/-- The text of a real user message in the history. -/
def userText (env : HistoryEnv) : ResponseItem → Option Text
  | .message _ role content _ =>
    if role == "user" && !isContextualUserMessageContent env content then
      some (userMessageText content)
    else none
  | _ => none

/-- The user messages of a history, as they are shown. -/
def historyMessages (env : HistoryEnv) (history : List ResponseItem) : List Text :=
  (history.filterMap (userText env)).map shownText

def inputsText (content : List UserInput) : Text :=
  content.flatMap fun
    | .text text _ => text
    | .image _ _ | .localImage _ _ => []

def messageText : ThreadItem Tool → Option Text
  | .userMessage _ _ content => some (inputsText content)
  | _ => none

/-- The user messages of a thread. -/
def threadMessages (turns : List (Turn Tool)) : List Text :=
  turns.flatMap fun turn => turn.items.filterMap messageText

/-- The texts of the user-message events, and of the items that are real user messages. -/
def eventText : ThreadRolloutItem Tool → Option Text
  | .eventMsg (.userMessage payload) => some payload.message
  | _ => none

def itemText (env : HistoryEnv) : ThreadRolloutItem Tool → Option Text
  | .responseItem item => userText env item
  | _ => none

/-! ## Turns -/

/-- What stands between the start and the end of a turn without compaction. -/
def isInTurn : ThreadRolloutItem Tool → Bool
  | .compacted _ => false
  | .eventMsg (.turnStarted _) | .eventMsg (.turnComplete _) => false
  | .eventMsg (.threadRolledBack _) => false
  | _ => true

/-- The item does not have an id that the builder gives to its own items. -/
def HasForeignId : ThreadRolloutItem Tool → Prop
  | .eventMsg (.item _ id _) => ∀ n, id ≠ itemId n
  | _ => True

/-- A turn that is started and completed, with at most one user message and its event. -/
structure ExplicitTurn (env : HistoryEnv) (Tool : Type) where
  turnId : String
  body : List (ThreadRolloutItem Tool)
  in_turn : ∀ item ∈ body, isInTurn item = true
  foreign_ids : ∀ item ∈ body, HasForeignId item
  one_message : (body.filterMap eventText).length ≤ 1
  messages_match : body.filterMap eventText = body.filterMap (itemText env)

def ExplicitTurn.items (t : ExplicitTurn env Tool) : List (ThreadRolloutItem Tool) :=
  .eventMsg (.turnStarted t.turnId) :: t.body ++ [.eventMsg (.turnComplete t.turnId)]

/-- The user message of a turn, as it is shown. -/
def ExplicitTurn.messages (t : ExplicitTurn env Tool) : List Text :=
  (t.body.filterMap eventText).map shownText

def entryItems : Entry (ExplicitTurn env Tool) → List (ThreadRolloutItem Tool)
  | .push t => t.items
  | .rollback n => [.eventMsg (.threadRolledBack n)]

def threadRolloutOf (log : List (Entry (ExplicitTurn env Tool))) : List (ThreadRolloutItem Tool) :=
  log.flatMap entryItems

/-! ## The items of a turn -/

theorem inputsText_buildUserInputs :
    inputsText (buildUserInputs payload) = shownText payload.message := by
  have hImages : ∀ (urls : List (Text × Nat)) (f : Text × Nat → UserInput),
      (∀ url, ∀ text elements, f url ≠ .text text elements) → inputsText (urls.map f) = [] := by
    intro urls f hf
    unfold inputsText
    rw [flatMap_map, flatMap_eq_nil_iff]
    intro url _
    match hUrl : f url with
    | .text text elements => exact absurd hUrl (hf url text elements)
    | .image _ _ | .localImage _ _ => rfl
  have hAppend : ∀ a b, inputsText (a ++ b) = inputsText a ++ inputsText b :=
    fun _ _ => flatMap_append
  unfold buildUserInputs
  rw [hAppend, hAppend, hImages _ _ (fun _ _ _ h => by cases h),
    hImages _ _ (fun _ _ _ h => by cases h), append_nil, append_nil]
  unfold shownText
  split
  · rfl
  · exact append_nil _

/-- A turn's items show these user messages, under ids of the builder. -/
structure Shows (items : List (ThreadItem Tool)) (messages : List Text) : Prop where
  texts : items.filterMap messageText = messages
  own_ids : ∀ item ∈ items, (messageText item).isSome → ∃ n, item.id = itemId n

variable {items : List (ThreadItem Tool)} {messages : List Text}

variable {item : ThreadItem Tool} {turns : List (Turn Tool)} {id : String} {tool : Tool}

section

variable (h : Shows items messages)
include h

theorem Shows.append (hId : (messageText item).isSome → ∃ n, item.id = itemId n) :
    Shows (items ++ [item]) (messages ++ (messageText item).toList) := by
  refine ⟨?_, ?_⟩
  · rw [filterMap_append, h.texts]
    cases hText : messageText item with
    | none => rw [filterMap_cons_none hText]; rfl
    | some text => rw [filterMap_cons_some hText]; rfl
  · exact forall_mem_append.mpr ⟨h.own_ids, forall_mem_singleton.mpr hId⟩

/-- An item that is no user message. -/
theorem Shows.append_other (hNone : messageText item = none) :
    Shows (items ++ [item]) messages := by
  have hAppend : Shows (items ++ [item]) (messages ++ (messageText item).toList) :=
    h.append (by rw [hNone]; exact fun hSome => by cases hSome)
  rwa [hNone, Option.toList_none, append_nil] at hAppend

end

theorem modifyFirst_cases {α : Type} (p : α → Bool) (f : α → α) (as : List α) :
    (modifyFirst p f as = none ∧ ∀ a ∈ as, ¬p a = true) ∨
      ∃ older a newer, as = older ++ a :: newer ∧ p a = true ∧
        modifyFirst p f as = some (older ++ f a :: newer) := by
  induction as with
  | nil => exact .inl ⟨rfl, forall_mem_nil _⟩
  | cons a rest ih =>
    rw [modifyFirst]
    by_cases hTest : p a = true
    · rw [if_pos hTest]
      exact .inr ⟨[], a, rest, rfl, hTest, rfl⟩
    rw [if_neg hTest]
    rcases ih with ⟨hNone, hRest⟩ | ⟨older, b, newer, rfl, hB, hSome⟩
    · rw [hNone]
      exact .inl ⟨rfl, forall_mem_cons.mpr ⟨hTest, hRest⟩⟩
    · rw [hSome]
      exact .inr ⟨a :: older, b, newer, rfl, hB, rfl⟩

/-- A tool call does not take the place of a user message. -/
theorem Shows.upsert (h : Shows items messages)
    (hForeign : ∀ n, id ≠ itemId n) : Shows (upsertTurnItem items (.tool id tool)) messages := by
  unfold upsertTurnItem
  rcases modifyFirst_cases (fun existing => existing.id == (ThreadItem.tool id tool).id)
    (fun _ => ThreadItem.tool id tool) items with
    ⟨hNone, -⟩ | ⟨older, old, newer, rfl, hSame, hSome⟩
  · rw [hNone]
    exact h.append_other rfl
  · rw [hSome, Option.getD_some]
    have hMem : old ∈ older ++ old :: newer := mem_append_right _ mem_cons_self
    have hOld : messageText old = none := by
      by_contra hText
      obtain ⟨n, hOwn⟩ := h.own_ids old hMem (Option.isSome_iff_ne_none.mpr hText)
      exact hForeign n ((beq_iff_eq.mp hSame).symm.trans hOwn)
    have hTool : messageText (ThreadItem.tool id tool) = none := rfl
    refine ⟨?_, ?_⟩
    · rw [← h.texts, filterMap_append, filterMap_append, filterMap_cons_none hOld,
        filterMap_cons_none hTool]
    intro item hItem hText
    rcases mem_append.mp hItem with hOlder | hNewer
    · exact h.own_ids item (mem_append_left _ hOlder) hText
    · rcases mem_cons.mp hNewer with rfl | hNewer
      · cases hText
      · exact h.own_ids item (mem_append_right _ (mem_cons_of_mem _ hNewer)) hText

/-! ## The builder along a turn -/

/-- The finished turns show these user messages. -/
def ShowsTurns (turns : List (Turn Tool)) (shown : List (List Text)) : Prop :=
  List.Forall₂ (fun turn messages => Shows turn.items messages) turns shown

/-- No turn is open. -/
structure Between (builder : ThreadHistoryBuilder Tool) (shown : List (List Text)) : Prop where
  idle : builder.currentTurn = none
  turns : ShowsTurns builder.turns shown

/-- A turn was opened explicitly and shows `messages` so far. -/
structure Within (builder : ThreadHistoryBuilder Tool) (turnId : String) (shown : List (List Text))
    (messages : List Text) : Prop where
  open_turn : ∃ turn, builder.currentTurn = some turn ∧ turn.id = turnId ∧
    turn.openedExplicitly = true ∧ Shows turn.items messages
  turns : ShowsTurns builder.turns shown

variable {builder : ThreadHistoryBuilder Tool} {turnId : String} {shown : List (List Text)}
variable {tenv : ThreadEnv}

open ThreadHistoryBuilder

section

variable (h : Within builder turnId shown messages) {f : PendingTurn Tool → PendingTurn Tool}
include h

/-- Changing the items of the open turn. -/
theorem Within.modifyTurn {messages' : List Text}
    (hId : ∀ turn, (f turn).id = turn.id)
    (hExplicit : ∀ turn, (f turn).openedExplicitly = turn.openedExplicitly)
    (hItems : ∀ turn, Shows turn.items messages → Shows (f turn).items messages') :
    Within (builder.modifyTurn tenv f) turnId shown messages' := by
  obtain ⟨turn, hCurrent, hTurnId, hOpened, hShows⟩ := h.open_turn
  refine ⟨⟨f turn, ?_, (hId turn).trans hTurnId, (hExplicit turn).trans hOpened,
    hItems turn hShows⟩, h.turns⟩
  unfold ThreadHistoryBuilder.modifyTurn
  rw [hCurrent]
  rfl

theorem Within.pushItem (hNone : messageText item = none) :
    Within (builder.pushItem tenv item) turnId shown messages :=
  h.modifyTurn (fun _ => rfl) (fun _ => rfl) fun _ hShows => hShows.append_other hNone

variable {item : String → ThreadItem Tool}

theorem Within.pushNextItem (hId : ∀ id, (item id).id = id) :
    Within (builder.pushNextItem tenv item) turnId shown
      (messages ++ (messageText (item (itemId builder.nextItemIndex))).toList) := by
  have hNext : Within { builder with nextItemIndex := builder.nextItemIndex + 1 } turnId shown
      messages := ⟨h.open_turn, h.turns⟩
  unfold ThreadHistoryBuilder.pushNextItem
  refine hNext.modifyTurn (fun _ => rfl) (fun _ => rfl) fun turn hShows => ?_
  exact hShows.append fun _ => ⟨builder.nextItemIndex, hId _⟩

/-- The next item, if it is no user message. -/
theorem Within.pushNextOther (hId : ∀ id, (item id).id = id)
    (hNone : ∀ id, messageText (item id) = none) :
    Within (builder.pushNextItem tenv item) turnId shown messages := by
  have hPush : Within (builder.pushNextItem tenv item) turnId shown _ := h.pushNextItem hId
  rwa [hNone, Option.toList_none, append_nil] at hPush

/-- A change of the turn that leaves its items alone. -/
theorem Within.updateCurrentTurn (hId : ∀ turn, (f turn).id = turn.id)
    (hExplicit : ∀ turn, (f turn).openedExplicitly = turn.openedExplicitly)
    (hItems : ∀ turn, (f turn).items = turn.items) :
    Within (builder.updateCurrentTurn f) turnId shown messages := by
  obtain ⟨turn, hCurrent, hTurnId, hOpened, hShows⟩ := h.open_turn
  refine ⟨⟨f turn, ?_, (hId turn).trans hTurnId, (hExplicit turn).trans hOpened, ?_⟩, h.turns⟩
  · unfold ThreadHistoryBuilder.updateCurrentTurn
    rw [hCurrent]
    rfl
  · rw [hItems]
    exact hShows

end

variable {f : Turn Tool → Turn Tool}

/-- A change to one of the finished turns. -/
theorem ShowsTurns.modifyFirst (h : ShowsTurns turns shown)
    (p : Turn Tool → Bool)
    (hItems : ∀ turn messages, Shows turn.items messages → Shows (f turn).items messages) :
    ShowsTurns ((modifyFirst p f turns).getD turns) shown := by
  induction h with
  | nil => exact .nil
  | @cons turn messages rest shown hTurn hRest ih =>
    rw [ThreadHistory.modifyFirst]
    by_cases hTest : p turn = true
    · rw [if_pos hTest]
      exact .cons (hItems turn messages hTurn) hRest
    rw [if_neg hTest]
    cases hTail : ThreadHistory.modifyFirst p f rest with
    | none => exact .cons hTurn hRest
    | some tail =>
      rw [hTail] at ih
      exact .cons hTurn ih

/-- The same for the change of a status, where the turn was found. -/
theorem ShowsTurns.of_modifyFirst {turns' : List (Turn Tool)} (h : ShowsTurns turns shown)
    {p : Turn Tool → Bool}
    (hItems : ∀ turn, (f turn).items = turn.items)
    (hSome : ThreadHistory.modifyFirst p f turns = some turns') : ShowsTurns turns' shown := by
  have hTurns := h.modifyFirst p (f := f) fun turn messages hShows => by rwa [hItems]
  rwa [hSome] at hTurns

section

variable (h : Within builder turnId shown messages) (target : Option String) (text : Text)
include h

theorem Within.handleItem (hForeign : ∀ n, id ≠ itemId n) :
    Within (builder.handleItem tenv target (.tool id tool)) turnId shown messages := by
  match target with
  | none =>
    show Within (builder.upsertItemInCurrentTurn tenv _) turnId shown messages
    exact h.modifyTurn (fun _ => rfl) (fun _ => rfl) fun _ hShows => hShows.upsert hForeign
  | some target =>
    obtain ⟨turn, hCurrent, hTurnId, hOpened, hShows⟩ := h.open_turn
    show Within (builder.upsertItemInTurnId target _) turnId shown messages
    unfold upsertItemInTurnId
    by_cases hTarget : (turn.id == target) = true
    · rw [hCurrent, Option.filter_some, if_pos hTarget]
      exact ⟨⟨_, rfl, hTurnId, hOpened, hShows.upsert hForeign⟩, h.turns⟩
    · -- a finished turn, or none
      have hOther : builder.currentTurn.filter (fun turn => turn.id == target) = none := by
        rw [hCurrent, Option.filter_some, if_neg hTarget]
      rw [hOther]
      exact ⟨h.open_turn, h.turns.modifyFirst _ fun _ _ hOther => hOther.upsert hForeign⟩

theorem Within.handleReasoning (extend : List Text × List Text → List Text × List Text) :
    Within (builder.handleReasoning tenv text extend) turnId shown messages := by
  unfold ThreadHistoryBuilder.handleReasoning
  by_cases hText : text = []
  · rw [if_pos hText]
    exact h
  rw [if_neg hText]
  obtain ⟨turn, hCurrent, hTurnId, hOpened, hShows⟩ := h.open_turn
  rw [hCurrent]
  dsimp only [Option.getD_some]
  split
  · next hLast =>
    refine ⟨⟨_, rfl, hTurnId, hOpened, Shows.append_other ⟨?_, ?_⟩ rfl⟩, h.turns⟩
    · have hTexts := hShows.texts
      rw [(dropLast_append_getLast? _ hLast).symm, filterMap_append, filterMap_cons_none rfl] at hTexts
      rwa [filterMap_nil, append_nil] at hTexts
    · exact fun other hOther => hShows.own_ids other (dropLast_subset _ hOther)
  · exact h.pushNextOther (fun _ => rfl) fun _ => rfl

theorem Within.handleAgentMessage (phase : Option MessagePhase)
    (memoryCitation : Option MemoryCitation) :
    Within (builder.handleAgentMessage tenv text phase memoryCitation) turnId shown messages := by
  unfold ThreadHistoryBuilder.handleAgentMessage
  split
  · exact h
  · exact h.pushNextOther (fun _ => rfl) fun _ => rfl

theorem Within.handleError (affectsTurnStatus : Bool) :
    Within (builder.handleError affectsTurnStatus) turnId shown messages := by
  unfold ThreadHistoryBuilder.handleError
  split
  · exact h.updateCurrentTurn (fun _ => rfl) (fun _ => rfl) fun _ => rfl
  · exact h

theorem Within.handleTurnAborted :
    Within (builder.handleTurnAborted target) turnId shown messages := by
  have hCurrent : Within
      (builder.updateCurrentTurn fun turn => { turn with status := .interrupted }) turnId shown
      messages := h.updateCurrentTurn (fun _ => rfl) (fun _ => rfl) fun _ => rfl
  unfold ThreadHistoryBuilder.handleTurnAborted
  split
  · exact hCurrent
  split
  · exact hCurrent
  · split
    · next hFound =>
      refine ⟨h.open_turn, h.turns.of_modifyFirst ?_ hFound⟩
      exact fun _ => rfl
    · exact hCurrent

theorem Within.handleResponseItem (item : ResponseItem) :
    Within (builder.handleResponseItem tenv item) turnId shown messages := by
  unfold ThreadHistoryBuilder.handleResponseItem
  split
  · split
    · exact h
    · split
      · exact h
      · exact h.pushItem rfl
  · exact h

theorem Within.handleUserMessage :
    Within (builder.handleUserMessage tenv payload) turnId shown
      (messages ++ [shownText payload.message]) := by
  -- the turn was opened explicitly, so that it is not closed here
  have hStays : ¬((builder.currentTurn.any fun turn =>
      !turn.openedExplicitly && !(turn.sawCompaction && turn.items.isEmpty)) = true) := by
    obtain ⟨turn, hCurrent, -, hOpened, -⟩ := h.open_turn
    rw [hCurrent, Option.any_some, hOpened]
    exact Bool.false_ne_true
  unfold ThreadHistoryBuilder.handleUserMessage
  rw [if_neg hStays, ← inputsText_buildUserInputs payload]
  exact h.pushNextItem fun _ => rfl

/-- What is no user message adds none. -/
theorem Within.of_same :
    Within builder turnId shown (messages ++ (none : Option Text).toList.map shownText) := by
  rwa [Option.toList_none, map_nil, append_nil]

/-- The events inside a turn. -/
theorem Within.handleEvent {event : ThreadEvent Tool}
    (hEvent : isInTurn (.eventMsg event) = true) (hForeign : HasForeignId (.eventMsg event)) :
    Within (builder.handleEvent tenv event) turnId shown
      (messages ++ (eventText (.eventMsg event)).toList.map shownText) := by
  match event with
  | .turnStarted _ | .turnComplete _ | .threadRolledBack _ => cases hEvent
  | .userMessage payload => exact h.handleUserMessage payload
  | .agentMessage payload => exact (h.handleAgentMessage payload.message _ _).of_same
  | .agentReasoning text | .agentReasoningRawContent text =>
    dsimp only [ThreadHistoryBuilder.handleEvent]
    exact (h.handleReasoning text _).of_same
  | .item target id tool => exact (h.handleItem target hForeign).of_same
  | .contextCompacted | .enteredReviewMode _ | .exitedReviewMode _ =>
    dsimp only [ThreadHistoryBuilder.handleEvent]
    exact Within.of_same (h.pushNextOther (fun _ => rfl) fun _ => rfl)
  | .error affectsTurnStatus => exact (h.handleError affectsTurnStatus).of_same
  | .turnAborted target => exact (h.handleTurnAborted target).of_same
  | .other => exact h.of_same

/-- **One item of a turn.** The turn stays open, and only user messages are added to those that are
shown. -/
theorem Within.handleRolloutItem {item : ThreadRolloutItem Tool} (hItem : isInTurn item = true)
    (hForeign : HasForeignId item) :
    Within (builder.handleRolloutItem tenv item) turnId shown
      (messages ++ (eventText item).toList.map shownText) := by
  have hNext : Within
      { builder with
        currentRolloutIndex := builder.nextRolloutIndex
        nextRolloutIndex := builder.nextRolloutIndex + 1 } turnId shown messages :=
    ⟨h.open_turn, h.turns⟩
  match item with
  | .compacted _ => cases hItem
  | .sessionMeta | .turnContext _ => exact hNext.of_same
  | .responseItem item => exact (hNext.handleResponseItem item).of_same
  | .eventMsg event => exact hNext.handleEvent hItem hForeign

end

theorem Within.foldl_body {body : List (ThreadRolloutItem Tool)}
    (hBody : ∀ item ∈ body, isInTurn item = true) (hForeign : ∀ item ∈ body, HasForeignId item)
    (h : Within builder turnId shown messages) :
    Within (body.foldl (ThreadHistoryBuilder.handleRolloutItem tenv) builder) turnId shown
      (messages ++ (body.filterMap eventText).map shownText) := by
  induction body generalizing builder messages with
  | nil => rwa [filterMap_nil, map_nil, append_nil]
  | cons item body ih =>
    obtain ⟨hFirst, hBody⟩ := forall_mem_cons.mp hBody
    obtain ⟨hFirstId, hForeign⟩ := forall_mem_cons.mp hForeign
    have hItem : Within (builder.handleRolloutItem tenv item) turnId shown _ :=
      h.handleRolloutItem hFirst hFirstId
    have hRest := ih hBody hForeign hItem
    rw [append_assoc] at hRest
    cases hText : eventText item with
    | none =>
      rw [filterMap_cons_none hText]
      rwa [hText] at hRest
    | some text =>
      rw [filterMap_cons_some hText]
      rwa [hText] at hRest

/-! ## The builder along a log -/

theorem Between.start (h : Between builder shown) (turnId : String) :
    Within (builder.handleRolloutItem tenv (.eventMsg (.turnStarted turnId))) turnId shown [] := by
  show Within (handleTurnStarted tenv _ turnId) turnId shown []
  rw [h.idle]
  exact ⟨⟨_, rfl, rfl, rfl, rfl, forall_mem_nil _⟩, h.turns⟩

theorem Within.complete (h : Within builder turnId shown messages) (tenv : ThreadEnv) :
    Between (builder.handleRolloutItem tenv (.eventMsg (.turnComplete turnId)))
      (shown ++ [messages]) := by
  obtain ⟨turn, hCurrent, hTurnId, hOpened, hShows⟩ := h.open_turn
  show Between (handleTurnComplete _ turnId) _
  unfold ThreadHistoryBuilder.handleTurnComplete ThreadHistoryBuilder.updateCurrentTurn
    finishCurrentTurn
  have hOwn : (turn.id == turnId) = true := beq_iff_eq.mpr hTurnId
  simp only [hCurrent, Option.any_some, hOwn, Option.map_some, hOpened, Bool.not_true,
    Bool.and_false]
  exact ⟨rfl, rel_append h.turns (.cons hShows .nil)⟩

/-- A turn adds what it shows. -/
theorem Between.turn (h : Between builder shown) (t : ExplicitTurn env Tool) :
    Between (t.items.foldl (ThreadHistoryBuilder.handleRolloutItem tenv) builder)
      (shown ++ [t.messages]) := by
  have hStart : Within (builder.handleRolloutItem tenv (.eventMsg (.turnStarted t.turnId)))
    t.turnId shown [] := h.start t.turnId
  have hBody : Within (t.body.foldl (handleRolloutItem tenv) _) t.turnId shown
    t.messages := hStart.foldl_body t.in_turn t.foreign_ids
  unfold ExplicitTurn.items
  rw [cons_append, foldl_cons, foldl_append]
  exact hBody.complete tenv

/-- A marker takes away the newest turns. -/
theorem Between.rollback (h : Between builder shown) (tenv : ThreadEnv) (n : Nat) :
    Between (builder.handleRolloutItem tenv (.eventMsg (.threadRolledBack n))) (shown.rdrop n) := by
  show Between (handleThreadRollback _ n) _
  rw [h.idle]
  refine ⟨rfl, ?_⟩
  have hKept : (if n ≥ builder.turns.length then []
      else builder.turns.take (builder.turns.length - n)) = builder.turns.rdrop n := by
    unfold rdrop
    split
    · next hAll => rw [Nat.sub_eq_zero_of_le hAll, take_zero]
    · rfl
  show ShowsTurns (if n ≥ builder.turns.length then []
      else builder.turns.take (builder.turns.length - n)) (shown.rdrop n)
  rw [hKept]
  unfold rdrop
  rw [h.turns.length_eq]
  exact forall₂_take _ h.turns

/-- **The thread is an undo log of turns.** -/
theorem between_of_log (tenv : ThreadEnv) (log : List (Entry (ExplicitTurn env Tool))) :
    Between ((threadRolloutOf log).foldl (handleRolloutItem tenv) .new)
      ((survivors log).map ExplicitTurn.messages) := by
  induction log using reverseRecOn with
  | nil => exact ⟨rfl, .nil⟩
  | append_singleton log entry ih =>
    have hSplit : threadRolloutOf (log ++ [entry]) = threadRolloutOf log ++ entryItems entry := by
      unfold threadRolloutOf
      rw [flatMap_append, flatMap_singleton]
    rw [hSplit, foldl_append, survivors_concat]
    match entry with
    | .push t =>
      rw [survive, map_append]
      exact ih.turn t
    | .rollback n =>
      have hMap : ((survivors log).rdrop n).map ExplicitTurn.messages =
          ((survivors log).map ExplicitTurn.messages).rdrop n := by
        unfold rdrop
        rw [map_take, length_map]
      rw [survive, hMap]
      exact ih.rollback tenv n

theorem ShowsTurns.threadMessages_eq (h : ShowsTurns turns shown) :
    threadMessages turns = shown.flatten := by
  induction h with
  | nil => rfl
  | @cons turn messages turns shown hTurn _ ih =>
    have hFirst : threadMessages (turn :: turns) =
        turn.items.filterMap messageText ++ threadMessages turns := flatMap_cons
    rw [hFirst, hTurn.texts, ih, flatten_cons]

/-- The user messages that clients see. -/
theorem threadMessages_build (tenv : ThreadEnv) (log : List (Entry (ExplicitTurn env Tool))) :
    threadMessages (buildTurnsFromRolloutItems tenv (threadRolloutOf log)) =
      (survivors log).flatMap ExplicitTurn.messages := by
  have hBetween := between_of_log tenv log
  unfold buildTurnsFromRolloutItems finish finishCurrentTurn
  rw [hBetween.idle]
  rw [hBetween.turns.threadMessages_eq, flatMap_def]

end Codex.ThreadHistory
