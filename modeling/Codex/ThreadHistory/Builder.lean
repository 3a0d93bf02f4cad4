import Codex.Protocol.Items
import Mathlib.Algebra.Ring.Nat

/-!
# Codex — the thread shown to clients

`ThreadHistoryBuilder` in `app-server-protocol/src/protocol/thread_history.rs`: the turns that a
client sees, rebuilt from the rollout.

* Commands, patches, plans and tool calls have events that put an item into a turn, in place of the
  one with the same id. They are one event here, `item`; `Tool` is what such an item shows.
* Error texts and times of a turn are left out; nothing reads them.
* What is random (UUIDs) or parsed elsewhere (XML of hook prompts) comes from `ThreadEnv`.
-/

namespace Codex.ThreadHistory

open Text

structure HookPromptFragment where
  text : Text
  hookRunId : String
  deriving DecidableEq, Repr

structure ThreadEnv where
  /-- `parse_hook_prompt_fragment` -/
  parseHookPromptFragment : Text → Option HookPromptFragment
  /-- The UUID that is drawn at an item of the rollout. -/
  uuid : Nat → String

/-! ## Events and items -/

structure TextElement where
  byteRange : Nat × Nat
  placeholder : Option String
  deriving DecidableEq, Repr

structure UserMessageEvent where
  clientId : Option String
  message : Text
  images : Option (List Text)
  imageDetails : List (Option ImageDetail)
  localImages : List Text
  localImageDetails : List (Option ImageDetail)
  textElements : List TextElement
  deriving DecidableEq, Repr

structure MemoryCitationEntry where
  path : String
  lineStart : Nat
  lineEnd : Nat
  note : String
  deriving DecidableEq, Repr

/-- The citation as it is recorded, of rollouts; clients get it as one of threads. -/
structure CoreMemoryCitation where
  entries : List MemoryCitationEntry
  rolloutIds : List String
  deriving DecidableEq, Repr

structure MemoryCitation where
  entries : List MemoryCitationEntry
  threadIds : List String
  deriving DecidableEq, Repr

def CoreMemoryCitation.into (value : CoreMemoryCitation) : MemoryCitation :=
  { entries := value.entries, threadIds := value.rolloutIds }

structure AgentMessageEvent where
  message : Text
  phase : Option MessagePhase
  memoryCitation : Option CoreMemoryCitation
  deriving DecidableEq, Repr

inductive UserInput where
  | text (text : Text) (textElements : List TextElement)
  | image (url : Text) (detail : Option ImageDetail)
  | localImage (path : Text) (detail : Option ImageDetail)
  deriving DecidableEq, Repr

inductive ThreadItem (Tool : Type) where
  | userMessage (id : String) (clientId : Option String) (content : List UserInput)
  | hookPrompt (id : String) (fragments : List HookPromptFragment)
  | agentMessage (id : String) (text : Text) (phase : Option MessagePhase)
    (memoryCitation : Option MemoryCitation)
  | reasoning (id : String) (summary content : List Text)
  | contextCompaction (id : String)
  | enteredReviewMode (id : String) (review : Text)
  | exitedReviewMode (id : String) (review : Text)
  | tool (id : String) (tool : Tool)
  deriving DecidableEq, Repr

def ThreadItem.id {Tool : Type} : ThreadItem Tool → String
  | .userMessage id _ _ | .hookPrompt id _ | .agentMessage id _ _ _ | .reasoning id _ _
  | .contextCompaction id | .enteredReviewMode id _ | .exitedReviewMode id _ | .tool id _ => id

/-- The events that the builder tells apart. -/
inductive ThreadEvent (Tool : Type) where
  | userMessage (payload : UserMessageEvent)
  | agentMessage (payload : AgentMessageEvent)
  | agentReasoning (text : Text)
  | agentReasoningRawContent (text : Text)
  /-- An item for the turn that is named, or for the current one. -/
  | item (turnId : Option String) (id : String) (tool : Tool)
  | contextCompacted
  | enteredReviewMode (userFacingHint : Option Text)
  | exitedReviewMode (overallExplanation : Option Text)
  | error (affectsTurnStatus : Bool)
  | threadRolledBack (numTurns : Nat)
  | turnAborted (turnId : Option String)
  | turnStarted (turnId : String)
  | turnComplete (turnId : String)
  | other
  deriving DecidableEq, Repr

inductive ThreadRolloutItem (Tool : Type) where
  | sessionMeta
  | responseItem (item : ResponseItem)
  | compacted (item : CompactedItem)
  | turnContext (item : TurnContextItem)
  | eventMsg (event : ThreadEvent Tool)
  deriving DecidableEq, Repr

/-- The event as the reconstruction of the model's history sees it. -/
def ThreadEvent.toEventMsg {Tool : Type} : ThreadEvent Tool → EventMsg
  | .userMessage payload => .userMessage payload.message
  | .threadRolledBack numTurns => .threadRolledBack numTurns
  | .turnAborted turnId => .turnAborted turnId
  | .turnStarted turnId => .turnStarted turnId
  | .turnComplete turnId => .turnComplete turnId
  | .agentMessage _ | .agentReasoning _ | .agentReasoningRawContent _ | .item _ _ _
  | .contextCompacted | .enteredReviewMode _ | .exitedReviewMode _ | .error _ | .other => .other

def ThreadRolloutItem.toRolloutItem {Tool : Type} : ThreadRolloutItem Tool → RolloutItem
  | .sessionMeta => .sessionMeta
  | .responseItem item => .responseItem item
  | .compacted item => .compacted item
  | .turnContext item => .turnContext item
  | .eventMsg event => .eventMsg event.toEventMsg

/-! ## The builder -/

inductive TurnStatus where
  | completed
  | interrupted
  | failed
  | inProgress
  deriving DecidableEq, Repr

/-- An interrupted or failed turn stays so. -/
def TurnStatus.markCompleted : TurnStatus → TurnStatus
  | .completed | .inProgress => .completed
  | .interrupted => .interrupted
  | .failed => .failed

structure Turn (Tool : Type) where
  id : String
  items : List (ThreadItem Tool)
  status : TurnStatus
  deriving DecidableEq, Repr

structure PendingTurn (Tool : Type) extends Turn Tool where
  openedExplicitly : Bool
  sawCompaction : Bool
  deriving DecidableEq, Repr

structure ThreadHistoryBuilder (Tool : Type) where
  turns : List (Turn Tool)
  currentTurn : Option (PendingTurn Tool)
  nextItemIndex : Nat
  currentRolloutIndex : Nat
  nextRolloutIndex : Nat
  deriving DecidableEq, Repr

/-- Changes the first element that passes the test, if there is one. -/
def modifyFirst {α : Type} (p : α → Bool) (f : α → α) : List α → Option (List α)
  | [] => none
  | a :: rest => if p a then some (f a :: rest) else (modifyFirst p f rest).map (a :: ·)

def upsertTurnItem {Tool : Type} (items : List (ThreadItem Tool)) (item : ThreadItem Tool) :
    List (ThreadItem Tool) :=
  (modifyFirst (fun existing => existing.id == item.id) (fun _ => item) items).getD (items ++ [item])

/-- A text that is not shown when it is blank. -/
def shownText (text : Text) : Text := if trim text = [] then [] else text

def buildUserInputs (payload : UserMessageEvent) : List UserInput :=
  (if trim payload.message = [] then []
    else [UserInput.text payload.message payload.textElements]) ++
  ((payload.images.getD []).zipIdx.map fun (url, idx) =>
    .image url (payload.imageDetails[idx]?).join) ++
  (payload.localImages.zipIdx.map fun (path, idx) =>
    .localImage path (payload.localImageDetails[idx]?).join)

/-- `parse_hook_prompt_message`: every part of the message is a fragment. -/
def parseHookPromptMessage (env : ThreadEnv) (content : List ContentItem) :
    Option (List HookPromptFragment) :=
  let fragments := content.mapM fun
    | .inputText text => env.parseHookPromptFragment text
    | _ => none
  fragments.filter (· ≠ [])

def reviewFallbackMessage : Text := "Reviewer failed to output a response.".toList

def renderReviewOutputText (overallExplanation : Text) : Text :=
  let explanation := trim overallExplanation
  if explanation = [] then reviewFallbackMessage else explanation

/-- The id of the item with a number. -/
def itemId (index : Nat) : String := "item-" ++ toString index

namespace ThreadHistoryBuilder

variable {Tool : Type}

def new : ThreadHistoryBuilder Tool where
  turns := []
  currentTurn := none
  nextItemIndex := 1
  currentRolloutIndex := 0
  nextRolloutIndex := 0

variable (env : ThreadEnv) (builder : ThreadHistoryBuilder Tool)

/-- A turn without items counts only if it was opened explicitly, or by a compaction. -/
def finishCurrentTurn : ThreadHistoryBuilder Tool :=
  match builder.currentTurn with
  | none => builder
  | some turn =>
    if turn.items.isEmpty && !turn.openedExplicitly && !turn.sawCompaction then
      { builder with currentTurn := none }
    else { builder with currentTurn := none, turns := builder.turns ++ [turn.toTurn] }

/-- A change to the current turn, if there is one. -/
def updateCurrentTurn (f : PendingTurn Tool → PendingTurn Tool) : ThreadHistoryBuilder Tool :=
  { builder with currentTurn := builder.currentTurn.map f }

def finish : List (Turn Tool) :=
  builder.finishCurrentTurn.turns

def newTurn (id : Option String) : PendingTurn Tool where
  id := id.getD
    (if builder.nextRolloutIndex = 0 then env.uuid 0
      else "rollout-" ++ toString builder.currentRolloutIndex)
  items := []
  status := .completed
  openedExplicitly := false
  sawCompaction := false

/-- `ensure_turn`, and a change to the turn. -/
def modifyTurn (f : PendingTurn Tool → PendingTurn Tool) : ThreadHistoryBuilder Tool :=
  { builder with currentTurn := some (f (builder.currentTurn.getD (builder.newTurn env none))) }

def pushItem (item : ThreadItem Tool) : ThreadHistoryBuilder Tool :=
  builder.modifyTurn env fun turn => { turn with items := turn.items ++ [item] }

/-- `next_item_id`, and an item with this id. -/
def pushNextItem (item : String → ThreadItem Tool) : ThreadHistoryBuilder Tool :=
  { builder with nextItemIndex := builder.nextItemIndex + 1 }.pushItem env
    (item (itemId builder.nextItemIndex))

def upsertItemInTurnId (turnId : String) (item : ThreadItem Tool) : ThreadHistoryBuilder Tool :=
  match builder.currentTurn.filter fun turn => turn.id == turnId with
  | some turn =>
    { builder with currentTurn := some { turn with items := upsertTurnItem turn.items item } }
  | none =>
    { builder with
      turns := (modifyFirst (fun turn => turn.id == turnId)
        (fun turn => { turn with items := upsertTurnItem turn.items item })
        builder.turns).getD builder.turns }

def upsertItemInCurrentTurn (item : ThreadItem Tool) : ThreadHistoryBuilder Tool :=
  builder.modifyTurn env fun turn => { turn with items := upsertTurnItem turn.items item }

def handleResponseItem : ResponseItem → ThreadHistoryBuilder Tool
  | .message id role content _ =>
    if role ≠ "user" then builder
    else
      match parseHookPromptMessage env content with
      | none => builder
      | some fragments =>
        builder.pushItem env (.hookPrompt (id.getD (env.uuid builder.currentRolloutIndex)) fragments)
  | _ => builder

/-- Older streams did not open turns explicitly; there each user message opens one. -/
def handleUserMessage (payload : UserMessageEvent) : ThreadHistoryBuilder Tool :=
  let builder :=
    if builder.currentTurn.any fun turn =>
        !turn.openedExplicitly && !(turn.sawCompaction && turn.items.isEmpty) then
      builder.finishCurrentTurn
    else builder
  builder.pushNextItem env fun id => .userMessage id payload.clientId (buildUserInputs payload)

def handleAgentMessage (text : Text) (phase : Option MessagePhase)
    (memoryCitation : Option MemoryCitation) : ThreadHistoryBuilder Tool :=
  if text = [] then builder
  else builder.pushNextItem env fun id => .agentMessage id text phase memoryCitation

/-- A reasoning text goes to the reasoning item that ends the turn (`extend`), or to a new one. -/
def handleReasoning (text : Text)
    (extend : List Text × List Text → List Text × List Text) : ThreadHistoryBuilder Tool :=
  if text = [] then builder
  else
    let turn := builder.currentTurn.getD (builder.newTurn env none)
    match turn.items.getLast? with
    | some (.reasoning id summary content) =>
      let (summary, content) := extend (summary, content)
      { builder with
        currentTurn := some
          { turn with items := turn.items.dropLast ++ [.reasoning id summary content] } }
    | _ =>
      let (summary, content) := extend ([], [])
      builder.pushNextItem env fun id => .reasoning id summary content

def handleAgentReasoning (text : Text) : ThreadHistoryBuilder Tool :=
  builder.handleReasoning env text fun (summary, content) => (summary ++ [text], content)

def handleAgentReasoningRawContent (text : Text) : ThreadHistoryBuilder Tool :=
  builder.handleReasoning env text fun (summary, content) => (summary, content ++ [text])

def handleItem (turnId : Option String) (item : ThreadItem Tool) : ThreadHistoryBuilder Tool :=
  match turnId with
  | some turnId => builder.upsertItemInTurnId turnId item
  | none => builder.upsertItemInCurrentTurn env item

def handleContextCompacted : ThreadHistoryBuilder Tool :=
  builder.pushNextItem env .contextCompaction

def handleEnteredReviewMode (userFacingHint : Option Text) : ThreadHistoryBuilder Tool :=
  builder.pushNextItem env fun id =>
    .enteredReviewMode id (userFacingHint.getD "Review requested.".toList)

def handleExitedReviewMode (overallExplanation : Option Text) : ThreadHistoryBuilder Tool :=
  builder.pushNextItem env fun id =>
    .exitedReviewMode id
      ((overallExplanation.map renderReviewOutputText).getD reviewFallbackMessage)

def handleError (affectsTurnStatus : Bool) : ThreadHistoryBuilder Tool :=
  if affectsTurnStatus then builder.updateCurrentTurn fun turn => { turn with status := .failed }
  else builder

def handleTurnAborted (turnId : Option String) : ThreadHistoryBuilder Tool :=
  let abortCurrent := builder.updateCurrentTurn fun turn => { turn with status := .interrupted }
  match turnId with
  | none => abortCurrent
  | some turnId =>
    if builder.currentTurn.any fun turn => turn.id == turnId then abortCurrent
    else
      match modifyFirst (fun turn => turn.id == turnId)
          (fun turn => { turn with status := .interrupted }) builder.turns with
      | some turns => { builder with turns }
      | none => abortCurrent

def handleTurnStarted (turnId : String) : ThreadHistoryBuilder Tool :=
  let builder := builder.finishCurrentTurn
  { builder with
    currentTurn := some
      { builder.newTurn env (some turnId) with status := .inProgress, openedExplicitly := true } }

def handleTurnComplete (turnId : String) : ThreadHistoryBuilder Tool :=
  let completeCurrent :=
    (builder.updateCurrentTurn fun turn =>
      { turn with status := turn.status.markCompleted }).finishCurrentTurn
  if builder.currentTurn.any fun turn => turn.id == turnId then completeCurrent
  else
    match modifyFirst (fun turn => turn.id == turnId)
        (fun turn => { turn with status := turn.status.markCompleted })
        builder.turns with
    | some turns => { builder with turns }
    | none => completeCurrent

def handleCompacted : ThreadHistoryBuilder Tool :=
  builder.modifyTurn env fun turn => { turn with sawCompaction := true }

def handleThreadRollback (numTurns : Nat) : ThreadHistoryBuilder Tool :=
  let builder := builder.finishCurrentTurn
  let turns :=
    if numTurns ≥ builder.turns.length then []
    else builder.turns.take (builder.turns.length - numTurns)
  { builder with turns, nextItemIndex := (turns.map fun turn => turn.items.length).sum + 1 }

def handleEvent : ThreadEvent Tool → ThreadHistoryBuilder Tool
  | .userMessage payload => builder.handleUserMessage env payload
  | .agentMessage payload =>
    builder.handleAgentMessage env payload.message payload.phase
      (payload.memoryCitation.map CoreMemoryCitation.into)
  | .agentReasoning text => builder.handleAgentReasoning env text
  | .agentReasoningRawContent text => builder.handleAgentReasoningRawContent env text
  | .item turnId id tool => builder.handleItem env turnId (.tool id tool)
  | .contextCompacted => builder.handleContextCompacted env
  | .enteredReviewMode userFacingHint => builder.handleEnteredReviewMode env userFacingHint
  | .exitedReviewMode overallExplanation => builder.handleExitedReviewMode env overallExplanation
  | .error affectsTurnStatus => builder.handleError affectsTurnStatus
  | .threadRolledBack numTurns => builder.handleThreadRollback numTurns
  | .turnAborted turnId => builder.handleTurnAborted turnId
  | .turnStarted turnId => builder.handleTurnStarted env turnId
  | .turnComplete turnId => builder.handleTurnComplete turnId
  | .other => builder

def handleRolloutItem (item : ThreadRolloutItem Tool) : ThreadHistoryBuilder Tool :=
  let builder :=
    { builder with
      currentRolloutIndex := builder.nextRolloutIndex
      nextRolloutIndex := builder.nextRolloutIndex + 1 }
  match item with
  | .eventMsg event => builder.handleEvent env event
  | .compacted _ => builder.handleCompacted env
  | .responseItem item => builder.handleResponseItem env item
  | .turnContext _ | .sessionMeta => builder

end ThreadHistoryBuilder

def buildTurnsFromRolloutItems {Tool : Type} (env : ThreadEnv)
    (items : List (ThreadRolloutItem Tool)) : List (Turn Tool) :=
  (items.foldl (ThreadHistoryBuilder.handleRolloutItem env) .new).finish

end Codex.ThreadHistory
