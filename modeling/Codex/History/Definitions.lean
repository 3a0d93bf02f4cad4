import Codex.Output.Truncate

/-!
# Codex — the context manager

`core/src/context_manager/history.rs` and the classifiers it calls
(`event_mapping.rs`, `context/contextual_user_message.rs`), as far as recording,
replacing and rolling back a history goes; and `compact.rs`, which rebuilds a
history from a summary.

What these ask of code outside is collected in `HistoryEnv`: recognising an
injected user fragment, parsing an inter-agent instruction, and the policy of the
turn for outputs.
-/

namespace Codex

open Text

structure HistoryEnv where
  /-- `parse_hook_prompt_fragment(text).is_some() || is_standard_contextual_user_text(text)` -/
  isContextualUserText : Text → Bool
  /-- `serde_json::from_str::<InterAgentCommunication>(text).is_ok()` -/
  isInterAgentJson : Text → Bool
  /-- `policy_with_serialization_budget`: the policy of the turn, times 1.2. -/
  policyWithSerializationBudget : Output.TruncationPolicy

/-! ## Classifying messages -/

def contextualDeveloperPrefixes : List Text :=
  ["<permissions instructions>".toList, "<model_switch>".toList, "<collaboration_mode>".toList,
    "<realtime_conversation>".toList, "<personality_spec>".toList]

variable (env : HistoryEnv)

def isContextualUserFragment : ContentItem → Bool
  | .inputText text => env.isContextualUserText text
  | _ => false

variable (content : List ContentItem)

def isContextualUserMessageContent : Bool :=
  content.any (isContextualUserFragment env)

def isContextualDevFragment : ContentItem → Bool
  | .inputText text =>
    let trimmed := trimStart text
    contextualDeveloperPrefixes.any fun start =>
      toAsciiLowercase (trimmed.take start.length) = toAsciiLowercase start
  | _ => false

def isContextualDevMessageContent : Bool :=
  content.any isContextualDevFragment

def hasNonContextualDevMessageContent : Bool :=
  content.any fun item => !isContextualDevFragment item

/-- `InterAgentCommunication::is_message_content`. -/
def isInterAgentInstructionContent : List ContentItem → Bool
  | [.inputText text] | [.outputText text] => env.isInterAgentJson text
  | _ => false

def isUserTurnBoundary : ResponseItem → Bool
  | .agentMessage _ _ _ => true
  | .message _ role content _ =>
    (role == "user" && !isContextualUserMessageContent env content) ||
      (role == "assistant" && isInterAgentInstructionContent env content)
  | _ => false

def isApiMessage : ResponseItem → Bool
  | .message _ role _ _ => role != "system"
  | .compactionTrigger | .other => false
  | _ => true

def processItem : ResponseItem → ResponseItem
  | .functionCallOutput callId output =>
    .functionCallOutput callId
      (Output.truncateFunctionOutputPayload output env.policyWithSerializationBudget)
  | .customToolCallOutput callId name output =>
    .customToolCallOutput callId name
      (Output.truncateFunctionOutputPayload output env.policyWithSerializationBudget)
  | item => item

/-! ## Context manager -/

structure ContextManager where
  items : List ResponseItem
  historyVersion : Nat
  referenceContextItem : Option TurnContextItem
  deriving DecidableEq, Repr

namespace ContextManager

def new : ContextManager := { items := [], historyVersion := 0, referenceContextItem := none }

def recordItem (history : ContextManager) (item : ResponseItem) : ContextManager :=
  if isApiMessage item then { history with items := history.items ++ [processItem env item] }
  else history

def replace (history : ContextManager) (items : List ResponseItem) : ContextManager :=
  { history with items, historyVersion := history.historyVersion + 1 }

end ContextManager

def userMessagePositions (items : List ResponseItem) : List Nat :=
  items.zipIdx.filterMap fun (item, idx) =>
    if isUserTurnBoundary env item then some idx else none

/-- A message that `trim_pre_turn_context_updates` removes above a cut. -/
def isContextUpdate : ResponseItem → Bool
  | .message _ role content _ =>
    (role == "developer" && isContextualDevMessageContent content) ||
      (role == "user" && isContextualUserMessageContent env content)
  | _ => false

/-- A trimmed developer message that also carried persistent text: the stored
baseline is void. -/
def clearsReferenceContext : ResponseItem → Bool
  | .message _ role content _ =>
    role == "developer" && isContextualDevMessageContent content &&
      hasNonContextualDevMessageContent content
  | _ => false

/-- `trim_pre_turn_context_updates`: the adjusted cut, and whether the reference
context was cleared on the way. -/
def trimPreTurnContextUpdates (env : HistoryEnv) (snapshot : List ResponseItem)
    (firstInstructionTurnIdx : Nat) : Nat → Bool → Nat × Bool
  | 0, cleared => (0, cleared)
  | cutIdx + 1, cleared =>
    if firstInstructionTurnIdx < cutIdx + 1 then
      match snapshot[cutIdx]? with
      | some item =>
        if isContextUpdate env item then
          trimPreTurnContextUpdates env snapshot firstInstructionTurnIdx cutIdx
            (cleared || clearsReferenceContext item)
        else (cutIdx + 1, cleared)
      | none => (cutIdx + 1, cleared)
    else (cutIdx + 1, cleared)

namespace ContextManager

def dropLastNUserTurns (history : ContextManager) (numTurns : Nat) : ContextManager :=
  if numTurns = 0 then history
  else
    let userPositions := userMessagePositions env history.items
    match userPositions with
    | [] => history.replace history.items
    | firstInstructionTurnIdx :: _ =>
      let cutIdx :=
        if numTurns ≥ userPositions.length then firstInstructionTurnIdx
        else userPositions.getD (userPositions.length - numTurns) 0
      let (cutIdx, cleared) :=
        trimPreTurnContextUpdates env history.items firstInstructionTurnIdx cutIdx false
      let history := if cleared then { history with referenceContextItem := none } else history
      history.replace (history.items.take cutIdx)

end ContextManager

/-! ## Rebuilding a history from a compaction summary -/

def compactUserMessageMaxTokens : Nat := 20000

def summaryPrefix : Text :=
  ("Another language model started to solve this problem and produced a summary of its thinking " ++
    "process. You also have access to the state of the tools that were used by that language " ++
    "model. Use this to build on the work that has already been done and avoid duplicating work. " ++
    "Here is the summary produced by the other language model, use the information in this " ++
    "summary to assist with your own analysis:").toList

def isSummaryMessage (message : Text) : Bool := startsWith (summaryPrefix ++ ['\n']) message

def imageOpenTag : Text := "<image>".toList
def imageCloseTag : Text := "</image>".toList

def isImageOpenTagText (text : Text) : Bool :=
  text == imageOpenTag ||
    ((stripPrefix? "<image name=".toList text).any fun rest => endsWith ['>'] rest)

def isInputImage : ContentItem → Bool
  | .inputImage _ _ => true
  | _ => false

/-- The text of `parse_user_message`: image labels around an attached image are
skipped, images and output texts contribute nothing. -/
def userMessageText : Text :=
  (content.zipIdx.map fun (item, idx) =>
    match item with
    | .inputText text =>
      if (isImageOpenTagText text && (content[idx + 1]?).any isInputImage) ||
          (decide (0 < idx) && text == imageCloseTag && (content[idx - 1]?).any isInputImage) then
        []
      else text
    | .inputImage _ _ | .outputText _ => []).flatten

def collectUserMessages (items : List ResponseItem) : List Text :=
  items.filterMap fun
    | .message _ role content _ =>
      if role == "user" && !isContextualUserMessageContent env content then
        let message := userMessageText content
        if isSummaryMessage message then none else some message
      else none
    | _ => none

/-- The selection loop of `build_compacted_history_with_limit`, newest first. -/
def selectMessages : Nat → List Text → List Text
  | _, [] => []
  | remaining, message :: older =>
    if remaining = 0 then []
    else
      let tokens := Output.approxTokenCount message
      if tokens ≤ remaining then message :: selectMessages (remaining - tokens) older
      else [Output.truncateText message (.tokens remaining)]

def userTextMessage (text : Text) : ResponseItem :=
  .message none "user" [.inputText text] none

def buildCompactedHistory (initialContext : List ResponseItem)
    (userMessages : List Text) (summaryText : Text) : List ResponseItem :=
  let selected :=
    (selectMessages compactUserMessageMaxTokens userMessages.reverse).reverse
  let summary :=
    if summaryText = [] then "(no summary available)".toList else summaryText
  initialContext ++ selected.map userTextMessage ++ [userTextMessage summary]

end Codex
