import Codex.Std.Text

/-!
# Codex — response items and rollout items

The items of `protocol/src/models.rs` and `protocol/src/protocol.rs` that the
conversation history and the persisted rollout are made of. Payloads that no
modelled function looks at (shell actions, search queries, JSON arguments of
tool searches) are left out of their constructors.
-/

namespace Codex

inductive ImageDetail where
  | auto
  | low
  | high
  | original
  deriving DecidableEq, Repr

inductive ContentItem where
  | inputText (text : Text)
  | inputImage (imageUrl : Text) (detail : Option ImageDetail)
  | outputText (text : Text)
  deriving DecidableEq, Repr

inductive MessagePhase where
  | commentary
  | finalAnswer
  deriving DecidableEq, Repr

inductive FunctionCallOutputContentItem where
  | inputText (text : Text)
  | inputImage (imageUrl : Text) (detail : Option ImageDetail)
  | encryptedContent (encryptedContent : Text)
  deriving DecidableEq, Repr

inductive FunctionCallOutputBody where
  | text (text : Text)
  | contentItems (items : List FunctionCallOutputContentItem)
  deriving DecidableEq, Repr

structure FunctionCallOutputPayload where
  body : FunctionCallOutputBody
  success : Option Bool
  deriving DecidableEq, Repr

inductive ResponseItem where
  | message (id : Option String) (role : String) (content : List ContentItem)
      (phase : Option MessagePhase)
  | agentMessage (author recipient : String) (content : List Text)
  | reasoning (id : String) (summary : List Text) (content : Option (List Text))
      (encryptedContent : Option Text)
  | localShellCall (callId : Option String)
  | functionCall (name : String) (namespaceName : Option String) (arguments : Text)
      (callId : String)
  | toolSearchCall (callId : Option String) (execution : String)
  | functionCallOutput (callId : String) (output : FunctionCallOutputPayload)
  | customToolCall (callId name : String) (input : Text)
  | customToolCallOutput (callId : String) (name : Option String)
      (output : FunctionCallOutputPayload)
  | toolSearchOutput (callId : Option String) (status execution : String)
  | webSearchCall (id status : Option String)
  | imageGenerationCall (id status : String) (revisedPrompt : Option Text) (result : Text)
  | compaction (encryptedContent : Text)
  | compactionTrigger
  | contextCompaction (encryptedContent : Option Text)
  | other
  deriving DecidableEq, Repr

structure CompactedItem where
  message : Text
  replacementHistory : Option (List ResponseItem)
  deriving DecidableEq, Repr

/-- The fields of a turn context that history reconstruction reads. -/
structure TurnContextItem where
  turnId : Option String
  model : String
  realtimeActive : Option Bool
  deriving DecidableEq, Repr

/-- The events that history reconstruction tells apart. -/
inductive EventMsg where
  | threadRolledBack (numTurns : Nat)
  | turnStarted (turnId : String)
  | turnComplete (turnId : String)
  | turnAborted (turnId : Option String)
  | userMessage (message : Text)
  | other
  deriving DecidableEq, Repr

inductive RolloutItem where
  | sessionMeta
  | responseItem (item : ResponseItem)
  | compacted (item : CompactedItem)
  | turnContext (item : TurnContextItem)
  | eventMsg (event : EventMsg)
  deriving DecidableEq, Repr

end Codex
