import Codex.Std.Text

/-!
# Codex — envelopes of remote control

`app-server-transport/src/transport/remote_control/protocol.rs`. The messages themselves are
not looked into: `Msg` is what the server sends, `Rpc` what clients send. Sizes, segment ids
and sequence numbers are natural numbers.
-/

namespace Codex.RemoteControl

structure ClientId where
  id : String
  deriving DecidableEq, Repr

structure StreamId where
  id : String
  deriving DecidableEq, Repr

/-- A client and one of its streams. -/
abbrev StreamKey := ClientId × StreamId

inductive ClientEvent (Rpc : Type) where
  | clientMessage (message : Rpc)
  | clientMessageChunk (segmentId segmentCount messageSizeBytes : Nat) (messageChunkBase64 : Text)
  | ack (segmentId : Option Nat)
  | ping
  | clientClosed
  deriving DecidableEq, Repr

structure ClientEnvelope (Rpc : Type) where
  event : ClientEvent Rpc
  clientId : ClientId
  streamId : Option StreamId
  seqId : Option Nat
  cursor : Option String
  deriving DecidableEq, Repr

inductive PongStatus where
  | active
  | unknown
  deriving DecidableEq, Repr

inductive ServerEvent (Msg : Type) where
  | serverMessage (message : Msg)
  | serverMessageChunk (segmentId segmentCount messageSizeBytes : Nat) (messageChunkBase64 : Text)
  | ack
  | pong (status : PongStatus)
  deriving DecidableEq, Repr

def ServerEvent.segmentId {Msg : Type} : ServerEvent Msg → Option Nat
  | .serverMessageChunk segmentId _ _ _ => some segmentId
  | .serverMessage _ | .ack | .pong _ => none

structure ServerEnvelope (Msg : Type) where
  event : ServerEvent Msg
  clientId : ClientId
  streamId : StreamId
  seqId : Nat
  deriving DecidableEq, Repr

end Codex.RemoteControl
