import Codex.Lib.AckLog
import Codex.RemoteControl.Outbound
import Codex.RemoteControl.Reassembly

/-!
# Codex — the state of the remote-control websocket

`WebsocketState` in `remote_control/websocket.rs`, with the steps that the writer
(`run_server_writer_inner`) and the reader (`run_websocket_reader_inner`) take on it. The state
outlives the connection: after a reconnect the writer sends the whole buffer again.

A run is any interleaving of messages of the server, envelopes of clients and closed streams.
It leaves a log of what was put into the buffer and which acknowledgements were processed.

Whether `client_tracker` could handle an envelope is part of the action; texts are serialized
by a parameter.
-/

namespace Codex.RemoteControl

open AckLog

def u64Max : Nat := 2 ^ 64 - 1

def channelCapacity : Nat := 128

/-- `u64::saturating_add`. -/
def saturatingAdd (n k : Nat) : Nat := min (n + k) u64Max

/-- `QueuedServerEnvelope` without the sender that reports the write. -/
structure QueuedServerEnvelope (Msg : Type) where
  event : ServerEvent Msg
  clientId : ClientId
  streamId : StreamId

/-- The stream and the sequence number of a chunk. -/
abbrev ClientMessageKey := (ClientId × Option StreamId) × Nat

structure WebsocketState (Msg : Type) where
  outboundBuffer : BoundedOutboundBuffer Msg
  subscribeCursor : Option String
  nextSeqIdByStream : HashMap StreamKey Nat
  lastCompletedClientChunkSeqIdByStream : HashMap (ClientId × Option StreamId) Nat
  clientSegmentReassembler : Assemblies

namespace WebsocketState

variable {Msg Rpc : Type}

def new : WebsocketState Msg where
  outboundBuffer := .new
  subscribeCursor := none
  nextSeqIdByStream := ∅
  lastCompletedClientChunkSeqIdByStream := ∅
  clientSegmentReassembler := ∅

def clientMessageKey (clientEnvelope : ClientEnvelope Rpc) : Option ClientMessageKey :=
  match clientEnvelope.event, clientEnvelope.seqId with
  | .clientMessageChunk .., some seqId =>
    some ((clientEnvelope.clientId, clientEnvelope.streamId), seqId)
  | _, _ => none

variable (state : WebsocketState Msg)

/-- The chunk belongs to a message that was delivered. -/
def isCompleted (clientEnvelope : ClientEnvelope Rpc) : Bool :=
  match clientMessageKey clientEnvelope with
  | some (key, seqId) =>
    match state.lastCompletedClientChunkSeqIdByStream.lookup key with
    | some lastSeqId => lastSeqId ≥ seqId
    | none => false
  | none => false

/-- The chunk is in the assembly, or older. -/
def isStale (clientEnvelope : ClientEnvelope Rpc) : Bool :=
  match clientMessageKey clientEnvelope, clientEnvelope.streamId, clientEnvelope.event with
  | some (_, seqId), some streamId, .clientMessageChunk segmentId .. =>
    shouldIgnoreChunk state.clientSegmentReassembler clientEnvelope.clientId streamId seqId
      segmentId
  | _, _, _ => false

def invalidateStream (state : WebsocketState Msg) (clientId : ClientId) (streamId : StreamId) :
    WebsocketState Msg :=
  { state with
    clientSegmentReassembler :=
      RemoteControl.invalidateStream state.clientSegmentReassembler clientId streamId }

def observeClientMessage (codec : Codec Msg Rpc) (order : AssemblyOrder) (now : Nat)
    (state : WebsocketState Msg) (clientEnvelope : ClientEnvelope Rpc) (wireSizeBytes : Nat) :
    ClientSegmentObservation Rpc × WebsocketState Msg :=
  if state.isCompleted clientEnvelope then (.dropped, state)
  else if state.isStale clientEnvelope then (.dropped, state)
  else if (clientMessageKey clientEnvelope).isSome ∧ wireSizeBytes > segmentMaxBytes then
    match clientEnvelope.streamId with
    | some streamId => (.dropped, state.invalidateStream clientEnvelope.clientId streamId)
    | none => (.dropped, state)
  else
    let (observation, assemblies) :=
      observe codec order now state.clientSegmentReassembler clientEnvelope
    (observation, { state with clientSegmentReassembler := assemblies })

/-- What an acknowledgement is about; one without a stream or a number is about nothing. -/
def acknowledged (clientEnvelope : ClientEnvelope Rpc) :
    Option (ClientId × StreamId × Nat × Option Nat) :=
  match clientEnvelope.event, clientEnvelope.seqId, clientEnvelope.streamId with
  | .ack segmentId, some ackedSeqId, some streamId =>
    some (clientEnvelope.clientId, streamId, ackedSeqId, segmentId)
  | _, _, _ => none

def recordClientMessageDelivery (clientEnvelope : ClientEnvelope Rpc)
    (clientMessageKey : Option ClientMessageKey) : Option (WebsocketState Msg) := do
  let subscribeCursor :=
    match clientEnvelope.cursor with
    | some cursor => some cursor
    | none => state.subscribeCursor
  let lastCompleted :=
    match clientMessageKey with
    | some (key, seqId) => state.lastCompletedClientChunkSeqIdByStream.insert key seqId
    | none => state.lastCompletedClientChunkSeqIdByStream
  let outboundBuffer ←
    match acknowledged clientEnvelope with
    | some (clientId, streamId, ackedSeqId, segmentId) =>
      state.outboundBuffer.ack clientId streamId ackedSeqId segmentId
    | none => some state.outboundBuffer
  some
    { state with
      outboundBuffer
      subscribeCursor
      lastCompletedClientChunkSeqIdByStream := lastCompleted }

def invalidateClientMessageStream (clientId : ClientId)
    (streamId : StreamId) : WebsocketState Msg :=
  { state with
    lastCompletedClientChunkSeqIdByStream :=
      state.lastCompletedClientChunkSeqIdByStream.erase (clientId, some streamId) }

def invalidateClientMessageClient (clientId : ClientId) : WebsocketState Msg :=
  { state with
    lastCompletedClientChunkSeqIdByStream :=
      state.lastCompletedClientChunkSeqIdByStream.retain fun key => key.1 ≠ clientId }

/-- What the reader forgets of a stream that was closed. -/
def forgetStream (clientId : ClientId) (streamId : StreamId) : WebsocketState Msg :=
  (state.invalidateStream clientId streamId).invalidateClientMessageStream clientId streamId

/-- What the reader forgets of a client that closed all its streams. -/
def forgetClient (clientId : ClientId) : WebsocketState Msg :=
  { state with
    clientSegmentReassembler :=
      invalidateClient state.clientSegmentReassembler clientId }.invalidateClientMessageClient
    clientId

/-- The end of the reader's loop: what `ClientClosed` makes it forget. -/
def forgetClosed (delivered : ClientEnvelope Rpc) : WebsocketState Msg :=
  match delivered.event, delivered.streamId with
  | .clientClosed, some streamId => state.forgetStream delivered.clientId streamId
  | .clientClosed, none => state.forgetClient delivered.clientId
  | _, _ => state

/-- The reader takes an envelope off the websocket. `handled` is whether the client tracker could
handle it; if not, the reader stops. -/
def receive (codec : Codec Msg Rpc) (order : AssemblyOrder) (now : Nat)
    (state : WebsocketState Msg) (clientEnvelope : ClientEnvelope Rpc) (wireSizeBytes : Nat)
    (handled : Bool) : Option (WebsocketState Msg) :=
  let key := clientMessageKey clientEnvelope
  let (observation, state) :=
    state.observeClientMessage codec order now clientEnvelope wireSizeBytes
  match observation with
  | .forward delivered =>
    if handled then do
      let state ← state.recordClientMessageDelivery delivered key
      some (state.forgetClosed delivered)
    else some state
  | .pending | .dropped => some state

/-- The envelopes of a message that can be serialized go into the buffer and onto the wire. -/
def insertAll (serialize : ServerEnvelope Msg → Option Text) (buffer : BoundedOutboundBuffer Msg) :
    List (ServerEnvelope Msg) → List Text × BoundedOutboundBuffer Msg
  | [] => ([], buffer)
  | serverEnvelope :: rest =>
    match serialize serverEnvelope with
    | none => insertAll serialize buffer rest
    | some payload =>
      let (payloads, buffer) := insertAll serialize (buffer.insert serverEnvelope) rest
      (payload :: payloads, buffer)

/-- The number of the next message on a stream. -/
def nextSeqId (key : StreamKey) : Nat :=
  (state.nextSeqIdByStream.lookup key).getD 1

/-- A queued message with its number. -/
def numbered (queued : QueuedServerEnvelope Msg) : ServerEnvelope Msg where
  event := queued.event
  clientId := queued.clientId
  streamId := queued.streamId
  seqId := state.nextSeqId (queued.clientId, queued.streamId)

/-- The writer takes a message off its queue: the payloads it writes, and the state after. -/
def enqueue (codec : Codec Msg Rpc) (serialize : ServerEnvelope Msg → Option Text)
    (state : WebsocketState Msg) (queued : QueuedServerEnvelope Msg) :
    List Text × WebsocketState Msg :=
  let seqKey := (queued.clientId, queued.streamId)
  let seqId := state.nextSeqId seqKey
  let serverEnvelope := state.numbered queued
  -- `entry(..).or_insert(1)`
  let state := { state with nextSeqIdByStream := state.nextSeqIdByStream.insert seqKey seqId }
  match splitServerEnvelopeForTransport codec serverEnvelope with
  | .error _ => ([], state)
  | .ok serverEnvelopes =>
    let (payloads, outboundBuffer) := insertAll serialize state.outboundBuffer serverEnvelopes
    (payloads,
      { state with
        outboundBuffer
        nextSeqIdByStream := state.nextSeqIdByStream.insert seqKey (saturatingAdd seqId 1) })

/-- What the writer sends first on a new connection. -/
def resend (serialize : ServerEnvelope Msg → Option Text) (state : WebsocketState Msg)
    (order : HashMap.Iteration state.outboundBuffer.bufferByStream) : List Text :=
  (state.outboundBuffer.serverEnvelopes order).filterMap serialize

end WebsocketState

/-! ## Runs -/

inductive WebsocketAction (Msg Rpc : Type) where
  /-- The server has a message. -/
  | enqueue (queued : QueuedServerEnvelope Msg)
  /-- An envelope arrives. -/
  | receive (now : Nat) (clientEnvelope : ClientEnvelope Rpc) (wireSizeBytes : Nat)
      (handled : Bool)
  /-- A stream was closed: its task ended, or it was idle for too long. -/
  | closed (clientId : ClientId) (streamId : StreamId)

/-- An acknowledgement in the log. -/
structure ProcessedAck where
  key : StreamKey
  cursor : WireCursor

/-- The acknowledgement is for the envelope's stream, and no less far. -/
def ProcessedAck.covers {Msg : Type} (ack : ProcessedAck) (envelope : ServerEnvelope Msg) : Bool :=
  envelope.streamKey = ack.key ∧ envelope.wireCursor ≤ ack.cursor

abbrev WebsocketLog (Msg : Type) := List (Entry (ServerEnvelope Msg) ProcessedAck)

section Run

variable {Msg Rpc : Type} (codec : Codec Msg Rpc) (serialize : ServerEnvelope Msg → Option Text)
variable (order : AssemblyOrder)

variable (state : WebsocketState Msg)

/-- Nothing where the counter of the buffer would underflow. With a full buffer the writer leaves
its queue alone. -/
def WebsocketState.step : WebsocketAction Msg Rpc → Option (WebsocketState Msg)
  | .enqueue queued =>
    if state.outboundBuffer.used < channelCapacity then
      some (state.enqueue codec serialize queued).2
    else some state
  | .receive now clientEnvelope wireSizeBytes handled =>
    state.receive codec order now clientEnvelope wireSizeBytes handled
  | .closed clientId streamId => some (state.forgetStream clientId streamId)

/-- The envelopes that a message adds to the buffer. -/
def WebsocketState.inserted (queued : QueuedServerEnvelope Msg) : List (ServerEnvelope Msg) :=
  match splitServerEnvelopeForTransport codec (state.numbered queued) with
  | .error _ => []
  | .ok serverEnvelopes => serverEnvelopes.filter fun envelope => (serialize envelope).isSome

/-- What an action adds to the log. -/
def WebsocketState.entries : WebsocketAction Msg Rpc → WebsocketLog Msg
  | .enqueue queued =>
    if state.outboundBuffer.used < channelCapacity then
      (state.inserted codec serialize queued).map .sent
    else []
  | .receive _ clientEnvelope _ handled =>
    match WebsocketState.acknowledged clientEnvelope with
    | some (clientId, streamId, ackedSeqId, segmentId) =>
      if handled then [.acked ⟨(clientId, streamId), ackedCursor ackedSeqId segmentId⟩] else []
    | none => []
  | .closed .. => []

/-- A run, with its log. -/
def WebsocketState.run (state : WebsocketState Msg) :
    List (WebsocketAction Msg Rpc) → Option (WebsocketState Msg × WebsocketLog Msg)
  | [] => some (state, [])
  | action :: actions => do
    let after ← state.step codec serialize order action
    let (final, log) ← after.run actions
    some (final, state.entries codec serialize action ++ log)

end Run

end Codex.RemoteControl
