import Codex.Lib.Effect
import Codex.RemoteControl.Protocol
import Codex.Std.HashMap

/-!
# Codex — the clients behind the remote-control websocket

`ClientTracker` in `remote_control/client_tracker.rs`, and the calls that the reader loop in
`websocket.rs` makes to it. A client that sends `initialize` on a stream gets a connection of the
app server; its messages are forwarded there until it is closed. Each connection has a task that
writes to the client. When a task has ended, the reader is told the client and the stream, and
closes what is there.

What the code shares with others is part of the state: the counter of connection ids, the tasks,
and the channel to the app server. `sends` says which of the sends to come get through, `trace`
is what has. The connection-closed event of a connection that could not be initialized is sent by
a task of its own; it is put into the trace at once, since nothing else is sent about the
connection after it.
-/

namespace Codex.RemoteControl

open Effect

structure ConnectionId where
  id : Nat
  deriving DecidableEq, Repr

/-- Connection ids are `u64`; the counter wraps around. -/
def connectionIdSpace : Nat := 2 ^ 64

/-- Ten minutes, in milliseconds. -/
def clientIdleTimeout : Nat := 10 * 60 * 1000

inductive Stopped where
  | stopped
  deriving DecidableEq, Repr

/-- The events that the tracker sends. A message has the sequence number of its envelope with it;
the code does not send it along. -/
inductive TransportEvent (Rpc : Type) where
  | connectionOpened (connectionId : ConnectionId)
  | incomingMessage (connectionId : ConnectionId) (message : Rpc) (seqId : Option Nat)
  | connectionClosed (connectionId : ConnectionId)
  deriving DecidableEq, Repr

def TransportEvent.connectionId {Rpc : Type} : TransportEvent Rpc → ConnectionId
  | .connectionOpened connectionId => connectionId
  | .incomingMessage connectionId _ _ => connectionId
  | .connectionClosed connectionId => connectionId

structure ClientState where
  connectionId : ConnectionId
  lastActivityAt : Nat
  lastInboundSeqId : Option Nat
  deriving DecidableEq, Repr

/-- `run_client_outbound` of a connection. It returns the key. -/
structure OutboundTask where
  connectionId : ConnectionId
  key : StreamKey
  deriving DecidableEq, Repr

structure ClientTracker (Rpc : Type) where
  clients : HashMap StreamKey ClientState
  legacyStreamIds : HashMap ClientId StreamId
  /-- The tasks of `join_set` that run, and those that ended. -/
  running : List OutboundTask
  ended : List OutboundTask
  connectionIdCounter : Nat
  sends : List Bool
  trace : List (TransportEvent Rpc)
  pongs : List (StreamKey × PongStatus)

abbrev ClientOrder := ∀ clients : HashMap StreamKey ClientState, clients.Iteration

namespace ClientTracker

variable {Rpc : Type}

def new (sends : List Bool) : ClientTracker Rpc where
  clients := ∅
  legacyStreamIds := ∅
  running := []
  ended := []
  connectionIdCounter := 0
  sends := sends
  trace := []
  pongs := []

abbrev TrackerM (Rpc : Type) := Eff (ClientTracker Rpc) Stopped

/-- A send that times out or finds the receiver gone has no effect. -/
def sendTransportEvent (event : TransportEvent Rpc) : TrackerM Rpc Unit := fun tracker =>
  if tracker.sends.headD true then
    (.ok (), { tracker with sends := tracker.sends.tail, trace := tracker.trace ++ [event] })
  else (.error .stopped, { tracker with sends := tracker.sends.tail })

/-- `next_connection_id`. -/
def nextConnectionId : TrackerM Rpc ConnectionId := fun tracker =>
  (.ok ⟨tracker.connectionIdCounter % connectionIdSpace⟩,
    { tracker with connectionIdCounter := tracker.connectionIdCounter + 1 })

/-- The state without a client, and without its entry among the legacy streams. -/
def removed (tracker : ClientTracker Rpc) (key : StreamKey) : ClientTracker Rpc :=
  { tracker with
    clients := tracker.clients.erase key
    legacyStreamIds :=
      if tracker.legacyStreamIds.lookup key.1 = some key.2 then tracker.legacyStreamIds.erase key.1
      else tracker.legacyStreamIds }

variable (key : StreamKey)

def removeClient : TrackerM Rpc (Option ClientState) := fun tracker =>
  match tracker.clients.lookup key with
  | none => (.ok none, tracker)
  | some client => (.ok (some client), tracker.removed key)

def closeClient : TrackerM Rpc Unit := do
  match ← removeClient key with
  | none => pure ()
  | some client => sendTransportEvent (.connectionClosed client.connectionId)

/-- Changes the state of a client that is there. -/
def updateClient (tracker : ClientTracker Rpc) (key : StreamKey) (f : ClientState → ClientState) :
    ClientTracker Rpc :=
  match tracker.clients.lookup key with
  | none => tracker
  | some client => { tracker with clients := tracker.clients.insert key (f client) }

def recordInboundMessageDelivery (seqId : Option Nat) : TrackerM Rpc Unit :=
  match seqId with
  | none => pure ()
  | some seqId =>
    Eff.modify fun tracker =>
      tracker.updateClient key fun client => { client with lastInboundSeqId := some seqId }

/-- The connection could not be initialized. Its close event is sent without waiting. -/
def abandonClient : TrackerM Rpc Unit := do
  match ← removeClient key with
  | none => pure ()
  | some client =>
    let _ ← (Eff.attempt (sendTransportEvent (.connectionClosed client.connectionId)) :
      TrackerM Rpc (Except Stopped Unit))
    pure ()

/-- The state with a new connection and its task. -/
def opened (tracker : ClientTracker Rpc) (key : StreamKey) (isLegacyStreamId : Bool) (now : Nat)
    (connectionId : ConnectionId) : ClientTracker Rpc :=
  { tracker with
    running := tracker.running ++ [⟨connectionId, key⟩]
    clients :=
      tracker.clients.insert key { connectionId, lastActivityAt := now, lastInboundSeqId := none }
    legacyStreamIds :=
      if isLegacyStreamId then tracker.legacyStreamIds.insert key.1 key.2
      else tracker.legacyStreamIds }

/-- The end of the branch for messages: a connection for a client that initializes. -/
def openConnection (isLegacyStreamId : Bool) (now : Nat) (seqId : Option Nat)
    (message : Rpc) : TrackerM Rpc Unit := do
  let connectionId ← nextConnectionId
  sendTransportEvent (.connectionOpened connectionId)
  Eff.modify fun tracker => tracker.opened key isLegacyStreamId now connectionId
  match ← Eff.attempt (sendTransportEvent (.incomingMessage connectionId message seqId)) with
  | .error e => do
    abandonClient key
    Eff.fail e
  | .ok () => if isLegacyStreamId then pure () else recordInboundMessageDelivery key seqId

/-- The message was delivered before. -/
def isDuplicate (tracker : ClientTracker Rpc) (key : StreamKey) (seqId : Option Nat) : Bool :=
  match seqId, tracker.clients.lookup key with
  | some seqId, some client =>
    match client.lastInboundSeqId with
    | some lastSeqId => lastSeqId ≥ seqId
    | none => false
  | _, _ => false

/-- A message to a client that is there. Only what was forwarded is recorded. -/
def forwardMessage (connectionId : ConnectionId) (now : Nat)
    (seqId : Option Nat) (message : Rpc) : TrackerM Rpc Unit := do
  Eff.modify fun tracker =>
    tracker.updateClient key fun client => { client with lastActivityAt := now }
  sendTransportEvent (.incomingMessage connectionId message seqId)
  recordInboundMessageDelivery key seqId

/-- The branch for `ClientMessage`. -/
def handleClientMessage (isLegacyStreamId isInitialize : Bool) (now : Nat)
    (seqId : Option Nat) (message : Rpc) : TrackerM Rpc Unit := do
  let duplicate ← Eff.gets fun tracker => tracker.isDuplicate key seqId
  if duplicate && !isInitialize then pure ()
  else do
    let () ← (if isInitialize then closeClient key else pure () : TrackerM Rpc Unit)
    match ← Eff.gets fun tracker => tracker.clients.lookup key with
    | some client => forwardMessage key client.connectionId now seqId message
    | none =>
      if isInitialize then openConnection key isLegacyStreamId now seqId message else pure ()

/-- The branch for `Ping`: a client that is there is told so by its task. -/
def handlePing (now : Nat) : TrackerM Rpc Unit :=
  Eff.modify fun tracker =>
    match tracker.clients.lookup key with
    | some _ =>
      { tracker.updateClient key fun client => { client with lastActivityAt := now } with
        pongs := tracker.pongs ++ [(key, .active)] }
    | none => { tracker with pongs := tracker.pongs ++ [(key, .unknown)] }

def handleEvent (isLegacyStreamId isInitialize : Bool) (now : Nat)
    (seqId : Option Nat) : ClientEvent Rpc → TrackerM Rpc Unit
  | .clientMessage message =>
    handleClientMessage key isLegacyStreamId isInitialize now seqId message
  | .clientMessageChunk .. | .ack _ => pure ()
  | .ping => handlePing key now
  | .clientClosed => closeClient key

variable (startsConnection : Rpc → Bool)

/-- A message that starts a connection; `startsConnection` is
`remote_control_message_starts_connection`. -/
def isInitialize (event : ClientEvent Rpc) : Bool :=
  match event with
  | .clientMessage message => startsConnection message
  | _ => false

/-- The stream of an envelope. Clients that do not send one have a stream of their own, which is
forgotten when they initialize again. `randomStreamId` is `StreamId::new_random`. -/
def resolveStreamId (tracker : ClientTracker Rpc) (randomStreamId : StreamId)
    (envelope : ClientEnvelope Rpc) : StreamId :=
  match envelope.streamId with
  | some streamId => streamId
  | none =>
    match tracker.legacyStreamIds.lookup envelope.clientId with
    | some streamId => streamId
    | none =>
      if isInitialize startsConnection envelope.event then randomStreamId
      else
        match envelope.event with
        | .ping => randomStreamId
        | _ => ⟨""⟩

def handleMessage (now : Nat) (randomStreamId : StreamId) (envelope : ClientEnvelope Rpc) :
    TrackerM Rpc Unit := do
  let starts := isInitialize startsConnection envelope.event
  let streamId ← Eff.gets fun tracker =>
    tracker.resolveStreamId startsConnection randomStreamId envelope
  Eff.modify fun tracker =>
    { tracker with
      legacyStreamIds :=
        if envelope.streamId.isNone && starts then tracker.legacyStreamIds.erase envelope.clientId
        else tracker.legacyStreamIds }
  if streamId.id = "" then pure ()
  else
    handleEvent (envelope.clientId, streamId) envelope.streamId.isNone starts now envelope.seqId
      envelope.event

def isAlive (client : ClientState) (now : Nat) : Bool :=
  now - client.lastActivityAt < clientIdleTimeout

def expiredKeys (order : ClientOrder) (now : Nat) (tracker : ClientTracker Rpc) : List StreamKey :=
  ((order tracker.clients).pairs.filter fun entry => !isAlive entry.2 now).map Prod.fst

def closeAll : List StreamKey → TrackerM Rpc Unit
  | [] => pure ()
  | key :: keys => do
    closeClient key
    closeAll keys

def closeExpiredClients (order : ClientOrder) (now : Nat) : TrackerM Rpc (List StreamKey) := do
  let expired ← Eff.gets (expiredKeys order now)
  closeAll expired
  pure expired

/-- The loop of `shutdown`; each round removes a client, so there are no more rounds than
clients. -/
def shutdownLoop (order : ClientOrder) : Nat → TrackerM Rpc Unit
  | 0 => pure ()
  | fuel + 1 => do
    match ← Eff.gets fun tracker => (order tracker.clients).keys.head? with
    | none => pure ()
    | some key =>
      let _ ← (Eff.attempt (closeClient key) : TrackerM Rpc (Except Stopped Unit))
      shutdownLoop order fuel

def shutdown (order : ClientOrder) : TrackerM Rpc Unit := do
  shutdownLoop order (← Eff.gets fun tracker => tracker.clients.entries.length)
  Eff.modify fun tracker => { tracker with running := [], ended := [] }

/-- `bookkeep_join_set` yields the key of a task that ended, and the reader closes what is
there. -/
def completeTask (task : OutboundTask) : TrackerM Rpc Unit := do
  let hasEnded ← Eff.gets fun tracker => decide (task ∈ tracker.ended)
  if hasEnded then
    Eff.modify fun tracker => { tracker with ended := tracker.ended.erase task }
    closeClient task.key

end ClientTracker

/-- What can happen to the tracker. -/
inductive TrackerAction (Rpc : Type) where
  | envelope (now : Nat) (randomStreamId : StreamId) (envelope : ClientEnvelope Rpc)
  | idleSweep (now : Nat)
  /-- A task ends: its connection was closed, or its writer is gone. -/
  | taskEnds (task : OutboundTask)
  /-- The reader is told that a task has ended. -/
  | taskCompletes (task : OutboundTask)
  /-- Another transport takes a connection id. -/
  | otherConnection
  | shutdown

namespace ClientTracker

variable {Rpc : Type} (startsConnection : Rpc → Bool) (order : ClientOrder)

/-- The computation of an action; an error of it ends the reader, which is started again on the
same tracker. -/
def perform : TrackerAction Rpc → TrackerM Rpc Unit
  | .envelope now randomStreamId envelope =>
    handleMessage startsConnection now randomStreamId envelope
  | .idleSweep now => do
    let _ ← closeExpiredClients order now
  | .taskEnds task =>
    Eff.modify fun tracker =>
      if task ∈ tracker.running then
        { tracker with running := tracker.running.erase task, ended := tracker.ended ++ [task] }
      else tracker
  | .taskCompletes task => completeTask task
  | .otherConnection => do
    let _ ← nextConnectionId
  | .shutdown => shutdown order

def step (tracker : ClientTracker Rpc) (action : TrackerAction Rpc) : ClientTracker Rpc :=
  (perform startsConnection order action tracker).2

def run (tracker : ClientTracker Rpc) (actions : List (TrackerAction Rpc)) : ClientTracker Rpc :=
  actions.foldl (step startsConnection order) tracker

end ClientTracker

end Codex.RemoteControl
