import Codex.RemoteControl.Lifecycle

/-!
# Codex — runs of the client tracker

Every action of the tracker is a sequence of moves, and the connections whose close event it sends
are those that `Closes` names (`step_moves`). Hence the invariant holds along every run, and the
events of each connection form a lifecycle (`tracker_lifecycle`).

A message that could not be forwarded is not recorded: it is forwarded when it comes again, unless
one with the same or a greater number was delivered in the meantime (`follows_of_moves`).
-/

namespace Codex.RemoteControl

open Effect List

namespace ClientTracker

variable {Rpc : Type} {tracker : ClientTracker Rpc} {P : ConnectionId → Prop}
variable {α : Type} {Q : Unit → ClientTracker Rpc → Prop} {E : Stopped → ClientTracker Rpc → Prop}

/-! ## Rules for the operations -/

theorem post_send {event : TransportEvent Rpc}
    (hOk : tracker.sends.headD true = true → Q ()
      { tracker with sends := tracker.sends.tail, trace := tracker.trace ++ [event] })
    (hStopped : tracker.sends.headD true = false →
      E .stopped { tracker with sends := tracker.sends.tail }) :
    Post Q E (sendTransportEvent event tracker) := by
  unfold sendTransportEvent
  cases hSend : tracker.sends.headD true with
  | true => exact hOk hSend
  | false => exact hStopped hSend

variable {key : StreamKey} {after : ClientTracker Rpc} {client client' : ClientState}
variable {seqId : Option Nat} {isLegacyStreamId : Bool} {now n : Nat} {message : Rpc}
variable {randomStreamId : StreamId} {envelope : ClientEnvelope Rpc} {middle : ClientTracker Rpc}

theorem post_removeClient {Q : Option ClientState → ClientTracker Rpc → Prop}
    (hNone : tracker.clients.lookup key = none → Q none tracker)
    (hSome : ∀ client, tracker.clients.lookup key = some client →
      Q (some client) (tracker.removed key)) :
    Post Q E (removeClient key tracker) := by
  unfold removeClient
  cases hLookup : tracker.clients.lookup key with
  | none => exact hNone hLookup
  | some client => exact hSome client hLookup

theorem sets_removed (tracker : ClientTracker Rpc) (key : StreamKey) :
    Sets tracker (tracker.removed key) key none :=
  fun other => HashMap.lookup_erase tracker.clients key other

/-- No client is new or changed. -/
def Shrinks (tracker after : ClientTracker Rpc) : Prop :=
  ∀ key client, after.clients.lookup key = some client → tracker.clients.lookup key = some client

theorem Sets.shrinks (h : Sets tracker after key none) : Shrinks tracker after := by
  intro other client hLookup
  rcases h.cases hLookup with ⟨-, hNew⟩ | ⟨-, hOld⟩
  · cases hNew
  · exact hOld

/-- What closing a client leads to. -/
structure ClosedTo (P : ConnectionId → Prop) (key : StreamKey) (tracker after : ClientTracker Rpc) :
    Prop where
  moves : Moves P tracker after
  shrinks : Shrinks tracker after
  gone : after.clients.lookup key = none
  counter : after.connectionIdCounter = tracker.connectionIdCounter
  sends : after.sends <:+ tracker.sends

theorem post_closeClient
    (hP : ∀ client, tracker.clients.lookup key = some client → P client.connectionId) :
    Post (fun _ => ClosedTo P key tracker) (fun _ => ClosedTo P key tracker)
      (closeClient key tracker) := by
  apply post_bind
  refine post_removeClient ?_ ?_
  · intro hNone
    exact post_pure ⟨.refl, fun _ _ h => h, hNone, rfl, suffix_rfl⟩
  intro client hLookup
  have hSets := sets_removed tracker key
  have hGone : (tracker.removed key).clients.lookup key = none :=
    (hSets key).trans (if_pos rfl)
  refine post_send (fun _ => ?_) fun _ => ?_
  · exact ⟨.single (.turn key client (.closed (hP client hLookup)) hLookup hSets rfl rfl)
      (tail_suffix _), hSets.shrinks, hGone, rfl, tail_suffix _⟩
  · exact ⟨.single (.turn key client .lost hLookup hSets (append_nil _).symm rfl) (tail_suffix _),
      hSets.shrinks, hGone, rfl, tail_suffix _⟩

/-- Whatever comes of an operation, the tracker has made moves. -/
abbrev MovedFrom (P : ConnectionId → Prop) (tracker : ClientTracker Rpc)
    (result : Except Stopped α × ClientTracker Rpc) : Prop :=
  Post (fun _ => Moves P tracker) (fun _ => Moves P tracker) result

theorem Moves.then {result : Except Stopped α × ClientTracker Rpc}
    (h : Moves P tracker middle) (hNext : MovedFrom P middle result) : MovedFrom P tracker result :=
  hNext.mono (fun _ _ => h.trans) fun _ _ => h.trans

theorem post_closeAll {keys : List StreamKey}
    (hP : ∀ key ∈ keys, ∀ client, tracker.clients.lookup key = some client →
      P client.connectionId) :
    MovedFrom P tracker (closeAll keys tracker) := by
  induction keys generalizing tracker with
  | nil => exact post_pure .refl
  | cons key keys ih =>
    obtain ⟨hFirst, hRest⟩ := forall_mem_cons.mp hP
    apply post_bind
    refine (post_closeClient hFirst).mono ?_ fun _ _ hClosed => hClosed.moves
    intro _ middle hClosed
    refine hClosed.moves.then (ih fun other hOther client hLookup => ?_)
    exact hRest other hOther client (hClosed.shrinks other client hLookup)

theorem post_shutdownLoop {order : ClientOrder} {fuel : Nat}
    (hP : ∀ key client, tracker.clients.lookup key = some client → P client.connectionId) :
    MovedFrom P tracker (shutdownLoop order fuel tracker) := by
  induction fuel generalizing tracker with
  | zero => exact post_pure .refl
  | succ fuel ih =>
    apply post_bind
    refine post_gets ?_
    rcases (order tracker.clients).keys.head? with _ | key
    · exact post_pure .refl
    apply post_bind
    refine post_attempt ?_
    have hNext : ∀ middle, ClosedTo P key tracker middle →
        MovedFrom P tracker (shutdownLoop order fuel middle) := by
      intro middle hClosed
      refine hClosed.moves.then (ih fun other client hLookup => ?_)
      exact hP other client (hClosed.shrinks other client hLookup)
    exact (post_closeClient (hP key)).mono (fun _ middle => hNext middle)
      fun _ middle => hNext middle

/-! ## Opening a connection -/

theorem sets_insert {clients : HashMap StreamKey ClientState}
    (hAfter : after.clients = clients.insert key client)
    (hBefore : clients = tracker.clients) : Sets tracker after key (some client) := by
  intro other
  rw [hAfter, hBefore, HashMap.lookup_insert]

theorem sets_self (hLookup : tracker.clients.lookup key = some client) :
    Sets tracker tracker key (some client) := by
  intro other
  by_cases hKey : other = key
  · rw [if_pos hKey, hKey, hLookup]
  · rw [if_neg hKey]

/-- Setting one key twice. -/
theorem Sets.trans {value value' : Option ClientState} (h : Sets tracker middle key value)
    (h' : Sets middle after key value') : Sets tracker after key value' := by
  intro other
  rw [h' other]
  by_cases hKey : other = key
  · rw [if_pos hKey, if_pos hKey]
  · rw [if_neg hKey, if_neg hKey, h other, if_neg hKey]

theorem updateClient_eq (f : ClientState → ClientState)
    (hLookup : tracker.clients.lookup key = some client) : tracker.updateClient key f =
      { tracker with clients := tracker.clients.insert key (f client) } := by
  unfold updateClient
  rw [hLookup]

/-- Recording a delivery to a client that is there. -/
theorem post_record (hLookup : tracker.clients.lookup key = some client)
    (h : ∀ after, Sets tracker after key
        (some { client with lastInboundSeqId := seqId.or client.lastInboundSeqId }) →
      after.trace = tracker.trace →
      after.connectionIdCounter = tracker.connectionIdCounter →
      after.sends = tracker.sends → Q () after) :
    Post Q E (recordInboundMessageDelivery key seqId tracker) := by
  unfold recordInboundMessageDelivery
  cases seqId with
  | none => exact post_pure (h tracker (sets_self hLookup) rfl rfl rfl)
  | some n =>
    refine post_modify ?_
    rw [updateClient_eq _ hLookup]
    exact h _ (sets_insert rfl rfl) rfl rfl rfl

/-- A new connection whose initialize message could not be forwarded is gone again. -/
theorem post_abandonClient (hLookup : tracker.clients.lookup key = some client)
    (h : ∀ after closing, Sets tracker after key none →
      closing = [] ∨ closing = [TransportEvent.connectionClosed client.connectionId] →
      after.trace = tracker.trace ++ closing →
      after.connectionIdCounter = tracker.connectionIdCounter →
      after.sends <:+ tracker.sends → Q () after) :
    Post Q E (abandonClient key tracker) := by
  apply post_bind
  refine post_removeClient (fun hNone => ?_) (fun client' hLookup' => ?_)
  · rw [hLookup] at hNone
    cases hNone
  · obtain rfl := Option.some.inj (hLookup.symm.trans hLookup')
    refine post_bind (post_attempt (post_send (fun _ => ?_) fun _ => ?_))
    · exact post_pure (h _ _ (sets_removed tracker key) (.inr rfl) rfl rfl (tail_suffix _))
    · exact post_pure (h _ [] (sets_removed tracker key) (.inl rfl) (append_nil _).symm rfl
        (tail_suffix _))

theorem mem_of_headD_eq_false {sends : List Bool} (h : sends.headD true = false) :
    false ∈ sends := by
  match sends with
  | [] => cases h
  | sent :: _ => exact h ▸ mem_cons_self

theorem post_openConnection (hNone : tracker.clients.lookup key = none)
    (hP : false ∈ tracker.sends → P tracker.freshId) :
    MovedFrom P tracker (openConnection key isLegacyStreamId now seqId message tracker) := by
  have hSets : ∀ sends trace, Sets tracker
      (opened { tracker with
          connectionIdCounter := tracker.connectionIdCounter + 1
          sends := sends
          trace := trace } key isLegacyStreamId now tracker.freshId) key
      (some
        { connectionId := tracker.freshId, lastActivityAt := now, lastInboundSeqId := none }) :=
    fun _ _ => sets_insert rfl rfl
  apply post_bind
  show Post _ _ (_, _)
  have hSends : tracker.sends.tail.tail <:+ tracker.sends :=
    (tail_suffix _).trans (tail_suffix _)
  refine post_bind (post_send (fun _ => ?_) fun _ => ?_)
  · refine post_bind (post_modify ?_)
    refine post_bind (post_attempt (post_send (fun _ => ?_) fun hLost => ?_))
    · -- the initialize message is forwarded
      split
      · exact post_pure (.single (.opened key _ message seqId rfl (hSets _ _)
          (append_assoc _ _ _) rfl) hSends)
      refine post_record (AList.lookup_insert _) ?_
      intro after hRecorded hTrace hCounter hSame
      refine .single (.opened key _ message seqId rfl ((hSets [] []).trans hRecorded) ?_ ?_) ?_
      · exact hTrace.trans (append_assoc _ _ _)
      · exact hCounter
      · rw [hSame]
        exact hSends
    · -- it is not
      refine post_bind (post_abandonClient (AList.lookup_insert _) ?_)
      intro after closing hGone hClosing hTrace hCounter hRest
      have hFailed : false ∈ tracker.sends :=
        (tail_suffix _).subset (mem_of_headD_eq_false hLost)
      refine post_fail (.single (.abandoned closing ?_ ?_ ?_ hCounter) (hRest.trans hSends))
      · intro other
        rw [((hSets [] []).trans hGone) other]
        by_cases hKey : other = key
        · rw [if_pos hKey, hKey, hNone]
        · rw [if_neg hKey]
      · exact hClosing.imp_right fun hEq => ⟨hEq, hP hFailed⟩
      · exact hTrace.trans (append_assoc _ _ _)
  · exact .single (.quiet rfl rfl (Nat.le_succ _)) (tail_suffix _)

/-! ## Messages -/

section

variable (hLookup : tracker.clients.lookup key = some client)
include hLookup

/-- A duplicate does not come after the last number. -/
theorem isDuplicate_eq (n : Nat) :
    tracker.isDuplicate key (some n) = !follows client.lastInboundSeqId n := by
  unfold isDuplicate follows
  rw [hLookup]
  dsimp only
  cases hLast : client.lastInboundSeqId with
  | none => rfl
  | some last =>
    rw [← decide_not, decide_eq_decide]
    exact Nat.not_lt.symm

theorem follows_of_not_duplicate (h : tracker.isDuplicate key seqId = false)
    (hSeq : seqId = some n) :
    follows client.lastInboundSeqId n := by
  rw [hSeq, isDuplicate_eq hLookup] at h
  simpa using h

theorem post_forwardMessage (hNew : tracker.isDuplicate key seqId = false) :
    MovedFrom P tracker (forwardMessage key client.connectionId now seqId message tracker) := by
  refine post_bind (post_modify ?_)
  rw [updateClient_eq _ hLookup]
  have hSets : ∀ sends trace, Sets tracker
      { tracker with
        clients := tracker.clients.insert key { client with lastActivityAt := now }
        sends := sends
        trace := trace } key (some { client with lastActivityAt := now }) :=
    fun _ _ => sets_insert rfl rfl
  refine post_bind (post_send (fun _ => ?_) fun _ => ?_)
  · refine post_record (AList.lookup_insert _) ?_
    intro after hRecorded hTrace hCounter hSame
    refine .single (.turn key client (.delivered now message seqId
      fun n => follows_of_not_duplicate hLookup hNew) hLookup ((hSets [] []).trans hRecorded) hTrace
      hCounter) ?_
    rw [hSame]
    exact tail_suffix _
  · exact .single (.turn key client (.touched now) hLookup (hSets _ _) (append_nil _).symm rfl)
      (tail_suffix _)

end

theorem post_handleClientMessage {isInitialize : Bool}
    (hLive : isInitialize → ∀ client, tracker.clients.lookup key = some client →
      P client.connectionId)
    (hFresh : isInitialize → false ∈ tracker.sends → P tracker.freshId) :
    MovedFrom P tracker (handleClientMessage key isLegacyStreamId isInitialize now seqId message tracker) := by
  refine post_bind (post_gets ?_)
  cases hInitialize : isInitialize with
  | true =>
    rw [Bool.not_true, Bool.and_false]
    refine post_bind ((post_closeClient (hLive hInitialize)).mono ?_ fun _ _ h => h.moves)
    intro _ middle hClosed
    refine post_bind (post_gets ?_)
    rw [hClosed.gone]
    have hNext : false ∈ middle.sends → P middle.freshId := by
      intro hLost
      unfold freshId
      rw [hClosed.counter]
      exact hFresh hInitialize (hClosed.sends.subset hLost)
    exact hClosed.moves.then (post_openConnection hClosed.gone hNext)
  | false =>
    rw [Bool.not_false, Bool.and_true]
    by_cases hDuplicate : tracker.isDuplicate key seqId = true
    · rw [if_pos hDuplicate]
      exact post_pure .refl
    rw [if_neg hDuplicate]
    refine post_bind (post_pure ?_)
    refine post_bind (post_gets ?_)
    cases hLookup : tracker.clients.lookup key with
    | none => exact post_pure .refl
    | some client => exact post_forwardMessage hLookup (by simpa using hDuplicate)

theorem post_handlePing : MovedFrom P tracker (handlePing key now tracker) := by
  refine post_modify ?_
  cases hLookup : tracker.clients.lookup key with
  | none => exact .single (.quiet rfl rfl (Nat.le_refl _)) suffix_rfl
  | some client =>
    rw [updateClient_eq _ hLookup]
    exact .single (.turn key client (.touched now) hLookup (sets_insert rfl rfl)
      (append_nil _).symm rfl) suffix_rfl

/-! ## Actions -/

variable (startsConnection : Rpc → Bool)

/-- The key that an envelope is about. -/
def keyOf (tracker : ClientTracker Rpc) (randomStreamId : StreamId)
    (envelope : ClientEnvelope Rpc) : StreamKey :=
  (envelope.clientId, tracker.resolveStreamId startsConnection randomStreamId envelope)

/-- The connection that a key has. -/
def Holds (tracker : ClientTracker Rpc) (key : StreamKey) (connectionId : ConnectionId) : Prop :=
  ∃ client, tracker.clients.lookup key = some client ∧ client.connectionId = connectionId

/-- The connections that an action sends a close event for. -/
inductive Closes (tracker : ClientTracker Rpc) : TrackerAction Rpc → ConnectionId → Prop where
  | clientClosed {now : Nat} {randomStreamId : StreamId} {envelope : ClientEnvelope Rpc}
      {connectionId : ConnectionId} : envelope.event = .clientClosed →
      tracker.Holds (tracker.keyOf startsConnection randomStreamId envelope) connectionId →
      Closes tracker (.envelope now randomStreamId envelope) connectionId
  | reinitialized {now : Nat} {randomStreamId : StreamId} {envelope : ClientEnvelope Rpc}
      {connectionId : ConnectionId} : isInitialize startsConnection envelope.event →
      tracker.Holds (tracker.keyOf startsConnection randomStreamId envelope) connectionId →
      Closes tracker (.envelope now randomStreamId envelope) connectionId
  /-- The connection that the envelope opens, if a send fails and it cannot be initialized. -/
  | notInitialized {now : Nat} {randomStreamId : StreamId} {envelope : ClientEnvelope Rpc} :
      isInitialize startsConnection envelope.event → false ∈ tracker.sends →
      Closes tracker (.envelope now randomStreamId envelope) tracker.freshId
  | expired {now : Nat} {key : StreamKey} {client : ClientState} :
      tracker.clients.lookup key = some client → isAlive client now = false →
      Closes tracker (.idleSweep now) client.connectionId
  | taskEnded {task : OutboundTask} {connectionId : ConnectionId} :
      task ∈ tracker.ended → tracker.Holds task.key connectionId →
      Closes tracker (.taskCompletes task) connectionId
  | shutdown {key : StreamKey} {connectionId : ConnectionId} :
      tracker.Holds key connectionId → Closes tracker .shutdown connectionId

theorem post_handleEvent {isInitialize : Bool} {event : ClientEvent Rpc}
    (hLive : isInitialize ∨ event = .clientClosed → ∀ client,
      tracker.clients.lookup key = some client → P client.connectionId)
    (hFresh : isInitialize → false ∈ tracker.sends → P tracker.freshId) :
    MovedFrom P tracker (handleEvent key isLegacyStreamId isInitialize now seqId event tracker) := by
  match event with
  | .clientMessage message => exact post_handleClientMessage (fun h => hLive (.inl h)) hFresh
  | .clientMessageChunk .. | .ack _ => exact post_pure .refl
  | .ping => exact post_handlePing
  | .clientClosed =>
    exact (post_closeClient (hLive (.inr rfl))).mono (fun _ _ h => h.moves) fun _ _ h => h.moves

theorem post_handleMessage
    (hP : ∀ connectionId, Closes startsConnection tracker (.envelope now randomStreamId envelope)
      connectionId → P connectionId) :
    MovedFrom P tracker (handleMessage startsConnection now randomStreamId envelope tracker) := by
  refine post_bind (post_gets ?_)
  refine post_bind (post_modify ?_)
  generalize (if envelope.streamId.isNone && isInitialize startsConnection envelope.event
    then tracker.legacyStreamIds.erase envelope.clientId else tracker.legacyStreamIds) = legacy
  have hQuiet : Moves P tracker { tracker with legacyStreamIds := legacy } :=
    .single (.quiet rfl rfl (Nat.le_refl _)) suffix_rfl
  split
  · exact post_pure hQuiet
  refine hQuiet.then (post_handleEvent ?_ ?_)
  · intro hWhy client hLookup
    refine hP _ ?_
    rcases hWhy with hInitialize | hClosed
    · exact .reinitialized hInitialize ⟨client, hLookup, rfl⟩
    · exact .clientClosed hClosed ⟨client, hLookup, rfl⟩
  · exact fun hInitialize hLost => hP _ (.notInitialized hInitialize hLost)

variable (order : ClientOrder)

theorem post_completeTask {task : OutboundTask}
    (hP : task ∈ tracker.ended → ∀ client, tracker.clients.lookup task.key = some client →
      P client.connectionId) :
    MovedFrom P tracker (completeTask task tracker) := by
  refine post_bind (post_gets ?_)
  by_cases hEnded : task ∈ tracker.ended
  · rw [if_pos (decide_eq_true hEnded)]
    refine post_bind (post_modify ?_)
    have hQuiet : Moves P tracker { tracker with ended := tracker.ended.erase task } :=
      .single (.quiet rfl rfl (Nat.le_refl _)) suffix_rfl
    refine (post_closeClient ?_).mono (fun _ _ h => hQuiet.trans h.moves)
      fun _ _ h => hQuiet.trans h.moves
    exact hP hEnded
  · rw [if_neg (by simpa using hEnded)]
    exact post_pure .refl

/-- **Every action** is a sequence of moves that close the connections named by `Closes`. -/
theorem step_moves (action : TrackerAction Rpc)
    (hP : ∀ connectionId, Closes startsConnection tracker action connectionId → P connectionId) :
    Moves P tracker (tracker.step startsConnection order action) := by
  refine Post.both ?_
  match action with
  | .envelope now randomStreamId envelope => exact post_handleMessage startsConnection hP
  | .idleSweep now =>
    refine post_bind (post_bind (post_gets ?_))
    refine post_bind ((post_closeAll ?_).mono ?_ fun _ _ h => h)
    · intro key hKey client hLookup
      obtain ⟨⟨_, _⟩, hEntry, rfl⟩ := mem_map.mp hKey
      obtain ⟨hPair, hDead⟩ := mem_filter.mp hEntry
      have hLookup' := HashMap.mem_toPairs.mp ((order _).property.mem_iff.mp hPair)
      obtain rfl := Option.some.inj (hLookup.symm.trans hLookup')
      exact hP _ (.expired hLookup (by simpa using hDead))
    · exact fun _ _ h => post_pure (post_pure h)
  | .taskEnds task =>
    refine post_modify ?_
    split
    · exact .single (.quiet rfl rfl (Nat.le_refl _)) suffix_rfl
    · exact .refl
  | .taskCompletes task =>
    refine post_completeTask ?_
    exact fun hEnded client hLookup => hP _ (.taskEnded hEnded ⟨client, hLookup, rfl⟩)
  | .otherConnection => exact .single (.quiet rfl rfl (Nat.le_succ _)) suffix_rfl
  | .shutdown =>
    refine post_bind (post_gets ?_)
    refine post_bind ((post_shutdownLoop ?_).mono ?_ fun _ _ h => h)
    · exact fun key client hLookup => hP _ (.shutdown ⟨client, hLookup, rfl⟩)
    · exact fun _ _ h => post_modify (h.tail ⟨.quiet rfl rfl (Nat.le_refl _), suffix_rfl⟩)

/-! ## Runs -/

theorem run_moves (tracker : ClientTracker Rpc) (actions : List (TrackerAction Rpc)) :
    Moves (fun _ => True) tracker (tracker.run startsConnection order actions) := by
  induction actions generalizing tracker with
  | nil => exact .refl
  | cons action actions ih =>
    exact (step_moves startsConnection order action fun _ _ => trivial).trans (ih _)

theorem run_sound (sends : List Bool) (actions : List (TrackerAction Rpc))
    (hSpace : ((new sends).run startsConnection order actions).connectionIdCounter ≤
      connectionIdSpace) :
    Sound ((new sends).run startsConnection order actions) :=
  (run_moves startsConnection order _ actions).sound hSpace (sound_new sends)

/-! ## Messages that come again -/

/-- The last number of a connection is the one it had, or that of a message delivered since. -/
def LastSeq (tracker after : ClientTracker Rpc) (key : StreamKey) (client' : ClientState) : Prop :=
  ∃ client, tracker.clients.lookup key = some client ∧
    client.connectionId = client'.connectionId ∧
    ∃ added, after.trace = tracker.trace ++ added ∧
      (client'.lastInboundSeqId = client.lastInboundSeqId ∨
        ∃ message n, .incomingMessage client'.connectionId message (some n) ∈ added ∧
          client'.lastInboundSeqId = some n)

theorem Move.lastSeq (h : Move P tracker after)
    (hSpace : after.connectionIdCounter ≤ connectionIdSpace)
    (hLookup : after.clients.lookup key = some client')
    (hOld : client'.connectionId.id < tracker.connectionIdCounter) :
    LastSeq tracker after key client' := by
  have hSame : ∀ added, after.trace = tracker.trace ++ added →
      tracker.clients.lookup key = some client' → LastSeq tracker after key client' :=
    fun added hTrace hBefore => ⟨client', hBefore, rfl, added, hTrace, .inl rfl⟩
  cases h with
  | quiet hClients hTrace hCounter =>
    refine hSame [] (hTrace.trans (append_nil _).symm) ?_
    rwa [hClients] at hLookup
  | turn key' client hTurn hBefore hSets hTrace hCounter =>
    rcases hSets.cases hLookup with ⟨rfl, hNew⟩ | ⟨-, hOther⟩
    · refine ⟨client, hBefore, ?_⟩
      cases hTurn with
      | touched now =>
        obtain rfl := Option.some.inj hNew
        exact ⟨rfl, [], hTrace, .inl rfl⟩
      | delivered now message seqId hFollows =>
        obtain rfl := Option.some.inj hNew
        refine ⟨rfl, _, hTrace, ?_⟩
        cases seqId with
        | none => exact .inl rfl
        | some n => exact .inr ⟨message, n, mem_singleton.mpr rfl, rfl⟩
      | closed | lost => cases hNew
    · exact hSame _ hTrace hOther
  | opened key' client message seqId hFresh hSets hTrace hCounter =>
    rcases hSets.cases hLookup with ⟨rfl, hNew⟩ | ⟨-, hOther⟩
    · -- a new connection has the id at the counter
      obtain rfl := Option.some.inj hNew
      have hId : tracker.freshId.id = tracker.connectionIdCounter := Nat.mod_eq_of_lt (by omega)
      rw [hFresh] at hOld
      omega
    · exact hSame _ hTrace hOther
  | abandoned closing hClients hClosing hTrace hCounter =>
    exact hSame _ hTrace ((hClients key).symm.trans hLookup)

theorem Moves.lastSeq (h : Moves P tracker after)
    (hSpace : after.connectionIdCounter ≤ connectionIdSpace)
    (hLookup : after.clients.lookup key = some client')
    (hOld : client'.connectionId.id < tracker.connectionIdCounter) :
    LastSeq tracker after key client' := by
  induction h generalizing client' with
  | refl => exact ⟨client', hLookup, rfl, [], (append_nil _).symm, .inl rfl⟩
  | @tail middle after hMoves hMove ih =>
    have hLe := Moves.counter_le hMoves
    obtain ⟨client, hMiddle, hId, added, hTrace, hLast⟩ :=
      hMove.1.lastSeq hSpace hLookup (by omega)
    obtain ⟨client₀, hBefore, hId₀, added₀, hTrace₀, hLast₀⟩ :=
      ih (hMove.1.counter_le.trans hSpace) hMiddle (by rw [hId]; exact hOld)
    refine ⟨client₀, hBefore, hId₀.trans hId, added₀ ++ added, ?_, ?_⟩
    · rw [hTrace, hTrace₀, append_assoc]
    rcases hLast with hSame | ⟨message, n, hMem, hSome⟩
    · rw [hSame]
      refine hLast₀.imp_right ?_
      intro ⟨message, n, hMem, hSome⟩
      rw [hId] at hMem
      exact ⟨message, n, mem_append_left _ hMem, hSome⟩
    · exact .inr ⟨message, n, mem_append_right _ hMem, hSome⟩

/-- The envelope is a message to a connection that is there, and does not start another one. -/
structure Addresses (tracker : ClientTracker Rpc) (randomStreamId : StreamId)
    (envelope : ClientEnvelope Rpc) (message : Rpc) (client : ClientState) : Prop where
  event : envelope.event = .clientMessage message
  not_start : startsConnection message = false
  stream : (tracker.resolveStreamId startsConnection randomStreamId envelope).id ≠ ""
  lookup : tracker.clients.lookup (tracker.keyOf startsConnection randomStreamId envelope) =
    some client

variable {startsConnection} {order}

section

variable (h : Addresses startsConnection tracker randomStreamId envelope message client)
include h

/-- A duplicate changes nothing, a message that is forwarded goes into the trace, and one that is
not only shows that the client is there. -/
theorem Addresses.post_message (now : Nat)
    (hDuplicate : tracker.isDuplicate (tracker.keyOf startsConnection randomStreamId envelope)
      envelope.seqId = true → Q () tracker)
    (hOk : tracker.isDuplicate (tracker.keyOf startsConnection randomStreamId envelope)
        envelope.seqId = false →
      ∀ after, after.trace = tracker.trace ++
        [.incomingMessage client.connectionId message envelope.seqId] → Q () after)
    (hStopped : tracker.isDuplicate (tracker.keyOf startsConnection randomStreamId envelope)
        envelope.seqId = false → tracker.sends.headD true = false →
      ∀ after, Sets tracker after (tracker.keyOf startsConnection randomStreamId envelope)
        (some { client with lastActivityAt := now }) →
      after.trace = tracker.trace →
      after.connectionIdCounter = tracker.connectionIdCounter → E .stopped after) :
    Post Q E (handleMessage startsConnection now randomStreamId envelope tracker) := by
  have hInitialize : isInitialize startsConnection envelope.event = false := by
    rw [h.event]
    exact h.not_start
  refine post_bind (post_gets (post_bind (post_modify ?_)))
  rw [hInitialize, Bool.and_false, if_neg h.stream, h.event]
  show Post Q E (handleClientMessage (tracker.keyOf startsConnection randomStreamId envelope) _ false
    now envelope.seqId message tracker)
  refine post_bind (post_gets ?_)
  cases hDup : tracker.isDuplicate (tracker.keyOf startsConnection randomStreamId envelope)
      envelope.seqId with
  | true => exact post_pure (hDuplicate hDup)
  | false =>
    refine post_bind (post_pure (post_bind (post_gets ?_)))
    rw [h.lookup]
    refine post_bind (post_modify ?_)
    rw [updateClient_eq _ h.lookup]
    refine post_bind (post_send (fun _ => ?_) fun hSend => ?_)
    · refine post_record (AList.lookup_insert _) ?_
      exact fun after _ hTrace _ _ => hOk hDup after hTrace
    · exact hStopped hDup hSend _ (sets_insert rfl rfl) rfl rfl

/-- A message that could not be forwarded is no duplicate, and is not recorded. -/
theorem Addresses.of_failed
    (hFailed : (handleMessage startsConnection now randomStreamId envelope tracker).1 =
      .error .stopped) :
    (∀ n, envelope.seqId = some n → follows client.lastInboundSeqId n) ∧
      Sets tracker (tracker.step startsConnection order (.envelope now randomStreamId envelope))
        (tracker.keyOf startsConnection randomStreamId envelope)
        (some { client with lastActivityAt := now }) ∧
      (tracker.step startsConnection order (.envelope now randomStreamId envelope)).trace =
        tracker.trace := by
  have hPost := h.post_message now (Q := fun _ _ => True)
    (E := fun _ after => (∀ n, envelope.seqId = some n → follows client.lastInboundSeqId n) ∧
      Sets tracker after (tracker.keyOf startsConnection randomStreamId envelope)
        (some { client with lastActivityAt := now }) ∧ after.trace = tracker.trace)
    (fun _ => trivial) (fun _ _ _ => trivial)
    fun hNew _ after hSets hTrace _ =>
      ⟨fun n => follows_of_not_duplicate h.lookup hNew, hSets, hTrace⟩
  exact hPost.of_error hFailed

/-- A message whose number comes after the last one is forwarded, if the send gets through. -/
theorem Addresses.forwarded (hSeq : envelope.seqId = some n)
    (hFollows : follows client.lastInboundSeqId n) (hSend : tracker.sends.headD true = true) :
    (tracker.step startsConnection order (.envelope now randomStreamId envelope)).trace =
      tracker.trace ++ [.incomingMessage client.connectionId message (some n)] := by
  have hNew : tracker.isDuplicate (tracker.keyOf startsConnection randomStreamId envelope)
      envelope.seqId = false := by
    rw [hSeq, isDuplicate_eq h.lookup, hFollows]
    rfl
  have hPost := h.post_message now
    (Q := fun _ after => after.trace =
      tracker.trace ++ [.incomingMessage client.connectionId message (some n)])
    (E := fun _ after => after.trace =
      tracker.trace ++ [.incomingMessage client.connectionId message (some n)])
    (fun hDuplicate => by rw [hNew] at hDuplicate; cases hDuplicate)
    (fun _ after hTrace => by rw [hTrace, hSeq])
    fun _ hLost => by rw [hSend] at hLost; cases hLost
  exact hPost.both

end

/-- Between a message that could not be forwarded and the moment it comes again, the connection
has not got past it, if nothing with the same or a greater number was delivered. -/
theorem follows_of_moves (hSound : Sound tracker)
    (hMoves : Moves P tracker after) (hSpace : after.connectionIdCounter ≤ connectionIdSpace)
    {key' : StreamKey} (hLookup : tracker.clients.lookup key = some client)
    (hLookup' : after.clients.lookup key' = some client')
    (hId : client'.connectionId = client.connectionId)
    (hFollows : follows client.lastInboundSeqId n)
    (hLater : ∀ message k, .incomingMessage client.connectionId message (some k) ∈
      after.trace.drop tracker.trace.length → k < n) : follows client'.lastInboundSeqId n := by
  have hOld : client'.connectionId.id < tracker.connectionIdCounter := by
    rw [hId]
    exact hSound.id_lt hLookup
  obtain ⟨before, hBefore, hSame, added, hTrace, hLast⟩ := hMoves.lastSeq hSpace hLookup' hOld
  -- the connection was on the same key all the time
  obtain rfl := hSound.distinct key' key before client hBefore hLookup (hSame.trans hId)
  obtain rfl := Option.some.inj (hBefore.symm.trans hLookup)
  rw [hTrace, drop_left] at hLater
  rcases hLast with hEq | ⟨message, k, hMem, hEq⟩
  · rw [hEq]
    exact hFollows
  · rw [hEq]
    rw [hId] at hMem
    exact decide_eq_true (hLater message k hMem)

variable (startsConnection) (order)

/-- **Connections.** In every run in which no more connection ids are handed out than there are,
the events of a connection are that it is opened, messages, and at most one end; the messages after
the first have increasing numbers. A message that could not be forwarded is not recorded; it is
forwarded when it comes again on the same connection, if no message with the same or a greater
number was delivered there in between. -/
theorem tracker_lifecycle (sends : List Bool) (actions : List (TrackerAction Rpc))
    (hSpace : ((new sends).run startsConnection order actions).connectionIdCounter ≤
      connectionIdSpace) :
    (∀ connectionId, Lifecycle connectionId
      (eventsOf connectionId ((new sends).run startsConnection order actions).trace)) ∧
    ∀ (before after : ClientTracker Rpc) (first later : List (TrackerAction Rpc)) (now : Nat)
      (randomStreamId : StreamId) (envelope : ClientEnvelope Rpc) (message : Rpc) (n : Nat)
      (client : ClientState),
      actions = first ++ .envelope now randomStreamId envelope :: later →
      before = (new sends).run startsConnection order first →
      after = (new sends).run startsConnection order actions →
      Addresses startsConnection before randomStreamId envelope message client →
      envelope.seqId = some n →
      (handleMessage startsConnection now randomStreamId envelope before).1 = .error .stopped →
      Sets before (before.step startsConnection order (.envelope now randomStreamId envelope))
        (before.keyOf startsConnection randomStreamId envelope)
        (some { client with lastActivityAt := now }) ∧
      ∀ (now' : Nat) (randomStreamId' : StreamId) (client' : ClientState),
        Addresses startsConnection after randomStreamId' envelope message client' →
        client'.connectionId = client.connectionId →
        (∀ message k, .incomingMessage client.connectionId message (some k) ∈
          after.trace.drop before.trace.length → k < n) →
        after.sends.headD true = true →
        (after.step startsConnection order (.envelope now' randomStreamId' envelope)).trace =
          after.trace ++ [.incomingMessage client.connectionId message (some n)] := by
  have hSound := run_sound startsConnection order sends actions hSpace
  refine ⟨fun connectionId => ?_, ?_⟩
  · obtain ⟨phase, hPhase, -⟩ := hSound.phase connectionId
    refine lifecycle_of_phase ?_ hPhase
    intro event hEvent
    simpa using (mem_filter.mp hEvent).2
  intro before after first later now randomStreamId envelope message n client hActions hBefore
    hAfter hAddresses hSeq hFailed
  obtain ⟨hFollows, hSets, hTrace⟩ := hAddresses.of_failed hFailed
  refine ⟨hSets, ?_⟩
  intro now' randomStreamId' client' hAgain hId hLater hSend
  have hRun : after = (before.step startsConnection order
      (.envelope now randomStreamId envelope)).run startsConnection order later := by
    rw [hAfter, hActions, hBefore]
    unfold run
    rw [foldl_append, foldl_cons]
  rw [← hAfter] at hSpace
  generalize hFailedTo : before.step startsConnection order (.envelope now randomStreamId envelope) =
    failed at hSets hTrace hRun
  have hToFailed : Moves (fun _ => True) before failed := by
    rw [← hFailedTo]
    exact step_moves startsConnection order _ fun _ _ => trivial
  have hToAfter : Moves (fun _ => True) failed after := by
    rw [hRun]
    exact run_moves startsConnection order failed later
  have hLe := hToFailed.counter_le
  have hLe' := hToAfter.counter_le
  have hSoundBefore : Sound before := by
    rw [hBefore] at hLe ⊢
    exact run_sound startsConnection order sends first (by omega)
  have hSoundFailed := hToFailed.sound (by omega) hSoundBefore
  have hNext : follows client'.lastInboundSeqId n :=
    follows_of_moves hSoundFailed hToAfter hSpace ((hSets _).trans (if_pos rfl)) hAgain.lookup hId
      (hFollows n hSeq) (by rw [hTrace]; exact hLater)
  rw [hAgain.forwarded hSeq hNext hSend, hId]

/-! Two runs with one client on one stream. The message `true` initializes. -/

def clientOrder : ClientOrder := fun clients => ⟨clients.toPairs, .refl _⟩

def numbered (message : Bool) (seqId : Nat) : ClientEnvelope Bool where
  event := .clientMessage message
  clientId := ⟨"client"⟩
  streamId := some ⟨"stream"⟩
  seqId := some seqId
  cursor := none

def arrives (message : Bool) (seqId : Nat) : TrackerAction Bool :=
  .envelope 0 ⟨"stream"⟩ (numbered message seqId)

/-- Message 5 could not be forwarded; it comes again, and goes through. -/
theorem five_retried :
    Lifecycle ⟨0⟩ (eventsOf ⟨0⟩
      ((new [true, true, false]).run id clientOrder [arrives true 1, arrives false 5]).trace) ∧
    (((new [true, true, false]).run id clientOrder [arrives true 1, arrives false 5]).step id
        clientOrder (arrives false 5)).trace =
      [.connectionOpened ⟨0⟩, .incomingMessage ⟨0⟩ true (some 1),
        .incomingMessage ⟨0⟩ false (some 5)] := by
  have h := tracker_lifecycle id clientOrder [true, true, false] [arrives true 1, arrives false 5]
    (by decide)
  refine ⟨h.1 ⟨0⟩, ?_⟩
  exact (h.2 _ _ [arrives true 1] [] 0 ⟨"stream"⟩ (numbered false 5) false 5 ⟨⟨0⟩, 0, some 1⟩ rfl rfl
    rfl ⟨rfl, rfl, by decide, rfl⟩ rfl rfl).2 0 ⟨"stream"⟩ ⟨⟨0⟩, 0, some 1⟩
    ⟨rfl, rfl, by decide, rfl⟩ rfl (fun _ _ hMem => absurd hMem not_mem_nil) rfl

/-- Message 5 could not be forwarded and message 6 was delivered: the connection is there, the
channel is free, and message 5 is dropped when it comes again. -/
theorem five_dropped_after_six :
    (handleMessage id 0 ⟨"stream"⟩ (numbered false 5)
        ((new [true, true, false]).run id clientOrder [arrives true 1])).1 = .error .stopped ∧
    ((new [true, true, false]).run id clientOrder
        [arrives true 1, arrives false 5, arrives false 6]).clients.lookup
      (⟨"client"⟩, ⟨"stream"⟩) = some ⟨⟨0⟩, 0, some 6⟩ ∧
    ((new [true, true, false]).run id clientOrder
        [arrives true 1, arrives false 5, arrives false 6, arrives false 5]).trace =
      [.connectionOpened ⟨0⟩, .incomingMessage ⟨0⟩ true (some 1),
        .incomingMessage ⟨0⟩ false (some 6)] :=
  ⟨rfl, rfl, rfl⟩

end ClientTracker

end Codex.RemoteControl
