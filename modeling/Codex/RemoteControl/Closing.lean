import Codex.RemoteControl.TrackerRuns

/-!
# Codex — why a connection is closed

A task that has ended hands the reader its client and stream, not its connection, and the reader
closes the connection that it finds there. When a client initializes again on the same stream, the
task of the old connection ends, and its completion closes the new connection.

A run in which all sends get through closes connections for reasons of their own only, if and only
if no completion comes to a connection whose own task is still running (`closes_for_own_reasons_iff`).
-/

namespace Codex.RemoteControl

open Effect

namespace ClientTracker

variable {Rpc : Type} (startsConnection : Rpc → Bool) (order : ClientOrder)
variable {tracker : ClientTracker Rpc}

/-- The reasons that a connection has to be closed. -/
inductive OwnReason (tracker : ClientTracker Rpc) : TrackerAction Rpc → ConnectionId → Prop where
  | clientClosed {now : Nat} {randomStreamId : StreamId} {envelope : ClientEnvelope Rpc}
      {connectionId : ConnectionId} : envelope.event = .clientClosed →
      tracker.Holds (tracker.keyOf startsConnection randomStreamId envelope) connectionId →
      OwnReason tracker (.envelope now randomStreamId envelope) connectionId
  | reinitialized {now : Nat} {randomStreamId : StreamId} {envelope : ClientEnvelope Rpc}
      {connectionId : ConnectionId} : isInitialize startsConnection envelope.event →
      tracker.Holds (tracker.keyOf startsConnection randomStreamId envelope) connectionId →
      OwnReason tracker (.envelope now randomStreamId envelope) connectionId
  | expired {now : Nat} {key : StreamKey} {client : ClientState} :
      tracker.clients.lookup key = some client → isAlive client now = false →
      OwnReason tracker (.idleSweep now) client.connectionId
  /-- Whatever task completes, that of the connection has ended. -/
  | taskEnded {task own : OutboundTask} : own ∈ tracker.ended →
      OwnReason tracker (.taskCompletes task) own.connectionId
  | shutdown {connectionId : ConnectionId} : OwnReason tracker .shutdown connectionId

/-- The close events that an action sends are about connections with a reason. -/
def ClosesOwn (tracker : ClientTracker Rpc) (action : TrackerAction Rpc) : Prop :=
  ∀ connectionId, .connectionClosed connectionId ∈
      (tracker.step startsConnection order action).trace.drop tracker.trace.length →
    OwnReason startsConnection tracker action connectionId

/-- A completion comes to a key without a connection, or to one whose own task has ended. -/
def CompletesOwn (tracker : ClientTracker Rpc) : TrackerAction Rpc → Prop
  | .taskCompletes task => task ∈ tracker.ended → ∀ client,
      tracker.clients.lookup task.key = some client →
        ∃ own ∈ tracker.ended, own.connectionId = client.connectionId
  | _ => True

/-- Every action of a run is as `R` says, in the state before it. -/
def Throughout (R : ClientTracker Rpc → TrackerAction Rpc → Prop) (tracker : ClientTracker Rpc) :
    List (TrackerAction Rpc) → Prop
  | [] => True
  | action :: actions =>
    R tracker action ∧ Throughout R (tracker.step startsConnection order action) actions

variable {startsConnection}

/-- Where no send fails and completions are own, what is closed has a reason. -/
theorem Closes.ownReason {action : TrackerAction Rpc} {connectionId : ConnectionId}
    (h : Closes startsConnection tracker action connectionId) (hSends : false ∉ tracker.sends)
    (hCompletes : CompletesOwn tracker action) :
    OwnReason startsConnection tracker action connectionId := by
  cases h with
  | clientClosed hEvent hHolds => exact .clientClosed hEvent hHolds
  | reinitialized hInitialize hHolds => exact .reinitialized hInitialize hHolds
  | notInitialized _ hLost => exact absurd hLost hSends
  | expired hLookup hDead => exact .expired hLookup hDead
  | taskEnded hEnded hHolds =>
    obtain ⟨client, hLookup, rfl⟩ := hHolds
    obtain ⟨own, hOwn, hEq⟩ := hCompletes hEnded client hLookup
    rw [← hEq]
    exact .taskEnded hOwn
  | shutdown _ => exact .shutdown

/-- **One action.** -/
theorem closesOwn_iff (hSends : false ∉ tracker.sends) (action : TrackerAction Rpc) :
    ClosesOwn startsConnection order tracker action ↔ CompletesOwn tracker action := by
  constructor
  · intro h
    match action with
    | .envelope .. | .idleSweep _ | .taskEnds _ | .otherConnection | .shutdown => trivial
    | .taskCompletes task =>
      intro hEnded client hLookup
      -- the completion closes the connection that is on the key
      have hTrace : (tracker.step startsConnection order (.taskCompletes task)).trace =
          tracker.trace ++ [.connectionClosed client.connectionId] := by
        refine Post.both (R := fun after : ClientTracker Rpc =>
          after.trace = tracker.trace ++ [.connectionClosed client.connectionId]) ?_
        show Post _ _ (completeTask task tracker)
        refine post_bind (post_gets ?_)
        rw [if_pos (decide_eq_true hEnded)]
        refine post_bind (post_modify ?_)
        apply post_bind
        refine post_removeClient (fun hNone => ?_) fun client' hLookup' => ?_
        · cases hLookup.symm.trans hNone
        · obtain rfl := Option.some.inj (hLookup.symm.trans hLookup')
          refine post_send (fun _ => rfl) fun hLost => ?_
          exact absurd (mem_of_headD_eq_false hLost) hSends
      have hReason := h client.connectionId (by rw [hTrace, List.drop_left]; exact List.mem_cons_self)
      generalize client.connectionId = connectionId at hReason
      cases hReason with
      | taskEnded hOwn => exact ⟨_, hOwn, rfl⟩
  · intro h connectionId hMem
    obtain ⟨added, hTrace, hClosed⟩ := (step_moves startsConnection order action
      fun _ hCloses => hCloses.ownReason hSends h).exists_extends
    rw [hTrace, List.drop_left] at hMem
    exact hClosed connectionId hMem

theorem closesOwn_throughout_iff (hSends : false ∉ tracker.sends)
    (actions : List (TrackerAction Rpc)) :
    Throughout startsConnection order (ClosesOwn startsConnection order) tracker actions ↔
      Throughout startsConnection order CompletesOwn tracker actions := by
  induction actions generalizing tracker with
  | nil => exact Iff.rfl
  | cons action actions ih =>
    -- an action only uses up sends, so that none fails afterwards either
    have hMoves : Moves (fun _ => True) tracker (tracker.step startsConnection order action) :=
      step_moves startsConnection order action fun _ _ => trivial
    exact and_congr (closesOwn_iff order hSends action)
      (ih fun hLost => hSends (hMoves.sends_suffix.subset hLost))

variable (startsConnection)

/-- **Own reasons.** In a run in which all sends get through, connections are closed for reasons of
their own if and only if each completion comes to a key without a connection or to a connection
whose own task has ended. -/
theorem closes_for_own_reasons_iff (sends : List Bool) (hSends : false ∉ sends)
    (actions : List (TrackerAction Rpc)) :
    Throughout startsConnection order (ClosesOwn startsConnection order) (new sends) actions ↔
      Throughout startsConnection order CompletesOwn (new sends) actions :=
  closesOwn_throughout_iff order hSends actions

/-- The task of the first connection in a run with one client on one stream. -/
def firstTask : OutboundTask := ⟨⟨0⟩, ⟨"client"⟩, ⟨"stream"⟩⟩

/-- A connection that is closed because its own task ended. -/
theorem own_task_closes :
    Throughout id clientOrder (ClosesOwn id clientOrder) (new [])
      [arrives true 1, .taskEnds firstTask, .taskCompletes firstTask] := by
  refine (closes_for_own_reasons_iff id clientOrder [] List.not_mem_nil _).mpr
    ⟨trivial, trivial, fun _ client hLookup => ?_, trivial⟩
  obtain rfl := Option.some.inj hLookup
  exact ⟨firstTask, List.mem_singleton.mpr rfl, rfl⟩

/-- The client initializes again; the end of the old task closes the new connection, whose own task
is running. -/
theorem late_completion_closes_next :
    ((new []).run id clientOrder [arrives true 1, arrives true 2, .taskEnds firstTask]).trace =
      [.connectionOpened ⟨0⟩, .incomingMessage ⟨0⟩ true (some 1), .connectionClosed ⟨0⟩,
        .connectionOpened ⟨1⟩, .incomingMessage ⟨1⟩ true (some 2)] ∧
    ((new []).run id clientOrder [arrives true 1, arrives true 2, .taskEnds firstTask,
        .taskCompletes firstTask]).trace =
      [.connectionOpened ⟨0⟩, .incomingMessage ⟨0⟩ true (some 1), .connectionClosed ⟨0⟩,
        .connectionOpened ⟨1⟩, .incomingMessage ⟨1⟩ true (some 2), .connectionClosed ⟨1⟩] ∧
    ¬OwnReason id
      ((new []).run id clientOrder [arrives true 1, arrives true 2, .taskEnds firstTask])
      (.taskCompletes firstTask) ⟨1⟩ := by
  refine ⟨rfl, rfl, fun hReason => ?_⟩
  generalize hNext : (⟨1⟩ : ConnectionId) = next at hReason
  cases hReason with
  | taskEnded hOwn =>
    -- only the first task has ended
    obtain rfl := List.mem_singleton.mp hOwn
    cases hNext

end ClientTracker

end Codex.RemoteControl
