import Codex.RemoteControl.ClientTracker

/-!
# Codex — the events of a connection

What the app server gets to see of a connection: it is opened, messages come in, and it is closed
at most once, after which nothing comes. The messages after the first one have increasing
sequence numbers.

* `Phase` is an automaton that accepts such sequences (`lifecycle_of_phase`).
* `Move` is all that the tracker can do to its clients and to the trace; an action is a sequence of
  moves.
* `Sound` relates the clients to the phases of their connections. Moves keep it, as long as
  connection ids are not handed out twice.
-/

namespace Codex.RemoteControl

open Effect List TransportEvent

variable {Rpc : Type}

/-! ## Traces -/

inductive Phase where
  | unopened
  | opened
  | active (last : Option Nat)
  | closed
  deriving DecidableEq, Repr

/-- The number comes after the last one. -/
def follows (last : Option Nat) (seqId : Nat) : Bool :=
  match last with
  | none => true
  | some last => last < seqId

def Phase.next : Phase → TransportEvent Rpc → Option Phase
  | .unopened, .connectionOpened _ => some .opened
  | .opened, .incomingMessage _ _ _ => some (.active none)
  | .active last, .incomingMessage _ _ none => some (.active last)
  | .active last, .incomingMessage _ _ (some seqId) =>
    if follows last seqId then some (.active (some seqId)) else none
  | .opened, .connectionClosed _ => some .closed
  | .active _, .connectionClosed _ => some .closed
  | _, _ => none

def eventsOf (connectionId : ConnectionId) (trace : List (TransportEvent Rpc)) :
    List (TransportEvent Rpc) :=
  trace.filter fun event => event.connectionId = connectionId

def phaseFrom (phase : Phase) (events : List (TransportEvent Rpc)) : Option Phase :=
  events.foldlM Phase.next phase

/-- The phase of a connection after a trace. -/
def phaseOf (connectionId : ConnectionId) (trace : List (TransportEvent Rpc)) : Option Phase :=
  phaseFrom .unopened (eventsOf connectionId trace)

/-- What the events of one connection look like. -/
inductive Lifecycle (connectionId : ConnectionId) : List (TransportEvent Rpc) → Prop where
  | unopened : Lifecycle connectionId []
  | opened (messages : List (Rpc × Option Nat)) (closing : List (TransportEvent Rpc)) :
      closing = [] ∨ closing = [.connectionClosed connectionId] →
      (messages.tail.filterMap Prod.snd).Pairwise (· < ·) →
      Lifecycle connectionId
        (.connectionOpened connectionId ::
          ((messages.map fun message => .incomingMessage connectionId message.1 message.2) ++
            closing))

section Accepted

variable {connectionId : ConnectionId} {events : List (TransportEvent Rpc)} {phase : Phase}
variable {last : Option Nat}

theorem phaseFrom_cons (event : TransportEvent Rpc) :
    phaseFrom phase (event :: events) = (phase.next event).bind (phaseFrom · events) := by
  unfold phaseFrom
  rw [foldlM_cons, Option.bind_eq_bind]

theorem phaseFrom_closed (h : phaseFrom .closed events = some phase) : events = [] := by
  match events with
  | [] => rfl
  | .connectionOpened _ :: _ | .incomingMessage .. :: _ | .connectionClosed _ :: _ => cases h

theorem follows_trans {seqId later : Nat} (h : follows last seqId)
    (hLt : seqId < later) : follows last later := by
  unfold follows at h ⊢
  split
  · rfl
  · simp only [decide_eq_true_eq] at h ⊢
    omega

section

variable (hAbout : ∀ event ∈ events, event.connectionId = connectionId)
include hAbout

/-- From a connection that is in use: messages with increasing numbers, then perhaps the end. -/
theorem messages_of_active (h : phaseFrom (.active last) events = some phase) :
    ∃ (messages : List (Rpc × Option Nat)) (closing : List (TransportEvent Rpc)),
      events = (messages.map fun message =>
        .incomingMessage connectionId message.1 message.2) ++ closing ∧
      (closing = [] ∨ closing = [.connectionClosed connectionId]) ∧
      (messages.filterMap Prod.snd).Pairwise (· < ·) ∧
      ∀ seqId ∈ messages.filterMap Prod.snd, follows last seqId := by
  induction events generalizing last with
  | nil => exact ⟨[], [], rfl, .inl rfl, .nil, fun _ hMem => absurd hMem not_mem_nil⟩
  | cons event events ih =>
    obtain ⟨rfl, hAbout⟩ := forall_mem_cons.mp hAbout
    rw [phaseFrom_cons] at h
    match event with
    | .connectionOpened _ => cases h
    | .connectionClosed c =>
      obtain rfl := phaseFrom_closed h
      exact ⟨[], [.connectionClosed c], rfl, .inr rfl, .nil,
        fun _ hMem => absurd hMem not_mem_nil⟩
    | .incomingMessage c message none =>
      obtain ⟨messages, closing, rfl, hClosing, hOrder, hFollows⟩ := ih hAbout h
      exact ⟨(message, none) :: messages, closing, rfl, hClosing, hOrder, hFollows⟩
    | .incomingMessage c message (some seqId) =>
      by_cases hNext : follows last seqId = true
      · have hStep : (Phase.active last).next (.incomingMessage c message (some seqId)) =
            some (.active (some seqId)) := if_pos hNext
        rw [hStep] at h
        obtain ⟨messages, closing, rfl, hClosing, hOrder, hFollows⟩ := ih hAbout h
        have hAfter : ∀ later ∈ messages.filterMap Prod.snd, seqId < later :=
          fun later hLater => of_decide_eq_true (hFollows later hLater)
        refine ⟨(message, some seqId) :: messages, closing, rfl, hClosing, ?_, ?_⟩
        · exact pairwise_cons.mpr ⟨hAfter, hOrder⟩
        · intro later hLater
          rcases mem_cons.mp hLater with rfl | hLater
          · exact hNext
          · exact follows_trans hNext (hAfter later hLater)
      · have hStep : (Phase.active last).next (.incomingMessage c message (some seqId)) = none :=
          if_neg hNext
        rw [hStep] at h
        cases h

/-- What the automaton accepts. -/
theorem lifecycle_of_phase (h : phaseFrom .unopened events = some phase) :
    Lifecycle connectionId events := by
  match events with
  | [] => exact .unopened
  | .incomingMessage .. :: _ | .connectionClosed _ :: _ => cases h
  | .connectionOpened c :: rest =>
    obtain ⟨rfl, hAbout⟩ := forall_mem_cons.mp hAbout
    match rest with
    | [] => exact .opened [] [] (.inl rfl) .nil
    | .connectionOpened _ :: _ => cases h
    | .connectionClosed c' :: rest =>
      obtain ⟨hEq, -⟩ := forall_mem_cons.mp hAbout
      obtain rfl := phaseFrom_closed h
      obtain rfl : c' = c := hEq
      exact .opened [] [.connectionClosed c'] (.inr rfl) .nil
    | .incomingMessage c' message seqId :: rest =>
      obtain ⟨hEq, hAbout⟩ := forall_mem_cons.mp hAbout
      obtain ⟨messages, closing, rfl, hClosing, hOrder, -⟩ := messages_of_active hAbout h
      obtain rfl : c' = c := hEq
      exact .opened ((message, seqId) :: messages) closing hClosing hOrder

end

end Accepted

/-! ## Phases along a trace -/

section Append

variable {connectionId : ConnectionId} {trace events : List (TransportEvent Rpc)}

theorem phaseOf_append_other (h : ∀ event ∈ events, event.connectionId ≠ connectionId) :
    phaseOf connectionId (trace ++ events) = phaseOf connectionId trace := by
  have hNil : eventsOf connectionId events = [] :=
    filter_eq_nil_iff.mpr fun event hEvent => by simpa using h event hEvent
  unfold phaseOf
  unfold eventsOf at hNil ⊢
  rw [filter_append, hNil, append_nil]

theorem phaseOf_append_own (h : ∀ event ∈ events, event.connectionId = connectionId) :
    phaseOf connectionId (trace ++ events) =
      (phaseOf connectionId trace).bind (phaseFrom · events) := by
  have hAll : eventsOf connectionId events = events :=
    filter_eq_self.mpr fun event hEvent => by simpa using h event hEvent
  unfold phaseOf
  unfold eventsOf at hAll ⊢
  rw [filter_append, hAll]
  unfold phaseFrom
  rw [foldlM_append, Option.bind_eq_bind]

end Append

/-! ## Moves -/

namespace ClientTracker

/-- Only the entry of one key is set. -/
def Sets (tracker after : ClientTracker Rpc) (key : StreamKey) (value : Option ClientState) :
    Prop :=
  ∀ other, after.clients.lookup other =
    if other = key then value else tracker.clients.lookup other

variable {key : StreamKey} {client : ClientState} {value : Option ClientState}

/-- A client that is there afterwards is the one that was set, or was there before. -/
theorem Sets.cases {tracker after : ClientTracker Rpc} {other : StreamKey}
    (h : Sets tracker after key value)
    (hLookup : after.clients.lookup other = some client) : (other = key ∧ value = some client) ∨
      (other ≠ key ∧ tracker.clients.lookup other = some client) := by
  rw [h other] at hLookup
  by_cases hKey : other = key
  · rw [if_pos hKey] at hLookup
    exact .inl ⟨hKey, hLookup⟩
  · rw [if_neg hKey] at hLookup
    exact .inr ⟨hKey, hLookup⟩

/-- The id that the next connection gets. -/
def freshId (tracker : ClientTracker Rpc) : ConnectionId :=
  ⟨tracker.connectionIdCounter % connectionIdSpace⟩

/-- What happens to a client: the events about it, and what it is afterwards. The connections for
which a close event is sent are in `P`. -/
inductive Turn (P : ConnectionId → Prop) (client : ClientState) :
    List (TransportEvent Rpc) → Option ClientState → Prop where
  /-- It shows that it is there, by a ping or a message that could not be forwarded. -/
  | touched (now : Nat) : Turn P client [] (some { client with lastActivityAt := now })
  | delivered (now : Nat) (message : Rpc) (seqId : Option Nat) :
      (∀ n, seqId = some n → follows client.lastInboundSeqId n) →
      Turn P client [.incomingMessage client.connectionId message seqId]
        (some { client with
          lastActivityAt := now
          lastInboundSeqId := seqId.or client.lastInboundSeqId })
  | closed : P client.connectionId → Turn P client [.connectionClosed client.connectionId] none
  /-- It is removed, but the close event cannot be sent. -/
  | lost : Turn P client [] none

/-- All that the tracker does to its clients and to the trace. -/
inductive Move (P : ConnectionId → Prop) (tracker after : ClientTracker Rpc) : Prop where
  | quiet :
      after.clients = tracker.clients → after.trace = tracker.trace →
      tracker.connectionIdCounter ≤ after.connectionIdCounter → Move P tracker after
  | turn (key : StreamKey) (client : ClientState) {events : List (TransportEvent Rpc)}
      {value : Option ClientState} :
      Turn P client events value → tracker.clients.lookup key = some client →
      Sets tracker after key value → after.trace = tracker.trace ++ events →
      after.connectionIdCounter = tracker.connectionIdCounter → Move P tracker after
  | opened (key : StreamKey) (client : ClientState) (message : Rpc) (seqId : Option Nat) :
      client.connectionId = tracker.freshId →
      Sets tracker after key (some client) →
      after.trace = tracker.trace ++
        [.connectionOpened tracker.freshId, .incomingMessage tracker.freshId message seqId] →
      after.connectionIdCounter = tracker.connectionIdCounter + 1 → Move P tracker after
  /-- A connection that could not be initialized; `closing` is what gets through of its end. -/
  | abandoned (closing : List (TransportEvent Rpc)) :
      (∀ other, after.clients.lookup other = tracker.clients.lookup other) →
      closing = [] ∨ (closing = [.connectionClosed tracker.freshId] ∧ P tracker.freshId) →
      after.trace = tracker.trace ++ .connectionOpened tracker.freshId :: closing →
      after.connectionIdCounter = tracker.connectionIdCounter + 1 → Move P tracker after

/-- Moves one after the other, each of which may use up some of the sends to come. -/
def Moves (P : ConnectionId → Prop) : ClientTracker Rpc → ClientTracker Rpc → Prop :=
  Relation.ReflTransGen fun tracker after => Move P tracker after ∧ after.sends <:+ tracker.sends

/-! ## The invariant -/

/-- The clients are connections in use, each of its own, and connections that were opened have
ids below the counter. -/
structure Sound (tracker : ClientTracker Rpc) : Prop where
  phase : ∀ connectionId, ∃ phase, phaseOf connectionId tracker.trace = some phase ∧
    (phase = .unopened ∨ connectionId.id < tracker.connectionIdCounter)
  live : ∀ key client, tracker.clients.lookup key = some client → ∃ last,
    phaseOf client.connectionId tracker.trace = some (.active last) ∧
    (last = none ∨ last = client.lastInboundSeqId)
  distinct : ∀ key key' client client', tracker.clients.lookup key = some client →
    tracker.clients.lookup key' = some client' → client.connectionId = client'.connectionId →
    key = key'

theorem sound_new (sends : List Bool) : Sound (new sends : ClientTracker Rpc) where
  phase := fun _ => ⟨.unopened, rfl, .inl rfl⟩
  live := fun _ _ hLookup => by cases hLookup
  distinct := fun _ _ _ _ hLookup => by cases hLookup

variable {tracker after : ClientTracker Rpc} {P : ConnectionId → Prop}

variable {events : List (TransportEvent Rpc)}

/-- Events about one connection keep the invariant, if the clients of the others stay and that of
this one is in the phase that the events lead to. -/
theorem Sound.extend (h : Sound tracker) (key : StreamKey) (connectionId : ConnectionId)
    (phase : Phase)
    (hTrace : after.trace = tracker.trace ++ events)
    (hAbout : ∀ event ∈ events, event.connectionId = connectionId)
    (hPhase : (phaseOf connectionId tracker.trace).bind (phaseFrom · events) = some phase)
    (hId : connectionId.id < after.connectionIdCounter)
    (hCounter : tracker.connectionIdCounter ≤ after.connectionIdCounter)
    (hClients : ∀ other client, after.clients.lookup other = some client →
      (tracker.clients.lookup other = some client ∧ client.connectionId ≠ connectionId) ∨
      (other = key ∧ client.connectionId = connectionId ∧
        ∃ last, phase = .active last ∧ (last = none ∨ last = client.lastInboundSeqId))) :
    Sound after := by
  have hOwn : phaseOf connectionId after.trace = some phase := by
    rw [hTrace, phaseOf_append_own hAbout, hPhase]
  have hOther : ∀ other, other ≠ connectionId →
      phaseOf other after.trace = phaseOf other tracker.trace := by
    intro other hNe
    rw [hTrace]
    refine phaseOf_append_other fun event hEvent => ?_
    rw [hAbout event hEvent]
    exact Ne.symm hNe
  refine ⟨?_, ?_, ?_⟩
  · intro other
    by_cases hEq : other = connectionId
    · rw [hEq]
      exact ⟨phase, hOwn, .inr hId⟩
    · obtain ⟨old, hOld, hBelow⟩ := h.phase other
      refine ⟨old, (hOther other hEq).trans hOld, hBelow.imp_right fun hLt => ?_⟩
      omega
  · intro other client hLookup
    rcases hClients other client hLookup with ⟨hOld, hNe⟩ | ⟨-, hEq, last, rfl, hLast⟩
    · obtain ⟨last, hActive, hLast⟩ := h.live other client hOld
      exact ⟨last, (hOther _ hNe).trans hActive, hLast⟩
    · exact ⟨last, by rw [hEq]; exact hOwn, hLast⟩
  · intro other other' client client' hLookup hLookup' hEq
    rcases hClients other client hLookup with ⟨hOld, hNe⟩ | ⟨hKey, hOwnId, -⟩
    · rcases hClients other' client' hLookup' with ⟨hOld', -⟩ | ⟨-, hOwnId', -⟩
      · exact h.distinct other other' client client' hOld hOld' hEq
      · exact absurd (hEq.trans hOwnId') hNe
    · rcases hClients other' client' hLookup' with ⟨-, hNe'⟩ | ⟨hKey', -, -⟩
      · exact absurd (hEq.symm.trans hOwnId) hNe'
      · rw [hKey, hKey']

/-- A client has an id below the counter. -/
theorem Sound.id_lt (h : Sound tracker) (hLookup : tracker.clients.lookup key = some client) :
    client.connectionId.id < tracker.connectionIdCounter := by
  obtain ⟨last, hActive, -⟩ := h.live key client hLookup
  obtain ⟨phase, hPhase, hBelow⟩ := h.phase client.connectionId
  rw [hActive] at hPhase
  cases hPhase
  exact hBelow.resolve_left (by simp)

/-- As long as the counter has not wrapped around, a new id was not used. -/
theorem Sound.fresh (h : Sound tracker) (hSpace : tracker.connectionIdCounter < connectionIdSpace) :
    tracker.freshId.id = tracker.connectionIdCounter ∧
      phaseOf tracker.freshId tracker.trace = some .unopened ∧
      ∀ key client, tracker.clients.lookup key = some client →
        client.connectionId ≠ tracker.freshId := by
  have hId : tracker.freshId.id = tracker.connectionIdCounter := Nat.mod_eq_of_lt hSpace
  obtain ⟨phase, hPhase, hBelow⟩ := h.phase tracker.freshId
  refine ⟨hId, ?_, ?_⟩
  · rcases hBelow with rfl | hLt
    · exact hPhase
    · omega
  · intro key client hLookup hEq
    have hLt := h.id_lt hLookup
    rw [hEq] at hLt
    omega

theorem Move.counter_le (h : Move P tracker after) :
    tracker.connectionIdCounter ≤ after.connectionIdCounter := by
  cases h <;> omega

/-- A turn is about its client, and goes on from the phase the client is in. -/
theorem Turn.phase
    (h : Turn P client events value) {last : Option Nat}
    (hLast : last = none ∨ last = client.lastInboundSeqId) :
    (∀ event ∈ events, event.connectionId = client.connectionId) ∧
      ∃ phase, phaseFrom (.active last) events = some phase ∧
        ∀ client', value = some client' → client'.connectionId = client.connectionId ∧
          ∃ last', phase = .active last' ∧ (last' = none ∨ last' = client'.lastInboundSeqId) := by
  cases h with
  | touched now =>
    refine ⟨by simp, .active last, rfl, ?_⟩
    rintro _ ⟨⟩
    exact ⟨rfl, last, rfl, hLast⟩
  | delivered now message seqId hFollows =>
    refine ⟨forall_mem_singleton.mpr rfl, ?_⟩
    rcases seqId with _ | n
    · refine ⟨.active last, rfl, ?_⟩
      rintro _ ⟨⟩
      exact ⟨rfl, last, rfl, hLast⟩
    -- a message that is not a duplicate goes on with the numbers
    have hNext : follows last n = true := by
      rcases hLast with rfl | rfl
      · rfl
      · exact hFollows n rfl
    refine ⟨.active (some n), ?_, ?_⟩
    · rw [phaseFrom_cons, Phase.next, if_pos hNext]
      rfl
    · rintro _ ⟨⟩
      exact ⟨rfl, some n, rfl, .inr rfl⟩
  | closed => exact ⟨forall_mem_singleton.mpr rfl, .closed, rfl, fun _ hEq => by cases hEq⟩
  | lost => exact ⟨by simp, .active last, rfl, fun _ hEq => by cases hEq⟩

/-- **One move** keeps the invariant. -/
theorem Move.sound (h : Move P tracker after)
    (hSpace : after.connectionIdCounter ≤ connectionIdSpace) (hSound : Sound tracker) :
    Sound after := by
  cases h with
  | quiet hClients hTrace hCounter =>
    refine ⟨?_, ?_, ?_⟩
    · intro connectionId
      obtain ⟨phase, hOf, hBelow⟩ := hSound.phase connectionId
      rw [hTrace]
      exact ⟨phase, hOf, hBelow.imp_right fun hLt => by omega⟩
    · rw [hClients, hTrace]
      exact hSound.live
    · rw [hClients]
      exact hSound.distinct
  | turn key client hTurn hLookup hSets hTrace hCounter =>
    obtain ⟨last, hActive, hLast⟩ := hSound.live key client hLookup
    obtain ⟨hAbout, phase, hPhase, hValue⟩ := hTurn.phase hLast
    have hLt := hSound.id_lt hLookup
    refine hSound.extend key client.connectionId phase hTrace hAbout ?_ (by omega) (by omega) ?_
    · rw [hActive]
      exact hPhase
    · intro other client' hLookup'
      rcases hSets.cases hLookup' with ⟨hKey, hNew⟩ | ⟨hKey, hOld⟩
      · obtain ⟨hEq, hNext⟩ := hValue client' hNew
        exact .inr ⟨hKey, hEq, hNext⟩
      · exact .inl ⟨hOld, fun hEq => hKey (hSound.distinct _ _ _ _ hOld hLookup hEq)⟩
  | opened key client message seqId hFresh hSets hTrace hCounter =>
    obtain ⟨hId, hUnopened, hOthers⟩ := hSound.fresh (by omega)
    refine hSound.extend key tracker.freshId (.active none) hTrace
      (by simp [connectionId]) ?_ (by omega) (by omega) ?_
    · rw [hUnopened]
      rfl
    · intro other client' hLookup'
      rcases hSets.cases hLookup' with ⟨hKey, hNew⟩ | ⟨-, hOld⟩
      · obtain rfl := Option.some.inj hNew
        exact .inr ⟨hKey, hFresh, none, rfl, .inl rfl⟩
      · exact .inl ⟨hOld, hOthers other client' hOld⟩
  | abandoned closing hClients hClosing hTrace hCounter =>
    obtain ⟨hId, hUnopened, hOthers⟩ := hSound.fresh (by omega)
    obtain ⟨hAbout, phase, hPhase⟩ :
        (∀ event ∈ connectionOpened tracker.freshId :: closing,
          event.connectionId = tracker.freshId) ∧
        ∃ phase, phaseFrom .unopened (.connectionOpened tracker.freshId :: closing) = some phase := by
      rcases hClosing with rfl | ⟨rfl, -⟩
      · exact ⟨by simp [connectionId], .opened, rfl⟩
      · exact ⟨by simp [connectionId], .closed, rfl⟩
    refine hSound.extend (⟨""⟩, ⟨""⟩) tracker.freshId phase hTrace hAbout ?_ (by omega) (by omega) ?_
    · rw [hUnopened]
      exact hPhase
    · intro other client' hLookup'
      rw [hClients other] at hLookup'
      exact .inl ⟨hLookup', hOthers other client' hLookup'⟩

theorem Moves.single (h : Move P tracker after) (hSends : after.sends <:+ tracker.sends) :
    Moves P tracker after :=
  Relation.ReflTransGen.single ⟨h, hSends⟩

section

variable (h : Moves P tracker after)
include h

theorem Moves.counter_le :
    tracker.connectionIdCounter ≤ after.connectionIdCounter := by
  induction h with
  | refl => exact Nat.le_refl _
  | tail _ hMove ih => exact ih.trans hMove.1.counter_le

theorem Moves.sends_suffix : after.sends <:+ tracker.sends := by
  induction h with
  | refl => exact suffix_rfl
  | tail _ hMove ih => exact hMove.2.trans ih

theorem Moves.sound (hSpace : after.connectionIdCounter ≤ connectionIdSpace)
    (hSound : Sound tracker) :
    Sound after := by
  induction h with
  | refl => exact hSound
  | tail _ hMove ih => exact hMove.1.sound hSpace (ih (hMove.1.counter_le.trans hSpace))

end

/-- The trace only grows, and the close events among the new ones are about connections in `P`. -/
structure Extends (P : ConnectionId → Prop) (tracker after : ClientTracker Rpc)
    (added : List (TransportEvent Rpc)) : Prop where
  trace : after.trace = tracker.trace ++ added
  closed : ∀ connectionId, .connectionClosed connectionId ∈ added → P connectionId

theorem Move.exists_extends (h : Move P tracker after) : ∃ added, Extends P tracker after added := by
  have hNone : ∀ connectionId, connectionClosed connectionId ∈
      ([] : List (TransportEvent Rpc)) → P connectionId := fun _ hMem => by cases hMem
  cases h with
  | quiet _ hTrace => exact ⟨[], hTrace.trans (append_nil _).symm, hNone⟩
  | turn _ _ hTurn _ _ hTrace =>
    refine ⟨_, hTrace, ?_⟩
    cases hTurn with
    | touched | lost => exact hNone
    | delivered => exact fun _ hMem => by simp at hMem
    | closed hP =>
      intro connectionId hMem
      cases mem_singleton.mp hMem
      exact hP
  | opened _ _ _ _ _ _ hTrace => exact ⟨_, hTrace, fun _ hMem => by simp at hMem⟩
  | abandoned closing _ hClosing hTrace =>
    refine ⟨_, hTrace, fun connectionId hMem => ?_⟩
    rcases hClosing with rfl | ⟨rfl, hP⟩
    · simp at hMem
    · simp only [mem_cons, reduceCtorEq, connectionClosed.injEq,
        not_mem_nil, or_false, false_or] at hMem
      rw [hMem]
      exact hP

theorem Moves.exists_extends (h : Moves P tracker after) :
    ∃ added, Extends P tracker after added := by
  induction h with
  | refl => exact ⟨[], (append_nil _).symm, fun _ hMem => by cases hMem⟩
  | tail _ hMove ih =>
    obtain ⟨added, hTrace, hClosed⟩ := ih
    obtain ⟨added', hTrace', hClosed'⟩ := hMove.1.exists_extends
    refine ⟨added ++ added', ?_, ?_⟩
    · rw [hTrace', hTrace, append_assoc]
    · intro connectionId hMem
      exact (mem_append.mp hMem).elim (hClosed connectionId) (hClosed' connectionId)

end ClientTracker

end Codex.RemoteControl
