import Codex.Lib.Runs
import Codex.Std.Text
import Codex.Std.HashMap
import Mathlib.Data.Finset.Basic

/-!
# Codex — who decides a network approval

`core/src/tools/network_approval.rs`. The first request for a host publishes an entry in
`pending_host_approvals` and goes on to decide it; later requests for the host wait for that
decision. A call of `handle_inline_policy_request` is a `Stage`, the await it is suspended
at: `Call.poll` runs it up to its next await. No lock is held across an await.

What the session answers (the turn, hooks, reviews) comes with the event that resumes the
call. The client may disconnect at any time, and the call's future is then dropped where it is.

* **What it is for.** `Board`: the entries, and of each call only its `Role` for them. A poll
  is a `Move` of the board (`move_poll`), and moves keep `Inv`.
* **Result.** `attended_iff`: every undecided entry has its creator running, in all states of
  a run, exactly when no call is dropped while it decides.
-/

namespace Codex.NetworkApproval

open Function

/-! ## The service -/

inductive NetworkApprovalProtocol where
  | http
  | https
  | socks5Tcp
  | socks5Udp
  deriving DecidableEq, Repr

structure NetworkPolicyRequest where
  /-- What `request.protocol` is mapped to. -/
  protocol : NetworkApprovalProtocol
  host : Text
  port : UInt16

structure HostApprovalKey where
  host : Text
  protocol : Text
  port : UInt16
  deriving DecidableEq

def protocolKeyLabel : NetworkApprovalProtocol → Text
  | .http => "http".toList
  | .https => "https".toList
  | .socks5Tcp => "socks5-tcp".toList
  | .socks5Udp => "socks5-udp".toList

def HostApprovalKey.fromRequest (request : NetworkPolicyRequest) : HostApprovalKey where
  host := Text.toAsciiLowercase request.host
  protocol := protocolKeyLabel request.protocol
  port := request.port

inductive PendingApprovalDecision where
  | allowOnce
  | allowForSession
  | deny
  deriving DecidableEq, Repr

inductive NetworkApprovalOutcome where
  | deniedByUser
  | deniedByPolicy (message : Text)
  deriving DecidableEq, Repr

/-- `NetworkDecision`; a denial is one of `NetworkDecision::deny`. -/
inductive NetworkDecision where
  | allow
  | deny (reason : Text)
  deriving DecidableEq, Repr

def reasonNotAllowed : Text := "not_allowed".toList

def PendingApprovalDecision.toNetworkDecision : PendingApprovalDecision → NetworkDecision
  | .allowOnce | .allowForSession => .allow
  | .deny => .deny reasonNotAllowed

structure PendingHostApproval where
  creator : Nat
  decision : Option PendingApprovalDecision
  deriving DecidableEq, Repr

/-- The registered tool calls in order, their outcomes, and whose tokens are cancelled. -/
structure NetworkApprovalCallState where
  activeCalls : List Text
  callOutcomes : HashMap Text NetworkApprovalOutcome
  cancelled : List Text

namespace NetworkApprovalCallState

def resolveSingleActiveCall (calls : NetworkApprovalCallState) : Option Text :=
  match calls.activeCalls with
  | [registrationId] => some registrationId
  | _ => none

def recordCallOutcome (calls : NetworkApprovalCallState) (registrationId : Text)
    (outcome : NetworkApprovalOutcome) : NetworkApprovalCallState :=
  if registrationId ∉ calls.activeCalls then calls
  else if calls.callOutcomes.lookup registrationId = some .deniedByUser then calls
  else
    { calls with
      callOutcomes := calls.callOutcomes.insert registrationId outcome
      cancelled := registrationId :: calls.cancelled }

end NetworkApprovalCallState

/-- Entries are numbered in the order they were made; the map holds their numbers. -/
structure NetworkApprovalService where
  calls : NetworkApprovalCallState
  approvals : List PendingHostApproval
  pendingHostApprovals : HashMap HostApprovalKey Nat
  sessionApprovedHosts : Finset HostApprovalKey
  sessionDeniedHosts : Finset HostApprovalKey

variable (service : NetworkApprovalService)

/-- The entry of a key, and whether the caller made it. -/
def NetworkApprovalService.getOrCreatePendingApproval
    (caller : Nat) (key : HostApprovalKey) : Nat × Bool × NetworkApprovalService :=
  match service.pendingHostApprovals.lookup key with
  | some existing => (existing, false, service)
  | none =>
    let created := service.approvals.length
    (created, true,
      { service with
        approvals := service.approvals ++ [{ creator := caller, decision := none }]
        pendingHostApprovals := service.pendingHostApprovals.insert key created })

/-! ## A call -/

inductive PermissionProfile where
  | managed
  | disabled
  | external
  deriving DecidableEq, Repr

inductive AskForApproval where
  | unlessTrusted
  | onFailure
  | onRequest
  | granular
  | never
  deriving DecidableEq, Repr

structure TurnContext where
  permissionProfile : PermissionProfile
  approvalPolicy : AskForApproval
  routesToGuardian : Bool

inductive PermissionRequestDecision where
  | allow
  | deny (message : Text)

inductive ReviewDecision where
  | approved
  | approvedExecpolicyAmendment
  | approvedForSession
  | networkPolicyAmendment (allow : Bool)
  | denied
  | timedOut
  | abort

/-- What the session answers to the await that is over. -/
structure SessionAnswer where
  turnContext : Option TurnContext
  hookDecision : Option PermissionRequestDecision
  approvalDecision : ReviewDecision
  rejectionMessage : Text

/-- What is done after an await whose answer decides nothing. `session` is an amendment that
is persisted, or the message or warning about it. -/
inductive Action where
  | session
  | recordCallOutcome (registrationId : Text) (outcome : NetworkApprovalOutcome)
  | removeDenied
  | insertApproved
  | removeApproved
  | insertDenied

def Action.run (key : HostApprovalKey) (service : NetworkApprovalService) :
    Action → NetworkApprovalService
  | .session => service
  | .recordCallOutcome registrationId outcome =>
    { service with calls := service.calls.recordCallOutcome registrationId outcome }
  | .removeDenied =>
    { service with sessionDeniedHosts := service.sessionDeniedHosts.erase key }
  | .insertApproved =>
    { service with sessionApprovedHosts := insert key service.sessionApprovedHosts }
  | .removeApproved =>
    { service with sessionApprovedHosts := service.sessionApprovedHosts.erase key }
  | .insertDenied =>
    { service with sessionDeniedHosts := insert key service.sessionDeniedHosts }

/-- The await a call is suspended at. `act` sets the decision once the actions are done;
`remove` takes the entry out of the map; `report` and `record` are
`record_outcome_for_single_active_call`. -/
inductive Stage where
  | checkDenied
  | checkApproved
  | getOrCreate
  | waitForDecision (approval : Nat)
  | activeTurn (approval : Nat)
  | resolveOwner (approval : Nat) (turn : TurnContext)
  | hooks (approval : Nat) (turn : TurnContext) (owner : Option Text)
  | review (approval : Nat) (turn : TurnContext) (owner : Option Text)
  | rejection (approval : Nat) (owner : Text)
  | act (approval : Nat) (actions : List Action) (resolved : PendingApprovalDecision)
      (outcome : Option NetworkApprovalOutcome)
  | remove (approval : Nat) (resolved : PendingApprovalDecision)
      (outcome : Option NetworkApprovalOutcome)
  | report (outcome : NetworkApprovalOutcome)
  | record (registrationId : Text) (outcome : NetworkApprovalOutcome)

structure Call where
  request : NetworkPolicyRequest
  stage : Stage

open Call
variable (call : Call)

def Call.key : HostApprovalKey := .fromRequest call.request

def Call.policyDenialMessage : Text :=
  "Network access to \"".toList ++ call.key.protocol ++ "://".toList ++ call.request.host ++
    ":".toList ++ (Nat.repr call.key.port.toNat).toList ++ "\" was blocked by policy.".toList

def recordFor (owner : Option Text) (outcome : NetworkApprovalOutcome) : List Action :=
  owner.toList.map (.recordCallOutcome · outcome)

def guardianTimeoutMessage : Text :=
  ("The automatic permission approval review did not finish before its deadline. " ++
    "Do not assume the action is unsafe based on the timeout alone. " ++
    "You may retry once, or ask the user for guidance or explicit approval.").toList

/-- From the review to `set_decision`. -/
def afterReview (approval : Nat) (turn : TurnContext) (owner : Option Text) : ReviewDecision → Stage
  | .approved | .approvedExecpolicyAmendment => .act approval [] .allowOnce none
  | .approvedForSession => .act approval [.removeDenied, .insertApproved] .allowForSession none
  | .networkPolicyAmendment true =>
    .act approval [.session, .session, .removeDenied, .insertApproved] .allowForSession none
  | .networkPolicyAmendment false =>
    .act approval
      ([.session, .session] ++ recordFor owner .deniedByUser ++ [.removeApproved, .insertDenied])
      .deny none
  | .denied | .abort =>
    match turn.routesToGuardian, owner with
    | true, some owner => .rejection approval owner
    | _, owner => .act approval (recordFor owner .deniedByUser) .deny none
  | .timedOut =>
    .act approval (recordFor owner (.deniedByPolicy guardianTimeoutMessage)) .deny none

inductive Poll where
  | pending (stage : Stage)
  | ready (decision : NetworkDecision)

/-- The call after a poll; a call that is ready is over. -/
def Poll.call? : Poll → Option Call
  | .pending stage => some { call with stage }
  | .ready _ => none

/-- `handle_inline_policy_request` from one await to the next. -/
def Call.poll (caller : Nat) (answer : SessionAnswer)
    (service : NetworkApprovalService) : Poll × NetworkApprovalService :=
  match call.stage with
  | .checkDenied =>
    (if call.key ∈ service.sessionDeniedHosts then .ready (.deny reasonNotAllowed)
      else .pending .checkApproved, service)
  | .checkApproved =>
    (if call.key ∈ service.sessionApprovedHosts then .ready .allow else .pending .getOrCreate,
      service)
  | .getOrCreate =>
    let (approval, isOwner, service) := service.getOrCreatePendingApproval caller call.key
    (.pending (if isOwner then .activeTurn approval else .waitForDecision approval), service)
  | .waitForDecision approval =>
    (match (service.approvals[approval]?).bind PendingHostApproval.decision with
      | some decision => .ready decision.toNetworkDecision
      | none => .pending call.stage, service)
  | .activeTurn approval =>
    -- the approval flow needs a turn, a managed profile and a policy that asks
    (.pending (match answer.turnContext with
      | some turn =>
        if turn.permissionProfile = .managed ∧ turn.approvalPolicy ≠ .never then
          .resolveOwner approval turn
        else .act approval [] .deny (some (.deniedByPolicy call.policyDenialMessage))
      | none => .act approval [] .deny (some (.deniedByPolicy call.policyDenialMessage))), service)
  | .resolveOwner approval turn =>
    (.pending (.hooks approval turn service.calls.resolveSingleActiveCall), service)
  | .hooks approval turn owner =>
    (.pending (match answer.hookDecision with
      | some .allow => .act approval [] .allowOnce none
      | some (.deny message) =>
        .act approval (recordFor owner (.deniedByPolicy message)) .deny none
      | none => .review approval turn owner), service)
  | .review approval turn owner =>
    (.pending (afterReview approval turn owner answer.approvalDecision), service)
  | .rejection approval owner =>
    (.pending (.act approval (recordFor (some owner) (.deniedByPolicy answer.rejectionMessage))
      .deny none), service)
  | .act approval (action :: actions) resolved outcome =>
    (.pending (.act approval actions resolved outcome), action.run call.key service)
  | .act approval [] resolved outcome =>
    (.pending (.remove approval resolved outcome),
      { service with
        approvals := service.approvals.modify approval ({ · with decision := some resolved }) })
  | .remove _ resolved outcome =>
    (match outcome with
      | some outcome => .pending (.report outcome)
      | none => .ready resolved.toNetworkDecision,
      { service with pendingHostApprovals := service.pendingHostApprovals.erase call.key })
  | .report outcome =>
    (match service.calls.resolveSingleActiveCall with
      | some owner => .pending (.record owner outcome)
      | none => .ready (.deny reasonNotAllowed), service)
  | .record registrationId outcome =>
    (.ready (.deny reasonNotAllowed),
      { service with calls := service.calls.recordCallOutcome registrationId outcome })

/-! ## Interleavings -/

structure System where
  service : NetworkApprovalService
  running : Nat → Option Call
  started : Nat

open NetworkApproval.System
def System.new : System where
  service :=
    { calls := ⟨[], ∅, []⟩
      approvals := []
      pendingHostApprovals := ∅
      sessionApprovedHosts := ∅
      sessionDeniedHosts := ∅ }
  running _ := none
  started := 0

/-- `session` is what the rest of the session does to the service: calls are registered and
unregistered, outcomes recorded, approved hosts synchronized. -/
inductive Event where
  | request (request : NetworkPolicyRequest)
  | poll (caller : Nat) (answer : SessionAnswer)
  | drop (caller : Nat)
  | session (calls : NetworkApprovalCallState) (approved : Finset HostApprovalKey)

def System.step (system : System) : Event → System
  | .request request =>
    { system with
      running := update system.running system.started (some ⟨request, .checkDenied⟩)
      started := system.started + 1 }
  | .poll caller answer =>
    match system.running caller with
    | none => system
    | some call =>
      let (poll, service) := call.poll caller answer system.service
      { system with service, running := update system.running caller (poll.call? call) }
  | .drop caller => { system with running := update system.running caller none }
  | .session calls approved =>
    { system with service := { system.service with calls, sessionApprovedHosts := approved } }

def System.run (system : System) (events : List Event) : System := events.foldl step system

/-- Every undecided entry, in the map or waited for, was made by a call that is running. -/
structure System.Attended (system : System) : Prop where
  pending : ∀ key i approval, system.service.pendingHostApprovals.lookup key = some i →
    system.service.approvals[i]? = some approval → approval.decision = none →
      (system.running approval.creator).isSome
  waiting : ∀ caller call i approval, system.running caller = some call →
    call.stage = .waitForDecision i → system.service.approvals[i]? = some approval →
      approval.decision = none → (system.running approval.creator).isSome

/-! ## The board -/

/-- What a call has to do with the entries. -/
inductive Role where
  | none
  | waits (approval : Nat)
  | decides (approval : Nat)
  | removes (approval : Nat)
  deriving DecidableEq

def Stage.role : Stage → Role
  | .checkDenied | .checkApproved | .getOrCreate | .report _ | .record _ _ => .none
  | .waitForDecision i => .waits i
  | .activeTurn i | .resolveOwner i _ | .hooks i _ _ | .review i _ _ | .rejection i _ => .decides i
  | .act i _ _ _ => .decides i
  | .remove i _ _ => .removes i

structure Board where
  approvals : List PendingHostApproval
  pending : HashMap HostApprovalKey Nat
  roles : Nat → Option (HostApprovalKey × Role)

def Call.place : HostApprovalKey × Role := (call.key, call.stage.role)

def System.board (system : System) : Board where
  approvals := system.service.approvals
  pending := system.service.pendingHostApprovals
  roles := Option.map place ∘ system.running

/-- The call has made its entry and has not set the decision yet. -/
def System.Deciding (system : System) (caller : Nat) : Prop :=
  ∃ key i, system.board.roles caller = some (key, .decides i)

/-- A call leaves the entries alone from now on. -/
def Rests (place : Option (HostApprovalKey × Role)) : Prop :=
  ∀ key role, place = some (key, role) → role = .none

inductive Move (board : Board) : Board → Prop where
  | stay : Move board board
  | rest (caller : Nat) {place : Option (HostApprovalKey × Role)} (hPlace : Rests place)
      (hNot : ∀ key i, board.roles caller ≠ some (key, .decides i)) :
      Move board { board with roles := update board.roles caller place }
  | join {caller i : Nat} {key : HostApprovalKey} (h : board.roles caller = some (key, .none))
      (hEntry : board.pending.lookup key = some i) :
      Move board { board with roles := update board.roles caller (some (key, .waits i)) }
  | publish {caller : Nat} {key : HostApprovalKey} (h : board.roles caller = some (key, .none))
      (hNone : board.pending.lookup key = none) :
      Move board
        { approvals := board.approvals ++ [{ creator := caller, decision := none }]
          pending := board.pending.insert key board.approvals.length
          roles := update board.roles caller
            (some (key, .decides board.approvals.length)) }
  | decide {caller i : Nat} {key : HostApprovalKey} (h : board.roles caller = some (key, .decides i))
      (resolved : PendingApprovalDecision) :
      Move board
        { board with
          approvals := board.approvals.modify i ({ · with decision := some resolved })
          roles := update board.roles caller (some (key, .removes i)) }
  | remove {caller i : Nat} {key : HostApprovalKey} (h : board.roles caller = some (key, .removes i))
      {place : Option (HostApprovalKey × Role)} (hPlace : Rests place) :
      Move board
        { board with
          pending := board.pending.erase key
          roles := update board.roles caller place }

/-- Who decides an entry finds it in the map, undecided, and the other way round. -/
structure Inv (board : Board) : Prop where
  decides : ∀ {caller key i}, board.roles caller = some (key, .decides i) →
    board.pending.lookup key = some i ∧ board.approvals[i]? = some ⟨caller, none⟩
  removes : ∀ {caller key i}, board.roles caller = some (key, .removes i) →
    board.pending.lookup key = some i ∧ ∃ resolved, board.approvals[i]? = some ⟨caller, some resolved⟩
  undecided : ∀ {key i caller}, board.pending.lookup key = some i →
    board.approvals[i]? = some ⟨caller, none⟩ → board.roles caller = some (key, .decides i)
  waits : ∀ {caller key i creator}, board.roles caller = some (key, .waits i) →
    board.approvals[i]? = some ⟨creator, none⟩ → board.pending.lookup key = some i
  made : ∀ {key i}, board.pending.lookup key = some i → i < board.approvals.length
  joined : ∀ {caller key i}, board.roles caller = some (key, .waits i) → i < board.approvals.length

variable {board board' : Board} {caller i : Nat} {key : HostApprovalKey} {system : System}

theorem Inv.move (h : Inv board) (hMove : Move board board') : Inv board' := by
  obtain ⟨hDecides, hRemoves, hUndecided, hWaits, hMade, hJoined⟩ := h
  cases hMove with
  | stay => exact ⟨hDecides, hRemoves, hUndecided, hWaits, hMade, hJoined⟩
  | rest caller hPlace hNot =>
    unfold Rests at hPlace
    constructor <;> grind [update_apply]
  | join hRole hEntry => constructor <;> grind [update_apply]
  | publish hRole hNone =>
    -- the new number is in use nowhere, and the key was free
    constructor <;> grind [HashMap.lookup_insert]
  | @decide caller i key hRole resolved =>
    -- only the entry of the caller changes, and nobody else decides that one
    obtain ⟨hEntry, hNone⟩ := hDecides hRole
    have hOther : ∀ j ≠ i, (board.approvals.modify i ({ · with decision := some resolved }))[j]? =
        board.approvals[j]? := fun j hj => by simp [hj.symm]
    constructor <;> grind [update_apply]
  | remove hRole hPlace =>
    -- what is removed is decided, so nobody decides it
    unfold Rests at hPlace
    constructor <;> grind [HashMap.lookup_erase]

theorem Inv.attended (h : Inv system.board) : system.Attended := by
  have hRuns : ∀ {creator key i}, system.board.roles creator = some (key, .decides i) →
      (system.running creator).isSome := by
    intro creator key i hRole
    obtain ⟨call, hCall, -⟩ := Option.map_eq_some_iff.mp hRole
    rw [hCall]
    rfl
  constructor
  · rintro key i ⟨creator, decision⟩ hEntry hAt rfl
    exact hRuns (h.undecided hEntry hAt)
  rintro caller call i ⟨creator, decision⟩ hCall hStage hAt rfl
  have hRole : system.board.roles caller = some (call.key, .waits i) := by
    show (system.running caller).map place = _
    rw [hCall, Option.map_some, place, hStage]
    rfl
  exact hRuns (h.undecided (h.waits hRole hAt) hAt)

/-! ## Events are moves -/

theorem board_update (caller : Nat) (call : Option Call) :
    ({ system with service, running := update system.running caller call } : System).board =
      { approvals := service.approvals
        pending := service.pendingHostApprovals
        roles := update system.board.roles caller (call.map place) } := by
  unfold board
  rw [comp_update]

theorem role_afterReview (turn : TurnContext) (owner : Option Text) (decision : ReviewDecision) :
    (afterReview i turn owner decision).role = .decides i := by
  obtain ⟨profile, policy, routesToGuardian⟩ := turn
  cases decision with
  | networkPolicyAmendment allow => cases allow <;> rfl
  | denied | abort => cases routesToGuardian <;> cases owner <;> rfl
  | _ => rfl

theorem rests_ready {call : Call} {decision : NetworkDecision} :
    Rests (((Poll.ready decision).call? call).map place) := by
  intro key role h
  cases h

theorem move_poll (system : System) (caller : Nat) (answer : SessionAnswer) :
    Move system.board (system.step (.poll caller answer)).board := by
  rcases hCall : system.running caller with _ | call
  · simp only [System.step, hCall]
    exact .stay
  obtain ⟨request, stage⟩ := call
  simp only [System.step, hCall, board_update]
  have hRole : system.board.roles caller = some (.fromRequest request, stage.role) :=
    congrArg (Option.map place) hCall
  -- another stage of the same role is no move
  have hSame : ∀ stage' : Stage, stage'.role = stage.role → Move system.board
      { system.board with
        roles := update system.board.roles caller (some (.fromRequest request, stage'.role)) } := by
    intro stage' hEq
    rw [hEq, ← hRole, update_eq_self]
    exact .stay
  have hRest : stage.role = .none ∨ (∃ i, stage.role = .waits i) →
      ∀ {place}, Rests place → Move system.board
        { system.board with roles := update system.board.roles caller place } := by
    intro hStage place hPlace
    refine .rest caller hPlace fun key i hDecides => ?_
    rw [hRole] at hDecides
    rcases hStage with hStage | ⟨j, hStage⟩ <;> rw [hStage] at hDecides <;> cases hDecides
  cases stage with
  | checkDenied =>
    simp only [poll]
    split
    · exact hRest (.inl rfl) rests_ready
    · exact hSame .checkApproved rfl
  | checkApproved =>
    simp only [poll]
    split
    · exact hRest (.inl rfl) rests_ready
    · exact hSame .getOrCreate rfl
  | getOrCreate =>
    cases hEntry : system.service.pendingHostApprovals.lookup (.fromRequest request) with
    | some existing =>
      simp only [poll, NetworkApprovalService.getOrCreatePendingApproval, key, hEntry]
      exact .join hRole hEntry
    | none =>
      simp only [poll, NetworkApprovalService.getOrCreatePendingApproval, key, hEntry]
      exact .publish hRole hEntry
  | waitForDecision i =>
    simp only [poll]
    split
    · exact hRest (.inr ⟨i, rfl⟩) rests_ready
    · exact hSame _ rfl
  | activeTurn i =>
    refine hSame _ ?_
    split
    · split <;> rfl
    · rfl
  | resolveOwner i turn => exact hSame (.hooks i turn _) rfl
  | hooks i turn owner =>
    refine hSame _ ?_
    split <;> rfl
  | review i turn owner => exact hSame _ (role_afterReview turn owner _)
  | rejection i owner => exact hSame (.act i _ .deny none) rfl
  | act i actions resolved outcome =>
    cases actions with
    | nil => exact .decide hRole resolved
    | cons action actions =>
      cases action <;> exact hSame (.act i actions resolved outcome) rfl
  | remove i resolved outcome =>
    refine .remove hRole fun key role h => ?_
    cases outcome <;> cases h
    rfl
  | report outcome =>
    simp only [poll]
    split
    · exact hSame (.record _ outcome) rfl
    · exact hRest (.inl rfl) rests_ready
  | record registrationId outcome => exact hRest (.inl rfl) rests_ready

/-! ## Runs -/

/-- The event drops a call that decides. -/
def Abandons (system : System) (event : Event) : Prop :=
  ∃ caller, event = .drop caller ∧ system.Deciding caller

/-- Calls are numbered in the order they start. -/
def System.Fresh (system : System) : Prop :=
  ∀ caller, system.started ≤ caller → system.running caller = none

theorem System.Fresh.step (h : system.Fresh) (event : Event) : (system.step event).Fresh := by
  unfold Fresh at h
  intro other hLe
  cases event with
  | poll caller answer =>
    cases hCall : system.running caller <;> simp only [System.step, hCall] at hLe ⊢ <;>
      grind [update_apply]
  | _ =>
    simp only [System.step] at hLe ⊢
    grind [update_apply]

variable {event : Event} {events : List Event} {request : NetworkPolicyRequest}

theorem Inv.step (h : Inv system.board) (hFresh : system.Fresh) (hNot : ¬Abandons system event) :
    Inv (system.step event).board := by
  cases event with
  | request request =>
    refine h.move ?_
    refine (board_update system.service system.started _).symm ▸ .rest _ ?_ fun key i hDecides => ?_
    · intro key role hPlace
      cases hPlace
      rfl
    · have hNone : system.board.roles system.started = none :=
        congrArg (Option.map _) (hFresh _ (Nat.le_refl _))
      rw [hNone] at hDecides
      cases hDecides
  | poll caller answer => exact h.move (move_poll system caller answer)
  | drop caller =>
    refine h.move ?_
    simp only [System.step, board_update]
    refine .rest caller (fun key role hNone => nomatch hNone) fun key i hDecides => ?_
    exact hNot ⟨caller, rfl, key, i, hDecides⟩
  | session calls approved => exact h

/-- Dropped while it decides, a call leaves its entry behind. -/
theorem Inv.not_attended (h : Inv system.board) (hDrop : Abandons system event) :
    ¬(system.step event).Attended := by
  obtain ⟨caller, rfl, key, i, hRole⟩ := hDrop
  obtain ⟨hEntry, hAt⟩ := h.decides hRole
  intro hAttended
  have hRuns := hAttended.pending key i _ hEntry hAt rfl
  have hGone : (system.step (.drop caller)).running caller = none := update_self ..
  rw [hGone] at hRuns
  cases hRuns

def System.Sound (system : System) : Prop := Inv system.board ∧ system.Fresh

theorem sound_new : new.Sound := by
  refine ⟨?_, fun _ _ => rfl⟩
  constructor <;> intros <;> simp_all [new, board]

theorem System.Sound.step (h : system.Sound) (hNot : ¬Abandons system event) :
    (system.step event).Sound :=
  ⟨h.1.step h.2 hNot, h.2.step event⟩

theorem sound_run (h : ¬Runs.Meets System.step Abandons new events) :
    (new.run events).Sound :=
  Runs.inv_of_not_meets Sound sound_new (fun _ _ => Sound.step) h

/-- **Network approvals.** In every state of a run each undecided entry was made by a call
that is still running, exactly when no event of the run drops a call that has published its
entry and not set the decision yet. -/
theorem attended_iff (events : List Event) :
    (∀ seen, seen <+: events → (new.run seen).Attended) ↔
      ¬Runs.Meets System.step Abandons new events :=
  Runs.good_throughout_iff Sound sound_new (fun _ _ => Sound.step)
    (fun _ h => h.1.attended) fun _ _ h hDrop => h.1.not_attended hDrop

/-- Two requests for one host. The client of the first disconnects right after its entry was
published, and the second waits for a decision that no call will make. -/
theorem abandoned_entry :
    let request : NetworkPolicyRequest := ⟨.https, "example.com".toList, 443⟩
    let answer : SessionAnswer := ⟨none, none, .denied, []⟩
    let system := new.run
      [.request request, .poll 0 answer, .poll 0 answer, .poll 0 answer, .drop 0,
        .request request, .poll 1 answer, .poll 1 answer, .poll 1 answer, .poll 1 answer]
    system.service.pendingHostApprovals.lookup (.fromRequest request) = some 0 ∧
      system.service.approvals = [⟨0, none⟩] ∧ system.running 0 = none ∧
      system.running 1 = some ⟨request, .waitForDecision 0⟩ ∧ ¬system.Attended :=
  ⟨rfl, rfl, rfl, rfl, fun h => nomatch h.waiting 1 _ 0 _ rfl rfl rfl rfl⟩

/-! ## Decisions for the session -/

/-- The two caches of a service, in the order in which a call looks into them. -/
inductive Cache where
  | denied
  | approved

def NetworkApprovalService.cached : Cache → Finset HostApprovalKey
  | .denied => service.sessionDeniedHosts
  | .approved => service.sessionApprovedHosts

/-- Where a call stands before and after it looks into the cache. -/
def Cache.before : Cache → Stage
  | .denied => .checkDenied
  | .approved => .checkApproved

def Cache.after : Cache → Stage
  | .denied => .checkApproved
  | .approved => .getOrCreate

/-- The call has made an entry for the key and not taken it out yet. -/
def System.Owns (system : System) (caller : Nat) (key : HostApprovalKey) : Prop :=
  ∃ i, system.board.roles caller = some (key, .decides i) ∨
    system.board.roles caller = some (key, .removes i)

/-- With its next poll the call makes an entry for its key. -/
def System.Creates (system : System) (caller : Nat) (request : NetworkPolicyRequest) : Prop :=
  system.running caller = some ⟨request, .getOrCreate⟩ ∧
    system.service.pendingHostApprovals.lookup (.fromRequest request) = none

structure DecidedOnce (events : List Event) : Prop where
  single : (∀ caller, .drop caller ∉ events) → ∀ seen, seen <+: events → ∀ key first second,
    (new.run seen).Owns first key → (new.run seen).Owns second key → first = second
  final : ∀ seen caller answer request, seen ++ [.poll caller answer] <+: events →
    (new.run seen).Creates caller request →
      ∀ cache, .fromRequest request ∉ (new.run seen).service.cached cache

/-- A call makes an entry for a key that was put into a cache since it looked there. -/
def Overtaken (events : List Event) : Prop :=
  ∃ looked seen caller answer request cache, looked <+: seen ∧
    seen ++ [.poll caller answer] <+: events ∧
    (new.run looked).running caller = some ⟨request, cache.after⟩ ∧
    .fromRequest request ∉ (new.run looked).service.cached cache ∧
    (new.run seen).Creates caller request ∧
    .fromRequest request ∈ (new.run seen).service.cached cache

/-- The call has looked into the cache and is still on the way to its entry. -/
def Cache.Past (cache : Cache) (stage : Stage) : Prop := stage = cache.after ∨ stage = .getOrCreate

/-- The event puts the key of a call into a cache that the call is past. -/
def PutsPast (system : System) (event : Event) : Prop :=
  ∃ caller request stage cache, system.running caller = some ⟨request, stage⟩ ∧ cache.Past stage ∧
    .fromRequest request ∉ system.service.cached cache ∧
    .fromRequest request ∈ (system.step event).service.cached cache

/-- A call gets past a cache only by not finding its key there. -/
theorem step_after (cache : Cache)
    (h : (system.step event).running caller = some ⟨request, cache.after⟩) :
    system.running caller = some ⟨request, cache.after⟩ ∨
      system.running caller = some ⟨request, cache.before⟩ ∧
        .fromRequest request ∉ (system.step event).service.cached cache := by
  cases event with
  | poll other answer =>
    rcases hCall : system.running other with _ | call
    · exact .inl (by simpa [System.step, hCall] using h)
    simp only [System.step, hCall] at h ⊢
    by_cases hOther : caller = other
    · obtain ⟨request', stage⟩ := call
      cases cache <;> cases stage <;> grind [poll, key, Poll.call?, Cache.after,
        Cache.before, NetworkApprovalService.cached, role_afterReview, Stage.role]
    · rw [update_of_ne hOther] at h
      exact .inl h
  | session calls approved => exact .inl h
  | _ =>
    simp only [System.step] at h
    cases cache <;> grind [Cache.after]

/-- What stands past a cache has looked into it. -/
theorem exists_look (cache : Cache)
    (h : (new.run events).running caller = some ⟨request, cache.after⟩) :
    ∃ looked, looked <+: events ∧
      (new.run looked).running caller = some ⟨request, cache.after⟩ ∧
      .fromRequest request ∉ (new.run looked).service.cached cache ∧
      ∃ earlier, earlier <+: looked ∧
        (new.run earlier).running caller = some ⟨request, cache.before⟩ := by
  induction events using List.reverseRecOn with
  | nil => cases h
  | append_singleton events event ih =>
    have hRun : new.run (events ++ [event]) = (new.run events).step event :=
      List.foldl_concat ..
    rcases step_after cache (hRun ▸ h) with hStood | ⟨hBefore, hNot⟩
    · obtain ⟨looked, hLooked, hRest⟩ := ih hStood
      exact ⟨looked, hLooked.trans (List.prefix_append _ _), hRest⟩
    · exact ⟨_, List.prefix_rfl, h, hRun ▸ hNot, events, List.prefix_append _ _, hBefore⟩

theorem step_past {cache : Cache} {stage : Stage} (hPast : cache.Past stage)
    (h : (system.step event).running caller = some ⟨request, stage⟩) :
    (∃ stage', system.running caller = some ⟨request, stage'⟩ ∧ cache.Past stage') ∨
      .fromRequest request ∉ (system.step event).service.cached cache := by
  rcases hPast with rfl | rfl
  · exact (step_after _ h).imp (⟨_, ·, .inl rfl⟩) And.right
  · rcases step_after .approved h with hStood | ⟨hBefore, hNot⟩
    · exact .inl ⟨_, hStood, .inr rfl⟩
    · -- at the second look a call is past the first cache
      cases cache with
      | denied => exact .inl ⟨_, hBefore, .inl rfl⟩
      | approved => exact .inr hNot

/-- If no event puts its key there, what is past a cache does not have its key in it. -/
theorem not_cached_of_past (hNone : ¬Runs.Meets System.step PutsPast new events) :
    ∀ caller request stage cache, (new.run events).running caller = some ⟨request, stage⟩ →
      cache.Past stage → .fromRequest request ∉ (new.run events).service.cached cache := by
  refine Runs.inv_of_not_meets (fun system : System => ∀ caller request stage cache,
    system.running caller = some ⟨request, stage⟩ → cache.Past stage →
      .fromRequest request ∉ system.service.cached cache) (fun _ _ _ _ h => by cases h) ?_ hNone
  intro system event hInv hEvent caller request stage cache h hPast hCached
  rcases step_past hPast h with ⟨stage', hStood, hPast'⟩ | hNot
  · exact hEvent ⟨caller, request, stage', cache, hStood, hPast',
      hInv caller request stage' cache hStood hPast', hCached⟩
  · exact hNot hCached

/-- **Network decisions.** In a run that drops no call each key has one call at a time that has
made an entry, and no entry is made for a key that is in a cache, exactly when no call is
overtaken by a decision for its key between its look into a cache and its entry. That is so if no
event puts a key into a cache which a call for the key is past. -/
theorem decidedOnce_iff (events : List Event) : (DecidedOnce events ↔ ¬Overtaken events) ∧
    (¬Runs.Meets System.step PutsPast new events → DecidedOnce events) := by
  suffices h : DecidedOnce events ↔ ¬Overtaken events by
    refine ⟨h, fun hNone => h.mpr ?_⟩
    rintro ⟨_, seen, caller, answer, request, cache, -, hSeen, -, -, hCreates, hCached⟩
    have hSeen' := fun hMeets => hNone
      (Runs.Meets.of_isPrefix ((List.prefix_append seen [.poll caller answer]).trans hSeen) hMeets)
    exact not_cached_of_past hSeen' caller request _ cache hCreates.1 (.inr rfl) hCached
  constructor
  · rintro h ⟨looked, seen, caller, answer, request, cache, -, hSeen, -, -, hCreates, hCached⟩
    exact h.final seen caller answer request hSeen hCreates cache hCached
  intro hNone
  constructor
  · intro hDrop seen hSeen key first second ⟨i, hFirst⟩ ⟨j, hSecond⟩
    have hInv : Inv (new.run seen).board := by
      refine (sound_run fun ⟨before, event, after, hEq, caller, hEvent, _⟩ => ?_).1
      exact hDrop caller (hSeen.subset (by simp [hEq, hEvent]))
    -- both find the entry of the key in the map, and the entry names its creator
    have hOwner : ∀ {caller i}, (new.run seen).board.roles caller = some (key, .decides i) ∨
        (new.run seen).board.roles caller = some (key, .removes i) →
        (new.run seen).board.pending.lookup key = some i ∧
          ∃ decision, (new.run seen).board.approvals[i]? = some ⟨caller, decision⟩ := by
      rintro caller i (hRole | hRole)
      · exact ⟨(hInv.decides hRole).1, _, (hInv.decides hRole).2⟩
      · obtain ⟨hEntry, resolved, hAt⟩ := hInv.removes hRole
        exact ⟨hEntry, _, hAt⟩
    grind
  · intro seen caller answer request hSeen hCreates cache hCached
    obtain ⟨looked, hLooked, hAfter, hNot, earlier, hEarlier, hBefore⟩ :=
      exists_look .approved hCreates.1
    cases cache with
    | approved =>
      exact hNone ⟨looked, seen, caller, answer, request, .approved, hLooked, hSeen, hAfter, hNot,
        hCreates, hCached⟩
    | denied =>
      obtain ⟨looked', hLooked', hAfter', hNot', -⟩ := exists_look .denied hBefore
      exact hNone ⟨looked', seen, caller, answer, request, .denied,
        hLooked'.trans (hEarlier.trans hLooked), hSeen, hAfter', hNot', hCreates, hCached⟩

/-- Two requests for one host have looked into the caches. The first is approved for the session;
then the second makes an entry of its own, and the session is asked again. -/
theorem approved_host_asked_again :
    let request : NetworkPolicyRequest := ⟨.https, "example.com".toList, 443⟩
    let answer : SessionAnswer := ⟨some ⟨.managed, .onRequest, false⟩, none, .approvedForSession, []⟩
    let seen := [.request request, .request request, .poll 0 answer, .poll 0 answer, .poll 1 answer,
      .poll 1 answer] ++ List.replicate 9 (.poll 0 answer)
    let system := new.run seen
    system.running 0 = none ∧ .fromRequest request ∈ system.service.sessionApprovedHosts ∧
      (system.step (.poll 1 answer)).running 1 = some ⟨request, .activeTurn 1⟩ ∧
      ¬DecidedOnce (seen ++ [.poll 1 answer]) :=
  ⟨rfl, by decide, rfl, fun h =>
    h.final _ 1 _ ⟨.https, _, 443⟩ List.prefix_rfl ⟨rfl, rfl⟩ .approved (by decide)⟩

end Codex.NetworkApproval
