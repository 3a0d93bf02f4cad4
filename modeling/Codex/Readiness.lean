import Mathlib.Data.BitVec

/-!
# Codex — the readiness flag

`utils/readiness/src/lib.rs`. A step of a call is a load of the flag, a critical section under the
lock of the tokens, or an operation of the watch channel. As specified, `send` changes nothing if the
channel has no receiver, and a new receiver has seen the version it finds.

* `no_wake_up_lost_iff`: a call waits for a change that never comes exactly when it made its
  receiver after the one send, which had found none.
* `answers_right`: what the calls return is right.
-/

namespace Codex.Readiness

abbrev Token := BitVec 32

inductive ReadinessError where
  | tokenLockFailed
  | flagAlreadyReady

inductive Call where
  | subscribe
  | markReady (token : Token)
  | isReady
  | waitReady

inductive Outcome where
  | subscribed (token : Token)
  | marked (marked : Bool)
  | ready (ready : Bool)
  | waited
  | failed (error : ReadinessError)

/-- What a call does next. At `check`, which is `borrow`, and at `changed` it has a receiver that has
seen a version. -/
inductive Place where
  | start
  | lock
  | send
  | loadAgain
  | makeReceiver
  | check (seen : Nat)
  | changed (seen : Nat)
  | returned (outcome : Outcome)

/-- `receivers` are the calls that have a receiver of the channel. -/
structure ReadinessFlag where
  ready : Bool
  nextId : Token
  tokens : List Token
  value : Bool
  version : Nat
  receivers : List Nat

@[grind] def ReadinessFlag.send (flag : ReadinessFlag) : ReadinessFlag :=
  if flag.receivers = [] then flag else { flag with value := true, version := flag.version + 1 }

/-- The loop of `subscribe`: one of these tokens is not in use, unless all are. -/
def ReadinessFlag.drawToken (flag : ReadinessFlag) : Option Token :=
  ((List.range (flag.tokens.length + 2)).map fun i => flag.nextId + BitVec.ofNat 32 i).find?
    fun token => token ≠ 0 ∧ token ∉ flag.tokens

namespace Call

/-- `is_ready` returns, to its caller or to `wait_ready`. -/
@[grind] def isReadyReturns (call : Call) (ready : Bool) : Place :=
  match call with
  | .waitReady => if ready then .returned .waited else .makeReceiver
  | _ => .returned (.ready ready)

@[grind] def load (call : Call) (ready : Bool) : Place :=
  match call with
  | .subscribe => if ready then .returned (.failed .flagAlreadyReady) else .lock
  | .markReady token => if ready ∨ token = 0 then .returned (.marked false) else .lock
  | _ => if ready then call.isReadyReturns true else .lock

@[grind] def critical (call : Call) (flag : ReadinessFlag) : ReadinessFlag × Place :=
  match call with
  | .subscribe =>
    if flag.ready then (flag, .returned (.failed .flagAlreadyReady))
    else
      match flag.drawToken with
      | none => (flag, .lock)
      | some token =>
        ({ flag with nextId := token + 1, tokens := token :: flag.tokens },
          .returned (.subscribed token))
  | .markReady token =>
    if token ∈ flag.tokens then ({ flag with ready := true, tokens := [] }, .send)
    else (flag, .returned (.marked false))
  | _ =>
    if flag.tokens = [] then
      ({ flag with ready := true }, if flag.ready then call.isReadyReturns true else .send)
    else (flag, .loadAgain)

/-- `try_lock` fails, or the wait times out. -/
@[grind] def withoutLock : Call → Place
  | .subscribe | .markReady _ => .returned (.failed .tokenLockFailed)
  | _ => .loadAgain

@[grind] def step (call : Call) (me : Nat) (flag : ReadinessFlag) (free : Bool) :
    Place → ReadinessFlag × Place
  | .start => (flag, call.load flag.ready)
  | .lock => if free then call.critical flag else (flag, call.withoutLock)
  | .send =>
    (flag.send, match call with
      | .markReady _ => .returned (.marked true)
      | call => call.isReadyReturns true)
  | .loadAgain => (flag, call.isReadyReturns flag.ready)
  | .makeReceiver => ({ flag with receivers := me :: flag.receivers }, .check flag.version)
  | .check seen =>
    if flag.value then ({ flag with receivers := flag.receivers.erase me }, .returned .waited)
    else (flag, .changed seen)
  | .changed seen => (flag, if flag.version = seen then .changed seen else .check flag.version)
  | .returned outcome => (flag, .returned outcome)

end Call

/-- `sent` records that the send is over, `late` the calls that made their receiver after it while
the value was not set. -/
structure System where
  flag : ReadinessFlag
  place : Nat → Place
  sent : Bool
  late : Nat → Bool

/-- `free` says whether the call gets the lock if it asks for it. -/
structure Turn where
  caller : Nat
  free : Bool

namespace System

def new : System := ⟨⟨false, 1, [], false, 0, []⟩, fun _ => .start, false, fun _ => false⟩

variable (calls : Nat → Call)

def step (s : System) (turn : Turn) : System :=
  let me := turn.caller
  let (flag, place) := (calls me).step me s.flag turn.free (s.place me)
  { flag
    place := fun caller => if caller = me then place else s.place caller
    sent := s.sent || s.place me matches .send
    late := fun caller =>
      if caller = me ∧ s.place me matches .makeReceiver then s.sent && !s.flag.value
      else s.late caller }

def run (turns : List Turn) : System := turns.foldl (step calls) new

/-- No call of `mark_ready` or `is_ready` is in progress. -/
def Quiet (s : System) : Prop :=
  ∀ caller, s.place caller ≠ .send ∧ s.place caller ≠ .loadAgain ∧
    (s.place caller = .lock → calls caller = .subscribe)

variable {calls} {s : System}

structure Sound (s : System) : Prop where
  tokens : s.flag.ready = true → s.flag.tokens = []
  version : s.flag.value = false ↔ s.flag.version = 0
  pending : s.flag.ready = true → s.sent = false → ∃ caller, s.place caller = .send
  sender : ∀ caller, s.place caller = .send → s.flag.ready = true ∧ s.sent = false ∧
    ∀ other, s.place other = .send → other = caller
  sent : s.sent = true → s.flag.ready = true
  unsent : s.sent = false → s.flag.value = false
  marked : ∀ caller, s.place caller = .returned (.marked true) → s.sent = true ∧
    ∀ other, s.place other = .returned (.marked true) → other = caller
  check : ∀ caller seen, s.place caller = .check seen → caller ∈ s.flag.receivers ∧
    seen ≤ s.flag.version ∧ (s.late caller = true ↔ s.sent = true ∧ s.flag.value = false)
  changed : ∀ caller seen, s.place caller = .changed seen → caller ∈ s.flag.receivers ∧
    seen = 0 ∧ (s.late caller = true ↔ s.sent = true ∧ s.flag.value = false)

theorem Sound.step (h : Sound s) (turn : Turn) : Sound (s.step calls turn) := by
  obtain ⟨hTokens, hVersion, hPending, hSender, hSent, hUnsent, hMarked, hCheck, hChanged⟩ := h
  unfold System.step
  dsimp only
  cases hPlace : s.place turn.caller with
  | start | lock | send | loadAgain =>
    -- what comes next depends on the call
    cases hCall : calls turn.caller <;> dsimp only [Call.step] <;> constructor <;>
      grind -linarith -order
  | _ => constructor <;> grind -linarith -order

/-- **No wake-up is lost.** -/
theorem no_wake_up_lost_iff (calls : Nat → Call) (turns : List Turn) :
    let s := run calls turns
    ((s.flag.ready = true → s.Quiet calls → ∀ caller, s.place caller ≠ .changed s.flag.version) ∧
      ∀ caller other, s.place caller = .returned (.marked true) →
        s.place other = .returned (.marked true) → other = caller) ↔
    (s.flag.ready = true → s.Quiet calls → ∀ caller seen, s.place caller = .changed seen →
      s.late caller = false) := by
  intro s
  have hSound : Sound s :=
    List.foldlRecOn turns (System.step calls) (by constructor <;> simp [new])
      fun _ h turn _ => h.step turn
  constructor
  · rintro ⟨hHeard, -⟩ hReady hQuiet caller seen hChanged
    obtain ⟨-, rfl, hLate⟩ := hSound.changed caller seen hChanged
    refine eq_false_of_ne_true fun hTrue => hHeard hReady hQuiet caller ?_
    rw [hChanged, hSound.version.mp (hLate.mp hTrue).2]
  · intro hLate
    refine ⟨fun hReady hQuiet caller hChanged => ?_, fun caller other hCaller hOther =>
      (hSound.marked caller hCaller).2 other hOther⟩
    obtain ⟨-, hSeen, hIff⟩ := hSound.changed caller _ hChanged
    -- nobody is going to send, so the send is over
    have hSent : s.sent = true := by
      refine eq_true_of_ne_false fun hUnsent => ?_
      obtain ⟨sender, hSender⟩ := hSound.pending hReady hUnsent
      exact (hQuiet sender).1 hSender
    have hTrue := hIff.mpr ⟨hSent, hSound.version.mpr hSeen⟩
    rw [hLate hReady hQuiet caller _ hChanged] at hTrue
    cases hTrue

/-- `wait_ready` has seen that the flag is not set, `mark_ready` sets it and sends to nobody, and
`wait_ready` waits for the next send. -/
theorem wait_ready_never_woken :
    let calls : Nat → Call
      | 0 => .subscribe
      | 1 => .waitReady
      | _ => .markReady 1
    let s := run calls ([0, 0, 1, 1, 1, 2, 2, 2, 1, 1].map (Turn.mk · true))
    s.flag.ready = true ∧ s.Quiet calls ∧ s.place 1 = .changed s.flag.version := by
  refine ⟨rfl, ?_, rfl⟩
  rintro (_ | _ | _ | _) <;> exact ⟨nofun, nofun, nofun⟩

/-! ## What the calls return -/

@[grind →] theorem drawToken_spec {flag : ReadinessFlag} {token : Token}
    (h : flag.drawToken = some token) : token ≠ 0 ∧ token ∉ flag.tokens := by
  simpa using List.find?_some h

structure Honest (s : System) : Prop where
  value : s.flag.value = true → s.flag.ready = true
  sends : ∀ caller, s.place caller = .send → s.flag.ready = true
  answers : ∀ caller outcome, s.place caller = .returned outcome →
    outcome ∈ [.waited, .ready true, .marked true] → s.flag.ready = true
  held : s.flag.ready = false → ∀ caller token, s.place caller = .returned (.subscribed token) →
    token ∈ s.flag.tokens
  once : ∀ caller other token, s.place caller = .returned (.subscribed token) →
    s.place other = .returned (.subscribed token) → token ≠ 0 ∧ other = caller

theorem Honest.step (h : Honest s) (turn : Turn) : Honest (s.step calls turn) := by
  obtain ⟨hValue, hSends, hAnswers, hHeld, hOnce⟩ := h
  unfold System.step
  dsimp only
  cases hPlace : s.place turn.caller with
  | start | lock | send | loadAgain =>
    cases hCall : calls turn.caller <;>
      simp only [Call.step, Call.load, Call.critical, Call.withoutLock, Call.isReadyReturns] <;>
      constructor <;>
      grind -linarith -order -ring
  | _ => constructor <;> grind -linarith -order -ring

/-- **What the calls return.** A call that says that the flag is set is right. Tokens are distinct
and not 0, and outstanding as long as the flag is not set. -/
theorem answers_right (calls : Nat → Call) (turns : List Turn) :
    let s := run calls turns
    (∀ caller, s.place caller = .returned .waited ∨ s.place caller = .returned (.ready true) ∨
        s.place caller = .returned (.marked true) → s.flag.ready = true) ∧
      ∀ caller token, s.place caller = .returned (.subscribed token) →
        token ≠ 0 ∧ (s.flag.ready = false → token ∈ s.flag.tokens) ∧
          ∀ other, s.place other = .returned (.subscribed token) → other = caller := by
  intro s
  have h : Honest s :=
    List.foldlRecOn turns (System.step calls) (by constructor <;> simp [new])
      fun _ h turn _ => h.step turn
  refine ⟨?_, fun caller token hToken => ⟨(h.once _ _ _ hToken hToken).1,
    (h.held · _ _ hToken), fun _ hOther => (h.once _ _ _ hToken hOther).2⟩⟩
  rintro caller (hPlace | hPlace | hPlace) <;> exact h.answers caller _ hPlace (by simp)

end System
end Codex.Readiness
