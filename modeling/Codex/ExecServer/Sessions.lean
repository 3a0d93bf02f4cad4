import Codex.Lib.Runs

/-!
# Codex — the connection of a session

`SessionRegistry::attach` and `SessionHandle::detach` in
`exec-server/src/server/session_registry.rs`. A step is one access to the registry, to the attachment
of a session or to the notification sender of its process handler. An attach holds the lock of the
registry from its lookup to its end; a detach never takes it. A connection attaches once and may
detach then.

**Result.** `notifies_current_iff`: a session notifies the connection it is attached to exactly when
no earlier detach came to clear the sender after this connection had installed its own.
-/

namespace Codex.ExecSession

open Function

/-- In milliseconds. -/
def detachedSessionTtl : Nat := 10000

/-- A session with its attachment. `sender` is the connection whose sender is installed, `listed`
says that the session is in the registry. -/
structure SessionEntry where
  currentConnectionId : Option Nat
  detachedConnectionId : Option Nat
  detachedExpiresAt : Option Nat
  sender : Option Nat
  listed : Bool

/-- What a connection does next. After its detach, a task lets the session expire. -/
inductive Stage where
  | start
  | check
  | install
  | enter
  | attached
  | clear
  | expire
  | left
  deriving DecidableEq

/-- The stages at which an attach has the lock. -/
@[grind] def Stage.locks : Stage → Bool
  | .check | .install | .enter => true
  | _ => false

namespace SessionEntry

@[grind] def new (me : Nat) : SessionEntry := ⟨some me, none, none, some me, true⟩

@[grind] def attach (entry : SessionEntry) (me : Nat) : SessionEntry :=
  { entry with
    currentConnectionId := some me, detachedConnectionId := none, detachedExpiresAt := none }

@[grind] def detach (entry : SessionEntry) (me now : Nat) : SessionEntry :=
  { entry with
    currentConnectionId := none
    detachedConnectionId := some me
    detachedExpiresAt := some (now + detachedSessionTtl) }

def isExpired (entry : SessionEntry) (now : Nat) : Bool := entry.detachedExpiresAt.any (· ≤ now)

def isDetachedConnectionExpired (entry : SessionEntry) (me now : Nat) : Bool :=
  entry.currentConnectionId.isNone && entry.detachedConnectionId == some me && entry.isExpired now

/-- One step of a connection with its session, which is new or one that it `resumes`. -/
@[grind] def step (entry : SessionEntry) (me now : Nat) (resumes : Bool) : Stage → SessionEntry × Stage
  | .start =>
    if !resumes then (.new me, .attached)
    else if !entry.listed then (entry, .left)
    else if entry.isExpired now then ({ entry with listed := false }, .left)
    else (entry, .check)
  | .check => (entry, if entry.currentConnectionId ≠ none then .left else .install)
  | .install => ({ entry with sender := some me }, .enter)
  | .enter => (entry.attach me, .attached)
  | .attached =>
    if entry.currentConnectionId = some me then (entry.detach me now, .clear) else (entry, .left)
  | .clear => ({ entry with sender := none }, .expire)
  | .expire =>
    ({ entry with listed := entry.listed && !entry.isDetachedConnectionExpired me now }, .left)
  | .left => (entry, .left)

end SessionEntry

/-- `lock` is the attach that has the lock of the registry. -/
structure System where
  entries : Nat → SessionEntry
  lock : Option Nat
  stage : Nat → Stage

/-- A connection goes on at some time. -/
structure Turn where
  connection : Nat
  now : Nat

namespace System

def new : System := ⟨fun _ => ⟨none, none, none, none, false⟩, none, fun _ => .start⟩

/-- The session that a connection asks for, or else its own. -/
def sessionOf (resume : Nat → Option Nat) (connection : Nat) : Nat :=
  (resume connection).getD connection

def step (resume : Nat → Option Nat) (s : System) (turn : Turn) : System :=
  let me := turn.connection
  let stage := s.stage me
  -- a connection that needs the lock waits for it
  if s.lock.isSome ∧ (stage = .start ∨ stage = .expire) then s
  else
    let session := sessionOf resume me
    let (entry, next) := (s.entries session).step me turn.now (resume me).isSome stage
    { entries := update s.entries session entry
      lock := if next.locks then some me else if stage.locks then none else s.lock
      stage := update s.stage me next }

def run (resume : Nat → Option Nat) (turns : List Turn) : System := turns.foldl (step resume) new

/-- No attach and no detach is in progress. -/
def Quiet (s : System) : Prop :=
  ∀ connection, (s.stage connection).locks = false ∧ s.stage connection ≠ .clear

/-- Attached to a connection, a session has its sender, and attached to none it has no sender. -/
def NotifiesCurrent (s : System) : Prop :=
  s.Quiet → ∀ session, (s.entries session).sender = (s.entries session).currentConnectionId

/-- A detach comes to clear the sender of its session when the connection has installed its own: it
is about to enter itself, or attached. -/
def ClearsAfter (resume : Nat → Option Nat) (connection : Nat) (s : System) (turn : Turn) : Prop :=
  s.stage turn.connection = .clear ∧
    sessionOf resume turn.connection = sessionOf resume connection ∧
    (s.stage connection = .enter ∨
      (s.entries (sessionOf resume connection)).currentConnectionId = some connection)

variable {resume : Nat → Option Nat} {s : System} {cleared : Nat → Prop}

/-- `cleared` holds of the connections after whose install a detach came to clear. -/
structure Sound (resume : Nat → Option Nat) (cleared : Nat → Prop) (s : System) : Prop where
  locked : ∀ c, (s.stage c).locks = true → s.lock = some c
  vacant : ∀ c, s.stage c = .install ∨ s.stage c = .enter →
    (s.entries (sessionOf resume c)).currentConnectionId = none
  current : ∀ c session, (s.entries session).currentConnectionId = some c →
    session = sessionOf resume c ∧ s.stage c = .attached
  sender : ∀ c session, (s.entries session).sender = some c → session = sessionOf resume c ∧
    (s.stage c = .enter ∨ (s.entries session).currentConnectionId = some c ∨ s.stage c = .clear)
  fresh : ∀ c, s.stage c = .start ∨ s.stage c = .check ∨ s.stage c = .install →
    ¬cleared c
  kept : ∀ c session, session = sessionOf resume c ∧ s.stage c = .enter ∨
    (s.entries session).currentConnectionId = some c →
      ((s.entries session).sender = some c ↔ ¬cleared c)

theorem Sound.step (h : Sound resume cleared s) (turn : Turn) :
    Sound resume (fun c => cleared c ∨ ClearsAfter resume c s turn) (s.step resume turn) := by
  obtain ⟨hLocked, hVacant, hCurrent, hSender, hFresh, hKept⟩ := h
  unfold System.step ClearsAfter
  dsimp only
  split
  · constructor <;> grind -linarith
  · -- only a detach clears a sender, and it may belong to the connection that came next
    cases hStage : s.stage turn.connection <;> constructor <;> grind -linarith

theorem Sound.run (h : Sound resume cleared s) (turns : List Turn) :
    Sound resume (fun c => cleared c ∨ Runs.Meets (System.step resume) (ClearsAfter resume c) s turns)
      (turns.foldl (System.step resume) s) := by
  induction turns generalizing s cleared with
  | nil => simpa [Runs.not_meets_nil] using h
  | cons turn turns ih => simpa [Runs.meets_cons, or_assoc] using ih (h.step turn)

/-- **A session notifies its connection unless a detach came to clear after its install.** -/
theorem notifies_current_iff (resume : Nat → Option Nat) (turns : List Turn) :
    (run resume turns).NotifiesCurrent ↔ ((run resume turns).Quiet → ∀ session connection,
      ((run resume turns).entries session).currentConnectionId = some connection →
        ¬Runs.Meets (step resume) (ClearsAfter resume connection) new turns) := by
  have hStart : Sound resume (fun _ => False) new := by constructor <;> simp [new, Stage.locks]
  have hSound : Sound resume _ (run resume turns) := hStart.run turns
  simp only [false_or] at hSound
  refine forall_congr' fun hQuiet => forall_congr' fun session => ⟨fun hLaw c hCurrent => ?_, ?_⟩
  · exact (hSound.kept c session (.inr hCurrent)).mp (hLaw.trans hCurrent)
  intro hCleared
  cases hCurrent : ((run resume turns).entries session).currentConnectionId with
  | some c => exact (hSound.kept c session (.inr hCurrent)).mpr (hCleared c hCurrent)
  | none =>
    -- whoever has a sender installed is attached, or in a call
    refine Option.eq_none_iff_forall_ne_some.mpr fun c hSender => ?_
    obtain ⟨-, hStage | hStage | hStage⟩ := hSound.sender c session hSender
    · have hLocks := (hQuiet c).1
      rw [hStage] at hLocks
      cases hLocks
    · cases hCurrent.symm.trans hStage
    · exact (hQuiet c).2 hStage

/-- The first connection begins to detach, the second resumes its session, and the first takes the
sender away. -/
theorem resumed_without_sender :
    let s := run (fun c => if c = 1 then some 0 else none)
      [⟨0, 0⟩, ⟨0, 0⟩, ⟨1, 0⟩, ⟨1, 0⟩, ⟨1, 0⟩, ⟨1, 0⟩, ⟨0, 0⟩]
    (s.entries 0).currentConnectionId = some 1 ∧ (s.entries 0).sender = none ∧
      ¬s.NotifiesCurrent := by
  refine ⟨rfl, rfl, fun h => ?_⟩
  cases h (fun
    | 0 | 1 | _ + 2 => ⟨rfl, nofun⟩) 0

end System
end Codex.ExecSession
