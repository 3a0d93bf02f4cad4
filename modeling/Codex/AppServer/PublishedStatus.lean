import Codex.AppServer.ThreadWatch
import Codex.Std.HashMap

/-!
# Codex — the thread status that is published

`mutate_and_publish` in `app-server/src/thread_status.rs`, for any number of threads and calls. Under
the lock a call changes the facts of its thread and computes what to publish. It sends the count of
running turns, and then its notification, without the lock.

**Result.** `published_current`: if the calls publish in the order in which they took the lock, then
what was published last is true whenever no call is in progress.
-/

namespace Codex.ThreadWatch

open Function

deriving instance DecidableEq for ThreadActiveFlag, ThreadStatus

structure Call where
  threadId : String
  op : Op

/-- The facts of all threads. -/
structure ThreadWatchState where
  runtimeByThreadId : HashMap String RuntimeFacts := ∅

namespace ThreadWatchState

def runningTurnCount (state : ThreadWatchState) : Nat :=
  state.runtimeByThreadId.toPairs.countP (·.2.running)

def statusFor (state : ThreadWatchState) (threadId : String) : Option ThreadStatus :=
  (state.runtimeByThreadId.lookup threadId).map loadedThreadStatus

def loadedStatusForThread (state : ThreadWatchState) (threadId : String) : ThreadStatus :=
  (state.statusFor threadId).getD .notLoaded

def mutate (state : ThreadWatchState) (call : Call) : ThreadWatchState where
  runtimeByThreadId :=
    match call.op.apply (state.runtimeByThreadId.lookup call.threadId) with
    | some facts => state.runtimeByThreadId.insert call.threadId facts
    | none => state.runtimeByThreadId.erase call.threadId

/-- `remove_thread` has a rule of its own, all other changes have `status_changed_notification`. -/
def notification (state : ThreadWatchState) (call : Call) : Option ThreadStatus :=
  let previousStatus := state.statusFor call.threadId
  match call.op with
  | .remove =>
    if previousStatus ≠ none ∧ previousStatus ≠ some .notLoaded then some .notLoaded else none
  | _ =>
    let status := (state.mutate call).statusFor call.threadId
    if previousStatus = status then none else status

variable {state : ThreadWatchState} {call : Call} {threadId : String}

theorem statusFor_mutate : (state.mutate call).statusFor threadId =
    if threadId = call.threadId then
      (call.op.apply (state.runtimeByThreadId.lookup threadId)).map loadedThreadStatus
    else state.statusFor threadId := by
  unfold mutate statusFor
  cases hApply : call.op.apply (state.runtimeByThreadId.lookup call.threadId) <;>
    simp only [HashMap.lookup_insert, HashMap.lookup_erase] <;> grind

/-- Without a notification the status is the same as before. -/
theorem loaded_mutate (h : threadId = call.threadId → state.notification call = none) :
    (state.mutate call).loadedStatusForThread threadId = state.loadedStatusForThread threadId := by
  unfold loadedStatusForThread notification at *
  rw [statusFor_mutate] at *
  cases hOp : call.op <;> simp only [Op.apply] at * <;> grind

/-- A notification states what the status has become. -/
theorem loaded_of_notification {status : ThreadStatus} (h : state.notification call = some status) :
    (state.mutate call).loadedStatusForThread call.threadId = status := by
  unfold loadedStatusForThread notification at *
  rw [statusFor_mutate] at *
  cases hOp : call.op <;> simp only [hOp, Op.apply] at * <;> grind

end ThreadWatchState

/-- What a call does next, with what it computed. -/
inductive Stage where
  | mutate
  | sendCount (count : Nat) (notification : Option ThreadStatus)
  | notify (status : ThreadStatus)
  | returned

/-- The count that the call has yet to send. -/
def Stage.count : Stage → Option Nat
  | .sendCount count _ => some count
  | _ => none

/-- The notification that it has yet to send. -/
def Stage.notification : Stage → Option ThreadStatus
  | .sendCount _ notification => notification
  | .notify status => some status
  | _ => none

/-- `count` and `notified` were sent last. The lock was taken `locks` times, and the `ticket` of a call
is the number at which it took it; `counted` and `told` are the tickets of the calls that sent the
count and the notification. -/
structure Manager where
  state : ThreadWatchState := {}
  stage : Nat → Stage := fun _ => .mutate
  count : Nat := 0
  notified : String → Option ThreadStatus := fun _ => none
  locks : Nat := 0
  ticket : Nat → Nat := fun _ => 0
  counted : Nat := 0
  told : String → Nat := fun _ => 0

namespace Manager

def step (calls : Nat → Call) (s : Manager) (call : Nat) : Manager :=
  let threadId := (calls call).threadId
  match s.stage call with
  | .mutate =>
    let state := s.state.mutate (calls call)
    let notification := s.state.notification (calls call)
    { s with
      state
      stage := update s.stage call (.sendCount state.runningTurnCount notification)
      locks := s.locks + 1
      ticket := update s.ticket call (s.locks + 1) }
  | .sendCount count notification =>
    { s with
      count
      counted := s.ticket call
      stage := update s.stage call ((notification.map .notify).getD .returned) }
  | .notify status =>
    { s with
      notified := update s.notified threadId (some status)
      told := update s.told threadId (s.ticket call)
      stage := update s.stage call .returned }
  | .returned => s

def run (calls : Nat → Call) (turns : List Nat) : Manager := turns.foldl (step calls) {}

/-- The call publishes after one that took the lock later: its count, or its notification for the same
thread. -/
def OutOfOrder (calls : Nat → Call) (s : Manager) (call : Nat) : Prop :=
  match s.stage call with
  | .sendCount .. => s.ticket call ≤ s.counted
  | .notify _ => s.ticket call ≤ s.told (calls call).threadId
  | _ => False

/-- No call is in progress. -/
def Quiet (s : Manager) : Prop := ∀ call, s.stage call = .mutate ∨ s.stage call = .returned

/-- The last notification of the thread, if there was one, states its status. -/
def Notified (s : Manager) (threadId : String) : Prop :=
  ∀ status, s.notified threadId = some status → status = s.state.loadedStatusForThread threadId

def PublishedCurrent (s : Manager) : Prop :=
  s.Quiet → s.count = s.state.runningTurnCount ∧ ∀ threadId, s.Notified threadId

section Settled

variable {α : Type} {ticket ticket' : Nat → Nat} {owed owed' : Nat → Option α} {sent : Nat}
  {current : α} {shown : Prop}

/-- What was sent last is current and no later call has anything to send, or the last call that has
something will send what is current. -/
def Settled (ticket : Nat → Nat) (owed : Nat → Option α) (sent : Nat) (current : α)
    (shown : Prop) : Prop :=
  shown ∧ (∀ call, owed call ≠ none → ticket call ≤ sent) ∨
    ∃ last, owed last = some current ∧ sent < ticket last ∧
      ∀ call, owed call ≠ none → ticket call ≤ ticket last

theorem Settled.keep (h : Settled ticket owed sent current shown) (hOwed : owed' = owed)
    (hTicket : ∀ call, owed call ≠ none → ticket' call = ticket call) :
    Settled ticket' owed' sent current shown := by
  subst hOwed
  unfold Settled at *
  grind

/-- A call that sends after an earlier one is the last one, or there is a later one. -/
theorem Settled.send (h : Settled ticket owed sent current shown) {call : Nat} {value : α}
    (hValue : owed call = some value) (hNext : sent < ticket call)
    (hInj : ∀ other, ticket call = ticket other → call = other)
    (hOwed : owed' = update owed call none) :
    Settled ticket owed' (ticket call) current (value = current) := by
  subst hOwed
  unfold Settled at *
  grind

end Settled

/-- The notification of the thread that a call has yet to send. -/
def owed (calls : Nat → Call) (s : Manager) (threadId : String) (call : Nat) : Option ThreadStatus :=
  if (calls call).threadId = threadId then (s.stage call).notification else none

structure Sound (calls : Nat → Call) (s : Manager) : Prop where
  ticket : ∀ call, s.ticket call ≤ s.locks
  inj : ∀ call other, 0 < s.ticket call → s.ticket call = s.ticket other → call = other
  sent : s.counted ≤ s.locks ∧ ∀ threadId, s.told threadId ≤ s.locks
  count : Settled s.ticket (fun call => (s.stage call).count) s.counted s.state.runningTurnCount
    (s.count = s.state.runningTurnCount)
  status : ∀ threadId, Settled s.ticket (s.owed calls threadId) (s.told threadId)
    (s.state.loadedStatusForThread threadId) (s.Notified threadId)

variable {calls : Nat → Call} {s : Manager}

theorem Sound.step {call : Nat} (h : Sound calls s) (hNext : ¬s.OutOfOrder calls call) :
    Sound calls (s.step calls call) := by
  obtain ⟨hTicket, hInj, hSent, hCount, hStatus⟩ := h
  cases hStage : s.stage call with
  | mutate =>
    -- the call becomes the last one to take the lock, and what it computed is true
    simp only [Manager.step, hStage]
    refine ⟨by grind, by grind, by grind, .inr ⟨call, by simp [Stage.count], by grind, by grind⟩,
      fun threadId => ?_⟩
    by_cases hNote : threadId = (calls call).threadId → s.state.notification (calls call) = none
    · have hKept := ThreadWatchState.loaded_mutate hNote
      simp only [Notified, hKept]
      refine (hStatus threadId).keep ?_ ?_ <;> grind [owed, Stage.notification]
    · obtain ⟨rfl, hSome⟩ := Classical.not_imp.mp hNote
      obtain ⟨status, hSome⟩ := Option.ne_none_iff_exists'.mp hSome
      have hNew := ThreadWatchState.loaded_of_notification hSome
      exact .inr ⟨call, by simp [owed, hNew, hSome, Stage.notification], by grind, by grind⟩
  | sendCount count notification =>
    simp only [OutOfOrder, hStage, not_le] at hNext
    simp only [Manager.step, hStage]
    refine ⟨hTicket, hInj, by grind, ?_, fun threadId => ?_⟩
    · refine hCount.send (by rw [hStage, Stage.count]) hNext (hInj call · (by omega)) ?_
      cases notification <;> grind [Stage.count]
    · refine (hStatus threadId).keep ?_ fun _ _ => rfl
      cases notification <;> grind [owed, Stage.notification]
  | notify status =>
    simp only [OutOfOrder, hStage, not_le] at hNext
    simp only [Manager.step, hStage]
    refine ⟨hTicket, hInj, by grind, hCount.keep (by grind [Stage.count]) fun _ _ => rfl,
      fun threadId => ?_⟩
    by_cases hThread : threadId = (calls call).threadId
    · subst hThread
      have hSend := (hStatus _).send (by rw [owed, if_pos rfl, hStage, Stage.notification]) hNext
        (hInj call · (by omega)) rfl
      simpa [Notified] using hSend.keep (by grind [owed, Stage.notification]) fun _ _ => rfl
    · simpa [Notified, hThread] using (hStatus threadId).keep (by grind [owed]) fun _ _ => rfl
  | returned =>
    simp only [Manager.step, hStage]
    exact ⟨hTicket, hInj, hSent, hCount, hStatus⟩

/-- **Calls that publish in the order in which they took the lock leave nothing stale.** -/
theorem published_current (calls : Nat → Call) (turns : List Nat)
    (hOrder : ¬Runs.Meets (step calls) (OutOfOrder calls) {} turns) :
    (run calls turns).PublishedCurrent := by
  have hNew : Sound calls {} := by
    constructor <;> simp [Settled, owed, Notified, Stage.count, Stage.notification]
    rfl
  have hSound : Sound calls (run calls turns) :=
    Runs.inv_of_not_meets (Sound calls) hNew (fun _ _ => Sound.step) hOrder
  -- no call owes a publication, so the last one has published what it computed
  intro hQuiet
  constructor
  · rcases hSound.count with ⟨hCount, -⟩ | ⟨last, hLast, -⟩
    · exact hCount
    · grind [hQuiet last, Stage.count]
  · intro threadId
    rcases hSound.status threadId with ⟨hStatus, -⟩ | ⟨last, hLast, -⟩
    · exact hStatus
    · grind [hQuiet last, owed, Stage.notification]

/-- A turn starts and completes, and the two calls publish by turns. -/
theorem published_by_turns :
    let calls := fun call => ⟨"a", if call = 0 then .turnStarted else .turnCompleted⟩
    let s := run calls [0, 1, 0, 1, 0, 1]
    s.notified "a" = some .idle ∧ s.PublishedCurrent := by
  refine ⟨rfl, published_current _ _ ?_⟩
  simp only [Runs.meets_cons, Runs.not_meets_nil, not_or]
  exact ⟨id, id, Nat.not_succ_le_zero 0, Nat.not_succ_le_self 1, Nat.not_succ_le_zero 0,
    Nat.not_succ_le_self 1, id⟩

/-- Two calls change the thread, and the first is the last to publish. -/
theorem published_in_reverse :
    let s := run (fun call => ⟨"a", if call = 0 then .turnStarted else .turnCompleted⟩)
      [0, 1, 1, 1, 0, 0]
    s.count = 1 ∧ s.state.runningTurnCount = 0 ∧ s.notified "a" = some (.active []) ∧
      s.state.loadedStatusForThread "a" = .idle ∧ ¬s.PublishedCurrent := by
  refine ⟨rfl, rfl, rfl, rfl, fun h => ?_⟩
  have hCount := (h ?_).1
  · cases hCount
  rintro (_ | _ | call)
  · exact .inr rfl
  · exact .inr rfl
  · exact .inl rfl

end Manager
end Codex.ThreadWatch
