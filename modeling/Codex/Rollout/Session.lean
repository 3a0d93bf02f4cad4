import Codex.Rollout.Uncompacted

/-!
# Codex — a session and its rollout

`record_conversation_items` and `persist_rollout_items` in `core/src/session/mod.rs`,
`thread_rollback` in `core/src/session/handlers.rs`, and `rollout/src/policy.rs`. A rollback does
not cut the history, it rebuilds it from the rollout and the new marker.

**Result.** `resumed_eq_live`, for sessions that are not compacted.
-/

namespace Codex

open List ContextManager

def shouldPersistResponseItem : ResponseItem → Bool
  | .compactionTrigger | .other => false
  | _ => true

/-- Not all of the events that are not told apart are persisted; they replay nothing. -/
def isPersistedRolloutItem : RolloutItem → Bool
  | .responseItem item => shouldPersistResponseItem item
  | _ => true

structure Session where
  history : ContextManager
  rollout : List RolloutItem

inductive SessionEvent where
  | record (items : List ResponseItem)
  | turnContext (item : TurnContextItem)
  | event (event : EventMsg) (hEvent : ∀ numTurns, event ≠ .threadRolledBack numTurns)
  | rollback (numTurns : Nat)

namespace Session

def persistRolloutItems (session : Session) (items : List RolloutItem) : Session :=
  { session with rollout := session.rollout ++ items.filter isPersistedRolloutItem }

variable (env : HistoryEnv) (session : Session)

def threadRollback (numTurns : Nat) : Session :=
  if numTurns = 0 then session
  else
    let marker := RolloutItem.eventMsg (.threadRolledBack numTurns)
    let reconstructed := reconstructHistoryFromRollout env (session.rollout ++ [marker])
    let history := { session.history.replace reconstructed.history with
      referenceContextItem := reconstructed.referenceContextItem }
    persistRolloutItems { session with history } [marker]

def step : SessionEvent → Session
  | .record items =>
    persistRolloutItems { session with history := items.foldl (recordItem env) session.history }
      (items.map .responseItem)
  | .turnContext item => session.persistRolloutItems [.turnContext item]
  | .event event _ => session.persistRolloutItems [.eventMsg event]
  | .rollback numTurns => session.threadRollback env numTurns

variable {env session}

/-- What is not persisted is not recorded either. -/
theorem items_foldl_recordItem (history : ContextManager) (items : List ResponseItem) :
    (items.foldl (recordItem env) history).items =
      replayFrom env history.items ((items.map .responseItem).filter isPersistedRolloutItem) := by
  induction items generalizing history with
  | nil => rfl
  | cons item items ih =>
    rw [foldl_cons, ih, map_cons]
    have hItem : (recordItem env history item).items = _ :=
      foldl_replayItem_items [.responseItem item] (history, false)
    cases item <;> first
      | rfl
      | exact (congrArg (replayFrom env · _) hItem).trans (replayFrom_cons ..).symm

structure Live (env : HistoryEnv) (session : Session) : Prop where
  uncompacted : ∀ item ∈ session.rollout, isCompactedItem item = false
  items : session.history.items = replayFrom env [] session.rollout

/-- The history becomes what the replay of the items makes of it. -/
theorem Live.persist (h : session.Live env) {items : List RolloutItem} {history : ContextManager}
    (hItems : ∀ item ∈ items, isCompactedItem item = false) (hReplay : history.items =
      replayFrom env session.history.items (items.filter isPersistedRolloutItem)) :
    (persistRolloutItems { session with history } items).Live env := by
  refine ⟨forall_mem_append.mpr ⟨h.uncompacted, fun item hMem => ?_⟩, ?_⟩
  · exact hItems item (mem_of_mem_filter hMem)
  · rw [persistRolloutItems, replayFrom_append, ← h.items]
    exact hReplay

theorem Live.threadRollback (h : session.Live env) (numTurns : Nat) :
    let after := session.threadRollback env numTurns
    after.Live env ∧ after.history.items = (session.history.dropLastNUserTurns env numTurns).items := by
  unfold Session.threadRollback
  split
  · next hZero => exact ⟨h, by rw [hZero, dropLastNUserTurns_zero]⟩
  let marker := RolloutItem.eventMsg (.threadRolledBack numTurns)
  have hItem : ∀ item ∈ [marker], isCompactedItem item = false := forall_mem_singleton.mpr rfl
  have hRebuilt : (reconstructHistoryFromRollout env (session.rollout ++ [marker])).history = _ :=
    reconstruct_history_of_uncompacted (forall_mem_append.mpr ⟨h.uncompacted, hItem⟩)
  -- the marker is replayed last, on the history that the session has
  rw [replayFrom_append, ← h.items] at hRebuilt
  exact ⟨h.persist hItem hRebuilt,
    hRebuilt.trans (foldl_replayItem_items [marker] (session.history, false)).symm⟩

theorem Live.step (h : session.Live env) (event : SessionEvent) :
    (session.step env event).Live env := by
  cases event with
  | record items => exact h.persist (forall_mem_map.mpr fun _ _ => rfl) (items_foldl_recordItem _ _)
  | turnContext item => exact h.persist (forall_mem_singleton.mpr rfl) rfl
  | event event hEvent =>
    refine h.persist (forall_mem_singleton.mpr rfl) ?_
    cases event <;> first | rfl | exact absurd rfl (hEvent _)
  | rollback numTurns => exact (h.threadRollback numTurns).1

/-- **Resuming.** Whatever a session has done, its rollout gives back the history it has. A rollback
leaves what cutting off the newest turns would leave. -/
theorem resumed_eq_live (env : HistoryEnv) (events : List SessionEvent) :
    let session := events.foldl (step env) ⟨.new, []⟩
    (reconstructHistoryFromRollout env session.rollout).history = session.history.items ∧
      ∀ numTurns, (session.threadRollback env numTurns).history.items =
        (session.history.dropLastNUserTurns env numTurns).items := by
  intro session
  have hLive : session.Live env :=
    foldlRecOn events (step env) ⟨forall_mem_nil _, rfl⟩ fun _ h event _ => h.step event
  exact ⟨(reconstruct_history_of_uncompacted hLive.uncompacted).trans hLive.items.symm,
    fun numTurns => (hLive.threadRollback numTurns).2⟩

end Session

end Codex
