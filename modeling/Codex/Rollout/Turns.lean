import Codex.Rollout.Reconstruction
import Codex.History.Rollback
import Codex.Lib.UndoLog

/-!
# Codex — rollouts made of complete turns

A `Turn` is what a finished turn leaves in the rollout: its start, the user
message with its event, further items, compactions that carry a replacement
history, and its completion. A log of turns and rollback markers is
an undo log; `rolloutOf` is its persisted form.

`replayFrom` is the forward loop of the reconstruction on bare item lists:
record response items, replace at a compaction, roll back at a marker.
-/

namespace Codex

open UndoLog List ContextManager

/-- A compaction with its replacement history. -/
structure Replacement where
  message : Text
  history : List ResponseItem

/-- What a turn records besides its user message. -/
inductive TurnEntry where
  | response (item : ResponseItem)
  | compaction (replacement : Replacement)

namespace TurnEntry

def isCompaction : TurnEntry → Bool
  | .response _ => false
  | .compaction _ => true

def toRolloutItem : TurnEntry → RolloutItem
  | .response item => .responseItem item
  | .compaction r => .compacted { message := r.message, replacementHistory := some r.history }

end TurnEntry

open TurnEntry
/-- A complete turn. The user message is its only user boundary; a compaction
may come before it or anywhere after it. -/
structure Turn (env : HistoryEnv) where
  turnId : String
  lead : Option Replacement
  user : ResponseItem
  message : Text
  rest : List TurnEntry
  user_boundary : isUserTurnBoundary env user = true
  rest_plain : ∀ item, .response item ∈ rest → isUserTurnBoundary env item = false

variable {env : HistoryEnv}

namespace Turn

/-- The turn's items between its start and its completion. -/
def body (t : Turn env) : List RolloutItem :=
  (t.lead.map fun r => (compaction r).toRolloutItem).toList ++
    .responseItem t.user :: .eventMsg (.userMessage t.message) :: t.rest.map toRolloutItem

def items (t : Turn env) : List RolloutItem :=
  .eventMsg (.turnStarted t.turnId) :: t.body ++ [.eventMsg (.turnComplete t.turnId)]

end Turn

def replacementOf : RolloutItem → Option (List ResponseItem)
  | .compacted c => c.replacementHistory
  | _ => none

/-- The replacement history of the turn's newest compaction. -/
def Turn.compaction (t : Turn env) : Option (List ResponseItem) :=
  t.body.reverse.findSome? replacementOf

/-- The rollout a log of turns and rollback markers leaves. -/
def rolloutOf (log : List (Entry (Turn env))) : List RolloutItem :=
  log.flatMap fun
    | .push t => t.items
    | .rollback n => [.eventMsg (.threadRolledBack n)]

/-- The forward loop on item lists. -/
def replayFrom (env : HistoryEnv) (start : List ResponseItem) (rollout : List RolloutItem) :
    List ResponseItem :=
  (rollout.foldl (replayItem env) ({ new with items := start }, false)).1.items

/-! ## Replaying forward -/

theorem foldl_replayItem_items (rollout : List RolloutItem) (state : ContextManager × Bool) :
    (rollout.foldl (replayItem env) state).1.items = replayFrom env state.1.items rollout := by
  refine foldl_rel (r := fun s s' : ContextManager × Bool => s.1.items = s'.1.items) rfl ?_
  -- the items after a step depend on the items before it alone
  intro item _ state state' h
  cases item with
  | responseItem item =>
    simp only [replayItem, recordItem]
    split <;> simp [h]
  | compacted c =>
    simp only [replayItem]
    split <;> simp [ContextManager.replace, h]
  | eventMsg event =>
    cases event with
    | threadRolledBack n =>
      simp only [replayItem, dropLastNUserTurns, h]
      split
      · exact h
      · split
        · rfl
        · split <;> split <;> simp [ContextManager.replace, h]
    | _ => exact h
  | _ => exact h

variable (start : List ResponseItem) (item : ResponseItem)

theorem replayFrom_append (older newer : List RolloutItem) :
    replayFrom env start (older ++ newer) = replayFrom env (replayFrom env start older) newer := by
  rw [replayFrom, foldl_append, foldl_replayItem_items]
  rfl

theorem replayFrom_cons (item : RolloutItem) (newer : List RolloutItem) :
    replayFrom env start (item :: newer) =
      replayFrom env (replayFrom env start [item]) newer := by
  rw [← replayFrom_append]
  rfl

/-- Nothing before a compaction matters. -/
theorem replayFrom_compacted (older newer : List RolloutItem)
    (message : Text) (history : List ResponseItem) : replayFrom env start
        (older ++ .compacted { message, replacementHistory := some history } :: newer) =
      replayFrom env history newer := by
  rw [replayFrom_append, replayFrom_cons]
  rfl

theorem processItem_boundary :
    isUserTurnBoundary env (processItem env item) = isUserTurnBoundary env item := by
  cases item <;> rfl

/-- A user message is recorded as it is. -/
theorem replayFrom_user {user : ResponseItem} (hUser : isUserTurnBoundary env user = true)
    (start : List ResponseItem) : replayFrom env start [.responseItem user] = start ++ [user] := by
  cases user with
  | message id role content phase =>
    have hRole : role ≠ "system" := by
      rintro rfl
      simp [isUserTurnBoundary] at hUser
    simp [replayFrom, replayItem, recordItem, isApiMessage, hRole, processItem]
  | agentMessage author recipient content => rfl
  | _ => cases hUser

/-- A response item is appended as it was processed, or not at all. -/
theorem replayFrom_response :
    ∃ added, replayFrom env start [.responseItem item] = start ++ added ∧
      ∀ x ∈ added, x = processItem env item := by
  simp only [replayFrom, foldl_cons, replayItem, recordItem]
  split
  · exact ⟨[processItem env item], rfl, fun x hx => mem_singleton.mp hx⟩
  · exact ⟨[], (append_nil start).symm, fun x hx => nomatch hx⟩

/-- Further items of a turn without compaction only append, and add no user
message. -/
theorem replayFrom_rest {rest : List TurnEntry}
    (hPlain : ∀ item, .response item ∈ rest → isUserTurnBoundary env item = false)
    (hNone : ∀ entry ∈ rest, entry.isCompaction = false) (start : List ResponseItem) :
    ∃ tail, replayFrom env start (rest.map toRolloutItem) = start ++ tail ∧
      tail.countP (isUserTurnBoundary env) = 0 := by
  induction rest generalizing start with
  | nil => exact ⟨[], by simp [replayFrom], rfl⟩
  | cons entry rest ih =>
    cases entry with
    | compaction r =>
      have hFalse := hNone (.compaction r) mem_cons_self
      cases hFalse
    | response item =>
      obtain ⟨added, hAdded, hEach⟩ := replayFrom_response start item
      have hAddedCount : added.countP (isUserTurnBoundary env) = 0 := by
        rw [countP_eq_zero]
        intro x hx
        rw [hEach x hx, processItem_boundary, hPlain item mem_cons_self]
        decide
      obtain ⟨tail, hTail, hTailCount⟩ := ih
        (fun i hi => hPlain i (mem_cons_of_mem _ hi))
        (fun e he => hNone e (mem_cons_of_mem _ he)) (start ++ added)
      refine ⟨added ++ tail, ?_, ?_⟩
      · rw [map_cons, replayFrom_cons, toRolloutItem, hAdded, hTail, append_assoc]
      · rw [countP_append, hAddedCount, hTailCount]

/-- **A turn without compaction** appends its user message and items that are no
user messages. -/
theorem replayFrom_turn (t : Turn env) (hNone : t.compaction = none) (start : List ResponseItem) :
    ∃ tail, replayFrom env start t.items = start ++ t.user :: tail ∧
      tail.countP (isUserTurnBoundary env) = 0 := by
  have hBody : ∀ x ∈ t.body, replacementOf x = none := by
    intro x hx
    exact List.findSome?_eq_none_iff.mp hNone x (mem_reverse.mpr hx)
  have hLead : t.lead = none := by
    cases hLead : t.lead with
    | none => rfl
    | some r =>
      have hMem : (compaction r).toRolloutItem ∈ t.body := by simp [Turn.body, hLead]
      cases hBody _ hMem
  have hRest : ∀ entry ∈ t.rest, entry.isCompaction = false := by
    intro entry hEntry
    cases entry with
    | response item => rfl
    | compaction r =>
      have hMem : (compaction r).toRolloutItem ∈ t.body := by
        simp only [Turn.body, mem_append, mem_cons, mem_map]
        exact Or.inr (Or.inr (Or.inr ⟨_, hEntry, rfl⟩))
      cases hBody _ hMem
  obtain ⟨tail, hTail, hCount⟩ := replayFrom_rest t.rest_plain hRest (start ++ [t.user])
  have hEvents : ∀ (h : List ResponseItem) (event : EventMsg) (newer : List RolloutItem),
      (∀ n, event ≠ .threadRolledBack n) →
      replayFrom env h (.eventMsg event :: newer) = replayFrom env h newer := by
    intro h event newer hEvent
    cases event with
    | threadRolledBack n => exact absurd rfl (hEvent n)
    | _ => rfl
  refine ⟨tail, ?_, hCount⟩
  unfold Turn.items Turn.body
  rw [hLead, cons_append, hEvents _ _ _ (by intro n h; cases h)]
  simp only [Option.map_none, Option.toList_none, nil_append, cons_append]
  rw [replayFrom_cons, replayFrom_user t.user_boundary, hEvents _ _ _ (by intro n h; cases h),
    replayFrom_append, hTail, hEvents _ _ _ (by intro n h; cases h)]
  simp [replayFrom]

/-- A turn with a compaction starts over from its replacement history. -/
theorem body_of_compaction {t : Turn env} {history : List ResponseItem}
    (h : t.compaction = some history) : ∃ older message newer, t.body =
        older ++ .compacted { message, replacementHistory := some history } :: newer ∧
      ∀ x ∈ newer, replacementOf x = none := by
  obtain ⟨newest, item, oldest, hRev, hItem, hNone⟩ := List.findSome?_eq_some_iff.mp h
  cases item with
  | compacted c =>
    obtain ⟨message, replacement⟩ := c
    have hReplacement : replacement = some history := hItem
    refine ⟨oldest.reverse, message, newest.reverse, ?_, ?_⟩
    · rw [← reverse_reverse t.body, hRev, hReplacement]
      simp
    · intro x hx
      exact hNone x (mem_reverse.mp hx)
  | _ => cases hItem

end Codex
