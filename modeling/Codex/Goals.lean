import Codex.Std.Text
import Mathlib.Logic.Embedding.Basic

/-!
# Codex — the budget of a goal

`state/src/runtime/goals.rs`. Each call of `GoalStore` runs one statement that changes the table,
and that statement is its step here; what the calls read afterwards changes nothing. The table has
one row a thread. `newV4` gives the identifier of each draw of `Uuid::new_v4`; no two are the same.
Token counts are integers, since their sums stay within `i64`; the time stamps of a row are left
out.

* `Books`: the table, and for every goal the deltas accounted to it.
* **Result.** `goal_budgets_enforced`: after any calls, an active goal is below its budget, and
  `tokens_used` is the sum of the deltas accounted to the goal.
-/

namespace Codex.Goals

open Function

/-! ## The table -/

inductive ThreadGoalStatus where
  | active
  | paused
  | blocked
  | usageLimited
  | budgetLimited
  | complete
  deriving DecidableEq, Repr

structure ThreadGoal where
  goalId : String
  objective : Text
  status : ThreadGoalStatus
  tokenBudget : Option Int
  tokensUsed : Int
  timeUsedSeconds : Int

structure GoalUpdate where
  objective : Option Text
  status : Option ThreadGoalStatus
  tokenBudget : Option (Option Int)
  expectedGoalId : Option String

inductive GoalAccountingMode where
  | activeStatusOnly
  | activeOnly
  | activeOrComplete
  | activeOrStopped
  deriving DecidableEq, Repr

/-- `drawn` counts the identifiers that were drawn. -/
structure GoalStore where
  rows : Nat → Option ThreadGoal
  drawn : Nat

inductive Call where
  | replace (threadId : Nat) (objective : Text) (status : ThreadGoalStatus) (budget : Option Int)
  | insert (threadId : Nat) (objective : Text) (status : ThreadGoalStatus) (budget : Option Int)
  | update (threadId : Nat) (update : GoalUpdate)
  | pauseActive (threadId : Nat)
  | usageLimitActive (threadId : Nat)
  | delete (threadId : Nat)
  | account (threadId : Nat) (timeDeltaSeconds tokenDelta : Int) (mode : GoalAccountingMode)
      (expectedGoalId : Option String)

/-! ## The statements -/

variable (status : ThreadGoalStatus)

/-- The statements have the same `CASE`. -/
def statusAfterBudgetLimit (tokensUsed : Int) (tokenBudget : Option Int) : ThreadGoalStatus :=
  if status = .active ∧ tokenBudget.any (tokensUsed ≥ ·) then .budgetLimited else status

def GoalUpdate.set (update : GoalUpdate) (row : ThreadGoal) : ThreadGoal :=
  let objective := update.objective.getD row.objective
  let kept (status : ThreadGoalStatus) (budget : Option Int) :=
    if row.status = .budgetLimited ∧ status ∈ [.paused, .blocked] then row.status
    else statusAfterBudgetLimit status row.tokensUsed budget
  match update.status, update.tokenBudget with
  | some status, some budget =>
    { row with objective := objective, status := kept status budget, tokenBudget := budget }
  | some status, none =>
    { row with objective := objective, status := kept status row.tokenBudget }
  | none, some budget =>
    { row with
      objective := objective
      tokenBudget := budget
      status := statusAfterBudgetLimit row.status row.tokensUsed budget }
  | none, none => { row with objective := objective }

/-- `update_active_thread_goal_status` -/
def setActiveStatus (row : ThreadGoal) : ThreadGoal :=
  if row.status = .active ∨ status = .usageLimited ∧ row.status = .budgetLimited then
    { row with status := status }
  else row

def activeOrStopped : List ThreadGoalStatus :=
  [.active, .paused, .blocked, .usageLimited, .budgetLimited]

namespace GoalAccountingMode

def statusFilter : GoalAccountingMode → List ThreadGoalStatus
  | activeStatusOnly => [.active]
  | activeOnly => [.active, .budgetLimited]
  | activeOrComplete => [.active, .budgetLimited, .complete]
  | .activeOrStopped => Goals.activeOrStopped

def budgetLimitStatusFilter : GoalAccountingMode → List ThreadGoalStatus
  | activeStatusOnly | activeOnly | activeOrComplete => [.active]
  | .activeOrStopped => Goals.activeOrStopped

/-- Whether the `UPDATE` of `account_thread_goal_usage` finds the row. -/
def finds (mode : GoalAccountingMode) (expectedGoalId : Option String) (row : ThreadGoal) : Bool :=
  row.status ∈ mode.statusFilter ∧ expectedGoalId.all (row.goalId = ·)

def accountUsage (mode : GoalAccountingMode) (timeDelta tokenDelta : Int) (row : ThreadGoal) :
    ThreadGoal :=
  { row with
    timeUsedSeconds := row.timeUsedSeconds + timeDelta
    tokensUsed := row.tokensUsed + tokenDelta
    status :=
      if row.status ∈ mode.budgetLimitStatusFilter ∧
          row.tokenBudget.any (row.tokensUsed + tokenDelta ≥ ·) then .budgetLimited
      else row.status }

end GoalAccountingMode

namespace GoalStore

def new : GoalStore := ⟨fun _ => none, 0⟩

variable (newV4 : ℕ ↪ String)

/-- A new row, with the next identifier. -/
def put (store : GoalStore) (threadId : Nat) (objective : Text) (status : ThreadGoalStatus)
    (budget : Option Int) : GoalStore where
  rows := update store.rows threadId
    (some ⟨newV4 store.drawn, objective, statusAfterBudgetLimit status 0 budget, budget, 0, 0⟩)
  drawn := store.drawn + 1

/-- `UPDATE` of the row of a thread. -/
def set (store : GoalStore) (threadId : Nat) (f : ThreadGoal → ThreadGoal) : GoalStore :=
  { store with rows := update store.rows threadId ((store.rows threadId).map f) }

def run (store : GoalStore) : Call → GoalStore
  | .replace threadId objective status budget => store.put newV4 threadId objective status budget
  | .insert threadId objective status budget =>
    if (store.rows threadId).isSome then { store with drawn := store.drawn + 1 }
    else store.put newV4 threadId objective status budget
  | .update threadId update =>
    store.set threadId fun row =>
      if update.expectedGoalId.all (row.goalId = ·) then update.set row else row
  | .pauseActive threadId => store.set threadId (setActiveStatus .paused)
  | .usageLimitActive threadId => store.set threadId (setActiveStatus .usageLimited)
  | .delete threadId => { store with rows := update store.rows threadId none }
  | .account threadId timeDelta tokenDelta mode expectedGoalId =>
    if max timeDelta 0 = 0 ∧ max tokenDelta 0 = 0 then store
    else
      store.set threadId fun row =>
        if mode.finds expectedGoalId row then
          mode.accountUsage (max timeDelta 0) (max tokenDelta 0) row
        else row

end GoalStore

/-! ## The books -/

/-- What a call accounts to a goal. -/
def Call.accounts (call : Call) (store : GoalStore) (goalId : String) : Int :=
  match call with
  | .account threadId _ tokenDelta mode expectedGoalId =>
    if (store.rows threadId).any fun row => row.goalId = goalId ∧ mode.finds expectedGoalId row then
      max tokenDelta 0
    else 0
  | _ => 0

/-- The table and what has been accounted to each goal so far. -/
structure Books where
  store : GoalStore
  accounted : String → Int

namespace Books

def new : Books := ⟨.new, fun _ => 0⟩

def step (newV4 : ℕ ↪ String) (books : Books) (call : Call) : Books :=
  ⟨books.store.run newV4 call, fun goalId => books.accounted goalId + call.accounts books.store goalId⟩

end Books

def ThreadGoal.WithinBudget (goal : ThreadGoal) : Prop :=
  goal.status = .active → ∀ budget, goal.tokenBudget = some budget → goal.tokensUsed < budget

/-- A row after `delta` more tokens. -/
structure ThreadGoal.Takes (row : ThreadGoal) (delta : Int) (row' : ThreadGoal) : Prop where
  goalId : row'.goalId = row.goalId
  tokensUsed : row'.tokensUsed = row.tokensUsed + delta
  within : row.WithinBudget → row'.WithinBudget

variable {newV4 : ℕ ↪ String} {books : Books} {threadId : Nat} {row : ThreadGoal}

theorem ThreadGoal.Takes.refl : row.Takes 0 row := ⟨rfl, (Int.add_zero _).symm, id⟩

theorem withinBudget_of_status {goal : ThreadGoal} (h : goal.status = .active →
      goal.status = statusAfterBudgetLimit status goal.tokensUsed goal.tokenBudget) :
    goal.WithinBudget := by
  intro hActive budget hBudget
  grind [statusAfterBudgetLimit]

theorem takes_set (update : GoalUpdate) : row.Takes 0 (update.set row) := by
  unfold GoalUpdate.set
  split
  · next status budget _ _ =>
    refine ⟨rfl, (Int.add_zero _).symm, fun _ => withinBudget_of_status status fun hActive => ?_⟩
    exact if_neg fun hLimited => by simp [hLimited] at hActive
  · next status _ _ =>
    refine ⟨rfl, (Int.add_zero _).symm, fun _ => withinBudget_of_status status fun hActive => ?_⟩
    exact if_neg fun hLimited => by simp [hLimited] at hActive
  · exact ⟨rfl, (Int.add_zero _).symm, fun _ => withinBudget_of_status row.status fun _ => rfl⟩
  · exact ⟨rfl, (Int.add_zero _).symm, id⟩

theorem takes_setActiveStatus {status : ThreadGoalStatus} (hStatus : status ≠ .active) :
    row.Takes 0 (setActiveStatus status row) := by
  unfold setActiveStatus
  split
  · exact ⟨rfl, (Int.add_zero _).symm, fun _ hActive => absurd hActive hStatus⟩
  · exact .refl

theorem takes_accountUsage (mode : GoalAccountingMode) (timeDelta tokenDelta : Int) :
    row.Takes tokenDelta (mode.accountUsage timeDelta tokenDelta row) := by
  -- every mode checks the budget of an active goal
  have hActive : .active ∈ mode.budgetLimitStatusFilter := by cases mode <;> decide
  refine ⟨rfl, rfl, fun _ => withinBudget_of_status row.status fun h => ?_⟩
  grind [GoalAccountingMode.accountUsage, statusAfterBudgetLimit]

structure Books.Balanced (newV4 : ℕ ↪ String) (books : Books) : Prop where
  drawn : ∀ threadId goal, books.store.rows threadId = some goal →
    ∃ n < books.store.drawn, goal.goalId = newV4 n
  unused : ∀ n, books.store.drawn ≤ n → books.accounted (newV4 n) = 0
  apart : ∀ threadId threadId' goal goal', books.store.rows threadId = some goal →
    books.store.rows threadId' = some goal' → goal.goalId = goal'.goalId → threadId = threadId'
  used : ∀ threadId goal, books.store.rows threadId = some goal →
    goal.tokensUsed = books.accounted goal.goalId
  within : ∀ threadId goal, books.store.rows threadId = some goal → goal.WithinBudget

namespace Books

theorem Balanced.put (h : books.Balanced newV4) (objective : Text) (status : ThreadGoalStatus)
    (budget : Option Int) :
    Balanced newV4 ⟨books.store.put newV4 threadId objective status budget, books.accounted⟩ := by
  have hNew : ThreadGoal.WithinBudget
      ⟨newV4 books.store.drawn, objective, statusAfterBudgetLimit status 0 budget, budget, 0, 0⟩ :=
    withinBudget_of_status status fun _ => rfl
  obtain ⟨hDrawn, hUnused, hApart, hUsed, hWithin⟩ := h
  constructor <;> simp only [GoalStore.put] <;> grind [update_apply]

/-- An `UPDATE` of a row. Its tokens are accounted to its goal and to no other. -/
theorem Balanced.set (h : books.Balanced newV4) {f : ThreadGoal → ThreadGoal}
    {delta : String → Int}
    (hRow : ∀ row, books.store.rows threadId = some row → row.Takes (delta row.goalId) (f row))
    (hOthers : ∀ goalId, (∀ row, books.store.rows threadId = some row → row.goalId ≠ goalId) →
      delta goalId = 0) :
    Balanced newV4
      ⟨books.store.set threadId f, fun goalId => books.accounted goalId + delta goalId⟩ := by
  obtain ⟨hDrawn, hUnused, hApart, hUsed, hWithin⟩ := h
  rcases hFound : books.store.rows threadId with _ | row
  · have hSame : books.store.set threadId f = books.store := by
      rw [GoalStore.set, hFound, Option.map_none, ← hFound, update_eq_self]
    constructor <;> grind
  obtain ⟨hId, hTokens, hBudget⟩ := hRow row hFound
  have hDelta (goalId : String) (hNe : row.goalId ≠ goalId) : delta goalId = 0 :=
    hOthers goalId fun row' h => by rwa [← Option.some.inj (hFound.symm.trans h)]
  have hNew := hBudget (hWithin threadId row hFound)
  simp only [GoalStore.set]
  constructor <;> grind [update_apply]

theorem Balanced.step (h : books.Balanced newV4) (call : Call) :
    (books.step newV4 call).Balanced newV4 := by
  cases call with
  | replace threadId objective status budget =>
    simpa [Books.step, Call.accounts, GoalStore.run] using h.put objective status budget
  | insert threadId objective status budget =>
    simp only [Books.step, Call.accounts, GoalStore.run, Int.add_zero]
    split
    · obtain ⟨hDrawn, hUnused, hApart, hUsed, hWithin⟩ := h
      constructor <;> grind
    · exact h.put objective status budget
  | update threadId update =>
    refine h.set (fun row _ => ?_) (fun _ _ => rfl)
    split
    · exact takes_set update
    · exact .refl
  | pauseActive threadId | usageLimitActive threadId =>
    exact h.set (fun _ _ => takes_setActiveStatus (by decide)) fun _ _ => rfl
  | delete threadId =>
    simp only [Books.step, Call.accounts, GoalStore.run]
    obtain ⟨hDrawn, hUnused, hApart, hUsed, hWithin⟩ := h
    constructor <;> grind [update_apply]
  | account threadId timeDelta tokenDelta mode expectedGoalId =>
    simp only [Books.step, Call.accounts, GoalStore.run]
    split
    · next hZero => simpa [hZero.2] using h
    refine h.set (fun row hRow => ?_) (fun goalId hOthers => if_neg fun hAny => ?_)
    · by_cases hFinds : mode.finds expectedGoalId row = true
      · simpa [hRow, hFinds] using takes_accountUsage mode _ _
      · simpa [hRow, hFinds] using .refl
    cases hRow : books.store.rows threadId with
    | none => simp [hRow] at hAny
    | some row =>
      simp only [hRow, Option.any_some, decide_eq_true_eq] at hAny
      exact hOthers row hRow hAny.1

end Books

/-- **Goal budgets.** After any calls, each goal in the table that is active and has a budget is
below it, and its `tokens_used` is the sum of what was accounted to its identifier. -/
theorem goal_budgets_enforced (newV4 : ℕ ↪ String) (calls : List Call) (threadId : Nat)
    (goal : ThreadGoal)
    (h : (calls.foldl (Books.step newV4) .new).store.rows threadId = some goal) :
    (goal.status = .active → ∀ budget, goal.tokenBudget = some budget → goal.tokensUsed < budget) ∧
      goal.tokensUsed = (calls.foldl (Books.step newV4) .new).accounted goal.goalId := by
  have hBalanced : (calls.foldl (Books.step newV4) .new).Balanced newV4 :=
    List.foldlRecOn calls (Books.step newV4) (by constructor <;> simp [Books.new, GoalStore.new])
      fun _ h call _ => h.step call
  exact ⟨hBalanced.within threadId goal h, hBalanced.used threadId goal h⟩

/-- Identifiers of different lengths. -/
def byLength : ℕ ↪ String where
  toFun n := String.ofList (List.replicate n '0')
  inj' n m h := by simpa using congrArg (fun id : String => id.toList.length) h

/-- A goal with a budget of ten takes seven and then five tokens, and is limited. -/
theorem limited_after_twelve :
    let calls : List Call := [.replace 1 [] .active (some 10), .account 1 2 7 .activeOnly none,
      .account 1 0 5 .activeStatusOnly (some "")]
    let books := calls.foldl (Books.step byLength) .new
    books.store.rows 1 = some ⟨"", [], .budgetLimited, some 10, 12, 2⟩ ∧
      books.accounted "" = 12 := by
  intro calls books
  have hRow : books.store.rows 1 = some ⟨"", [], .budgetLimited, some 10, 12, 2⟩ := rfl
  exact ⟨hRow, (goal_budgets_enforced byLength calls 1 _ hRow).2.symm⟩

end Codex.Goals
