import Codex.Lib.Runs
import Mathlib.Algebra.Ring.Nat

/-!
# Codex — what a thread waits for

The facts that `app-server/src/thread_status.rs` keeps of one thread. A pending request has a guard
that takes the request off the counter of its type some time after it was dropped. The guard does
not know what happened to the counter since it was issued.

**Result.** `waiting_exact_iff`: the counters count the open guards, and a thread that is gone stays
so, exactly when no guard from before the last clearing event is released while a newer one is open,
no guard is released and no turn ends when the thread is gone, and no counter overflows.
-/

namespace Codex.ThreadWatch

open Function

inductive ThreadWatchActiveGuardType where
  | permission
  | userInput
  deriving DecidableEq

/-- `pending` has a counter for each type of guard. -/
structure RuntimeFacts where
  isLoaded : Bool := false
  running : Bool := false
  pending : ThreadWatchActiveGuardType → Nat := fun _ => 0
  hasSystemError : Bool := false

inductive ThreadActiveFlag where
  | waitingOnApproval
  | waitingOnUserInput

inductive ThreadStatus where
  | notLoaded
  | idle
  | systemError
  | active (activeFlags : List ThreadActiveFlag)

def loadedThreadStatus (runtime : RuntimeFacts) : ThreadStatus :=
  let activeFlags :=
    (if 0 < runtime.pending .permission then [ThreadActiveFlag.waitingOnApproval] else []) ++
      if 0 < runtime.pending .userInput then [.waitingOnUserInput] else []
  if !runtime.isLoaded then .notLoaded
  else if runtime.running ∨ activeFlags.length ≠ 0 then .active activeFlags
  else if runtime.hasSystemError then .systemError
  else .idle

/-- What happens to a thread. A guard that is released was issued after the last event that cleared
the counters (`recent`), or before it. -/
inductive Op where
  | upsert
  | remove
  | turnStarted
  | turnCompleted
  | turnInterrupted
  | shutdown
  | systemError
  | request (type : ThreadWatchActiveGuardType)
  | release (type : ThreadWatchActiveGuardType) (recent : Bool)

def u32Max : Nat := 2 ^ 32 - 1

/-- Every update of an entry marks the thread as loaded before it makes its own change. -/
def Op.apply (op : Op) (runtime : Option RuntimeFacts) : Option RuntimeFacts :=
  let facts := { runtime.getD {} with isLoaded := true }
  let cleared := { facts with running := false, pending := fun _ => 0 }
  match op with
  | .upsert => some facts
  | .remove => none
  | .turnStarted => some { facts with running := true, hasSystemError := false }
  | .turnCompleted | .turnInterrupted => some cleared
  | .shutdown => some { cleared with isLoaded := false }
  | .systemError => some { cleared with hasSystemError := true }
  | .request type =>
    some { facts with pending := update facts.pending type (min (facts.pending type + 1) u32Max) }
  | .release type _ =>
    some { facts with pending := update facts.pending type (facts.pending type - 1) }

/-- A thread, with its recent guards that are not yet released, and whether it is `gone`: shut down
or removed without a later upsert, turn start or request. -/
structure Watch where
  runtime : Option RuntimeFacts := none
  recent : ThreadWatchActiveGuardType → Nat := fun _ => 0
  gone : Bool := false

namespace Watch

def pending (watch : Watch) (type : ThreadWatchActiveGuardType) : Nat :=
  (watch.runtime.getD {}).pending type

def status (watch : Watch) : ThreadStatus :=
  (watch.runtime.map loadedThreadStatus).getD .notLoaded

def step (watch : Watch) (op : Op) : Watch :=
  let runtime := op.apply watch.runtime
  match op with
  | .upsert | .turnStarted => { watch with runtime, gone := false }
  | .remove | .shutdown => ⟨runtime, fun _ => 0, true⟩
  | .turnCompleted | .turnInterrupted | .systemError => ⟨runtime, fun _ => 0, watch.gone⟩
  | .request type => ⟨runtime, update watch.recent type (watch.recent type + 1), false⟩
  | .release type true =>
    { watch with runtime, recent := update watch.recent type (watch.recent type - 1) }
  | .release _ false => { watch with runtime }

/-- The counters are right, and a thread that is gone is not reported as loaded. -/
def Exact (watch : Watch) : Prop :=
  (∀ type, watch.pending type = watch.recent type) ∧ (watch.gone → watch.status = .notLoaded)

/-- The operation comes too late, or a counter is full. -/
def Misleads (watch : Watch) : Op → Prop
  | .release type recent => watch.gone ∨ recent = false ∧ watch.recent type ≠ 0
  | .turnCompleted | .turnInterrupted | .systemError => watch.gone
  | .request type => u32Max ≤ watch.recent type
  | _ => False

variable {watch : Watch} {op : Op}

theorem status_eq_notLoaded_iff :
    watch.status = .notLoaded ↔ (watch.runtime.getD {}).isLoaded = false := by
  cases hRuntime : watch.runtime with
  | none => simp [status, hRuntime]
  | some facts =>
    simp only [status, loadedThreadStatus, hRuntime, Option.map_some]
    grind

theorem Exact.step (h : watch.Exact) (hOp : ¬watch.Misleads op) : (watch.step op).Exact := by
  simp only [pending, Exact, Misleads, status_eq_notLoaded_iff] at *
  cases op with
  | release type recent =>
    -- an earlier guard finds the counter at zero
    cases recent <;> simp only [Watch.step, Op.apply, Option.getD_some] <;> grind
  | _ =>
    simp only [Watch.step, Op.apply, Option.getD_some, Option.getD_none]
    grind

theorem Misleads.not_exact (h : watch.Misleads op) (hExact : watch.Exact) :
    ¬(watch.step op).Exact := by
  simp only [pending, Exact, status_eq_notLoaded_iff] at *
  cases op with
  | release type recent =>
    cases recent <;> simp only [Watch.step, Op.apply, Option.getD_some] <;>
      grind [Misleads]
  | _ =>
    simp only [Watch.step, Op.apply, Option.getD_some, update_apply]
    grind [Misleads]

/-- **The flags of a thread are right exactly when no guard is released too late.** -/
theorem waiting_exact_iff (ops : List Op) :
    (∀ seen, seen <+: ops → (seen.foldl step {}).Exact) ↔ ¬Runs.Meets step Misleads {} ops :=
  Runs.good_throughout_iff Exact ⟨fun _ => rfl, by simp⟩ (fun _ _ h => h.step) (fun _ h => h)
    fun _ _ hExact h => h.not_exact hExact

/-- A guard that outlives its turn takes away the request of the next one, or brings back a thread
that was removed. -/
theorem released_too_late :
    let next := [Op.request .permission, .turnCompleted, .request .permission,
      .release .permission false].foldl step {}
    let removed := [Op.request .permission, .remove, .release .permission false].foldl step {}
    next.recent .permission = 1 ∧ next.pending .permission = 0 ∧ ¬next.Exact ∧
      removed.gone ∧ removed.status = .idle ∧ ¬removed.Exact :=
  ⟨rfl, rfl, fun h => absurd (h.1 .permission) (by decide), rfl, rfl, fun h => nomatch h.2 rfl⟩

end Watch
end Codex.ThreadWatch
