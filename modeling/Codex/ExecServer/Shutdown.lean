import Codex.Lib.Runs

/-!
# Codex — processes that outlive the shutdown

`start_process` and `shutdown` in `exec-server/src/local_process.rs`. A step is one critical section
under the lock of the processes. What `shutdown` drains it terminates before it returns; nothing
reads that in between, so the drain records it. A process may exit, and the clean-up of closed
processes may drop an entry, at any time. A dropped session is terminated.

**Result.** `leaves_nothing`: nothing is left running if no call that began before `shutdown`
returned installs its process after the drain.
-/

namespace Codex.ExecShutdown

open Function

structure ExecParams where
  processId : String
  argv : List String

/-- A running process is named by the call that started it. -/
inductive ProcessEntry where
  | starting
  | running (call : Nat)
  deriving DecidableEq

/-- What a `start_process` call does next. -/
inductive Stage where
  | reserve
  | spawn
  | giveUp
  | install
  | returned

inductive Shutdown where
  | pending
  | drained
  | returned
  deriving DecidableEq

/-- `inTime` are the calls that began before `shutdown` returned. -/
structure System where
  processes : String → Option ProcessEntry
  stage : Nat → Stage
  shutdown : Shutdown
  inTime : Nat → Bool
  spawned : Nat → Bool
  told : Nat → Bool
  exited : Nat → Bool

inductive Turn where
  | start (call : Nat) (spawns : Bool)
  | shutdown
  | exit (call : Nat)
  | cleanUp (processId : String)

namespace System

def new : System := ⟨fun _ => none, fun _ => .reserve, .pending, fun _ => false, fun _ => false,
  fun _ => false, fun _ => false⟩

/-- The entry is taken out of the map or overwritten. -/
def dropped (s : System) (processId : String) (call : Nat) : Bool :=
  s.told call || s.processes processId = some (.running call)

def step (params : Nat → ExecParams) (s : System) : Turn → System
  | .start call spawns =>
    let processId := (params call).processId
    match s.stage call with
    | .reserve =>
      let taken := (params call).argv = [] ∨ s.processes processId ≠ none
      { s with
        inTime := update s.inTime call (s.shutdown ≠ .returned)
        processes := if taken then s.processes else update s.processes processId (some .starting)
        stage := update s.stage call (if taken then .returned else .spawn) }
    | .spawn =>
      { s with
        spawned := update s.spawned call spawns
        stage := update s.stage call (if spawns then .install else .giveUp) }
    | .giveUp =>
      { s with
        processes :=
          if s.processes processId = some .starting then update s.processes processId none
          else s.processes
        stage := update s.stage call .returned }
    | .install =>
      { s with
        processes := update s.processes processId (some (.running call))
        told := s.dropped processId
        stage := update s.stage call .returned }
    | .returned => s
  | .shutdown =>
    match s.shutdown with
    | .pending =>
      { s with
        processes := fun _ => none
        told := fun call => s.dropped (params call).processId call
        shutdown := .drained }
    | _ => { s with shutdown := .returned }
  | .exit call => { s with exited := update s.exited call (s.spawned call) }
  | .cleanUp processId =>
    { s with
      processes :=
        if s.processes processId = some .starting then s.processes
        else update s.processes processId none
      told := s.dropped processId }

def run (params : Nat → ExecParams) (turns : List Turn) : System := turns.foldl (step params) new

/-- A call that began in time installs its process after the drain. -/
def InstallsLate (s : System) : Turn → Prop
  | .start call _ => s.inTime call ∧ s.stage call = .install ∧ s.shutdown ≠ .pending
  | _ => False

/-- `shutdown` has returned, and so have all calls that began before. -/
def Over (s : System) : Prop :=
  s.shutdown = .returned ∧ ∀ call, s.inTime call → s.stage call = .returned

def LeavesNothing (s : System) : Prop :=
  s.Over → ∀ call, s.inTime call → s.spawned call → s.told call ∨ s.exited call

structure Sound (params : Nat → ExecParams) (s : System) : Prop where
  running : ∀ processId call, s.processes processId = some (.running call) →
    processId = (params call).processId ∧ s.spawned call ∧ s.told call = false ∧
      s.stage call = .returned ∧ (s.inTime call → s.shutdown = .pending)
  kept : ∀ call, s.spawned call → s.stage call = .install ∨ s.stage call = .returned ∧
    (s.told call ∨ s.processes (params call).processId = some (.running call))
  told : ∀ call, s.told call → s.stage call = .returned
  spawned : ∀ call, s.stage call = .install → s.spawned call

variable {params : Nat → ExecParams} {s : System}

theorem Sound.step {turn : Turn} (h : Sound params s) (hTurn : ¬s.InstallsLate turn) :
    Sound params (s.step params turn) := by
  obtain ⟨hRunning, hKept, hTold, hSpawned⟩ := h
  cases turn with
  | start call spawns =>
    -- the only place where a process enters the map, and it is not yet drained
    simp only [InstallsLate] at hTurn
    cases hStage : s.stage call <;> simp only [System.step, hStage] <;> constructor <;>
      grind [dropped]
  | shutdown =>
    cases hShutdown : s.shutdown <;> simp only [System.step, hShutdown] <;> constructor <;>
      grind [dropped]
  | exit call => exact ⟨hRunning, hKept, hTold, hSpawned⟩
  | cleanUp processId => constructor <;> simp only [System.step] <;> grind [dropped]

/-- **Shutting down leaves nothing running** if no call that began in time installs its process after
the drain. -/
theorem leaves_nothing (params : Nat → ExecParams) (turns : List Turn)
    (hTurns : ¬Runs.Meets (step params) InstallsLate new turns) :
    (run params turns).LeavesNothing := by
  have hNew : Sound params new := by constructor <;> simp [new]
  obtain ⟨hRunning, hKept, -, -⟩ : Sound params (run params turns) :=
    Runs.inv_of_not_meets (Sound params) hNew (fun _ _ => Sound.step) hTurns
  rintro ⟨hReturned, hOver⟩ call hTime hSpawned
  -- what is still in the map was installed after the drain
  rcases hKept call hSpawned with hInstall | ⟨-, hTold | hRuns⟩
  · cases hInstall.symm.trans (hOver call hTime)
  · exact .inl hTold
  · cases ((hRunning _ _ hRuns).2.2.2.2 hTime).symm.trans hReturned

/-- One process is installed before the drain, and a second call fails to spawn after it. -/
theorem installed_then_terminated :
    let params := fun call => ⟨if call = 0 then "a" else "b", ["sleep"]⟩
    let s := run params [.start 0 true, .start 0 true, .start 1 true, .start 0 true, .shutdown,
      .shutdown, .start 1 false, .start 1 false]
    s.spawned 0 ∧ s.told 0 ∧ s.LeavesNothing := by
  refine ⟨rfl, rfl, leaves_nothing _ _ ?_⟩
  simp only [Runs.meets_cons, Runs.not_meets_nil, not_or]
  exact ⟨nofun, nofun, nofun, fun h => h.2.2 rfl, id, id, nofun, nofun, id⟩

/-- The process is spawned, the shutdown finds its placeholder, and then it is installed. -/
theorem left_running :
    let s := run (fun _ => ⟨"a", ["sleep"]⟩)
      [.start 0 true, .start 0 true, .shutdown, .shutdown, .start 0 true]
    s.processes "a" = some (.running 0) ∧ ¬s.LeavesNothing := by
  refine ⟨rfl, fun h => ?_⟩
  have hNot := h ⟨rfl, fun
    | 0, _ => rfl⟩ 0 rfl rfl
  rcases hNot with hTold | hExited
  · cases hTold
  · cases hExited

end System
end Codex.ExecShutdown
