import Codex.Lib.Runs

/-!
# Codex — a reader that waits for output

`exec_read` in `exec-server/src/local_process.rs`, while `stream_output`, `watch_exit` and
`maybe_emit_closed` run on the same process. A step is one critical section under the lock of the
processes, one call of `notify_waiters`, or the creation of a `Notified`. Chunks arrive, streams
end, the process exits and time passes as they like. The entry of a closed process is taken out of
the map some time later; its tasks are past the use of it by then, so only readers notice.

As specified, `notify_waiters` wakes the `Notified` futures that exist and stores nothing: a future
remembers the number of calls it has seen, and is ready once there are more.

* `never_sleeps_through_iff`: a reader never sleeps through output exactly when none creates its
  future after what it waits for has been announced.
* `reads_lose_nothing`: reads get all retained output, and get it once.
-/

namespace Codex.ExecRead

open Function

def retainedOutputBytesPerProcess : Nat := 1024 * 1024

inductive ExecOutputStream where
  | stdout
  | stderr
  | pty

structure RetainedOutputChunk where
  seq : Nat
  stream : ExecOutputStream
  chunk : List UInt8

/-- `notifies` counts the calls of `output_notify.notify_waiters`; `listed` says that the process
is in the map. -/
structure RunningProcess where
  tty : Bool
  output : List RetainedOutputChunk
  retainedBytes : Nat
  nextSeq : Nat
  exitCode : Option Int
  openStreams : Nat
  closed : Bool
  notifies : Nat
  listed : Bool

namespace RunningProcess

def new (tty : Bool) : RunningProcess := ⟨tty, [], 0, 1, none, 2, false, 0, true⟩

/-- Old chunks go until the rest fits. -/
def evict : List RetainedOutputChunk → Nat → List RetainedOutputChunk × Nat
  | [], bytes => ([], bytes)
  | first :: rest, bytes =>
    if bytes > retainedOutputBytesPerProcess then evict rest (bytes - first.chunk.length)
    else (first :: rest, bytes)

def pushOutput (process : RunningProcess) (stream : ExecOutputStream) (chunk : List UInt8) :
    RunningProcess :=
  let (output, retainedBytes) :=
    evict (process.output ++ [⟨process.nextSeq, stream, chunk⟩])
      (process.retainedBytes + chunk.length)
  { process with output, retainedBytes, nextSeq := process.nextSeq + 1 }

def exit (process : RunningProcess) (exitCode : Int) : RunningProcess :=
  { process with exitCode := some exitCode, nextSeq := process.nextSeq + 1 }

def notifyWaiters (process : RunningProcess) : RunningProcess :=
  { process with notifies := process.notifies + 1 }

/-- What is left to do after `EXITED_PROCESS_RETENTION`. -/
def cleanUp (process : RunningProcess) : RunningProcess :=
  { process with listed := process.listed && !process.closed }

end RunningProcess

structure ReadParams where
  afterSeq : Nat
  maxBytes : Nat

structure ReadResponse where
  chunks : List RetainedOutputChunk
  nextSeq : Nat
  exitCode : Option Int
  closed : Bool

namespace ReadParams

/-- The loop over the retained chunks, with the chunks, bytes and sequence number so far. -/
def collect (params : ReadParams) (chunks : List RetainedOutputChunk) (totalBytes nextSeq : Nat) :
    List RetainedOutputChunk → List RetainedOutputChunk × Nat
  | [] => (chunks, nextSeq)
  | retained :: rest =>
    let total := totalBytes + retained.chunk.length
    if chunks ≠ [] ∧ total > params.maxBytes then (chunks, nextSeq)
    else if total ≥ params.maxBytes then (chunks ++ [retained], retained.seq + 1)
    else params.collect (chunks ++ [retained]) total (retained.seq + 1) rest

def response (params : ReadParams) (process : RunningProcess) : ReadResponse :=
  let (chunks, nextSeq) :=
    params.collect [] 0 process.nextSeq (process.output.filter (·.seq > params.afterSeq))
  { chunks, nextSeq, exitCode := process.exitCode, closed := process.closed }

/-- The response is returned at once. -/
def Returns (params : ReadParams) (response : ReadResponse) : Prop :=
  response.chunks ≠ [] ∨ response.closed = true ∨
    response.exitCode.isSome ∧ params.afterSeq < response.nextSeq - 1

instance (params : ReadParams) : DecidablePred params.Returns := fun _ => instDecidableOr

end ReadParams

/-! ## The tasks -/

inductive Change where
  | output (seq : Nat)
  | exited
  | closed

/-- `stream_output` for the two streams, and `watch_exit`. -/
inductive Task where
  | stdout
  | stderr
  | exit
  deriving DecidableEq

/-- What a task does next; `announce` is `notify_waiters` after a change. -/
inductive Stage where
  | live
  | announce (change : Change)
  | finish
  | closing
  | done

/-- What a live task may get. -/
inductive Arrival where
  | chunk (chunk : List UInt8)
  | ended
  | exited (exitCode : Int)

/-- The stream that `start_process` gives to a `stream_output` whose chunks are those of `stream`. -/
def RunningProcess.streamOf (process : RunningProcess) (stream : ExecOutputStream) :
    ExecOutputStream :=
  if process.tty then .pty else stream

def Task.step (task : Task) (process : RunningProcess) (arrival : Arrival) :
    Stage → RunningProcess × Stage
  | .live =>
    match task, arrival with
    | .exit, .exited exitCode => (process.exit exitCode, .announce .exited)
    | .exit, _ => (process, .live)
    | .stdout, .chunk chunk =>
      (process.pushOutput (process.streamOf .stdout) chunk, .announce (.output process.nextSeq))
    | .stderr, .chunk chunk =>
      (process.pushOutput (process.streamOf .stderr) chunk, .announce (.output process.nextSeq))
    | _, .ended => (process, .finish)
    | _, _ => (process, .live)
  | .announce change =>
    (process.notifyWaiters, match change with
      | .output _ => .live
      | .exited => .closing
      | .closed => .done)
  | .finish => ({ process with openStreams := process.openStreams - 1 }, .closing)
  | .closing =>
    if process.closed ∨ process.openStreams ≠ 0 ∨ process.exitCode = none then (process, .done)
    else ({ process with closed := true, nextSeq := process.nextSeq + 1 }, .announce .closed)
  | .done => (process, .done)

/-- Where a read is: before its look at the process, after one, waiting with a future, or over;
without a response if the process id is unknown. -/
inductive Place where
  | look
  | looked (response : ReadResponse)
  | waiting (seen : Nat)
  | returned (response : Option ReadResponse)

/-- `timeUp` says whether the deadline has passed. -/
def ReadParams.step (params : ReadParams) (process : RunningProcess) (timeUp : Bool) : Place → Place
  | .look =>
    let response := params.response process
    if !process.listed then .returned none
    else if params.Returns response ∨ timeUp then .returned (some response) else .looked response
  | .looked response => if timeUp then .returned (some response) else .waiting process.notifies
  | .waiting seen => if process.notifies ≠ seen ∨ timeUp then .look else .waiting seen
  | .returned response => .returned response

structure System where
  process : RunningProcess
  stage : Task → Stage
  place : Nat → Place

inductive Turn where
  | task (task : Task) (arrival : Arrival)
  | read (reader : Nat) (timeUp : Bool)
  | cleanUp

namespace System

def new (tty : Bool) : System := ⟨.new tty, fun _ => .live, fun _ => .look⟩

def step (reads : Nat → ReadParams) (s : System) : Turn → System
  | .task task arrival =>
    let (process, stage) := task.step s.process arrival (s.stage task)
    { s with process, stage := update s.stage task stage }
  | .read reader timeUp =>
    { s with place :=
        update s.place reader ((reads reader).step s.process timeUp (s.place reader)) }
  | .cleanUp => { s with process := s.process.cleanUp }

def run (tty : Bool) (reads : Nat → ReadParams) (turns : List Turn) : System :=
  turns.foldl (step reads) (new tty)

/-! ## Sleeping readers -/

/-- There is retained output after `afterSeq`, or the process has closed, and `notify_waiters` has
been called for it. -/
def Announced (s : System) (afterSeq : Nat) : Prop :=
  (∃ chunk ∈ s.process.output, afterSeq < chunk.seq ∧
      ∀ task, s.stage task ≠ .announce (.output chunk.seq)) ∨
    s.process.closed = true ∧ ∀ task, s.stage task ≠ .announce .closed

/-- No reader is suspended although something is announced. -/
def NoneAsleep (reads : Nat → ReadParams) (s : System) : Prop :=
  ∀ reader, s.place reader = .waiting s.process.notifies → ¬s.Announced (reads reader).afterSeq

/-- A reader that has looked creates its future too late. -/
def CreatesLate (reads : Nat → ReadParams) (s : System) (turn : Turn) : Prop :=
  ∃ reader response, turn = .read reader false ∧ s.place reader = .looked response ∧
    s.Announced (reads reader).afterSeq

theorem mem_of_mem_evict {chunk : RetainedOutputChunk} {chunks : List RetainedOutputChunk}
    {bytes : Nat} (h : chunk ∈ (RunningProcess.evict chunks bytes).1) : chunk ∈ chunks := by
  induction chunks generalizing bytes with
  | nil => exact h
  | cons first rest ih =>
    unfold RunningProcess.evict at h
    split at h
    · exact List.mem_cons_of_mem _ (ih h)
    · exact h

/-- A step of a task announces, or it makes no change that it does not go on to announce. -/
theorem task_step_cases (task : Task) (process : RunningProcess) (arrival : Arrival)
    (stage : Stage) :
    let after := task.step process arrival stage
    after.1.notifies = process.notifies + 1 ∨
      after.1.notifies = process.notifies ∧ (∀ change, stage ≠ .announce change) ∧
        (∀ chunk ∈ after.1.output,
          chunk ∈ process.output ∨ after.2 = .announce (.output chunk.seq)) ∧
        (after.1.closed = true → process.closed = true ∨ after.2 = .announce .closed) := by
  intro after
  cases stage with
  | announce change => exact .inl rfl
  | live =>
    right
    unfold after Task.step
    dsimp only
    split
    case h_3 | h_4 =>
      refine ⟨rfl, nofun, fun retained hMem => ?_, .inl⟩
      obtain hOld | hNew := List.mem_append.mp (mem_of_mem_evict hMem)
      · exact .inl hOld
      · rw [List.mem_singleton.mp hNew]
        exact .inr rfl
    all_goals exact ⟨rfl, nofun, fun _ => .inl, .inl⟩
  | closing =>
    right
    unfold after Task.step
    dsimp only
    split
    · exact ⟨rfl, nofun, fun _ => .inl, .inl⟩
    · exact ⟨rfl, nofun, fun _ => .inl, fun _ => .inr rfl⟩
  | finish => exact .inr ⟨rfl, nofun, fun _ => .inl, .inl⟩
  | done => exact .inr ⟨rfl, nofun, fun _ => .inl, .inl⟩

variable {reads : Nat → ReadParams} {s : System} {turn : Turn}

/-- What holds as long as no future is created late. -/
structure Sound (reads : Nat → ReadParams) (s : System) : Prop where
  seen : ∀ reader seen, s.place reader = .waiting seen → seen ≤ s.process.notifies
  awake : NoneAsleep reads s

theorem Sound.task (h : Sound reads s) (task : Task) (arrival : Arrival) :
    Sound reads (s.step reads (.task task arrival)) := by
  obtain hNotifies | ⟨hNotifies, hStage, hOutput, hClosed⟩ :=
    task_step_cases task s.process arrival (s.stage task)
  · constructor
    · intro reader seen hPlace
      exact (h.seen reader seen hPlace).trans (hNotifies ▸ Nat.le_succ _)
    intro reader hPlace
    have hSeen := h.seen reader _ hPlace
    rw [step, hNotifies] at hSeen
    omega
  · constructor
    · intro reader seen hPlace
      exact hNotifies ▸ h.seen reader seen hPlace
    intro reader hPlace hAnnounced
    refine h.awake reader (hNotifies ▸ hPlace) ?_
    -- a task that announced nothing and has nothing to announce plays no part
    have hOther : ∀ change, (∀ other, update s.stage task
        (task.step s.process arrival (s.stage task)).2 other ≠ .announce change) →
        (task.step s.process arrival (s.stage task)).2 ≠ .announce change ∧
          ∀ other, s.stage other ≠ .announce change := by
      intro change hNone
      refine ⟨by simpa using hNone task, fun other => ?_⟩
      by_cases hTask : other = task
      · exact hTask ▸ hStage change
      · simpa [hTask] using hNone other
    obtain ⟨chunk, hMem, hAfter, hNone⟩ | ⟨hIs, hNone⟩ := hAnnounced
    · obtain ⟨hTask, hBefore⟩ := hOther _ hNone
      exact .inl ⟨chunk, (hOutput chunk hMem).resolve_right hTask, hAfter, hBefore⟩
    · obtain ⟨hTask, hBefore⟩ := hOther _ hNone
      exact .inr ⟨(hClosed hIs).resolve_right hTask, hBefore⟩

theorem Sound.read (h : Sound reads s) {reader : Nat} {timeUp : Bool}
    (hTurn : ¬CreatesLate reads s (.read reader timeUp)) :
    Sound reads (s.step reads (.read reader timeUp)) := by
  have hPlaces : ∀ other seen, (s.step reads (.read reader timeUp)).place other = .waiting seen →
      s.place other = .waiting seen ∨ seen = s.process.notifies ∧
        ¬s.Announced (reads other).afterSeq := by
    intro other seen hPlace
    by_cases hReader : other = reader
    · subst hReader
      simp only [System.step, update_self] at hPlace
      cases hBefore : s.place other with
      | looked response =>
        cases timeUp with
        | true => simp [hBefore, ReadParams.step] at hPlace
        | false =>
          simp only [hBefore] at hPlace
          cases hPlace
          exact .inr ⟨rfl, fun h => hTurn ⟨other, response, rfl, hBefore, h⟩⟩
      | _ => grind [ReadParams.step]
    · exact .inl (by simpa [System.step, hReader] using hPlace)
  constructor
  · intro other seen hPlace
    obtain hBefore | ⟨rfl, -⟩ := hPlaces other seen hPlace
    · exact h.seen other seen hBefore
    · exact le_rfl
  intro other hPlace
  obtain hBefore | ⟨-, hNone⟩ := hPlaces other _ hPlace
  · exact h.awake other hBefore
  · exact hNone

theorem Sound.step (h : Sound reads s) (hTurn : ¬CreatesLate reads s turn) :
    Sound reads (s.step reads turn) :=
  match turn with
  | .task task arrival => h.task task arrival
  | .read _ _ => h.read hTurn
  | .cleanUp => ⟨h.seen, h.awake⟩

theorem CreatesLate.not_noneAsleep (h : CreatesLate reads s turn) :
    ¬NoneAsleep reads (s.step reads turn) := by
  obtain ⟨reader, response, rfl, hPlace, hAnnounced⟩ := h
  refine fun hAwake => hAwake reader ?_ hAnnounced
  simp only [step, hPlace, update_self]
  rfl

/-- **A reader sleeps through output exactly when it looks before and waits after.** In every state
of a run no reader is suspended although there is retained output after its `afterSeq`, or the
process has closed, and all calls of `notify_waiters` for it were made: exactly when no reader that
has looked creates its future at a moment at which that is so already. -/
theorem never_sleeps_through_iff (tty : Bool) (reads : Nat → ReadParams) (turns : List Turn) :
    (∀ seen, seen <+: turns → NoneAsleep reads (run tty reads seen)) ↔
      ¬Runs.Meets (step reads) (CreatesLate reads) (new tty) turns :=
  Runs.good_throughout_iff (Sound reads) ⟨by simp [new], by simp [NoneAsleep, new]⟩
    (fun _ _ h hTurn => h.step hTurn) (fun _ h => h.awake) fun _ _ _ h => h.not_noneAsleep

/-- The reader finds nothing, a chunk arrives and is announced, and the reader goes to sleep. -/
theorem output_slept_through :
    let reads : Nat → ReadParams := fun _ => ⟨0, 100⟩
    let s := run false reads
      [.read 0 false, .task .stdout (.chunk [65]), .task .stdout .ended, .read 0 false]
    s.place 0 = .waiting s.process.notifies ∧ s.process.output = [⟨1, .stdout, [65]⟩] ∧
      ¬NoneAsleep reads s := by
  refine ⟨rfl, rfl, fun h => h 0 rfl (.inl ⟨⟨1, .stdout, [65]⟩, List.mem_singleton_self _, by decide, ?_⟩)⟩
  intro task hStage
  cases task <;> cases hStage

/-! ## What a reader gets -/

open List

/-- The loop takes a front of the chunks, and the number that it returns tells it from the rest. -/
theorem collect_spec (params : ReadParams) {list : List RetainedOutputChunk}
    (hSorted : list.Pairwise (·.seq < ·.seq)) (chunks : List RetainedOutputChunk)
    (totalBytes nextSeq : Nat) {bound : Nat} (hNext : nextSeq ≤ bound)
    (hBound : ∀ chunk ∈ list, chunk.seq < bound ∧ (chunks ≠ [] → nextSeq - 1 < chunk.seq)) :
    let result := params.collect chunks totalBytes nextSeq list
    ∃ taken left, list = taken ++ left ∧ result.1 = chunks ++ taken ∧ result.2 ≤ bound ∧
      (chunks = [] → taken = [] → list = []) ∧ (chunks ≠ [] → nextSeq ≤ result.2) ∧
      (∀ chunk ∈ taken, chunk.seq < result.2) ∧ ∀ chunk ∈ left, result.2 - 1 < chunk.seq := by
  induction list generalizing chunks totalBytes nextSeq with
  | nil => exact ⟨[], [], by simpa [ReadParams.collect]⟩
  | cons first rest ih =>
    obtain ⟨hFirst, hRest⟩ := pairwise_cons.mp hSorted
    unfold ReadParams.collect
    dsimp only
    split
    · exact ⟨[], first :: rest, by simp_all⟩
    split
    · exact ⟨[first], rest, by grind⟩
    obtain ⟨taken, left, hList, hTaken, hLe, -, hFrom, hBelow, hAbove⟩ :=
      ih hRest (chunks ++ [first]) (totalBytes + first.chunk.length) (first.seq + 1) (by grind)
        (by grind)
    exact ⟨first :: taken, left, by grind⟩

theorem evict_sublist (chunks : List RetainedOutputChunk) (bytes : Nat) :
    (RunningProcess.evict chunks bytes).1.Sublist chunks := by
  fun_induction RunningProcess.evict chunks bytes with
  | case2 first rest _ _ ih => exact ih.cons first
  | _ => exact .refl _

/-- Numbers increase, and what is not from `start` has a number from then on. -/
structure Since (start process : RunningProcess) : Prop where
  sorted : process.output.Pairwise (·.seq < ·.seq)
  below : ∀ chunk ∈ process.output, chunk.seq < process.nextSeq
  next : start.nextSeq ≤ process.nextSeq
  old : ∀ chunk ∈ process.output, chunk ∈ start.output ∨ start.nextSeq ≤ chunk.seq

variable {start process : RunningProcess}

theorem Since.pushOutput (h : Since start process) (stream : ExecOutputStream)
    (chunk : List UInt8) : Since start (process.pushOutput stream chunk) := by
  let added : RetainedOutputChunk := ⟨process.nextSeq, stream, chunk⟩
  have hSub := evict_sublist (process.output ++ [added]) (process.retainedBytes + chunk.length)
  have hSorted : (process.output ++ [added]).Pairwise (·.seq < ·.seq) := by
    simpa [pairwise_append, h.sorted] using h.below
  have hCases : ∀ kept ∈ (process.pushOutput stream chunk).output,
      kept ∈ process.output ∨ kept = added :=
    fun kept hMem => by simpa using hSub.subset hMem
  obtain ⟨-, hBelow, hNext, hOld⟩ := h
  exact ⟨hSorted.sublist hSub, by grind [RunningProcess.pushOutput], hNext.trans (Nat.le_succ _),
    by grind⟩

theorem Since.step (h : Since start s.process) : Since start (s.step reads turn).process := by
  match turn with
  | .task task arrival =>
    show Since start (task.step s.process arrival (s.stage task)).1
    unfold Task.step
    split <;> try split
    -- what is no output leaves the chunks, and may take a number
    all_goals first
      | exact h.pushOutput _ _
      | exact ⟨h.sorted, h.below, h.next, h.old⟩
      | exact ⟨h.sorted, fun _ hMem => Nat.lt_succ_of_lt (h.below _ hMem), Nat.le_succ_of_le h.next,
          h.old⟩
  | .read _ _ | .cleanUp => exact ⟨h.sorted, h.below, h.next, h.old⟩

theorem Since.run (h : Since start s.process) (turns : List Turn) :
    Since start (turns.foldl (System.step reads) s).process :=
  foldlRecOn (motive := fun s : System => Since start s.process) turns _ h fun _ h _ _ => h.step

/-- **Polling loses nothing and gets nothing twice.** A read returns the first retained chunks after
`afterSeq`, if there are any. Whenever one reads on from the number that it returned, the chunks
that are passed over are those it returned. -/
theorem reads_lose_nothing (tty : Bool) (reads : Nat → ReadParams) (turns later : List Turn)
    (params : ReadParams) :
    let process := (run tty reads turns).process
    let response := params.response process
    response.chunks <+: process.output.filter (·.seq > params.afterSeq) ∧
      (response.chunks = [] → process.output.filter (·.seq > params.afterSeq) = []) ∧
      ∀ chunk ∈ (run tty reads (turns ++ later)).process.output, params.afterSeq < chunk.seq →
        (chunk.seq ≤ response.nextSeq - 1 ↔ chunk ∈ response.chunks) := by
  intro process response
  have hNow : Since (.new tty) process :=
    Since.run (s := new tty) ⟨.nil, forall_mem_nil _, le_rfl, forall_mem_nil _⟩ turns
  have hLater : Since process (run tty reads (turns ++ later)).process := by
    rw [run, foldl_append]
    exact Since.run ⟨hNow.sorted, hNow.below, le_rfl, fun _ => .inl⟩ later
  obtain ⟨taken, left, hList, hTaken, hLe, hNone, -, hBelow, hAbove⟩ :=
    collect_spec params (hNow.sorted.filter (·.seq > params.afterSeq)) [] 0 _ le_rfl
      fun chunk hMem => ⟨hNow.below chunk (mem_of_mem_filter hMem), absurd rfl⟩
  have hChunks : response.chunks = taken := hTaken
  refine ⟨⟨left, hChunks ▸ hList.symm⟩, hNone rfl ∘ hChunks.symm.trans, fun chunk hMem hAfter => ?_⟩
  have hLook (hOld : chunk ∈ process.output) : chunk ∈ taken ++ left :=
    hList ▸ mem_filter.mpr ⟨hOld, by simpa⟩
  have hOld := hLater.old chunk hMem
  have hSeq : response.nextSeq = (params.collect [] 0 process.nextSeq _).2 := rfl
  -- what was left, and what is new, has a later number
  grind

end System
end Codex.ExecRead
