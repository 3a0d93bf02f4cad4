import Mathlib.Data.List.DropRight

/-!
# Undo logs

A log pushes entries and rolls them back: `rollback n` removes the newest `n`
entries that are still there (all of them, if there are fewer). Two readings of
such a log are related here.

* `survivors` says which entries remain, and `excess` what a log takes away from
  an earlier one (`survivors_append`): it is the count of rollbacks still to be
  honoured that a pass from the newest entry backward ends with.
* `expand` is a log in which each entry was pushed as a list of entries, so that
  the same rollbacks count them one by one. `survivors_expand_eq_iff` says when that
  keeps the same, for lists of one element at most.
* `step` runs a state along the log, saving a snapshot before each entry and
  restoring one at each rollback. When restoring is exact, the result is the run
  over the survivors alone (`run_eq_foldl_survivors`).
-/

namespace UndoLog

open List

variable {α σ : Type*}

inductive Entry (α : Type*) where
  | push (a : α)
  | rollback (n : Nat)

/-- Every entry ever pushed. -/
def pushed (log : List (Entry α)) : List α :=
  log.filterMap fun
    | .push a => some a
    | .rollback _ => none

def survive (kept : List α) : Entry α → List α
  | .push a => kept ++ [a]
  | .rollback n => kept.rdrop n

/-- The entries no rollback removed, oldest first. -/
def survivors (log : List (Entry α)) : List α := log.foldl survive []

/-- How many earlier entries a log removes. -/
def excess : List (Entry α) → Nat
  | [] => 0
  | .push _ :: rest => excess rest - 1
  | .rollback n :: rest => n + excess rest

/-! ## Surviving entries -/

variable (log : List (Entry α))

theorem survivors_concat (e : Entry α) :
    survivors (log ++ [e]) = survive (survivors log) e := by
  simp [survivors]

theorem rdrop_eq_nil {xs : List α} {n : Nat} (h : xs.length ≤ n) : xs.rdrop n = [] := by
  rw [rdrop, Nat.sub_eq_zero_of_le h, take_zero]

variable (start : σ) (xs : List α)

/-- Appending a log removes `excess` of the survivors so far and adds its own. -/
theorem foldl_survive (kept : List α) :
    log.foldl survive kept = kept.rdrop (excess log) ++ survivors log := by
  induction log generalizing kept with
  | nil => simp [excess, survivors]
  | cons e rest ih =>
    rw [foldl_cons, ih]
    have hOwn : survivors (e :: rest) = (survive [] e).rdrop (excess rest) ++ survivors rest := by
      rw [survivors, foldl_cons, ih]
    rw [hOwn]
    cases e with
    | rollback n =>
      simp [survive, excess, rdrop_add]
    | push a =>
      rw [excess, survive, survive]
      cases hExcess : excess rest with
      | zero => simp
      | succ k =>
        rw [rdrop_concat_succ, rdrop_concat_succ]
        simp

variable (older newer : List (Entry α))

theorem survivors_append :
    survivors (older ++ newer) = (survivors older).rdrop (excess newer) ++ survivors newer := by
  rw [survivors, foldl_append, foldl_survive]
  rfl

variable {log : List (Entry α)} {a : α} (n : Nat)

theorem pushed_split (a : α) :
    pushed (older ++ .push a :: newer) = pushed older ++ a :: pushed newer := by
  simp [pushed]

theorem mem_pushed_of_mem_survivors (h : a ∈ survivors log) : a ∈ pushed log := by
  induction log using reverseRecOn with
  | nil => cases h
  | append_singleton log e ih =>
    rw [survivors_concat] at h
    unfold pushed at ih ⊢
    rw [filterMap_append, mem_append]
    cases e with
    | push b =>
      rw [survive, mem_append, mem_singleton] at h
      rcases h with h | rfl
      · exact Or.inl (ih h)
      · exact Or.inr (by simp)
    | rollback n => exact Or.inl (ih (mem_of_mem_take h))

/-- An entry pushed once survives only if nothing after it reaches below it. -/
theorem excess_eq_zero_of_mem {older newer : List (Entry α)}
    (hOnce : a ∉ pushed older ∧ a ∉ pushed newer)
    (h : a ∈ survivors (older ++ .push a :: newer)) : excess newer = 0 := by
  by_contra hPos
  obtain ⟨k, hk⟩ := Nat.exists_eq_succ_of_ne_zero hPos
  have hSplit : older ++ Entry.push a :: newer = (older ++ [.push a]) ++ newer := by simp
  rw [hSplit, survivors_append, survivors_concat, survive, hk, rdrop_concat_succ, mem_append] at h
  rcases h with h | h
  · exact hOnce.1 (mem_pushed_of_mem_survivors (mem_of_mem_take h))
  · exact hOnce.2 (mem_pushed_of_mem_survivors h)

/-- An entry survives if nothing is left to be removed after it. -/
theorem survivors_cons_push (a : α) (rest : List (Entry α)) :
    survivors (.push a :: rest) = (if excess rest = 0 then [a] else []) ++ survivors rest := by
  have hSplit : survivors (.push a :: rest) = [a].rdrop (excess rest) ++ survivors rest :=
    survivors_append [.push a] rest
  rw [hSplit]
  cases excess rest with
  | zero => rfl
  | succ k =>
    simp [rdrop]

variable (rest : List (Entry α))

theorem survivors_cons_rollback :
    survivors (.rollback n :: rest) = survivors rest := by
  have hNone : survivors [Entry.rollback n] = ([] : List α) := by
    simp [survivors, survive]
  rw [← singleton_append, survivors_append, hNone]
  simp [rdrop]

theorem excess_append_of_eq_zero {newer : List (Entry α)} (h : excess newer = 0)
    (older : List (Entry α)) : excess (older ++ newer) = excess older := by
  induction older with
  | nil => exact h
  | cons e older ih =>
    match e with
    | .push _ | .rollback _ => rw [cons_append, excess, excess, ih]

/-- A survivor in the log: what survives before it, and after it. -/
theorem survivors_split {before after : List α} (h : survivors log = before ++ a :: after) :
    ∃ older newer, log = older ++ .push a :: newer ∧ survivors older = before ∧
      excess newer = 0 ∧ survivors newer = after := by
  induction log generalizing before with
  | nil => exact absurd h (by simp [survivors])
  | cons e rest ih =>
    match e with
    | .rollback n =>
      rw [survivors_cons_rollback] at h
      obtain ⟨older, newer, rfl, hOlder, hNewer⟩ := ih h
      exact ⟨.rollback n :: older, newer, rfl, by rw [survivors_cons_rollback, hOlder], hNewer⟩
    | .push b =>
      -- a survivor of the rest: whether `b` survives does not depend on what comes after it
      have hLater : ∀ kept, survivors rest = kept ++ a :: after →
          ∃ older newer, .push b :: rest = older ++ .push a :: newer ∧
            survivors older = (if excess rest = 0 then [b] else []) ++ kept ∧
            excess newer = 0 ∧ survivors newer = after := by
        intro kept hRest
        obtain ⟨older, newer, rfl, hOlder, hNewer, hAfter⟩ := ih hRest
        refine ⟨.push b :: older, newer, rfl, ?_, hNewer, hAfter⟩
        rw [survivors_cons_push, hOlder, excess_append_of_eq_zero (by rw [excess, hNewer])]
      rw [survivors_cons_push] at h
      split_ifs at h hLater with hKept
      · cases before with
        | nil =>
          obtain ⟨rfl, hRest⟩ := cons.inj h
          exact ⟨[], rest, rfl, rfl, hKept, hRest⟩
        | cons c before =>
          obtain ⟨rfl, hRest⟩ := cons.inj h
          exact hLater before hRest
      · exact hLater before h

/-! ## Entries that stand for several -/

section Expand

variable {β : Type*} (f : α → List β)

def expand (log : List (Entry α)) : List (Entry β) :=
  log.flatMap fun
    | .push a => (f a).map .push
    | .rollback n => [.rollback n]

theorem survivors_map_push (xs : List β) : survivors (xs.map Entry.push) = xs := by
  induction xs using reverseRecOn with
  | nil => rfl
  | append_singleton xs x ih =>
    rw [map_append, map_singleton, survivors_concat, ih]
    rfl

theorem excess_push_all (xs : List β) (log : List (Entry β)) :
    excess (xs.map Entry.push ++ log) = excess log - xs.length := by
  induction xs with
  | nil => rfl
  | cons x xs ih =>
    rw [map_cons, cons_append, excess, length_cons]
    omega

theorem excess_expand_push (a : α) (rest : List (Entry α)) :
    excess (expand f (.push a :: rest)) = excess (expand f rest) - (f a).length :=
  excess_push_all (f a) (expand f rest)

theorem excess_expand_rollback :
    excess (expand f (.rollback n :: rest)) = n + excess (expand f rest) :=
  rfl

theorem survivors_expand_push (a : α) (rest : List (Entry α)) :
    survivors (expand f (.push a :: rest)) =
      (f a).rdrop (excess (expand f rest)) ++ survivors (expand f rest) := by
  have hSplit : expand f (.push a :: rest) = (f a).map .push ++ expand f rest := rfl
  rw [hSplit, survivors_append, survivors_map_push]

theorem survivors_expand_rollback :
    survivors (expand f (.rollback n :: rest)) = survivors (expand f rest) :=
  survivors_cons_rollback n (expand f rest)

/-- When no entry stands for more than one, rollbacks reach at least as far. -/
theorem excess_le_excess_expand (h : ∀ a ∈ pushed log, (f a).length ≤ 1) :
    excess log ≤ excess (expand f log) := by
  induction log with
  | nil => exact Nat.le_refl _
  | cons e rest ih =>
    match e with
    | .push a =>
      obtain ⟨hFirst, hRest⟩ : (f a).length ≤ 1 ∧ ∀ b ∈ pushed rest, (f b).length ≤ 1 :=
        forall_mem_cons.mp h
      have hLe := ih hRest
      rw [excess, excess_expand_push]
      omega
    | .rollback n =>
      have hLe := ih h
      rw [excess, excess_expand_rollback]
      omega

/-- Rollbacks after a survivor that stands for something do not reach it when they count what the
entries stand for. -/
def CountsAlike (log : List (Entry α)) : Prop :=
  ∀ older a newer, log = older ++ .push a :: newer → f a ≠ [] → excess newer = 0 →
    excess (expand f newer) = 0

variable {f} {rest : List (Entry α)} {e : Entry α} (g : α → β)

theorem CountsAlike.tail (h : CountsAlike f (e :: rest)) :
    CountsAlike f rest := by
  intro older a newer hRest
  exact h (e :: older) a newer (by rw [hRest]; rfl)

theorem CountsAlike.cons (h : CountsAlike f rest)
    (hHead : ∀ a, e = .push a → f a ≠ [] → excess rest = 0 → excess (expand f rest) = 0) :
    CountsAlike f (e :: rest) := by
  intro older a newer hLog
  cases older with
  | nil =>
    obtain ⟨rfl, rfl⟩ := cons.inj hLog
    exact hHead a rfl
  | cons e' older =>
    obtain ⟨-, hRest⟩ := cons.inj hLog
    exact h older a newer hRest

/-- When no entry stands for more than one, counting what they stand for keeps at most what
counting the entries keeps. -/
theorem survivors_expand_sublist (hOne : ∀ a, (f a).length ≤ 1) (log : List (Entry α)) :
    (survivors (expand f log)).Sublist ((survivors log).flatMap f) := by
  induction log with
  | nil => exact .slnil
  | cons e rest ih =>
    match e with
    | .rollback n =>
      rw [survivors_expand_rollback, survivors_cons_rollback]
      exact ih
    | .push a =>
      have hLe : excess rest ≤ excess (expand f rest) := excess_le_excess_expand f fun b _ => hOne b
      rw [survivors_expand_push, survivors_cons_push, flatMap_append]
      refine List.Sublist.append ?_ ih
      by_cases hKept : excess rest = 0
      · rw [if_pos hKept, flatMap_singleton]
        exact take_sublist _ _
      · rw [rdrop_eq_nil (by have := hOne a; omega)]
        exact nil_sublist _

/-- **Both counts keep the same** if and only if none of the survivors is lost. -/
theorem survivors_expand_eq_iff (hOne : ∀ a, (f a).length ≤ 1) (log : List (Entry α)) :
    survivors (expand f log) = (survivors log).flatMap f ↔ CountsAlike f log := by
  induction log with
  | nil => exact ⟨fun _ older a newer hLog => by simp at hLog, fun _ => rfl⟩
  | cons e rest ih =>
    match e with
    | .rollback n =>
      rw [survivors_expand_rollback, survivors_cons_rollback, ih]
      exact ⟨fun h => h.cons fun a hPush => (nomatch hPush), CountsAlike.tail⟩
    | .push a =>
      have hLe : excess rest ≤ excess (expand f rest) := excess_le_excess_expand f fun b _ => hOne b
      have hSublist := survivors_expand_sublist hOne rest
      have hLength := hSublist.length_le
      rw [survivors_expand_push, survivors_cons_push, flatMap_append]
      by_cases hBoth : excess (expand f rest) = 0
      · -- neither count reaches the entry
        rw [hBoth, if_pos (by omega), rdrop_zero, flatMap_singleton, append_cancel_left_eq, ih]
        exact ⟨fun h => h.cons fun _ _ _ _ => hBoth, CountsAlike.tail⟩
      rw [rdrop_eq_nil (by have := hOne a; omega), nil_append]
      by_cases hKept : excess rest = 0
      · rw [if_pos hKept, flatMap_singleton]
        by_cases hEmpty : f a = []
        · rw [hEmpty, nil_append, ih]
          refine ⟨fun h => h.cons fun b hPush hNe => ?_, CountsAlike.tail⟩
          cases hPush
          exact absurd hEmpty hNe
        · -- only the entries' own count keeps it
          refine ⟨fun hEq => ?_, fun h => absurd (h [] a rest rfl hEmpty hKept) hBoth⟩
          have hPos : 0 < (f a).length := length_pos_iff.mpr hEmpty
          rw [hEq, length_append] at hLength
          omega
      · rw [if_neg hKept, flatMap_nil, nil_append, ih]
        exact ⟨fun h => h.cons fun _ _ _ hZero => absurd hZero hKept, CountsAlike.tail⟩

/-! Entries under another name -/

theorem excess_expand_singleton :
    excess (expand (fun a => [g a]) log) = excess log := by
  induction log with
  | nil => rfl
  | cons e rest ih =>
    match e with
    | .push a => rw [excess_expand_push, ih, excess, length_singleton]
    | .rollback n => rw [excess_expand_rollback, ih, excess]

theorem survivors_expand_singleton :
    survivors (expand (fun a => [g a]) log) = (survivors log).map g := by
  have hAlike : CountsAlike (fun a => [g a]) log := by
    intro older a newer _ _ hZero
    rwa [excess_expand_singleton]
  have hOne : ∀ a : α, [g a].length ≤ 1 := fun _ => Nat.le_refl 1
  rw [(survivors_expand_eq_iff hOne log).mpr hAlike]
  exact flatMap_pure_eq_map g (survivors log)

end Expand

/-! ## Running a state along the log -/

/-- A state with the snapshots taken before each remaining entry, newest first. -/
structure Tape (σ : Type*) where
  current : σ
  snapshots : List σ

/-- The snapshot a rollback of `n` entries goes back to. -/
def Tape.target (tape : Tape σ) (n : Nat) : Option σ :=
  tape.snapshots[min n tape.snapshots.length - 1]?

variable (apply : α → σ → σ) (restore : σ → σ)

/-- One entry of the log: `push` saves the state, `rollback` restores one. -/
def step (tape : Tape σ) : Entry α → Tape σ
  | .push a =>
    { current := apply a tape.current, snapshots := tape.current :: tape.snapshots }
  | .rollback 0 => tape
  | .rollback (n + 1) =>
    match tape.target (n + 1) with
    | none => tape
    | some snapshot =>
      { current := restore snapshot, snapshots := tape.snapshots.drop (n + 1) }

def run (tape : Tape σ) (log : List (Entry α)) : Tape σ :=
  log.foldl (step apply restore) tape

variable {apply restore}

theorem run_append (tape : Tape σ) (older newer : List (Entry α)) :
    run apply restore tape (older ++ newer) =
      run apply restore (run apply restore tape older) newer := by
  unfold run
  rw [foldl_append]

/-- What applying and restoring preserve holds along the whole run. -/
theorem run_forall {P : σ → Prop} {tape : Tape σ}
    (hApply : ∀ a ∈ pushed log, ∀ s, P s → P (apply a s)) (hRestore : ∀ s, P s → P (restore s))
    (hCurrent : P tape.current) (hSaved : ∀ s ∈ tape.snapshots, P s) :
    P (run apply restore tape log).current ∧
      ∀ s ∈ (run apply restore tape log).snapshots, P s := by
  refine foldlRecOn (motive := fun tape : Tape σ =>
    P tape.current ∧ ∀ s ∈ tape.snapshots, P s) log _
    ⟨hCurrent, hSaved⟩ fun tape hTape e he => ?_
  obtain ⟨hCurrent, hSaved⟩ := hTape
  cases e with
  | push a =>
    exact ⟨hApply a (mem_filterMap.mpr ⟨_, he, rfl⟩) _ hCurrent,
      forall_mem_cons.mpr ⟨hCurrent, hSaved⟩⟩
  | rollback n =>
    rcases n with _ | n
    · exact ⟨hCurrent, hSaved⟩
    rw [step]
    cases hTarget : tape.target (n + 1) with
    | none => exact ⟨hCurrent, hSaved⟩
    | some snapshot =>
      exact ⟨hRestore _ (hSaved _ (mem_of_getElem? hTarget)),
        fun s hs => hSaved s (mem_of_mem_drop hs)⟩

/-- The states a list of entries goes through, newest first, without the last. -/
def trail (apply : α → σ → σ) (start : σ) : List α → List σ
  | [] => []
  | a :: rest => trail apply (apply a start) rest ++ [start]

@[simp] theorem length_trail : (trail apply start xs).length = xs.length := by
  induction xs generalizing start with
  | nil => rfl
  | cons a rest ih => simp [trail, ih]

theorem trail_concat (a : α) : trail apply start (xs ++ [a]) =
      xs.foldl (fun s a => apply a s) start :: trail apply start xs := by
  induction xs generalizing start with
  | nil => rfl
  | cons b rest ih => simp [trail, ih]

theorem drop_trail : (trail apply start xs).drop n = trail apply start (xs.rdrop n) := by
  induction n generalizing xs with
  | zero => simp
  | succ n ih =>
    cases xs using reverseRecOn with
    | nil => simp [trail]
    | append_singleton xs a => rw [trail_concat, drop_succ_cons, ih, rdrop_concat_succ]

theorem getElem?_trail (hn : n < xs.length) : (trail apply start xs)[n]? =
      some ((xs.rdrop (n + 1)).foldl (fun s a => apply a s) start) := by
  induction n generalizing xs with
  | zero =>
    cases xs using reverseRecOn with
    | nil => cases hn
    | append_singleton xs a => simp [trail_concat]
  | succ n ih =>
    cases xs using reverseRecOn with
    | nil => cases hn
    | append_singleton xs a =>
      rw [trail_concat, rdrop_concat_succ]
      refine ih xs ?_
      simpa using hn

/-- **Exact restoring replays the survivors.** If `restore` does nothing to the
states the log goes back to, running the log gives the tape of its survivors. -/
theorem run_eq_foldl_survivors
    (hExact : ∀ older n newer, log = older ++ .rollback n :: newer →
      ∀ snapshot ∈ (run apply restore ⟨start, []⟩ older).snapshots, restore snapshot = snapshot) :
    run apply restore ⟨start, []⟩ log =
      { current := (survivors log).foldl (fun s a => apply a s) start
        snapshots := trail apply start (survivors log) } := by
  induction log using reverseRecOn with
  | nil => rfl
  | append_singleton log e ih =>
    have hOlder := ih fun older n newer hEq => hExact older n (newer ++ [e]) (by rw [hEq]; simp)
    rw [run_append, survivors_concat, hOlder]
    cases e with
    | push a => simp [run, step, survive, trail_concat]
    | rollback n =>
      have hRestore := hExact log n [] rfl
      rw [hOlder] at hRestore
      rcases n with _ | n
      · simp [run, step, survive]
      rcases hEmpty : survivors log with _ | ⟨a, rest⟩
      · simp [run, step, Tape.target, survive]
      rw [← hEmpty]
      have hPos : 0 < (survivors log).length := by rw [hEmpty]; simp
      obtain ⟨k, hk⟩ : ∃ k, min (n + 1) (survivors log).length = k + 1 :=
        ⟨min (n + 1) (survivors log).length - 1, by omega⟩
      have hTarget : Tape.target
          ⟨(survivors log).foldl (fun s a => apply a s) start,
            trail apply start (survivors log)⟩ (n + 1) =
          some (((survivors log).rdrop (n + 1)).foldl (fun s a => apply a s) start) := by
        have hDrop : (survivors log).rdrop (k + 1) = (survivors log).rdrop (n + 1) := by
          unfold rdrop
          congr 1
          omega
        unfold Tape.target
        simp only [length_trail, hk, Nat.add_sub_cancel]
        rw [getElem?_trail _ _ _ (by omega), hDrop]
      have hMem := mem_of_getElem? hTarget
      simp only [run, foldl_cons, foldl_nil, step, hTarget, survive]
      rw [hRestore _ hMem, drop_trail]

end UndoLog
