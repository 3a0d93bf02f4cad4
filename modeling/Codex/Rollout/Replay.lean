import Mathlib.Data.List.Nodup
import Codex.Rollout.Scan

/-!
# Codex — rollback as an undo log

The reconstruction of a rollout made of complete turns, against the undo log it
persists. A turn saves the history as it stands before it; a rollback marker goes
back to the history saved by the oldest turn it removes, minus context updates
that end it (`trimContextUpdates`).

The rebuilt history is the undo log's for every log whose newest compaction
survives; where there is nothing to trim, going back is exact and the result is
the replay of the surviving turns (`undoTape_eq_replay`). Two small logs show how
the plain reading fails: a trimmed context update, and the older turns lost with
a rolled-back compaction.
-/

namespace Codex

open UndoLog List Turn

variable {env : HistoryEnv}

/-- What a turn does to the history. -/
def applyTurn (t : Turn env) (history : List ResponseItem) : List ResponseItem :=
  replayFrom env history t.items

/-- The tape of an undo log, from an empty history. -/
def undoTape (log : List (Entry (Turn env))) : Tape (List ResponseItem) :=
  run applyTurn (trimContextUpdates env) ⟨[], []⟩ log

/-! ## Saved histories are marked by user messages -/

/-- Each saved history is what stands before a user message of the next newer
one, with no other user message after it. When `free`, the oldest has none. -/
def Marks (env : HistoryEnv) (free : Prop) : List ResponseItem → List (List ResponseItem) → Prop
  | current, [] => free → current.any (isUserTurnBoundary env) = false
  | current, saved :: older =>
    (∃ u tail, current = saved ++ u :: tail ∧ isUserTurnBoundary env u = true ∧
      tail.countP (isUserTurnBoundary env) = 0) ∧ Marks env free saved older

variable {free : Prop} {current history : List ResponseItem}
variable {log older newer : List (Entry (Turn env))} {item : RolloutItem} {t : Turn env}
variable {snapshots : List (List ResponseItem)} {k : Nat} (before : List RolloutItem)

/-- The `k`-th saved history is cut off by the `k + 1`-th newest user message. -/
theorem Marks.get (h : Marks env free current snapshots)
    (hk : k < snapshots.length) :
    ∃ u tail, current = snapshots[k] ++ u :: tail ∧ isUserTurnBoundary env u = true ∧
      tail.countP (isUserTurnBoundary env) = k ∧
      Marks env free snapshots[k] (snapshots.drop (k + 1)) := by
  induction k generalizing current snapshots with
  | zero =>
    cases snapshots with
    | nil => cases hk
    | cons saved older =>
      obtain ⟨⟨u, tail, hCurrent, hu, hTail⟩, hOlder⟩ := h
      exact ⟨u, tail, hCurrent, hu, hTail, hOlder⟩
  | succ k ih =>
    rcases snapshots with _ | ⟨saved, older⟩
    · cases hk
    obtain ⟨⟨u, tail, hCurrent, hu, hTail⟩, hOlder⟩ := h
    obtain ⟨v, middle, hSaved, hv, hMiddle, hRest⟩ := ih hOlder (Nat.lt_of_succ_lt_succ hk)
    refine ⟨v, middle ++ u :: tail, ?_, hv, ?_, hRest⟩
    · rw [hCurrent]
      nth_rewrite 1 [hSaved]
      simp
    · rw [countP_append, countP_cons, hMiddle, hTail, hu]
      simp

/-- Trimming never reaches the user message that marks the next saved history. -/
theorem Marks.trim (h : Marks env free current snapshots) :
    Marks env free (trimContextUpdates env current) snapshots := by
  cases snapshots with
  | nil =>
    intro hFree
    have hNone := h hFree
    rw [trimContextUpdates, hNone]
    exact hNone
  | cons saved older =>
    obtain ⟨⟨u, tail, rfl, hu, hTail⟩, hOlder⟩ := h
    refine ⟨⟨u, tail.rdropWhile (isContextUpdate env), trimContextUpdates_split hu saved tail, hu, ?_⟩,
      hOlder⟩
    rw [countP_rdropWhile_isContextUpdate, hTail]

/-! ## Replaying a log without compactions -/

theorem replayFrom_rollback (history : List ResponseItem) (n : Nat) :
    replayFrom env history [.eventMsg (.threadRolledBack n)] =
      (ContextManager.dropLastNUserTurns env { ContextManager.new with items := history } n).items :=
  rfl

variable {marked rest : List (List ResponseItem)}

/-- One marker: the code's cut and the undo log's restore agree, as long as the
marker stays within the saved histories that are marked, or these are all. -/
theorem replay_rollback
    (hMarks : Marks env free current marked) {n : Nat}
    (hWithin : (free ∧ rest = []) ∨ n ≤ marked.length) :
    ∃ marked', step (α := Turn env) applyTurn (trimContextUpdates env) ⟨current, marked ++ rest⟩
        (.rollback n) =
        ⟨replayFrom env current [.eventMsg (.threadRolledBack n)], marked' ++ rest⟩ ∧
      Marks env free (replayFrom env current [.eventMsg (.threadRolledBack n)]) marked' ∧
      marked.length - n ≤ marked'.length := by
  rw [replayFrom_rollback]
  rcases n with _ | n
  · exact ⟨marked, rfl, hMarks, Nat.sub_le _ _⟩
  by_cases hEmpty : marked = []
  · subst hEmpty
    obtain ⟨hFree, rfl⟩ := hWithin.resolve_right (Nat.not_succ_le_zero n)
    have hItems : (ContextManager.dropLastNUserTurns env
        { ContextManager.new with items := current } (n + 1)).items = current :=
      (dropLastNUserTurns_none _ (hMarks hFree)).1
    rw [hItems]
    exact ⟨[], rfl, hMarks, by simp⟩
  · -- back to the saved history that the marker means, or to the oldest
    have hPos : 0 < marked.length := length_pos_iff.mpr hEmpty
    obtain ⟨k, hMin⟩ : ∃ k, min (n + 1) marked.length = k + 1 :=
      Nat.exists_eq_succ_of_ne_zero (by omega)
    obtain ⟨u, tail, hCurrent, hu, hTail, hOlder⟩ := hMarks.get (k := k) (by omega)
    have hWithin' : (k = n ∧ n + 1 ≤ marked.length) ∨
        (free ∧ rest = [] ∧ k ≤ n ∧ marked.length = k + 1) := by
      by_cases hLe : n + 1 ≤ marked.length
      · exact .inl ⟨by omega, hLe⟩
      · obtain ⟨hFree, hRest⟩ := hWithin.resolve_right hLe
        exact .inr ⟨hFree, hRest, by omega, by omega⟩
    have hDrop : marked.drop (k + 1) = marked.drop (n + 1) ∧
        (marked ++ rest).drop (n + 1) = marked.drop (n + 1) ++ rest := by
      rcases hWithin' with ⟨rfl, hLe⟩ | ⟨-, rfl, hLe, hLen⟩
      · exact ⟨rfl, drop_append_of_le_length hLe⟩
      · simp [hLen, hLe]
    rw [hDrop.1] at hOlder
    have hCut : CutBefore env (n + 1) current marked[k] := by
      refine ⟨u, tail, hCurrent, hu, ?_⟩
      rcases hWithin' with ⟨rfl, -⟩ | ⟨hFree, -, hLe, hLen⟩
      · exact .inl (by rw [hTail])
      · rw [drop_eq_nil_of_le (by omega)] at hOlder
        exact .inr ⟨hOlder hFree, by omega⟩
    have hTarget : Tape.target ⟨current, marked ++ rest⟩ (n + 1) = some marked[k] := by
      have hIndex : min (n + 1) (marked ++ rest).length - 1 = k := by
        rw [length_append]
        rcases hWithin' with ⟨rfl, hLe⟩ | ⟨-, rfl, hLe, hLen⟩ <;> (try rw [length_nil]) <;> omega
      rw [Tape.target]
      simp only [hIndex]
      rw [List.getElem?_append_left (by omega), List.getElem?_eq_getElem (by omega)]
    rw [dropLastNUserTurns_eq hCut]
    refine ⟨marked.drop (n + 1), ?_, hOlder.trim, by rw [length_drop]⟩
    rw [step, hTarget]
    simp only [hDrop.2, ContextManager.cutTo]

/-- **Replaying forward runs the undo log**, for turns without compactions. -/
theorem replay_log (hNone : ∀ t ∈ pushed log, t.compaction = none)
    (hMarks : Marks env free current marked)
    (hWithin : (free ∧ rest = []) ∨ excess log ≤ marked.length) :
    replayFrom env current (rolloutOf log) =
      (run applyTurn (trimContextUpdates env) ⟨current, marked ++ rest⟩ log).current := by
  induction log generalizing current marked with
  | nil => rfl
  | cons e log ih =>
    cases e with
    | push t =>
      obtain ⟨hOwn, hLater⟩ := forall_mem_cons.mp hNone
      obtain ⟨tail, hTurn, hTail⟩ := replayFrom_turn t hOwn current
      have hMarks' : Marks env free (applyTurn t current) (current :: marked) :=
        ⟨⟨t.user, tail, hTurn, t.user_boundary, hTail⟩, hMarks⟩
      have hWithin' : (free ∧ rest = []) ∨ excess log ≤ (current :: marked).length := by
        refine hWithin.imp_right fun h => ?_
        rw [excess] at h
        rw [length_cons]
        omega
      rw [rolloutOf_cons_push, replayFrom_append]
      exact ih hLater hMarks' hWithin'
    | rollback n =>
      have hStep : (free ∧ rest = []) ∨ n ≤ marked.length := by
        refine hWithin.imp_right fun h => ?_
        rw [excess] at h
        omega
      obtain ⟨marked', hTape, hMarks', hLen⟩ := replay_rollback hMarks hStep
      have hWithin' : (free ∧ rest = []) ∨ excess log ≤ marked'.length := by
        refine hWithin.imp_right fun h => ?_
        rw [excess] at h
        omega
      rw [rolloutOf_cons_rollback, replayFrom_cons, run, foldl_cons, hTape]
      exact ih hNone hMarks' hWithin'

/-! ## The reconstruction -/

theorem not_turnContext_of_mem_rolloutOf (h : item ∈ rolloutOf log) (ctx : TurnContextItem) :
    item ≠ .turnContext ctx := by
  rintro rfl
  obtain ⟨e, -, hItem⟩ := mem_flatMap.mp h
  cases e with
  | rollback n => simp at hItem
  | push t =>
    simp only [items, mem_append, mem_cons] at hItem
    rcases hItem with (hItem | hItem) | hItem | hItem
    · cases hItem
    · cases isBodyItem_of_mem_body hItem
    · cases hItem
    · cases hItem

/-- The reconstruction in terms of the completed scan. -/
theorem reconstruct_history (hIdle : (scanRange env (rolloutOf log) 0 .new).Idle) :
    (reconstructHistoryFromRollout env (rolloutOf log)).history =
      replayFrom env ((scanRange env (rolloutOf log) 0 .new).baseReplacementHistory.getD [])
        ((rolloutOf log).drop (scanRange env (rolloutOf log) 0 .new).suffixStart) := by
  unfold reconstructHistoryFromRollout
  rw [scanBackward_eq_scanRange fun _ h => not_turnContext_of_mem_rolloutOf h]
  simp only [hIdle.1]
  rw [foldl_replayItem_items]
  cases (scanRange env (rolloutOf log) 0 .new).baseReplacementHistory <;> rfl

/-- Either there is no compaction, or there is a newest one. -/
theorem newest_compaction (log : List (Entry (Turn env))) :
    (∀ t ∈ pushed log, t.compaction = none) ∨
      ∃ older t newer history, log = older ++ .push t :: newer ∧ t.compaction = some history ∧
        ∀ u ∈ pushed newer, u.compaction = none := by
  induction log with
  | nil => exact Or.inl fun t h => by cases h
  | cons e log ih =>
    rcases ih with hNone | ⟨older, t, newer, history, rfl, hSome, hNewer⟩
    · cases e with
      | rollback n => exact Or.inl hNone
      | push t =>
        cases hOwn : t.compaction with
        | none => exact Or.inl (forall_mem_cons.mpr ⟨hOwn, hNone⟩)
        | some history => exact Or.inr ⟨[], t, log, history, rfl, hOwn, hNone⟩
    · exact Or.inr ⟨e :: older, t, newer, history, rfl, hSome, hNewer⟩

theorem replacementOf_of_mem_rolloutOf (hNone : ∀ t ∈ pushed log, t.compaction = none)
    (h : item ∈ rolloutOf log) : replacementOf item = none := by
  obtain ⟨e, he, hItem⟩ := mem_flatMap.mp h
  cases e with
  | rollback n =>
    rw [mem_singleton.mp hItem]
    rfl
  | push t =>
    have hTurn := hNone t (mem_filterMap.mpr ⟨_, he, rfl⟩)
    simp only [items, mem_append, mem_cons] at hItem
    rcases hItem with (rfl | hItem) | rfl | hItem
    · rfl
    · exact List.findSome?_eq_none_iff.mp hTurn item (mem_reverse.mpr hItem)
    · rfl
    · cases hItem

/-- The newest turn with a compaction. -/
def newestCompacted (log : List (Entry (Turn env))) : Option (Turn env) :=
  (pushed log).reverse.find? fun t => t.compaction.isSome

/-- The newest turn with a compaction, if any, is not rolled back. -/
def NewestCompactionSurvives (log : List (Entry (Turn env))) : Prop :=
  ∀ t, newestCompacted log = some t → t ∈ survivors log

/-- When the newest compaction survives, the scan ends with it as the base. -/
theorem scan_newest_base (older : List (Entry (Turn env))) (hSome : t.compaction = some history)
    (hNewer : ∀ u ∈ pushed newer, u.compaction = none) (hExcess : excess newer = 0) :
    (scanRange env (rolloutOf (older ++ .push t :: newer)) 0 .new).Idle ∧
    (scanRange env (rolloutOf (older ++ .push t :: newer)) 0 .new).baseReplacementHistory =
      some history := by
  have hStart : ReplayScan.new.Idle := ⟨rfl, rfl⟩
  rw [rolloutOf_append, rolloutOf_cons_push, scanRange_append, scanRange_append]
  obtain ⟨hIdle, hPending, hBase⟩ := scan_log_pending hNewer
    (0 + (rolloutOf older).length + t.items.length) hStart rfl
  obtain ⟨hIdle', -, hBase'⟩ := scan_turn t (0 + (rolloutOf older).length) hIdle
  rw [hPending, hExcess, hBase, hSome] at hBase'
  exact scan_log_base older 0 hIdle' hBase'

/-- The suffix starts no later than right after the newest compaction. -/
theorem scan_suffixStart_le (item : RolloutItem)
    {after : List RolloutItem} (hAfter : ∀ x ∈ after, replacementOf x = none) :
    (scanRange env (before ++ item :: after) 0 .new).suffixStart ≤ before.length + 1 := by
  rw [scanRange_append, scanRange_cons]
  have hNewest : (scanRange env after (0 + before.length + 1) .new).suffixStart = 0 :=
    scanRange_suffixStart_of_none hAfter _ _
  generalize hScan : scanRange env after (0 + before.length + 1) .new = scan at hNewest ⊢
  have hItem : (scan.scanItem env (0 + before.length) item).suffixStart ≤ before.length + 1 := by
    rcases scanItem_suffixStart env scan (0 + before.length) item with h | ⟨h, -⟩
    · omega
    · omega
  rcases scanRange_suffixStart_le env before 0 (scan.scanItem env (0 + before.length) item) with h | h
  · rw [h]
    exact hItem
  · omega

/-- Replaying from the compaction's history, starting right after the compaction
or anywhere before it, comes to the same. -/
theorem replayFrom_drop (after : List RolloutItem) (message : Text)
    (history : List ResponseItem) (hk : k ≤ before.length + 1) : replayFrom env history
        ((before ++ .compacted { message, replacementHistory := some history } :: after).drop k) =
      replayFrom env history after := by
  rcases Nat.lt_or_ge k (before.length + 1) with hLt | hGe
  · rw [drop_append_of_le_length (by omega), replayFrom_compacted]
  · have hEq : k = before.length + 1 := by omega
    rw [hEq, drop_append, drop_eq_nil_of_le (by omega)]
    simp

/-- Reconstruction from the newest compaction on. -/
theorem reconstruct_from_compaction (hSome : t.compaction = some history)
    (hNewer : ∀ u ∈ pushed newer, u.compaction = none) (hExcess : excess newer = 0)
    (start : List ResponseItem) :
    (reconstructHistoryFromRollout env (rolloutOf (older ++ .push t :: newer))).history =
      replayFrom env (applyTurn t start) (rolloutOf newer) := by
  obtain ⟨before, message, after, hBody, hAfter⟩ := body_of_compaction hSome
  obtain ⟨hIdle, hBase⟩ := scan_newest_base older hSome hNewer hExcess
  have hRest : ∀ x ∈ after ++ .eventMsg (.turnComplete t.turnId) :: rolloutOf newer,
      replacementOf x = none := by
    intro x hx
    rcases mem_append.mp hx with hx | hx
    · exact hAfter x hx
    · rcases mem_cons.mp hx with rfl | hx
      · rfl
      · exact replacementOf_of_mem_rolloutOf hNewer hx
  have hItems : t.items = (.eventMsg (.turnStarted t.turnId) :: before) ++
      .compacted { message, replacementHistory := some history } ::
        (after ++ [.eventMsg (.turnComplete t.turnId)]) := by
    rw [items, hBody]
    simp
  have hRollout : rolloutOf (older ++ .push t :: newer) =
      (rolloutOf older ++ .eventMsg (.turnStarted t.turnId) :: before) ++
        .compacted { message, replacementHistory := some history } ::
          (after ++ .eventMsg (.turnComplete t.turnId) :: rolloutOf newer) := by
    rw [rolloutOf_append, rolloutOf_cons_push, hItems]
    simp
  rw [reconstruct_history hIdle, hBase, Option.getD_some, hRollout,
    replayFrom_drop _ _ _ _ (scan_suffixStart_le _ _ hRest)]
  -- the turn itself starts over from the same history
  have hTurn : applyTurn t start =
      replayFrom env history (after ++ [.eventMsg (.turnComplete t.turnId)]) := by
    rw [applyTurn, hItems, replayFrom_compacted]
  rw [hTurn, ← replayFrom_append, append_assoc]
  rfl

/-- The rebuilt history is the undo log's. -/
theorem reconstruct_history_eq_undoTape (hIds : ((pushed log).map turnId).Nodup)
    (hKept : NewestCompactionSurvives log) :
    (reconstructHistoryFromRollout env (rolloutOf log)).history = (undoTape log).current := by
  rcases newest_compaction log with hNone | ⟨older, t, newer, history, rfl, hSome, hNewer⟩
  · -- no compaction: the whole rollout is replayed from an empty history
    have hStart : ReplayScan.new.Idle := ⟨rfl, rfl⟩
    obtain ⟨hIdle, -, hBase⟩ := scan_log_pending hNone 0 hStart rfl
    have hSuffix : (scanRange env (rolloutOf log) 0 .new).suffixStart = 0 :=
      scanRange_suffixStart_of_none (fun x hx => replacementOf_of_mem_rolloutOf hNone hx) _ _
    rw [reconstruct_history hIdle, hBase, hSuffix]
    have hMarks : Marks env True [] [] := fun _ => rfl
    exact replay_log hNone hMarks (Or.inl ⟨trivial, rfl⟩)
  · have hNone : (pushed newer).reverse.find? (fun u => u.compaction.isSome) = none := by
      rw [List.find?_eq_none]
      intro u hu
      rw [hNewer u (mem_reverse.mp hu)]
      decide
    have hSurvives := hKept t (by
      rw [newestCompacted, pushed_split, reverse_append, reverse_cons, append_assoc,
        List.find?_append, hNone]
      simp [hSome])
    have hOnce : t ∉ pushed older ∧ t ∉ pushed newer := by
      have hNodup := List.Nodup.of_map _ hIds
      rw [pushed_split, nodup_middle, nodup_cons, mem_append, not_or] at hNodup
      exact hNodup.1
    have hExcess := excess_eq_zero_of_mem hOnce hSurvives
    have hMarks : Marks env False (applyTurn t (undoTape older).current) [] := fun h => h.elim
    have hTape : undoTape (older ++ .push t :: newer) =
        run applyTurn (trimContextUpdates env) ⟨applyTurn t (undoTape older).current,
          [] ++ (undoTape older).current :: (undoTape older).snapshots⟩ newer := by
      rw [undoTape, run_append]
      rfl
    rw [reconstruct_from_compaction hSome hNewer hExcess (undoTape older).current, hTape]
    exact replay_log hNewer hMarks (Or.inr (by rw [hExcess]; exact Nat.zero_le _))

/-! ## Exact rollback -/

/-- Everything the turn may put into the history. -/
def Turn.recorded (t : Turn env) : List ResponseItem :=
  (t.lead.map Replacement.history).getD [] ++ t.user :: t.rest.flatMap fun
    | .response item => [item]
    | .compaction r => r.history

/-- The turn records no context update that a later rollback could trim. -/
def Turn.NoContextUpdates (t : Turn env) : Prop :=
  ∀ item ∈ t.recorded, isContextUpdate env item = false

/-- A history without context updates. -/
def Untrimmable (env : HistoryEnv) (history : List ResponseItem) : Prop :=
  ∀ item ∈ history, isContextUpdate env item = false

theorem trimContextUpdates_eq_self (h : Untrimmable env history) :
    trimContextUpdates env history = history := by
  unfold trimContextUpdates
  split
  · cases history using List.reverseRecOn with
    | nil => rfl
    | append_singleton older item =>
      rw [rdropWhile_concat_neg _ _ _ (by simp [h item (by simp)])]
  · rfl

theorem isContextUpdate_processItem (item : ResponseItem) :
    isContextUpdate env (processItem env item) = isContextUpdate env item := by
  cases item <;> rfl

/-- Replaying the item brings no context update into the history, and cuts nothing off. -/
def RolloutItem.Plain (env : HistoryEnv) : RolloutItem → Prop
  | .responseItem item => isContextUpdate env item = false
  | .compacted c => ∃ history, c.replacementHistory = some history ∧ Untrimmable env history
  | .eventMsg (.threadRolledBack _) => False
  | _ => True

theorem untrimmable_replayItem (h : Untrimmable env history) (hItem : item.Plain env) :
    Untrimmable env (replayFrom env history [item]) := by
  match item, hItem with
  | .responseItem item, hPlain =>
    obtain ⟨added, hAdded, hEach⟩ := replayFrom_response history item
    rw [hAdded]
    intro x hx
    rcases mem_append.mp hx with hx | hx
    · exact h x hx
    · rw [hEach x hx, isContextUpdate_processItem, hPlain]
  | .compacted ⟨_, _⟩, ⟨_, rfl, hHistory⟩ => exact hHistory
  | .eventMsg (.turnStarted _), _ | .eventMsg (.turnComplete _), _ | .eventMsg (.turnAborted _), _
  | .eventMsg (.userMessage _), _ | .eventMsg .other, _ | .sessionMeta, _ | .turnContext _, _ =>
    exact h

theorem untrimmable_replayFrom {items : List RolloutItem} (h : Untrimmable env history)
    (hItems : ∀ item ∈ items, item.Plain env) : Untrimmable env (replayFrom env history items) := by
  induction items generalizing history with
  | nil => exact h
  | cons item items ih =>
    rw [forall_mem_cons] at hItems
    rw [replayFrom_cons]
    exact ih (untrimmable_replayItem h hItems.1) hItems.2

theorem untrimmable_applyTurn (ht : t.NoContextUpdates) (h : Untrimmable env history) :
    Untrimmable env (applyTurn t history) := by
  refine untrimmable_replayFrom h fun item hItem => ?_
  simp only [items, body, mem_append, mem_cons, mem_map] at hItem
  rcases hItem with (rfl | hLead | rfl | rfl | ⟨entry, hEntry, rfl⟩) | rfl | hNil
  · trivial
  · cases hCase : t.lead with
    | none => simp [hCase] at hLead
    | some r =>
      simp only [hCase, Option.map_some, Option.toList_some, mem_singleton] at hLead
      rw [hLead]
      exact ⟨_, rfl, fun x hx => ht x (by simp [recorded, hCase, hx])⟩
  · exact ht _ (by simp [recorded])
  · trivial
  · -- what an entry of the turn records
    have hRecorded : ∀ x ∈ (match entry with
        | .response item => [item]
        | .compaction r => r.history), isContextUpdate env x = false := fun x hx =>
      ht x (mem_append_right _ (mem_cons_of_mem _ (mem_flatMap.mpr ⟨_, hEntry, hx⟩)))
    cases entry with
    | response item => exact hRecorded item (mem_singleton_self item)
    | compaction r => exact ⟨_, rfl, hRecorded⟩
  · trivial
  · cases hNil

/-- With nothing to trim, the undo log ends with the replay of its survivors. -/
theorem undoTape_eq_replay (hPlain : ∀ t ∈ pushed log, t.NoContextUpdates) :
    (undoTape log).current = replayFrom env [] ((survivors log).flatMap items) := by
  have hExact : run applyTurn (trimContextUpdates env) ⟨[], []⟩ log =
      { current := (survivors log).foldl (fun s t => applyTurn t s) []
        snapshots := trail applyTurn [] (survivors log) } := run_eq_foldl_survivors [] (by
      intro older n newer hLog snapshot hSnapshot
      refine trimContextUpdates_eq_self ((run_forall (P := Untrimmable env) ?_ ?_ ?_ ?_).2
        snapshot hSnapshot)
      · intro t ht s hs
        refine untrimmable_applyTurn (hPlain t ?_) hs
        rw [hLog, pushed, filterMap_append]
        exact mem_append_left _ ht
      · intro s hs
        rw [trimContextUpdates_eq_self hs]
        exact hs
      · exact fun x hx => by cases hx
      · exact fun x hx => by cases hx)
  have hFold : ∀ (ts : List (Turn env)) (start : List ResponseItem),
      ts.foldl (fun s t => applyTurn t s) start = replayFrom env start (ts.flatMap items) := by
    intro ts
    induction ts with
    | nil => exact fun _ => rfl
    | cons t ts ih =>
      intro start
      rw [foldl_cons, ih, flatMap_cons, replayFrom_append]
      rfl
  rw [undoTape, hExact, hFold]

/-- **Reconstruction follows the undo log.** For every log of complete turns with
distinct ids whose newest compaction survives, the rebuilt history is that of the
undo log: each turn saves the history before it, and each marker restores the one
saved by the oldest turn it removes, less the context updates that end it. If the
turns record no context updates, this is the replay of the surviving turns from
an empty history. -/
theorem reconstruct_eq_undo_log {log : List (Entry (Turn env))}
    (hIds : ((pushed log).map turnId).Nodup) (hKept : NewestCompactionSurvives log) :
    (reconstructHistoryFromRollout env (rolloutOf log)).history = (undoTape log).current ∧
      ((∀ t ∈ pushed log, t.NoContextUpdates) →
        (reconstructHistoryFromRollout env (rolloutOf log)).history =
          replayFrom env [] ((survivors log).flatMap items)) := by
  have hTape := reconstruct_history_eq_undoTape hIds hKept
  exact ⟨hTape, fun hPlain => hTape.trans (undoTape_eq_replay hPlain)⟩

/-! ## Where the plain reading fails -/

/-- An environment that recognises no injected fragments. -/
def HistoryEnv.plain : HistoryEnv :=
  { isContextualUserText := fun _ => false, isInterAgentJson := fun _ => false
    policyWithSerializationBudget := .tokens 12000 }

variable (turnId : String)

/-- A turn with a user message and further items. -/
def plainTurn (rest : List TurnEntry)
    (hRest : ∀ item, .response item ∈ rest → isUserTurnBoundary .plain item = false) :
    Turn HistoryEnv.plain :=
  { turnId, lead := none, user := userTextMessage turnId.toList, message := turnId.toList, rest
    user_boundary := rfl, rest_plain := hRest }

def personalityUpdate : ResponseItem :=
  .message none "developer" [.inputText "<personality_spec>".toList] none

/-- A turn that records a developer context update after its user message. -/
def updatingTurn : Turn HistoryEnv.plain :=
  plainTurn turnId [.response personalityUpdate] (by
    intro item hItem
    cases mem_singleton.mp hItem
    rfl)

/-- A turn that records nothing but its user message. -/
def bareTurn : Turn HistoryEnv.plain :=
  plainTurn turnId [] fun _ h => by cases h

/-- A turn that ends with a compaction to an empty history. -/
def compactingTurn : Turn HistoryEnv.plain :=
  plainTurn turnId [.compaction ⟨[], []⟩] fun _ h => by simp at h

def trimmedLog : List (Entry (Turn HistoryEnv.plain)) :=
  [.push (updatingTurn "a"), .push (bareTurn "b"), .rollback 1]

def lostLog : List (Entry (Turn HistoryEnv.plain)) :=
  [.push (bareTurn "a"), .push (compactingTurn "b"), .rollback 1]

/-- Rolling back the second of two turns trims the context update that the first
recorded after its user message; and rolling back a turn that compacted loses the
first turn, because the suffix that is replayed starts after the removed
compaction. -/
theorem rollback_departs_from_replay :
    ((reconstructHistoryFromRollout .plain (rolloutOf trimmedLog)).history =
        [userTextMessage ['a']] ∧
      replayFrom .plain [] ((survivors trimmedLog).flatMap items) =
        [userTextMessage ['a'], personalityUpdate]) ∧
    (reconstructHistoryFromRollout .plain (rolloutOf lostLog)).history = [] ∧
      replayFrom .plain [] ((survivors lostLog).flatMap items) =
        [userTextMessage ['a']] := by
  refine ⟨⟨?_, ?_⟩, ?_, ?_⟩ <;> decide

/-- A compacting turn that survives, followed by one that is rolled back. -/
def survivingLog : List (Entry (Turn HistoryEnv.plain)) :=
  [.push (bareTurn "a"), .push (compactingTurn "b"), .push (bareTurn "c"), .rollback 1]

theorem reconstruct_surviving_compaction :
    (reconstructHistoryFromRollout .plain (rolloutOf survivingLog)).history =
        (undoTape survivingLog).current ∧
      ((∀ t ∈ pushed survivingLog, t.NoContextUpdates) →
        (reconstructHistoryFromRollout .plain (rolloutOf survivingLog)).history =
          replayFrom .plain [] ((survivors survivingLog).flatMap items)) := by
  refine reconstruct_eq_undo_log (by decide) ?_
  intro t ht
  have hNewest : newestCompacted survivingLog = some (compactingTurn "b") := rfl
  have hSurvivors : survivors survivingLog = [bareTurn "a", compactingTurn "b"] := rfl
  rw [hNewest, Option.some.injEq] at ht
  rw [hSurvivors, ← ht]
  simp

end Codex
