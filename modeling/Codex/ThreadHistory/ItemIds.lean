import Codex.Lib.Numbering
import Codex.ThreadHistory.ExplicitTurns

/-!
# Codex — the ids of thread items

`next_item_id` numbers the items that come without an id. After a rollback the count goes on from
the number of items that are left, while other items have ids of their own and some of these are
put into turns that were finished long before.

The ids are a table with a row for each turn (`Codex.Lib.Numbering`). A hook prompt is pushed with
the id of its message, or a UUID; nothing keeps it from having the id of another item of the turn.

* `Inv.handleRolloutItem` — an item with an id of its own keeps the table in order.
* `item_ids_distinct` — in any rollout of such items no generated id is there twice, and no turn has
  an id twice.
-/

namespace Codex.ThreadHistory

open Numbering ThreadHistoryBuilder List ThreadHistoryBuilder

variable {Tool : Type} {env : ThreadEnv} {builder builder' : ThreadHistoryBuilder Tool}
variable {f : PendingTurn Tool → PendingTurn Tool} {item : ThreadItem Tool}

def ids (items : List (ThreadItem Tool)) : List String := items.map ThreadItem.id

/-- The ids in the turn that is open, if one is. -/
def openIds (builder : ThreadHistoryBuilder Tool) : List String :=
  (builder.currentTurn.map fun turn => ids turn.items).getD []

def doneIds (turns : List (Turn Tool)) : List (List String) := turns.map fun turn => ids turn.items

/-- The item is no hook prompt and no tool call, or its id is not one that the builder gives and,
for a hook prompt, not the id of an item of the open turn. -/
def OwnId (env : ThreadEnv) (builder : ThreadHistoryBuilder Tool) : ThreadRolloutItem Tool → Prop
  | .eventMsg (.item _ id _) => ∀ n, id ≠ itemId n
  | .responseItem (.message id role content _) =>
    role = "user" → parseHookPromptMessage env content ≠ none →
      (∀ n, id.getD (env.uuid builder.nextRolloutIndex) ≠ itemId n) ∧
        id.getD (env.uuid builder.nextRolloutIndex) ∉ openIds builder
  | _ => True

/-! ## The builder's table -/

theorem itemId_injective : Function.Injective itemId := by
  intro m n h
  have hDigits : Nat.toDigits 10 m = Nat.toDigits 10 n := by
    have hLists := congrArg String.toList h
    simpa [itemId] using hLists
  rw [← Nat.ofDigitChars_toDigits (n := m) (by decide) (le_refl 10), hDigits,
    Nat.ofDigitChars_toDigits (by decide) (le_refl 10)]

/-- The finished turns and the open one, in order. -/
def Inv (builder : ThreadHistoryBuilder Tool) : Prop :=
  Ok itemId (doneIds builder.turns ++ [openIds builder]) builder.nextItemIndex

/-- A change of anything but items. -/
theorem Inv.congr (h : Inv builder) (hDone : doneIds builder'.turns = doneIds builder.turns)
    (hOpen : openIds builder' = openIds builder)
    (hNext : builder'.nextItemIndex = builder.nextItemIndex) : Inv builder' := by
  unfold Inv
  rw [hDone, hOpen, hNext]
  exact h

theorem ids_getD_newTurn (env : ThreadEnv) (builder : ThreadHistoryBuilder Tool) :
    ids (builder.currentTurn.getD (builder.newTurn env none)).items = openIds builder := by
  unfold openIds
  cases builder.currentTurn <;> rfl

theorem Inv.modifyTurn (h : Inv builder)
    (hIds : ∀ turn, ids (f turn).items = ids turn.items) : Inv (builder.modifyTurn env f) :=
  h.congr rfl ((hIds _).trans (ids_getD_newTurn env builder)) rfl

/-- An id that is not the builder's goes to the end of the open turn. -/
theorem Inv.add (h : Inv builder) {id : String} (hForeign : ∀ n, id ≠ itemId n)
    (hNew : id ∉ openIds builder) (hDone : doneIds builder'.turns = doneIds builder.turns)
    (hOpen : openIds builder' = openIds builder ++ [id])
    (hNext : builder'.nextItemIndex = builder.nextItemIndex) : Inv builder' := by
  unfold Inv
  rw [hDone, hOpen, hNext]
  exact Ok.extend h hNew ⟨le_refl _, Nat.le_succ _⟩ fun n hn => absurd hn.symm (hForeign n)

theorem openIds_pushItem (env : ThreadEnv) (builder : ThreadHistoryBuilder Tool)
    (item : ThreadItem Tool) :
    openIds (builder.pushItem env item) = openIds builder ++ [item.id] := by
  rw [← ids_getD_newTurn env builder]
  exact map_append

theorem Inv.pushNextItem (h : Inv builder) {item : String → ThreadItem Tool}
    (hId : ∀ id, (item id).id = id) : Inv (builder.pushNextItem env item) := by
  have hOpen : openIds (builder.pushNextItem env item) =
      openIds builder ++ [itemId builder.nextItemIndex] := by
    rw [← hId (itemId builder.nextItemIndex)]
    exact openIds_pushItem env _ _
  unfold Inv
  rw [hOpen]
  exact Ok.number h itemId_injective

/-- An upsert keeps the ids, or adds a new one. -/
theorem ids_upsertTurnItem (items : List (ThreadItem Tool)) (item : ThreadItem Tool) :
    ids (upsertTurnItem items item) = ids items ∨
      item.id ∉ ids items ∧ ids (upsertTurnItem items item) = ids items ++ [item.id] := by
  unfold upsertTurnItem
  rcases modifyFirst_cases (fun existing => existing.id == item.id) (fun _ => item) items with
    ⟨hNone, hOthers⟩ | ⟨older, old, newer, rfl, hSame, hSome⟩
  · rw [hNone]
    refine .inr ⟨fun hMem => ?_, map_append⟩
    obtain ⟨other, hOther, hId⟩ := mem_map.mp hMem
    exact hOthers other hOther (beq_iff_eq.mpr hId)
  · rw [hSome]
    simp [ids, beq_iff_eq.mp hSame]

theorem Inv.upsertOpen (h : Inv builder) {items : List (ThreadItem Tool)}
    (hItems : ids items = openIds builder)
    (hForeign : ∀ n, item.id ≠ itemId n) (hDone : doneIds builder'.turns = doneIds builder.turns)
    (hOpen : openIds builder' = ids (upsertTurnItem items item))
    (hNext : builder'.nextItemIndex = builder.nextItemIndex) : Inv builder' := by
  rcases ids_upsertTurnItem items item with hSame | ⟨hNew, hAdded⟩
  · exact h.congr hDone (hOpen.trans (hSame.trans hItems)) hNext
  · rw [hItems] at hNew hAdded
    exact h.add hForeign hNew hDone (hOpen.trans hAdded) hNext

theorem Inv.handleItem (h : Inv builder)
    (hForeign : ∀ n, item.id ≠ itemId n) (turnId : Option String) :
    Inv (builder.handleItem env turnId item) := by
  match turnId with
  | none => exact h.upsertOpen (ids_getD_newTurn env builder) hForeign rfl rfl rfl
  | some turnId =>
    show Inv (builder.upsertItemInTurnId turnId item)
    unfold upsertItemInTurnId
    split
    · rename_i turn hFilter
      have hTurn := (Option.filter_eq_some_iff.mp hFilter).1
      have hItems : ids turn.items = openIds builder := by simp [openIds, hTurn]
      exact h.upsertOpen hItems hForeign rfl rfl rfl
    · -- an item that comes late, for a turn that is finished
      rcases modifyFirst_cases (fun turn => turn.id == turnId)
        (fun turn => { turn with items := upsertTurnItem turn.items item }) builder.turns with
        ⟨hNone, -⟩ | ⟨older, turn, newer, hTurns, -, hSome⟩
      · rw [hNone]
        exact h
      · rw [hSome]
        unfold Inv doneIds at h ⊢
        rw [hTurns, map_append, append_assoc] at h
        rw [Option.getD_some, map_append, map_cons, append_assoc]
        rcases ids_upsertTurnItem turn.items item with hSame | ⟨hNew, hAdded⟩
        · rw [hSame]
          exact h
        · rw [hAdded]
          exact Ok.extend h hNew ⟨le_refl _, Nat.le_succ _⟩ fun n hn => absurd hn.symm (hForeign n)

/-! ## Turns -/

theorem Inv.finishCurrentTurn (h : Inv builder) : Inv builder.finishCurrentTurn := by
  unfold ThreadHistoryBuilder.finishCurrentTurn
  rcases hTurn : builder.currentTurn with _ | turn
  · exact h
  have hOpen : openIds builder = ids turn.items := by simp [openIds, hTurn]
  dsimp only
  split
  · rename_i hDropped
    refine h.congr rfl ?_ rfl
    simp only [Bool.and_eq_true, List.isEmpty_iff] at hDropped
    rw [hOpen, hDropped.1.1]
    rfl
  · unfold Inv at h ⊢
    rw [hOpen] at h
    simpa [doneIds, openIds] using h.concat_nil

theorem Inv.updateCurrentTurn (h : Inv builder)
    (hItems : ∀ turn, (f turn).items = turn.items) : Inv (builder.updateCurrentTurn f) := by
  refine h.congr rfl ?_ rfl
  unfold ThreadHistoryBuilder.updateCurrentTurn openIds
  cases builder.currentTurn with
  | none => rfl
  | some turn => exact congrArg ids (hItems turn)

theorem Inv.of_modifyFirst (h : Inv builder) {p : Turn Tool → Bool} {f : Turn Tool → Turn Tool}
    {turns : List (Turn Tool)} (hSome : modifyFirst p f builder.turns = some turns)
    (hItems : ∀ turn, (f turn).items = turn.items) : Inv { builder with turns } := by
  refine h.congr ?_ rfl rfl
  rcases modifyFirst_cases p f builder.turns with
    ⟨hNone, -⟩ | ⟨older, turn, newer, hTurns, -, hFound⟩
  · rw [hNone] at hSome
    cases hSome
  · rw [hFound] at hSome
    cases hSome
    simp [doneIds, hTurns, hItems]

theorem openIds_finishCurrentTurn (builder : ThreadHistoryBuilder Tool) :
    openIds builder.finishCurrentTurn = [] := by
  unfold finishCurrentTurn openIds
  split
  · simp [*]
  · split <;> rfl

/-- The count goes on from the items that are left. -/
theorem Inv.handleThreadRollback (h : Inv builder) (numTurns : Nat) :
    Inv (builder.handleThreadRollback numTurns) := by
  have hDone := h.finishCurrentTurn
  have hNone := openIds_finishCurrentTurn builder
  unfold ThreadHistoryBuilder.handleThreadRollback
  generalize builder.finishCurrentTurn = done at hDone hNone
  have hTurns : (if numTurns ≥ done.turns.length then []
      else done.turns.take (done.turns.length - numTurns)) =
      done.turns.take (done.turns.length - numTurns) := by
    split
    · rw [Nat.sub_eq_zero_of_le ‹_›, take_zero]
    · rfl
  have hRows : (doneIds done.turns ++ [openIds done]).take (done.turns.length - numTurns) =
      doneIds (done.turns.take (done.turns.length - numTurns)) := by
    rw [take_append_of_le_length (by simp [doneIds])]
    exact map_take.symm
  have hLeft := hDone.take (done.turns.length - numTurns)
  rw [hRows] at hLeft
  dsimp only
  rw [hTurns]
  have hCount : ∀ turns : List (Turn Tool), (doneIds turns).flatten.length =
      (turns.map fun turn => turn.items.length).sum := by
    intro turns
    simp [doneIds, ids, Function.comp_def]
  rw [hCount] at hLeft
  show Ok itemId (_ ++ [openIds done]) _
  rw [hNone]
  exact hLeft.concat_nil

/-! ## Runs -/

theorem Inv.handleReasoning (h : Inv builder) (text : Text)
    (extend : List Text × List Text → List Text × List Text) :
    Inv (builder.handleReasoning env text extend) := by
  unfold ThreadHistoryBuilder.handleReasoning
  split
  · exact h
  dsimp only
  split
  · rename_i id summary content hLast
    -- the reasoning that ends the turn keeps its id
    refine h.congr rfl ?_ rfl
    rw [← ids_getD_newTurn env builder]
    conv_rhs => rw [← dropLast_append_getLast? _ hLast]
    simp [openIds, ids, ThreadItem.id]
  · exact h.pushNextItem fun _ => rfl

theorem Inv.handleEvent (h : Inv builder) {event : ThreadEvent Tool}
    (hOwn : OwnId env builder (.eventMsg event)) : Inv (builder.handleEvent env event) := by
  cases event with
  | userMessage payload =>
    show Inv (builder.handleUserMessage env payload)
    unfold handleUserMessage
    split
    · exact h.finishCurrentTurn.pushNextItem fun _ => rfl
    · exact h.pushNextItem fun _ => rfl
  | agentMessage payload =>
    show Inv (builder.handleAgentMessage env payload.message _ _)
    unfold handleAgentMessage
    split
    · exact h
    · exact h.pushNextItem fun _ => rfl
  | agentReasoning text | agentReasoningRawContent text => exact h.handleReasoning text _
  | item turnId id tool =>
    have hForeign : ∀ n, (ThreadItem.tool id tool).id ≠ itemId n := hOwn
    exact h.handleItem hForeign turnId
  | contextCompacted | enteredReviewMode _ | exitedReviewMode _ => exact h.pushNextItem fun _ => rfl
  | error affectsTurnStatus =>
    show Inv (builder.handleError affectsTurnStatus)
    unfold handleError
    split
    · exact h.updateCurrentTurn fun _ => rfl
    · exact h
  | threadRolledBack numTurns => exact h.handleThreadRollback numTurns
  | turnAborted turnId =>
    show Inv (builder.handleTurnAborted turnId)
    unfold handleTurnAborted
    split
    · exact h.updateCurrentTurn fun _ => rfl
    split
    · exact h.updateCurrentTurn fun _ => rfl
    split
    · next hFound => exact h.of_modifyFirst hFound fun _ => rfl
    · exact h.updateCurrentTurn fun _ => rfl
  | turnStarted turnId =>
    exact h.finishCurrentTurn.congr rfl (openIds_finishCurrentTurn builder).symm rfl
  | turnComplete turnId =>
    show Inv (builder.handleTurnComplete turnId)
    have hCurrent := (h.updateCurrentTurn (f := fun turn =>
      { turn with status := turn.status.markCompleted }) fun _ => rfl).finishCurrentTurn
    unfold handleTurnComplete
    split
    · exact hCurrent
    split
    · next hFound => exact h.of_modifyFirst hFound fun _ => rfl
    · exact hCurrent
  | other => exact h

/-- **One item of the rollout** keeps the ids in order, if it has an id of its own. -/
theorem Inv.handleRolloutItem (h : Inv builder) {item : ThreadRolloutItem Tool}
    (hOwn : OwnId env builder item) : Inv (builder.handleRolloutItem env item) := by
  unfold ThreadHistoryBuilder.handleRolloutItem
  have hNumbered : Inv { builder with
      currentRolloutIndex := builder.nextRolloutIndex
      nextRolloutIndex := builder.nextRolloutIndex + 1 } := h
  cases item with
  | eventMsg event => exact hNumbered.handleEvent (by cases event <;> exact hOwn)
  | compacted item => exact hNumbered.modifyTurn fun _ => rfl
  | sessionMeta | turnContext _ => exact h
  | responseItem item =>
    dsimp only
    unfold handleResponseItem
    split
    · split
      · exact h
      rename_i hRole
      split
      · exact h
      · rename_i hPrompt
        obtain ⟨hForeign, hNew⟩ := hOwn (not_not.mp hRole) (by simp [hPrompt])
        exact hNumbered.add hForeign hNew rfl (openIds_pushItem env _ _) rfl
    · exact h

/-- Every item of the rollout has an id of its own when it comes. -/
def OwnIds (env : ThreadEnv) : ThreadHistoryBuilder Tool → List (ThreadRolloutItem Tool) → Prop
  | _, [] => True
  | builder, item :: items =>
    OwnId env builder item ∧ OwnIds env (builder.handleRolloutItem env item) items

theorem Inv.run {items : List (ThreadRolloutItem Tool)} (h : Inv builder)
    (hOwn : OwnIds env builder items) :
    Inv (items.foldl (ThreadHistoryBuilder.handleRolloutItem env) builder) := by
  induction items generalizing builder with
  | nil => exact h
  | cons item items ih => exact ih (h.handleRolloutItem hOwn.1) hOwn.2

/-- **Item ids.** If every item of a rollout comes with an id of its own, no generated id is shown
twice in the thread, and no turn shows an id twice. -/
theorem item_ids_distinct (env : ThreadEnv) (items : List (ThreadRolloutItem Tool))
    (hOwn : OwnIds env .new items) :
    (∀ n, ((buildTurnsFromRolloutItems env items).flatMap fun turn => ids turn.items).count
        (itemId n) ≤ 1) ∧
      ∀ turn ∈ buildTurnsFromRolloutItems env items, (ids turn.items).Nodup := by
  have hNew : Inv (.new : ThreadHistoryBuilder Tool) := by
    show Ok itemId ([] ++ [[]]) 1
    exact Ok.concat_nil ⟨by simp, by simp, by simp, by simp, le_refl _⟩
  have hDone := (hNew.run hOwn).finishCurrentTurn
  constructor
  · intro n
    have hUnique := hDone.unique n
    rw [flatten_append, count_append] at hUnique
    exact (Nat.le_add_right _ _).trans hUnique
  · intro turn hTurn
    exact hDone.nodup _ (mem_append_left _ (mem_map_of_mem hTurn))

/-- Every text is a hook prompt. -/
def promptEnv : ThreadEnv where
  parseHookPromptFragment text := some ⟨text, "run"⟩
  uuid _ := "uuid"

def hookPrompt (id : String) : ThreadRolloutItem Unit :=
  .responseItem (.message (some id) "user" [.inputText []] none)

/-- A turn is taken back, and its numbers are given again. -/
def rolledBack : List (ThreadRolloutItem Unit) :=
  [.eventMsg (.agentMessage ⟨['a'], none, none⟩), .eventMsg (.turnStarted "turn"),
    hookPrompt "hook", .eventMsg (.agentMessage ⟨['b'], none, none⟩),
    .eventMsg (.threadRolledBack 1), .eventMsg (.agentMessage ⟨['c'], none, none⟩)]

theorem rolledBack_distinct : OwnIds promptEnv .new rolledBack ∧
    (buildTurnsFromRolloutItems promptEnv rolledBack).map (fun turn => ids turn.items) =
      [["item-1"], ["item-2"]] ∧
    ∀ turn ∈ buildTurnsFromRolloutItems promptEnv rolledBack, (ids turn.items).Nodup := by
  have hOwn : OwnIds promptEnv .new rolledBack := by
    refine ⟨trivial, trivial, fun _ _ => ⟨fun n h => ?_, by decide⟩, trivial, trivial, trivial,
      trivial⟩
    have hFirst := congrArg (fun id => id.toList.head?) h
    simp [itemId] at hFirst
  exact ⟨hOwn, by decide, (item_ids_distinct promptEnv rolledBack hOwn).2⟩

/-- Two hook prompts with one id are both shown under it. -/
theorem hook_id_twice : (∀ item ∈ [hookPrompt "hook", hookPrompt "hook"], HasForeignId item) ∧
    (buildTurnsFromRolloutItems promptEnv [hookPrompt "hook", hookPrompt "hook"]).map
      (fun turn => ids turn.items) = [["hook", "hook"]] :=
  ⟨by simp [hookPrompt, HasForeignId], by decide⟩

end Codex.ThreadHistory
