import Codex.History.Definitions
import Codex.History.Normalize
import Codex.Lib.Pairing

/-!
# Codex — removing the oldest item

`ContextManager::remove_first_item` with `remove_corresponding_for` of `normalize.rs`. A history
whose calls and outputs are paired off (`OneToOne`) loses its oldest item and, if that is a call
or an output, the item on the other side.

Which item is on the other side is `answers`, read in both directions (`linked`). Items without a
call id (a local shell call or a tool search that carries none) belong to no pair.

* `removeCorrespondingFor_eq` — what is removed, for every kind of item.
* `removeFirstItem_keeps_pairs` — any number of removals keeps the pairs.
-/

namespace Codex

open ResponseItem Pairing List

/-! ## Definitions -/

def removeFirstMatching (predicate : ResponseItem → Bool) (items : List ResponseItem) :
    List ResponseItem :=
  match items.findIdx? predicate with
  | some pos => items.eraseIdx pos
  | none => items

def removeCorrespondingFor (items : List ResponseItem) : ResponseItem → List ResponseItem
  | .functionCall _ _ _ callId =>
    removeFirstMatching (fun item => functionCallOutputId? item == some callId) items
  | .functionCallOutput callId _ =>
    match items.findIdx? fun item => functionCallId? item == some callId with
    | some pos => items.eraseIdx pos
    | none =>
      match items.findIdx? fun item => localShellCallId? item == some callId with
      | some pos => items.eraseIdx pos
      | none => items
  | .toolSearchCall (some callId) _ =>
    removeFirstMatching (fun item => toolSearchOutputId? item == some callId) items
  | .toolSearchOutput (some callId) _ _ =>
    removeFirstMatching (fun item => toolSearchCallId? item == some callId) items
  | .customToolCall callId _ _ =>
    removeFirstMatching (fun item => customToolCallOutputId? item == some callId) items
  | .customToolCallOutput callId _ _ =>
    removeFirstMatching (fun item => customToolCallId? item == some callId) items
  | .localShellCall (some callId) =>
    removeFirstMatching (fun item => functionCallOutputId? item == some callId) items
  | _ => items

def ContextManager.removeFirstItem (history : ContextManager) : ContextManager :=
  match history.items with
  | [] => history
  | removed :: items => { history with items := removeCorrespondingFor items removed }

/-! ## Pairs -/

namespace ResponseItem

/-- The id of a call, of any kind. -/
def callId? : ResponseItem → Option String
  | .functionCall _ _ _ callId => some callId
  | .customToolCall callId _ _ => some callId
  | .localShellCall callId => callId
  | .toolSearchCall callId _ => callId
  | _ => none

/-- The call id that an output carries, of any kind. -/
def outputId? : ResponseItem → Option String
  | .functionCallOutput callId _ => some callId
  | .customToolCallOutput callId _ _ => some callId
  | .toolSearchOutput callId _ _ => callId
  | _ => none

/-- One of the two answers the other. -/
def linked (x y : ResponseItem) : Bool := answers x y || answers y x

/-- Calls and outputs with an id. -/
def inPair (item : ResponseItem) : Bool := (callId? item).isSome || (outputId? item).isSome

end ResponseItem

/-- Every call id names one call and one output of the kind for it. -/
structure OneToOne (items : List ResponseItem) : Prop where
  answered : ∀ call ∈ items, (callId? call).isSome = true →
    items.countP (fun output => answers output call) = 1
  called : ∀ output ∈ items, (outputId? output).isSome = true →
    items.countP (fun call => answers output call) = 1

variable {items before after : List ResponseItem} {x y item : ResponseItem} {callId : String}

theorem isSome_callId? (item : ResponseItem) : (callId? item).isSome = (callSlot? item).isSome := by
  cases item with
  | localShellCall id | toolSearchCall id _ => cases id <;> rfl
  | _ => rfl

theorem isSome_outputId? (item : ResponseItem) :
    (outputId? item).isSome = (outputSlot? item).isSome := by
  cases item with
  | toolSearchOutput id status execution => cases id <;> rfl
  | _ => rfl

/-- An output answers, and a call is answered; no item is both. -/
theorem ids_of_answers (h : answers x y = true) :
    ((outputId? x).isSome = true ∧ (callId? x).isSome = false) ∧
      (callId? y).isSome = true ∧ (outputId? y).isSome = false := by
  obtain ⟨slot, hOutput, hCall⟩ := answers_iff.mp h
  rw [isSome_callId?, isSome_callId?, isSome_outputId?, isSome_outputId?, hOutput, hCall,
    (outputSlot?_of_callSlot? hCall).1]
  cases hBoth : callSlot? x with
  | none => exact ⟨⟨rfl, rfl⟩, rfl, rfl⟩
  | some slot' =>
    rw [(outputSlot?_of_callSlot? hBoth).1] at hOutput
    cases hOutput

theorem linked_of_call (h : (callId? x).isSome = true) : linked x y = answers y x := by
  have hNot : answers x y = false := by
    by_contra hAnswers
    rw [(ids_of_answers (eq_true_of_ne_false hAnswers)).1.2] at h
    cases h
  unfold linked
  rw [hNot, Bool.false_or]

theorem linked_of_output (h : (outputId? x).isSome = true) : linked x y = answers x y := by
  have hNot : answers y x = false := by
    by_contra hAnswers
    rw [(ids_of_answers (eq_true_of_ne_false hAnswers)).2.2] at h
    cases h
  unfold linked
  rw [hNot, Bool.or_false]

theorem linking_linked : Linking linked inPair where
  symm x y := Bool.or_comm _ _
  irrefl x := by
    cases hAnswers : answers x x with
    | false => rw [linked, hAnswers, Bool.or_false]
    | true =>
      have hIds := ids_of_answers hAnswers
      rw [hIds.2.1] at hIds
      cases hIds.1.2
  isEnd x y h := by
    unfold inPair
    rcases Bool.or_eq_true_iff.mp h with h | h
    · rw [(ids_of_answers h).1.1, Bool.or_true]
    · rw [(ids_of_answers h).2.1, Bool.true_or]

theorem oneToOne_iff_matched : OneToOne items ↔ Matched linked inPair items := by
  have hCall : ∀ call : ResponseItem, (callId? call).isSome = true →
      linked call = fun output => answers output call := fun _ h => funext fun _ => linked_of_call h
  have hOutput : ∀ output : ResponseItem, (outputId? output).isSome = true →
      linked output = answers output := fun _ h => funext fun _ => linked_of_output h
  constructor
  · intro h item hItem hPair
    rcases Bool.or_eq_true_iff.mp hPair with hId | hId
    · rw [hCall item hId]
      exact h.answered item hItem hId
    · rw [hOutput item hId]
      exact h.called item hItem hId
  · intro h
    refine ⟨fun call hMem hId => ?_, fun output hMem hId => ?_⟩
    · rw [← hCall call hId]
      exact h call hMem (by unfold inPair; rw [hId, Bool.true_or])
    · rw [← h output hMem (by unfold inPair; rw [hId, Bool.or_true]), hOutput output hId]

/-! ## What is removed -/

/-- Only the item at the place can be found. -/
theorem findIdx?_of_linked {predicate : ResponseItem → Bool}
    (hPredicate : ∀ z, predicate z = true → linked x z = true)
    (hFree : ∀ z ∈ before ++ after, linked x z = false) :
    (before ++ y :: after).findIdx? predicate = if predicate y then some before.length else none := by
  have hNone : ∀ z ∈ before ++ after, predicate z = false := by
    intro z hz
    by_contra hMatch
    have hLinked := hPredicate z (eq_true_of_ne_false hMatch)
    rw [hFree z hz] at hLinked
    cases hLinked
  obtain ⟨hBefore, hAfter⟩ := forall_mem_append.mp hNone
  rw [findIdx?_append, findIdx?_eq_none_iff.mpr hBefore, findIdx?_cons,
    findIdx?_eq_none_iff.mpr hAfter]
  split <;> simp

theorem eraseIdx_split : (before ++ y :: after).eraseIdx before.length = before ++ after := by
  rw [eraseIdx_append_of_length_le (le_refl _), Nat.sub_self]
  rfl

theorem removeFirstMatching_linked {id? : ResponseItem → Option String}
    (hId : ∀ z, id? z = some callId ↔ linked x z = true) (hy : linked x y = true)
    (hFree : ∀ z ∈ before ++ after, linked x z = false) :
    removeFirstMatching (fun item => id? item == some callId) (before ++ y :: after) =
      before ++ after := by
  unfold removeFirstMatching
  rw [findIdx?_of_linked (fun z hz => (hId z).mp (beq_iff_eq.mp hz)) hFree,
    if_pos (beq_iff_eq.mpr ((hId y).mpr hy))]
  exact eraseIdx_split

/-- **What goes with an item**: the one it is linked to, wherever that stands. -/
theorem removeCorrespondingFor_eq (hy : linked x y = true)
    (hFree : ∀ z ∈ before ++ after, linked x z = false) :
    removeCorrespondingFor (before ++ y :: after) x = before ++ after := by
  rcases Bool.or_eq_true_iff.mp hy with hAnswers | hAnswers
  · -- an output and its call
    obtain ⟨slot, hSlot, hCall⟩ := answers_iff.mp hAnswers
    have hLinked : ∀ z, linked x z = true ↔ callSlot? z = some slot := by
      intro z
      rw [linked_of_output (ids_of_answers hAnswers).1.1, answers_iff]
      simp [hSlot]
    unfold outputSlot? at hSlot
    split at hSlot
    · -- function calls are looked for first, then local shell calls
      cases hSlot
      rename_i callId output
      have hFind : ∀ callId? : ResponseItem → Option String,
          (∀ z, callId? z = some callId → callSlot? z = some (.function, callId)) →
          (before ++ y :: after).findIdx? (fun item => callId? item == some callId) =
            if callId? y == some callId then some before.length else none := fun callId? hId =>
        findIdx?_of_linked (fun z hz => (hLinked z).mpr (hId z (beq_iff_eq.mp hz))) hFree
      rw [removeCorrespondingFor, hFind functionCallId? fun z hz => (callId?_iff z _).1.mp (.inl hz),
        hFind localShellCallId? fun z hz => (callId?_iff z _).1.mp (.inr hz)]
      by_cases hId : functionCallId? y = some callId
      · rw [if_pos (beq_iff_eq.mpr hId)]
        exact eraseIdx_split
      · have hShell := ((callId?_iff y callId).1.mpr hCall).resolve_left hId
        rw [if_neg (by simpa using hId), if_pos (beq_iff_eq.mpr hShell)]
        exact eraseIdx_split
    · cases hSlot
      exact removeFirstMatching_linked (fun z => (callId?_iff z _).2.1.trans (hLinked z).symm) hy hFree
    · cases hSlot
      exact removeFirstMatching_linked (fun z => (callId?_iff z _).2.2.trans (hLinked z).symm) hy hFree
    · cases hSlot
  · -- a call and its output
    obtain ⟨slot, -, hSlot⟩ := answers_iff.mp hAnswers
    have hLinked : ∀ z, linked x z = true ↔ outputSlot? z = some slot := by
      intro z
      rw [linked_of_call (ids_of_answers hAnswers).2.1, answers_iff]
      simp [hSlot]
    unfold callSlot? at hSlot
    split at hSlot
    · cases hSlot
      exact removeFirstMatching_linked (fun z => (outputId?_iff z _).1.trans (hLinked z).symm) hy hFree
    · cases hSlot
      exact removeFirstMatching_linked (fun z => (outputId?_iff z _).1.trans (hLinked z).symm) hy hFree
    · cases hSlot
      exact removeFirstMatching_linked (fun z => (outputId?_iff z _).2.1.trans (hLinked z).symm) hy hFree
    · cases hSlot
      exact removeFirstMatching_linked (fun z => (outputId?_iff z _).2.2.trans (hLinked z).symm) hy hFree
    · cases hSlot

/-! ## Removals -/

/-- `rest` without the item that is linked to `removed`, if `removed` belongs to a pair. -/
def WithoutCounterpart (removed : ResponseItem) (rest left : List ResponseItem) : Prop :=
  if inPair removed then
    ∃ before counterpart after, rest = before ++ counterpart :: after ∧
      linked removed counterpart = true ∧ (∀ item ∈ before ++ after, linked removed item = false) ∧
      left = before ++ after
  else left = rest

variable {removed : ResponseItem} {rest : List ResponseItem} {history : ContextManager}
variable {left : List ResponseItem}

theorem WithoutCounterpart.sublist (h : WithoutCounterpart removed rest left) :
    left.Sublist rest := by
  unfold WithoutCounterpart at h
  split at h
  · obtain ⟨before, counterpart, after, rfl, -, -, rfl⟩ := h
    exact (Sublist.refl before).append (sublist_cons_self _ _)
  · rw [h]

theorem OneToOne.withoutCounterpart (h : OneToOne (removed :: rest))
    (hLeft : WithoutCounterpart removed rest left) :
    OneToOne left := by
  rw [oneToOne_iff_matched] at h ⊢
  unfold WithoutCounterpart at hLeft
  split at hLeft
  · obtain ⟨before, counterpart, after, rfl, hLinked, hFree, rfl⟩ := hLeft
    exact h.remove_pair linking_linked hLinked hFree
  · rename_i hPair
    rw [hLeft]
    exact h.tail linking_linked (eq_false_of_ne_true hPair)

theorem removeFirstItem_nil (h : history.items = []) : history.removeFirstItem = history := by
  unfold ContextManager.removeFirstItem
  rw [h]

section

variable (h : OneToOne history.items)
include h

/-- One removal. -/
theorem removeFirstItem_spec (hItems : history.items = removed :: rest) :
    WithoutCounterpart removed rest history.removeFirstItem.items := by
  unfold ContextManager.removeFirstItem
  rw [hItems] at h ⊢
  unfold WithoutCounterpart
  split
  · rename_i hPair
    obtain ⟨before, counterpart, after, rfl, hLinked, hFree⟩ :=
      (oneToOne_iff_matched.mp h).exists_partner linking_linked hPair
    exact ⟨before, counterpart, after, rfl, hLinked, hFree, removeCorrespondingFor_eq hLinked hFree⟩
  rename_i hPair
  -- an item that belongs to no pair takes nothing with it
  show removeCorrespondingFor rest removed = rest
  unfold removeCorrespondingFor
  split <;> first | rfl | exact absurd rfl hPair

theorem removeFirstItem_sublist :
    history.removeFirstItem.items.Sublist history.items := by
  cases hItems : history.items with
  | nil => rw [removeFirstItem_nil hItems, hItems]
  | cons removed rest =>
    exact (removeFirstItem_spec h hItems).sublist.trans (sublist_cons_self _ _)

theorem OneToOne.removeFirstItem :
    OneToOne history.removeFirstItem.items := by
  cases hItems : history.items with
  | nil => rwa [removeFirstItem_nil hItems]
  | cons removed rest => exact (hItems ▸ h).withoutCounterpart (removeFirstItem_spec h hItems)

/-- Any number of removals. -/
theorem OneToOne.iterate_removeFirstItem (n : Nat) :
    OneToOne (ContextManager.removeFirstItem^[n] history).items := by
  induction n generalizing history with
  | zero => exact h
  | succ n ih => exact ih h.removeFirstItem

end

theorem paired_of_oneToOne (h : OneToOne items) : Paired items where
  answered call hCall hIsCall := by
    rw [isCall_eq, ← isSome_callId?] at hIsCall
    have hOne := h.answered call hCall hIsCall
    exact countP_pos_iff.mp (hOne ▸ Nat.one_pos)
  called output hOutput hNeeds := by
    have hId : (outputId? output).isSome = true := by
      cases output with
      | toolSearchOutput id _ _ => cases id <;> first | rfl | cases hNeeds
      | _ => first | rfl | cases hNeeds
    have hOne := h.called output hOutput hId
    exact countP_pos_iff.mp (hOne ▸ Nat.one_pos)

/-- **Removing the oldest items.** From a history whose calls and outputs correspond one to one,
`remove_first_item` takes the first item and its counterpart and nothing else; what is left
corresponds one to one again, after any number of removals, so no call and no output is orphaned. -/
theorem removeFirstItem_keeps_pairs (history : ContextManager) (h : OneToOne history.items) :
    (∀ removed rest, history.items = removed :: rest →
      WithoutCounterpart removed rest history.removeFirstItem.items) ∧
    ((history.items.filterMap callId?).Nodup →
      (history.removeFirstItem.items.filterMap callId?).Nodup) ∧
    ∀ n, OneToOne (ContextManager.removeFirstItem^[n] history).items ∧
      Paired (ContextManager.removeFirstItem^[n] history).items := by
  refine ⟨fun removed rest => removeFirstItem_spec h, fun hNodup => ?_, fun n => ?_⟩
  · exact hNodup.sublist ((removeFirstItem_sublist h).filterMap _)
  · have hRun := h.iterate_removeFirstItem n
    exact ⟨hRun, paired_of_oneToOne hRun⟩

/-- A local shell call whose output stands before it, with another item between them. -/
theorem shell_call_goes_with_output :
    OneToOne [.functionCallOutput "a" (.fromText "ok".toList), .compaction [],
        .localShellCall (some "a")] ∧
      WithoutCounterpart (.functionCallOutput "a" (.fromText "ok".toList))
        [.compaction [], .localShellCall (some "a")]
        (ContextManager.removeFirstItem
          { ContextManager.new with
            items := [.functionCallOutput "a" (.fromText "ok".toList), .compaction [],
              .localShellCall (some "a")] }).items := by
  have hPairs : OneToOne [.functionCallOutput "a" (.fromText "ok".toList), .compaction [],
      .localShellCall (some "a")] := ⟨by decide, by decide⟩
  refine ⟨hPairs, ?_⟩
  exact (removeFirstItem_keeps_pairs
    { ContextManager.new with
      items := [.functionCallOutput "a" (.fromText "ok".toList), .compaction [],
        .localShellCall (some "a")] } hPairs).1 _ _ rfl

end Codex
