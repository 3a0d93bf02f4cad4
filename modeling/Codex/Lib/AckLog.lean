import Mathlib.Data.List.Nodup

/-!
# Logs of sent and acknowledged items

Items are sent and stay outstanding until an acknowledgement comes that covers them. An
acknowledgement covers what was sent before it, never what is sent later.

* `outstanding` are the items without a later acknowledgement that covers them, in the order
  in which they were sent.
* `outstanding_append_sent` and `outstanding_append_acked` are how a sender keeps track of them:
  an acknowledgement is applied to what is outstanding and forgotten.
* `mem_outstanding_iff` is what that means for one item, if no item is sent twice.
-/

namespace AckLog

open List

variable {α β : Type*} (items : List α)

inductive Entry (α β : Type*) where
  | sent (item : α)
  | acked (ack : β)

/-- Every item ever sent. -/
def sent (log : List (Entry α β)) : List α :=
  log.filterMap fun
    | .sent item => some item
    | .acked _ => none

/-- Every acknowledgement. -/
def acks (log : List (Entry α β)) : List β :=
  log.filterMap fun
    | .sent _ => none
    | .acked ack => some ack

variable (log later : List (Entry α β))

@[simp] theorem sent_append :
    sent (log ++ later) = sent log ++ sent later :=
  filterMap_append

@[simp] theorem acks_append :
    acks (log ++ later) = acks log ++ acks later :=
  filterMap_append

@[simp] theorem sent_map_sent :
    sent (items.map fun item => (Entry.sent item : Entry α β)) = items := by
  induction items with
  | nil => rfl
  | cons item items ih => exact congrArg (item :: ·) ih

@[simp] theorem acks_map_sent :
    acks (items.map fun item => (Entry.sent item : Entry α β)) = [] := by
  induction items with
  | nil => rfl
  | cons item items ih => exact ih

variable (covers : β → α → Bool)

/-- What was sent and not acknowledged afterwards. -/
def outstanding : List (Entry α β) → List α
  | [] => []
  | .sent item :: later =>
    if (acks later).any (covers · item) then outstanding later else item :: outstanding later
  | .acked _ :: later => outstanding later

/-- The items that a list of acknowledgements leaves. -/
def uncovered (acks : List β) (items : List α) : List α :=
  items.filter fun item => !acks.any (covers · item)

theorem outstanding_append : outstanding covers (log ++ later) =
      uncovered covers (acks later) (outstanding covers log) ++ outstanding covers later := by
  induction log with
  | nil => rfl
  | cons entry log ih =>
    match entry with
    | .acked ack => exact ih
    | .sent item =>
      rw [cons_append, outstanding, outstanding, acks_append, ih]
      unfold uncovered
      by_cases hBefore : (acks log).any (covers · item) = true
      · simp [hBefore]
      · by_cases hLater : (acks later).any (covers · item) = true
        · simp [hBefore, hLater]
        · simp [hBefore, hLater]

theorem outstanding_map_sent :
    outstanding covers (items.map fun item => (Entry.sent item : Entry α β)) = items := by
  induction items with
  | nil => rfl
  | cons item items ih =>
    rw [map_cons, outstanding, acks_map_sent, ih]
    rfl

variable (log : List (Entry α β))

theorem outstanding_append_sent (items : List α) :
    outstanding covers (log ++ items.map fun item => (Entry.sent item : Entry α β)) =
      outstanding covers log ++ items := by
  rw [outstanding_append, outstanding_map_sent]
  simp [uncovered]

theorem outstanding_append_acked (ack : β) :
    outstanding covers (log ++ [.acked ack]) =
      (outstanding covers log).filter fun item => !covers ack item := by
  rw [outstanding_append]
  simp [uncovered, acks, outstanding]

theorem outstanding_sublist_sent :
    (outstanding covers log).Sublist (sent log) := by
  induction log with
  | nil => exact .refl _
  | cons entry log ih =>
    match entry with
    | .acked ack => exact ih
    | .sent item =>
      rw [outstanding]
      split
      · exact ih.cons item
      · exact ih.cons_cons item

/-- An item that is sent once is outstanding as long as nothing after it covers it. -/
theorem mem_outstanding_iff {before after : List (Entry α β)} {item : α}
    (hNodup : (sent (before ++ .sent item :: after)).Nodup) :
    item ∈ outstanding covers (before ++ .sent item :: after) ↔
      ∀ ack ∈ acks after, covers ack item = false := by
  rw [sent_append, nodup_append] at hNodup
  obtain ⟨-, hAfter, hDisjoint⟩ := hNodup
  have hNotBefore : item ∉ sent before := fun hMem =>
    hDisjoint item hMem item mem_cons_self rfl
  have hNotAfter : item ∉ sent after := (nodup_cons.mp hAfter).1
  have hOnly : item ∈ outstanding covers (before ++ .sent item :: after) ↔
      item ∈ outstanding covers (.sent item :: after) := by
    rw [outstanding_append, mem_append]
    refine or_iff_right ?_
    intro hMem
    exact hNotBefore ((outstanding_sublist_sent covers before).subset (mem_filter.mp hMem).1)
  rw [hOnly, outstanding]
  by_cases hCovered : (acks after).any (covers · item) = true
  · rw [if_pos hCovered]
    obtain ⟨ack, hAck, hCovers⟩ := any_eq_true.mp hCovered
    constructor
    · intro hMem
      exact absurd ((outstanding_sublist_sent covers after).subset hMem) hNotAfter
    · intro hNone
      rw [hNone ack hAck] at hCovers
      cases hCovers
  · rw [if_neg hCovered]
    refine iff_of_true mem_cons_self ?_
    intro ack hAck
    by_contra hCovers
    exact hCovered (any_eq_true.mpr ⟨ack, hAck, by simpa using hCovers⟩)

end AckLog
