import Mathlib.Data.List.Infix

/-!
# Overlays on a tree

Layers are put over a tree one after the other, each at a node and hiding whatever
is below it. A node shows the *last* layer at or above it, wherever that layer sits:
unlike a nearest rule, a later layer at a higher node covers a lower one. Nodes are
lists (the names from the root), so "at or above" is list prefix.
-/

namespace Overlay

variable {α β : Type*}

/-- Some layer sits at or above `p`. -/
def Covers (layers : List (List α × β)) (p : List α) : Prop :=
  ∃ layer ∈ layers, layer.1 <+: p

variable [DecidableEq α] {lower upper layers : List (List α × β)} {layer : List α × β} {p : List α}

/-- The layer that `p` shows. -/
def top (layers : List (List α × β)) (p : List α) : Option (List α × β) :=
  (layers.filter fun layer => layer.1.isPrefixOf p).getLast?

theorem mem_of_top (h : top layers p = some layer) : layer ∈ layers ∧ layer.1 <+: p := by
  have hMem := List.mem_of_getLast? h
  rwa [List.mem_filter, List.isPrefixOf_iff_prefix] at hMem

theorem top_eq_none_iff : top layers p = none ↔ ¬Covers layers p := by
  unfold top Covers
  simp

theorem top_append : top (lower ++ upper) p = (top upper p).or (top lower p) := by
  unfold top
  rw [List.filter_append, List.getLast?_append]

/-- Layers that do not cover `p` change nothing there. -/
theorem top_append_of_not_covers (h : ¬Covers upper p) : top (lower ++ upper) p = top lower p := by
  rw [top_append, top_eq_none_iff.mpr h, Option.none_or]

/-- Layers that cover `p` hide everything put there before. -/
theorem top_append_of_covers (h : Covers upper p) : top (lower ++ upper) p = top upper p := by
  rw [top_append]
  cases hTop : top upper p with
  | none => exact absurd h (top_eq_none_iff.mp hTop)
  | some layer => rfl

/-- The last element with a property splits the list. -/
theorem exists_last {γ : Type*} {P : γ → Prop} {xs : List γ} (h : ∃ x ∈ xs, P x) :
    ∃ before x after, xs = before ++ x :: after ∧ P x ∧ ∀ y ∈ after, ¬P y := by
  induction xs with
  | nil => exact absurd h (by simp)
  | cons x xs ih =>
    by_cases hRest : ∃ y ∈ xs, P y
    · obtain ⟨before, y, after, rfl, hy, hAfter⟩ := ih hRest
      exact ⟨x :: before, y, after, rfl, hy, hAfter⟩
    · obtain ⟨y, hy, hP⟩ := h
      rcases List.mem_cons.mp hy with rfl | hy
      · exact ⟨[], y, xs, rfl, hP, fun z hz hPz => hRest ⟨z, hz, hPz⟩⟩
      · exact absurd ⟨y, hy, hP⟩ hRest

end Overlay
