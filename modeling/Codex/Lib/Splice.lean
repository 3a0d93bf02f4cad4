import Mathlib.Data.List.Basic

/-!
# Splicing edits into a list

An `Edit` replaces the elements `start, …, start + oldLen - 1` of a list by new
ones. Editing in place, one element at a time, amounts to one splice
(`eraseMany_eq`, `insertMany_eq`). Edits that are in order and do not overlap,
applied from the last to the first, leave everything else alone: the result is
`replaced`, which copies the list and swaps in each edit where it falls
(`applyAll_eq_replaced`). Inserting behind given elements, from the last to the first,
is one pass over the list (`insertAfter_eq_flatMap`).
-/

namespace Splice

open List

variable {α : Type*}

structure Edit (α : Type*) where
  start : Nat
  oldLen : Nat
  new : List α
  deriving DecidableEq, Repr

namespace Edit

/-- The end of the edited region. -/
def stop (e : Edit α) : Nat := e.start + e.oldLen

/-- Replaces the region. -/
def apply (e : Edit α) (xs : List α) : List α := xs.take e.start ++ e.new ++ xs.drop e.stop

end Edit

/-- Applies the edits, the last one first. -/
def applyAll (es : List (Edit α)) (xs : List α) : List α := es.foldr Edit.apply xs

/-- The list from `pos` on, with each edited region swapped for its new elements. -/
def replaced (xs : List α) : Nat → List (Edit α) → List α
  | pos, [] => xs.drop pos
  | pos, e :: es => (xs.drop pos).take (e.start - pos) ++ e.new ++ replaced xs e.stop es

/-- The edits lie one after the other between `pos` and `limit`. -/
def InOrder (limit : Nat) : Nat → List (Edit α) → Prop
  | pos, [] => pos ≤ limit
  | pos, e :: es => pos ≤ e.start ∧ InOrder limit e.stop es

theorem InOrder.le {limit pos : Nat} {es : List (Edit α)} (h : InOrder limit pos es) :
    pos ≤ limit := by
  induction es generalizing pos with
  | nil => exact h
  | cons e es ih =>
    have hStop := ih h.2
    have hStart := h.1
    unfold Edit.stop at hStop
    omega

variable {xs : List α} (f : α → Option α)

/-- **Edits in order do not disturb each other.** -/
theorem applyAll_eq_replaced {pos : Nat} {es : List (Edit α)}
    (h : InOrder xs.length pos es) : applyAll es xs = xs.take pos ++ replaced xs pos es := by
  induction es generalizing pos with
  | nil => simp [applyAll, replaced]
  | cons e es ih =>
    obtain ⟨hStart, hRest⟩ := h
    have hStop := hRest.le
    have hLe : e.start ≤ e.stop := Nat.le_add_right _ _
    have hTake : (xs.take e.stop).length = e.stop := by
      rw [length_take]
      omega
    have hKeep : xs.take e.start = xs.take pos ++ (xs.drop pos).take (e.start - pos) := by
      rw [← take_add]
      congr 1
      omega
    calc applyAll (e :: es) xs
        = e.apply (xs.take e.stop ++ replaced xs e.stop es) := by
          rw [← ih hRest]
          rfl
      _ = xs.take e.start ++ e.new ++ replaced xs e.stop es := by
          unfold Edit.apply
          rw [take_append_of_le_length (by omega), take_take, Nat.min_eq_left hLe, drop_append,
            drop_eq_nil_of_le (Nat.le_of_eq hTake), hTake, Nat.sub_self, drop_zero, nil_append]
      _ = xs.take pos ++ replaced xs pos (e :: es) := by
          rw [hKeep, replaced]
          simp

/-! ## Element by element -/

/-- Removes the element at `start`, `count` times. -/
def eraseMany (start : Nat) : Nat → List α → List α
  | 0, xs => xs
  | count + 1, xs => eraseMany start count (if start < xs.length then xs.eraseIdx start else xs)

/-- Inserts the elements of `new` at `start`, `start + 1`, …. -/
def insertMany (start : Nat) : List α → List α → List α
  | [], xs => xs
  | x :: new, xs => insertMany (start + 1) new (xs.insertIdx start x)

theorem eraseMany_eq (start count : Nat) (xs : List α) :
    eraseMany start count xs = xs.take start ++ xs.drop (start + count) := by
  induction count generalizing xs with
  | zero => simp [eraseMany]
  | succ count ih =>
    rw [eraseMany, ih]
    by_cases hLt : start < xs.length
    · have hLen : (xs.take start).length = start := by
        rw [length_take]
        omega
      rw [if_pos hLt, eraseIdx_eq_take_drop_succ, take_append_of_le_length (by omega), take_take,
        Nat.min_self, drop_append, drop_eq_nil_of_le (by omega), nil_append, drop_drop]
      congr 2
      omega
    · rw [if_neg hLt, drop_eq_nil_of_le (by omega), drop_eq_nil_of_le (by omega)]

theorem insertIdx_append (xs ys : List α) (x : α) :
    (xs ++ ys).insertIdx xs.length x = xs ++ x :: ys := by
  induction xs with
  | nil => simp
  | cons a xs ih => simp [ih]

theorem insertMany_append (new xs ys : List α) :
    insertMany xs.length new (xs ++ ys) = xs ++ new ++ ys := by
  induction new generalizing xs with
  | nil => simp [insertMany]
  | cons x new ih =>
    have hStep := ih (xs ++ [x])
    rw [length_append, length_singleton] at hStep
    rw [insertMany, insertIdx_append, ← singleton_append, ← append_assoc, hStep]
    simp

theorem insertMany_eq {start : Nat} (new : List α) (hStart : start ≤ xs.length) :
    insertMany start new xs = xs.take start ++ new ++ xs.drop start := by
  have hLen : (xs.take start).length = start := by
    rw [length_take]
    omega
  have hInsert := insertMany_append new (xs.take start) (xs.drop start)
  rwa [hLen, take_append_drop] at hInsert

/-- Removing and inserting one element at a time is one splice. -/
theorem insertMany_eraseMany (e : Edit α) (hStart : e.start ≤ xs.length) :
    insertMany e.start e.new (eraseMany e.start e.oldLen xs) = e.apply xs := by
  have hLen : (xs.take e.start).length = e.start := by
    rw [length_take]
    omega
  rw [eraseMany_eq, insertMany_eq, take_append_of_le_length (by omega), take_take, Nat.min_self,
    drop_append, drop_eq_nil_of_le (by omega), hLen, Nat.sub_self]
  · rfl
  · rw [length_append]
    omega

/-! ## Following up elements -/

/-- Inserts each element after the position it comes with, the last one first. -/
def insertAfter (extra : List (Nat × α)) (xs : List α) : List α :=
  extra.reverse.foldl (fun xs e => xs.insertIdx (e.1 + 1) e.2) xs

theorem insertAfter_append (front xs : List α) :
    insertAfter ((xs.zipIdx front.length).filterMap fun p => (f p.1).map (p.2, ·)) (front ++ xs) =
      front ++ xs.flatMap fun x => x :: (f x).toList := by
  induction xs generalizing front with
  | nil => simp [insertAfter]
  | cons x xs ih =>
    have hRest := ih (front ++ [x])
    rw [length_append, length_singleton, append_assoc, singleton_append] at hRest
    rw [zipIdx_cons, filterMap_cons, flatMap_cons]
    rcases hx : f x with _ | y
    · simpa using hRest
    -- the rest is in place already, so `y` goes right behind `front` and `x`
    have hLen : front.length + 1 = (front ++ [x]).length := by simp
    unfold insertAfter at hRest ⊢
    dsimp only [Option.map_some]
    rw [reverse_cons, foldl_append, hRest, foldl_cons, hLen, insertIdx_append]
    simp

/-- **Following up elements is one pass over the list.** -/
theorem insertAfter_eq_flatMap (xs : List α) :
    insertAfter (xs.zipIdx.filterMap fun p => (f p.1).map (p.2, ·)) xs =
      xs.flatMap fun x => x :: (f x).toList :=
  insertAfter_append f [] xs

end Splice
