import Mathlib.Data.List.Basic

/-!
# Partners in a list

A symmetric relation `link` pairs the items of a list off: an item that is an end (`ends`) is
linked to exactly one place of the list. Taking out an item together with its partner leaves a
list that is paired off again.
-/

namespace Pairing

open List

variable {α : Type*}

/-- A relation that links ends, no item with itself. -/
structure Linking (link : α → α → Bool) (ends : α → Bool) : Prop where
  symm : ∀ x y, link x y = link y x
  irrefl : ∀ x, link x x = false
  isEnd : ∀ x y, link x y = true → ends x = true

/-- Every end has exactly one partner. -/
def Matched (link : α → α → Bool) (ends : α → Bool) (items : List α) : Prop :=
  ∀ x ∈ items, ends x = true → items.countP (link x) = 1

variable {link : α → α → Bool} {ends : α → Bool} {items before after : List α} {x y : α}

section

variable (hLink : Linking link ends)
include hLink

/-- The first item's partner is further on. -/
theorem Matched.exists_partner (h : Matched link ends (x :: items))
    (hx : ends x = true) : ∃ before y after, items = before ++ y :: after ∧ link x y = true ∧
      ∀ z ∈ before ++ after, link x z = false := by
  have hOne := h x mem_cons_self hx
  rw [countP_cons_of_neg (by rw [hLink.irrefl]; decide)] at hOne
  -- the one place where the link holds
  obtain ⟨y, hMem, hy⟩ := countP_pos_iff.mp (by omega : 0 < items.countP (link x))
  obtain ⟨before, after, rfl⟩ := append_of_mem hMem
  have hRest : (before ++ after).countP (link x) = 0 := by
    rw [countP_append, countP_cons_of_pos hy] at hOne
    rw [countP_append]
    omega
  exact ⟨before, y, after, rfl, hy, fun z hz => eq_false_of_ne_true (countP_eq_zero.mp hRest z hz)⟩

/-- Without the first item and its partner the list is paired off. -/
theorem Matched.remove_pair (h : Matched link ends (x :: (before ++ y :: after)))
    (hxy : link x y = true)
    (hFree : ∀ z ∈ before ++ after, link x z = false) : Matched link ends (before ++ after) := by
  have hyx : link y x = true := by rwa [hLink.symm]
  have hPartner := h y (by simp) (hLink.isEnd y x hyx)
  rw [countP_cons_of_pos hyx] at hPartner
  intro z hz hEnd
  have hMem : z ∈ x :: (before ++ y :: after) := by
    rcases mem_append.mp hz with hz | hz <;> simp [hz]
  have hOne := h z hMem hEnd
  -- `z` is linked neither to `x` nor to its partner, so its own partner stays
  have hzx : ¬ link z x = true := by
    rw [hLink.symm, hFree z hz]
    decide
  have hzy : ¬ link z y = true := by
    intro hLinked
    rw [hLink.symm] at hLinked
    have hOther : 0 < (before ++ y :: after).countP (link y) :=
      countP_pos_iff.mpr ⟨z, by rcases mem_append.mp hz with hz | hz <;> simp [hz], hLinked⟩
    omega
  rw [countP_cons_of_neg hzx, countP_append, countP_cons_of_neg hzy] at hOne
  rwa [countP_append]

/-- Without a first item that is no end the list is paired off. -/
theorem Matched.tail (h : Matched link ends (x :: items))
    (hx : ends x = false) : Matched link ends items := by
  intro z hz hEnd
  have hOne := h z (mem_cons_of_mem x hz) hEnd
  have hzx : ¬ link z x = true := by
    intro hLinked
    rw [hLink.symm] at hLinked
    rw [hLink.isEnd x z hLinked] at hx
    cases hx
  rwa [countP_cons_of_neg hzx] at hOne

end

end Pairing
