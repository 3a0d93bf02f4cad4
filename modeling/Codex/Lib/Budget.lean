import Mathlib.Algebra.Order.BigOperators.Group.List
import Mathlib.Algebra.Ring.Nat
import Mathlib.Data.List.Infix

/-!
# Budgets over lists

Elements have a weight; `total w l` is what a list weighs. A prefix or suffix of a list is the
longest one with a property when every other one that has it is part of it. There is always one as
soon as the empty list has the property, and what goes beyond it does not have it
(`LongestPrefix.not_append`, `LongestSuffix.not_append`).

A prefix and a suffix that together weigh less than the list do not overlap (`exists_middle`). Who
takes elements from the front for as long as some of the budget is left gets the longest affordable
prefix (`longestPrefix_afford`); elements that weigh nothing apart, that is the longest prefix within
the budget.
-/

namespace Budget

open List

variable {α : Type*} {w : α → Nat} {P : List α → Prop} {l p q rest : List α}

def total (w : α → Nat) (l : List α) : Nat := (l.map w).sum

@[simp] theorem total_nil : total w [] = 0 := rfl

@[simp] theorem total_cons (x : α) : total w (x :: l) = w x + total w l := by
  simp [total]

@[simp] theorem total_append : total w (p ++ q) = total w p + total w q := by
  simp [total]

theorem total_prefix_le (h : p <+: l) : total w p ≤ total w l := by
  obtain ⟨after, rfl⟩ := h
  rw [total_append]
  exact Nat.le_add_right _ _

theorem total_suffix_le (h : p <:+ l) : total w p ≤ total w l := by
  obtain ⟨before, rfl⟩ := h
  rw [total_append]
  exact Nat.le_add_left _ _

structure LongestPrefix (P : List α → Prop) (l p : List α) : Prop where
  isPrefix : p <+: l
  holds : P p
  longest : ∀ q, q <+: l → P q → q <+: p

structure LongestSuffix (P : List α → Prop) (l p : List α) : Prop where
  isSuffix : p <:+ l
  holds : P p
  longest : ∀ q, q <:+ l → P q → q <:+ p

theorem exists_longestPrefix (hNil : P []) (l : List α) : ∃ p, LongestPrefix P l p := by
  induction l using List.reverseRecOn with
  | nil =>
    refine ⟨[], prefix_rfl, hNil, ?_⟩
    intro q hq _
    exact hq
  | append_singleton l x ih =>
    by_cases hAll : P (l ++ [x])
    · exact ⟨l ++ [x], prefix_rfl, hAll, fun q hq _ => hq⟩
    -- the whole list is not it, so it is what the list without its last element has
    obtain ⟨p, hp⟩ := ih
    refine ⟨p, hp.isPrefix.trans (prefix_append l [x]), hp.holds, ?_⟩
    intro q hq hPq
    rcases prefix_concat_iff.mp hq with rfl | hShort
    · exact absurd hPq hAll
    · exact hp.longest q hShort hPq

theorem exists_longestSuffix (hNil : P []) (l : List α) : ∃ p, LongestSuffix P l p := by
  induction l with
  | nil =>
    refine ⟨[], suffix_rfl, hNil, ?_⟩
    intro q hq _
    exact hq
  | cons x l ih =>
    by_cases hAll : P (x :: l)
    · exact ⟨x :: l, suffix_rfl, hAll, fun q hq _ => hq⟩
    obtain ⟨p, hp⟩ := ih
    refine ⟨p, hp.isSuffix.trans (suffix_cons x l), hp.holds, ?_⟩
    intro q hq hPq
    rcases suffix_cons_iff.mp hq with rfl | hShort
    · exact absurd hPq hAll
    · exact hp.longest q hShort hPq

namespace LongestPrefix

theorem not_append (h : LongestPrefix P l p) (hMore : p ++ q <+: l) (hNe : q ≠ []) :
    ¬ P (p ++ q) := by
  intro hP
  have hLength := (h.longest _ hMore hP).length_le
  have hPos := length_pos_of_ne_nil hNe
  rw [length_append] at hLength
  omega

end LongestPrefix

namespace LongestSuffix

theorem not_append (h : LongestSuffix P l p) (hMore : q ++ p <:+ l) (hNe : q ≠ []) :
    ¬ P (q ++ p) := by
  intro hP
  have hLength := (h.longest _ hMore hP).length_le
  have hPos := length_pos_of_ne_nil hNe
  rw [length_append] at hLength
  omega

end LongestSuffix

/-- A prefix and a suffix that weigh less than the list leave something between them. -/
theorem exists_middle {m n : Nat} (hp : p <+: l) (hq : q <:+ l) (hFitsP : total w p ≤ m)
    (hFitsQ : total w q ≤ n) (hLong : m + n < total w l) : ∃ middle, l = p ++ middle ++ q := by
  obtain ⟨after, rfl⟩ := hp
  rw [total_append] at hLong
  rcases suffix_or_suffix_of_suffix hq (suffix_append p after) with hIn | hOver
  · obtain ⟨middle, rfl⟩ := hIn
    exact ⟨middle, (append_assoc p middle q).symm⟩
  · have hLe : total w after ≤ total w q := total_suffix_le hOver
    omega

/-- A list that fits the budget, each element of which is reached with some of it left. -/
def Affordable (w : α → Nat) (budget : Nat) (run : List α) : Prop :=
  total w run ≤ budget ∧
    ∀ before x after, run = before ++ x :: after → total w before < budget

/-- What a pass takes from the front until the budget is used up or an element exceeds it. -/
def afford (w : α → Nat) : Nat → List α → List α
  | _, [] => []
  | budget, x :: rest =>
    if budget = 0 then []
    else if w x ≤ budget then x :: afford w (budget - w x) rest
    else []

theorem afford_zero : afford w 0 l = [] := by
  cases l <;> rfl

theorem affordable_nil (budget : Nat) : Affordable w budget [] := by
  refine ⟨Nat.zero_le _, ?_⟩
  intro before x after hEq
  simp at hEq

variable {budget : Nat} {x : α} {run : List α}

theorem affordable_cons : Affordable w budget (x :: rest) ↔
      0 < budget ∧ w x ≤ budget ∧ Affordable w (budget - w x) rest := by
  constructor
  · rintro ⟨hFits, hReached⟩
    have hPos : 0 < budget := hReached [] x rest rfl
    rw [total_cons] at hFits
    refine ⟨hPos, by omega, by omega, ?_⟩
    intro before y after hEq
    have hNext := hReached (x :: before) y after (by rw [hEq, cons_append])
    rw [total_cons] at hNext
    omega
  · rintro ⟨hPos, hLe, hFits, hReached⟩
    refine ⟨by rw [total_cons]; omega, ?_⟩
    intro before y after hEq
    rcases before with _ | ⟨z, before⟩
    · exact hPos
    rw [cons_append, List.cons.injEq] at hEq
    obtain ⟨rfl, hRest⟩ := hEq
    have hNext := hReached before y after hRest
    rw [total_cons]
    omega

theorem Affordable.of_pos (hPos : ∀ x ∈ run, 0 < w x)
    (hFits : total w run ≤ budget) : Affordable w budget run := by
  refine ⟨hFits, ?_⟩
  intro before x after hEq
  have hX := hPos x (by rw [hEq]; simp)
  rw [hEq, total_append, total_cons] at hFits
  omega

theorem affordable_concat (hLeft : total w run < budget)
    (hFits : w x ≤ budget - total w run) : Affordable w budget (run ++ [x]) := by
  refine ⟨by rw [total_append, total_cons, total_nil]; omega, ?_⟩
  intro before y after hEq
  have hBefore : before <+: run ++ [x] := ⟨y :: after, hEq.symm⟩
  rcases prefix_concat_iff.mp hBefore with hWhole | hPart
  · rw [hWhole] at hEq
    exact absurd (self_eq_append_right.mp hEq) (cons_ne_nil y after)
  · exact Nat.lt_of_le_of_lt (total_prefix_le hPart) hLeft

theorem longestPrefix_afford (budget : Nat) (l : List α) :
    LongestPrefix (Affordable w budget) l (afford w budget l) := by
  -- where nothing is taken, the first element alone is too much
  have hStop : ∀ {budget x rest}, ¬(0 < budget ∧ w x ≤ budget) →
      LongestPrefix (Affordable w budget) (x :: rest) [] := by
    refine fun hTake => ⟨List.nil_prefix, affordable_nil _, fun q hq hAff => ?_⟩
    cases q with
    | nil => exact prefix_rfl
    | cons y q =>
      obtain ⟨rfl, -⟩ := cons_prefix_cons.mp hq
      obtain ⟨hPos, hLe, -⟩ := affordable_cons.mp hAff
      exact absurd ⟨hPos, hLe⟩ hTake
  fun_induction afford w budget l with
  | case1 => exact ⟨prefix_rfl, affordable_nil _, fun q hq _ => hq⟩
  | case2 => exact hStop (by omega)
  | case3 budget x rest hPos hLe ih =>
    refine ⟨(prefix_cons_inj x).mpr ih.isPrefix,
      affordable_cons.mpr ⟨Nat.pos_of_ne_zero hPos, hLe, ih.holds⟩, fun q hq hAff => ?_⟩
    cases q with
    | nil => exact nil_prefix
    | cons y q =>
      obtain ⟨rfl, hTail⟩ := cons_prefix_cons.mp hq
      exact (prefix_cons_inj y).mpr (ih.longest q hTail (affordable_cons.mp hAff).2.2)
  | case4 => exact hStop (by omega)

end Budget
