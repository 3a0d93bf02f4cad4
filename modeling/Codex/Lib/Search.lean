import Mathlib.Data.List.Infix

/-!
# Searching a list for a sublist

`find needle text` is the first place at which `needle` stands in `text`. The text may
still be growing at its end, so the lemmas say what more text can change:

* an occurrence stays where it is (`OccursAt.append`), and the first one stays first
  (`find_append`);
* a new one reaches over the old end (`occursAt_append_cases`), so the old text ends in a
  proper prefix of the needle (`border_of_occursAt`).
-/

namespace Search

open List

variable {α : Type*} {needle other text more : List α} {i j : Nat} {front : List α}

/-- `needle` stands in `text` at position `i`. -/
def OccursAt (needle text : List α) (i : Nat) : Prop := needle <+: text.drop i

/-! ## Occurrences -/

theorem OccursAt.length_le (h : OccursAt needle text i) (hNe : needle ≠ []) :
    i + needle.length ≤ text.length := by
  have hLen := List.IsPrefix.length_le h
  have hPos := length_pos_of_ne_nil hNe
  rw [length_drop] at hLen
  omega

theorem not_occursAt_nil (hNe : needle ≠ []) : ¬OccursAt needle [] i := by
  intro h
  have hLen := h.length_le hNe
  have hPos := length_pos_of_ne_nil hNe
  rw [length_nil] at hLen
  omega

theorem OccursAt.append (h : OccursAt needle text i) (more : List α) :
    OccursAt needle (text ++ more) i := by
  unfold OccursAt
  rw [drop_append]
  exact h.trans (prefix_append _ _)

/-- More text only adds occurrences that reach into it. -/
theorem occursAt_append_cases (h : OccursAt needle (text ++ more) i) :
    OccursAt needle text i ∨ text.length < i + needle.length := by
  rcases Nat.lt_or_ge text.length (i + needle.length) with hLt | hGe
  · exact Or.inr hLt
  left
  unfold OccursAt at h ⊢
  rw [drop_append] at h
  refine prefix_of_prefix_length_le h (prefix_append _ _) ?_
  rw [length_drop]
  omega

theorem occursAt_append_left :
    OccursAt needle (front ++ text) (front.length + i) ↔ OccursAt needle text i := by
  unfold OccursAt
  rw [drop_length_add_append]

/-- An occurrence that reaches over the end of the old text starts with what that text
ends in. -/
theorem border_of_occursAt (h : OccursAt needle (text ++ more) i) (hIn : i ≤ text.length)
    (hOver : text.length < i + needle.length) : text.drop i = needle.take (text.length - i) := by
  obtain ⟨rest, hRest⟩ := h
  rw [drop_append_of_le_length hIn] at hRest
  have hTake := congrArg (List.take (text.length - i)) hRest
  rw [take_append_of_le_length (by omega), take_append_of_le_length (by simp)] at hTake
  rw [hTake, take_of_length_le (by simp)]

/-- Of two occurrences, one that ends before the other does and starts no earlier lies
inside the other, short of its last element. -/
theorem infix_dropLast_of_occursAt (hOther : OccursAt other text i)
    (hNeedle : OccursAt needle text j) (hStart : j ≤ i)
    (hEnd : i + other.length < j + needle.length) : other <:+: needle.dropLast := by
  have hNeedleEq : needle = (text.drop j).take needle.length := prefix_iff_eq_take.mp hNeedle
  have hOtherEq : other = (text.drop i).take other.length := prefix_iff_eq_take.mp hOther
  have hInner : other = (needle.dropLast.drop (i - j)).take other.length := by
    rw [dropLast_eq_take, hNeedleEq, take_take, drop_take, take_take, drop_drop, ← hNeedleEq]
    have hPos : j + (i - j) = i := by omega
    have hMin : min other.length (min (needle.length - 1) needle.length - (i - j)) =
        other.length := by omega
    rw [hPos, hMin]
    exact hOtherEq
  rw [hInner]
  exact (List.take_prefix _ _).isInfix.trans (drop_suffix _ _).isInfix

/-! ## The first occurrence -/

variable [DecidableEq α]

/-- The first position at which `needle` stands in the list. -/
def find (needle : List α) : List α → Option Nat
  | [] => if needle.isPrefixOf [] then some 0 else none
  | x :: text => if needle.isPrefixOf (x :: text) then some 0 else (find needle text).map (· + 1)

theorem find_spec (needle text : List α) : match find needle text with
    | some i => OccursAt needle text i ∧ ∀ j, j < i → ¬OccursAt needle text j
    | none => ∀ i, ¬OccursAt needle text i := by
  induction text with
  | nil =>
    unfold find OccursAt
    simp only [List.isPrefixOf_iff_prefix, drop_nil]
    split_ifs with hHere
    · exact ⟨hHere, fun j hj => absurd hj (Nat.not_lt_zero j)⟩
    · exact fun _ => hHere
  | cons x text ih =>
    unfold find
    split_ifs with hHere
    · exact ⟨List.isPrefixOf_iff_prefix.mp hHere, fun j hj => absurd hj (Nat.not_lt_zero j)⟩
    have hNot : ¬OccursAt needle (x :: text) 0 := fun h => hHere (List.isPrefixOf_iff_prefix.mpr h)
    rcases hFind : find needle text with _ | i
    · rw [hFind] at ih
      exact fun i => i.casesOn hNot ih
    rw [hFind] at ih
    refine ⟨ih.1, fun j hj => ?_⟩
    cases j with
    | zero => exact hNot
    | succ j => exact ih.2 j (Nat.lt_of_succ_lt_succ hj)

theorem find_eq_none_iff : find needle text = none ↔ ∀ i, ¬OccursAt needle text i := by
  have hSpec := find_spec needle text
  cases hFind : find needle text with
  | none => simpa [hFind] using hSpec
  | some i =>
    rw [hFind] at hSpec
    exact ⟨nofun, fun h => absurd hSpec.1 (h i)⟩

theorem find_eq_some_iff : find needle text = some i ↔
      OccursAt needle text i ∧ ∀ j, j < i → ¬OccursAt needle text j := by
  have hSpec := find_spec needle text
  rcases hFind : find needle text with _ | k
  · exact ⟨nofun, fun h => absurd h.1 (find_eq_none_iff.mp hFind i)⟩
  rw [hFind] at hSpec
  refine ⟨fun h => Option.some.inj h ▸ hSpec, fun h => congrArg some ?_⟩
  -- neither of the two can come before the other
  rcases Nat.lt_trichotomy k i with hLt | hEq | hLt
  · exact absurd hSpec.1 (h.2 k hLt)
  · exact hEq
  · exact absurd h.1 (hSpec.2 i hLt)

theorem find_length_le (h : find needle text = some i) : i + needle.length ≤ text.length := by
  obtain ⟨hOccurs, hFirst⟩ := find_eq_some_iff.mp h
  by_cases hNil : needle = []
  · subst hNil
    -- the empty list stands at the very front
    rcases Nat.eq_zero_or_pos i with rfl | hPos
    · exact Nat.zero_le _
    · exact absurd nil_prefix (hFirst 0 hPos)
  · exact hOccurs.length_le hNil

/-- The first occurrence stays first when the text grows. -/
theorem find_append (h : find needle text = some i) (more : List α) :
    find needle (text ++ more) = some i := by
  obtain ⟨hOccurs, hFirst⟩ := find_eq_some_iff.mp h
  refine find_eq_some_iff.mpr ⟨hOccurs.append more, fun j hj hEarlier => ?_⟩
  rcases occursAt_append_cases hEarlier with hOld | hOver
  · exact hFirst j hj hOld
  · have hLen := find_length_le h
    omega

omit [DecidableEq α] in
/-- A front in which no occurrence starts can be skipped. -/
theorem exists_occursAt_of_append_left {i : Nat}
    (h : ∀ i, i < front.length → ¬OccursAt needle (front ++ text) i)
    (hOccurs : OccursAt needle (front ++ text) i) :
    ∃ k, i = front.length + k ∧ OccursAt needle text k := by
  rcases Nat.lt_or_ge i front.length with hLt | hGe
  · exact absurd hOccurs (h i hLt)
  · have hEq : i = front.length + (i - front.length) := by omega
    rw [hEq] at hOccurs
    exact ⟨i - front.length, hEq, occursAt_append_left.mp hOccurs⟩

theorem find_append_left (h : ∀ i, i < front.length → ¬OccursAt needle (front ++ text) i) :
    find needle (front ++ text) = (find needle text).map (front.length + ·) := by
  cases hFind : find needle text with
  | none =>
    rw [Option.map_none, find_eq_none_iff]
    intro i hOccurs
    obtain ⟨k, -, hk⟩ := exists_occursAt_of_append_left h hOccurs
    exact find_eq_none_iff.mp hFind k hk
  | some i =>
    obtain ⟨hOccurs, hFirst⟩ := find_eq_some_iff.mp hFind
    rw [Option.map_some, find_eq_some_iff]
    refine ⟨occursAt_append_left.mpr hOccurs, fun j hj hEarlier => ?_⟩
    obtain ⟨k, rfl, hk⟩ := exists_occursAt_of_append_left h hEarlier
    exact hFirst k (by omega) hk

end Search
