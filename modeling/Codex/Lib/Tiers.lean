import Mathlib.Order.BoundedOrder.Basic
import Mathlib.Order.MinMax
import Mathlib.Data.List.Basic

/-!
# Tiered verdicts

Opinions come in tiers, the ones that take precedence first. The first tier that holds
an opinion at all decides, by its greatest; where no tier does, a default is taken. So
an opinion added to a tier that already decides can only raise the verdict, and one
added to an earlier, so far silent tier replaces it.

Nothing here says what the opinions are about: they form a linear order, and for the
last section one with a least element.
-/

namespace Tiers

variable {δ : Type*} [LinearOrder δ]

/-- The greatest opinion of the first tier that has one. -/
def verdict (fallback : δ) : List (List δ) → δ
  | [] => fallback
  | tier :: rest => tier.max?.getD (verdict fallback rest)

variable {fallback fallback' v : δ} {tier tier' : List δ} {rest rest' : List (List δ)}

@[simp] theorem verdict_silent : verdict fallback ([] :: rest) = verdict fallback rest := rfl

theorem verdict_eq_of_greatest (hMem : v ∈ tier) (hMax : ∀ w ∈ tier, w ≤ v) :
    verdict fallback (tier :: rest) = v := by
  unfold verdict
  rw [List.max?_eq_some_iff.mpr ⟨hMem, hMax⟩]
  rfl

theorem exists_greatest (hTier : tier ≠ []) : ∃ v ∈ tier, ∀ w ∈ tier, w ≤ v := by
  cases hMax : tier.max? with
  | none => exact absurd (List.max?_eq_none_iff.mp hMax) hTier
  | some v => exact ⟨v, List.max?_eq_some_iff.mp hMax⟩

/-- A tier that decides and grows does not lower the verdict, whatever comes after it. -/
theorem verdict_le_of_subset (hTier : tier ≠ []) (hSub : tier ⊆ tier') :
    verdict fallback (tier :: rest) ≤ verdict fallback' (tier' :: rest') := by
  obtain ⟨v, hMem, hMax⟩ := exists_greatest hTier
  obtain ⟨v', hMem', hMax'⟩ := exists_greatest (List.ne_nil_of_mem (hSub hMem))
  rw [verdict_eq_of_greatest hMem hMax, verdict_eq_of_greatest hMem' hMax']
  exact hMax' v (hSub hMem)

/-- Only which opinions a tier holds matters, not their order or number. -/
theorem verdict_congr {tiers tiers' : List (List δ)}
    (h : List.Forall₂ (fun a b => ∀ v, v ∈ a ↔ v ∈ b) tiers tiers') :
    verdict fallback tiers = verdict fallback tiers' := by
  induction h with
  | nil => rfl
  | @cons a b _ _ hHead _ ih =>
    by_cases hSilent : a = []
    · subst hSilent
      obtain rfl : b = [] := List.eq_nil_iff_forall_not_mem.mpr fun v hv =>
        List.not_mem_nil ((hHead v).mpr hv)
      exact ih
    · obtain ⟨v, hMem, hMax⟩ := exists_greatest hSilent
      rw [verdict_eq_of_greatest hMem hMax,
        verdict_eq_of_greatest ((hHead v).mp hMem) fun w hw => hMax w ((hHead w).mpr hw)]

/-! ## The least opinion -/

variable [OrderBot δ]

/-- The least opinion says nothing new to a tier that decides. -/
theorem verdict_eq_of_gain_bot (hTier : tier ≠ []) (hSub : tier ⊆ tier')
    (hNew : ∀ v ∈ tier', v ∈ tier ∨ v = ⊥) :
    verdict fallback (tier' :: rest') = verdict fallback (tier :: rest) := by
  obtain ⟨v, hMem, hMax⟩ := exists_greatest hTier
  rw [verdict_eq_of_greatest hMem hMax]
  refine verdict_eq_of_greatest (hSub hMem) fun w hw => ?_
  rcases hNew w hw with hOld | rfl
  · exact hMax w hOld
  · exact bot_le

theorem verdict_eq_bot_iff (hTier : tier ≠ []) :
    verdict fallback (tier :: rest) = ⊥ ↔ ∀ v ∈ tier, v = ⊥ := by
  obtain ⟨v, hMem, hMax⟩ := exists_greatest hTier
  rw [verdict_eq_of_greatest hMem hMax]
  constructor
  · rintro rfl
    exact fun w hw => le_bot_iff.mp (hMax w hw)
  · intro hBot
    exact hBot v hMem

theorem verdict_singleton_eq_bot_iff :
    verdict fallback [tier] = ⊥ ↔ (∀ v ∈ tier, v = ⊥) ∧ (tier = [] → fallback = ⊥) := by
  by_cases hTier : tier = []
  · subst hTier
    simp [verdict]
  · rw [verdict_eq_bot_iff hTier]
    exact ⟨fun hBot => ⟨hBot, fun hNil => absurd hNil hTier⟩, And.left⟩

end Tiers
