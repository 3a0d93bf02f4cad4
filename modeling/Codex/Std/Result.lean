import Mathlib.Data.List.Forall2

/-!
# Codex — Rust results

A `Result` is an `Except`, an `Option` an `Option`, and `?` their bind. These lemmas
take a computation that succeeded apart.
-/

namespace Codex

open List

variable {ε α β : Type} {xs : List α} {ys : List β} {b b' : β} {f : α → Except ε β} {x : Except ε α}
variable {R : α → β → Prop}

/-- Inverts one `?`. -/
theorem exists_ok_of_bind (h : (x >>= f) = .ok b) : ∃ a, x = .ok a ∧ f a = .ok b := by
  cases x with
  | error e => cases h
  | ok a => exact ⟨a, rfl, h⟩

theorem eq_ok_of_toOption {a : α} (h : x.toOption = some a) : x = .ok a := by
  cases x with
  | error e => cases h
  | ok b => exact congrArg _ (Option.some.inj h)

/-- What every step of a `for` loop keeps. -/
theorem foldlM_ok_inv {f : β → α → Except ε β} {P : β → Prop} (h : xs.foldlM f b = .ok b')
    (hStep : ∀ x ∈ xs, ∀ acc acc', f acc x = .ok acc' → P acc → P acc') (hStart : P b) : P b' := by
  induction xs generalizing b with
  | nil =>
    cases h
    exact hStart
  | cons x xs ih =>
    obtain ⟨acc, hAcc, hRest⟩ := exists_ok_of_bind h
    rw [forall_mem_cons] at hStep
    exact ih hRest hStep.2 (hStep.1 b acc hAcc hStart)

/-- A loop that collects one result for each element, or gives up. -/
theorem mapM_eq_some_iff {f : α → Option β} :
    xs.mapM f = some ys ↔ List.Forall₂ (fun x y => f x = some y) xs ys := by
  induction xs generalizing ys with
  | nil => simp [eq_comm]
  | cons x xs ih =>
    rw [mapM_cons]
    rcases hHead : f x with _ | y
    · refine ⟨fun h => by simp at h, fun h => ?_⟩
      cases h with
      | cons hx _ => rw [hHead] at hx; cases hx
    constructor
    · intro h
      cases hTail : xs.mapM f with
      | none => simp [hTail] at h
      | some zs =>
        obtain rfl : y :: zs = ys := by simpa [hTail] using h
        exact .cons hHead (ih.mp hTail)
    · intro h
      cases h with
      | cons hx hTail =>
        obtain rfl := Option.some.inj (hHead.symm.trans hx)
        simp [ih.mpr hTail]

/-- A fallible loop that succeeded did so at each element. -/
theorem mapM_ok_cases {g : α → β} (hEach : ∀ x y, f x = .ok y → y = g x)
    (h : xs.mapM f = .ok ys) : (∀ x ∈ xs, f x = .ok (g x)) ∧ ys = xs.map g := by
  induction xs generalizing ys with
  | nil =>
    cases h
    exact ⟨forall_mem_nil _, rfl⟩
  | cons x xs ih =>
    rw [mapM_cons] at h
    obtain ⟨y, hHead, h⟩ := exists_ok_of_bind h
    obtain ⟨zs, hTail, h⟩ := exists_ok_of_bind h
    obtain ⟨hAll, rfl⟩ := ih hTail
    obtain rfl := hEach x y hHead
    cases h
    exact ⟨forall_mem_cons.mpr ⟨hHead, hAll⟩, rfl⟩

/-- Two readings of the same elements agree on all of them when they do on each. -/
theorem map_eq_map_iff_of_forall₂ {γ : Type} {P : α → Prop} {f : α → γ}
    {g : β → γ} (h : List.Forall₂ R xs ys)
    (hEach : ∀ x ∈ xs, ∀ y, R x y → (f x = g y ↔ P x)) : xs.map f = ys.map g ↔ ∀ x ∈ xs, P x := by
  induction h with
  | nil => simp
  | cons hHead _ ih =>
    rw [forall_mem_cons] at hEach
    rw [map_cons, map_cons, List.cons.injEq, ih hEach.2, hEach.1 _ hHead, forall_mem_cons]

theorem exists_of_mem_of_forall₂ (h : List.Forall₂ R xs ys) {y : β}
    (hy : y ∈ ys) : ∃ x ∈ xs, R x y := by
  induction h with
  | nil => exact absurd hy not_mem_nil
  | cons hHead _ ih =>
    rcases mem_cons.mp hy with rfl | hRest
    · exact ⟨_, mem_cons_self, hHead⟩
    · obtain ⟨x, hx, hR⟩ := ih hRest
      exact ⟨x, mem_cons_of_mem _ hx, hR⟩

end Codex
