import Mathlib.Data.List.Infix

/-!
# Runs and their bad events

A run folds its events over a state. An event may be bad in the state it comes in. An
invariant that every other event keeps holds as long as no bad event has come, so also
when the first one comes.

A loop without events goes from state to state until there is no next one (`final`). If no step
changes whether it ends, it ends exactly where a measure falls.
-/

namespace Runs

variable {σ ε : Type*} {step : σ → ε → σ} {bad : σ → ε → Prop}
variable {s : σ} {events : List ε}

/-- Some event of the run is bad in the state it comes in. -/
def Meets (step : σ → ε → σ) (bad : σ → ε → Prop) (s : σ) (events : List ε) : Prop :=
  ∃ before event after, events = before ++ event :: after ∧ bad (before.foldl step s) event

theorem Meets.of_isPrefix {seen : List ε} (hSeen : seen <+: events) (h : Meets step bad s seen) :
    Meets step bad s events := by
  obtain ⟨rest, rfl⟩ := hSeen
  obtain ⟨before, event, after, rfl, hBad⟩ := h
  exact ⟨before, event, after ++ rest, by simp, hBad⟩

theorem not_meets_nil : ¬Meets step bad s [] := fun ⟨_, _, _, h, _⟩ => by simp at h

theorem meets_cons {event : ε} :
    Meets step bad s (event :: events) ↔ bad s event ∨ Meets step bad (step s event) events := by
  constructor
  · rintro ⟨_ | ⟨first, before⟩, event', after, hEvents, hBad⟩
    · cases hEvents
      exact .inl hBad
    · cases hEvents
      exact .inr ⟨before, event', after, rfl, hBad⟩
  · rintro (hBad | ⟨before, event', after, rfl, hBad⟩)
    · exact ⟨[], event, events, rfl, hBad⟩
    · exact ⟨event :: before, event', after, rfl, hBad⟩

section

variable (inv : σ → Prop) (hStart : inv s)
  (hStep : ∀ s event, inv s → ¬bad s event → inv (step s event))
include hStart hStep

theorem inv_of_not_meets (h : ¬Meets step bad s events) : inv (events.foldl step s) := by
  induction events generalizing s with
  | nil => exact hStart
  | cons event events ih =>
    rw [meets_cons, not_or] at h
    exact ih (hStep s event hStart h.1) h.2

/-- The first bad event finds the invariant. -/
theorem Meets.first (h : Meets step bad s events) :
    ∃ before event, before ++ [event] <+: events ∧ inv (before.foldl step s) ∧
      bad (before.foldl step s) event := by
  induction events generalizing s with
  | nil => exact absurd h not_meets_nil
  | cons event events ih =>
    by_cases hBad : bad s event
    · exact ⟨[], event, List.prefix_append [event] events, hStart, hBad⟩
    · obtain ⟨before, event', hPrefix, hLater⟩ :=
        ih (hStep s event hStart hBad) ((meets_cons.mp h).resolve_left hBad)
      exact ⟨event :: before, event', (List.cons_prefix_cons).mpr ⟨rfl, hPrefix⟩, hLater⟩

/-- If every bad event spoils the state, all states are good exactly when no event is bad. -/
theorem good_throughout_iff {good : σ → Prop} (hGood : ∀ s, inv s → good s)
    (hBad : ∀ s event, inv s → bad s event → ¬good (step s event)) :
    (∀ seen, seen <+: events → good (seen.foldl step s)) ↔ ¬Meets step bad s events := by
  constructor
  · intro hAll hMeets
    obtain ⟨before, event, hPrefix, hInv, hEvent⟩ := hMeets.first inv hStart hStep
    have hLast := hAll _ hPrefix
    rw [List.foldl_concat] at hLast
    exact hBad _ _ hInv hEvent hLast
  · intro hNone seen hSeen
    exact hGood _ (inv_of_not_meets inv hStart hStep fun h => hNone (h.of_isPrefix hSeen))

end

section Loops

variable {next : σ → Option σ}

/-- The last state of a loop, if it is reached with less than `fuel` steps. -/
def final (next : σ → Option σ) : Nat → σ → Option σ
  | 0, _ => none
  | fuel + 1, s =>
    match next s with
    | none => some s
    | some s' => final next fuel s'

/-- A loop ends from exactly the states that `ends` holds of, if no step changes that, the measure
falls where it holds, and it holds of a last state. -/
theorem exists_final_iff (inv ends : σ → Prop) (measure : σ → Nat)
    (hStep : ∀ s s', inv s → next s = some s' →
      inv s' ∧ (ends s' ↔ ends s) ∧ (ends s → measure s' < measure s))
    (hLast : ∀ s, next s = none → ends s) (hStart : inv s) :
    (∃ fuel, (final next fuel s).isSome) ↔ ends s := by
  constructor
  · rintro ⟨fuel, hFinal⟩
    induction fuel generalizing s with
    | zero => cases hFinal
    | succ fuel ih =>
      cases hNext : next s with
      | none => exact hLast s hNext
      | some s' =>
        obtain ⟨hInv, hEnds, -⟩ := hStep s s' hStart hNext
        rw [final, hNext] at hFinal
        exact hEnds.mp (ih hInv hFinal)
  · intro hEnds
    induction hMeasure : measure s using Nat.strongRecOn generalizing s with
    | ind n ih =>
      cases hNext : next s with
      | none => exact ⟨1, by simp [final, hNext]⟩
      | some s' =>
        obtain ⟨hInv, hSame, hLt⟩ := hStep s s' hStart hNext
        obtain ⟨fuel, hFinal⟩ := ih _ (hMeasure ▸ hLt hEnds) hInv (hSame.mpr hEnds) rfl
        exact ⟨fuel + 1, by simpa [final, hNext] using hFinal⟩

end Loops

end Runs
