import Mathlib.Data.Option.Basic

/-!
# Net changes

What has become of a value over a run of changes, from the changes alone. A `Cell`
remembers the value before the first change, if there was one, and the value now, if
the last change left one. Before a change, the old value is captured; but only by a
cell that knows nothing yet.

`Tracks` says that a cell is right about an initial and a final value. Writing and
erasing keep it (`tracks_of_baseline`), as long as the captured value is the true one
(`Tracks.baseline_capture`).
-/

namespace NetChange

variable {ν : Type*}

@[ext]
structure Cell (ν : Type*) where
  baseline : Option ν
  current : Option ν

namespace Cell

def empty : Cell ν := ⟨none, none⟩

/-- Takes the old value for the baseline, if nothing is known yet. -/
def capture (cell : Cell ν) (old : Option ν) : Cell ν :=
  match cell.baseline, cell.current with
  | none, none => { cell with baseline := old }
  | _, _ => cell

def write (cell : Cell ν) (new : ν) : Cell ν := { cell with current := some new }

def erase (cell : Cell ν) : Cell ν := { cell with current := none }

/-- The cell is right about a value that was `initial` and is `final`. -/
structure Tracks (cell : Cell ν) (initial final : Option ν) : Prop where
  baseline_eq : ∀ v, cell.baseline = some v → initial = some v
  current_eq : ∀ v, cell.current = some v → final = some v
  deleted : ∀ v, cell.baseline = some v → cell.current = none → final = none
  created : ∀ v, cell.baseline = none → cell.current = some v → initial = none
  untouched : cell.baseline = none → cell.current = none → initial = final

variable {cell : Cell ν} {initial final : Option ν}

theorem capture_none (cell : Cell ν) : cell.capture none = cell := by
  obtain ⟨baseline, current⟩ := cell
  cases baseline <;> cases current <;> rfl

theorem capture_of_known (h : ¬(cell.baseline = none ∧ cell.current = none)) (old : Option ν) :
    cell.capture old = cell := by
  obtain ⟨baseline, current⟩ := cell
  cases baseline with
  | some v => rfl
  | none =>
    cases current with
    | some v => rfl
    | none => exact absurd ⟨rfl, rfl⟩ h

theorem capture_of_unknown (hBaseline : cell.baseline = none) (hCurrent : cell.current = none)
    (old : Option ν) : cell.capture old = ⟨old, none⟩ := by
  obtain ⟨baseline, current⟩ := cell
  cases hBaseline
  cases hCurrent
  rfl

theorem tracks_empty (initial : Option ν) : (empty : Cell ν).Tracks initial initial where
  baseline_eq _ h := nomatch h
  current_eq _ h := nomatch h
  deleted _ h _ := nomatch h
  created _ _ h := nomatch h
  untouched _ _ := rfl

/-- What is captured is the initial value: it is known already, or nothing has changed yet. -/
theorem Tracks.baseline_capture (h : cell.Tracks initial final) :
    (cell.capture final).baseline = initial := by
  obtain ⟨baseline, current⟩ := cell
  cases baseline with
  | some v => exact (h.baseline_eq v rfl).symm
  | none =>
    cases current with
    | some v => exact (h.created v rfl rfl).symm
    | none => exact (h.untouched rfl rfl).symm

theorem tracks_of_baseline (h : cell.baseline = initial) : cell.Tracks initial cell.current where
  baseline_eq _ hSome := h.symm.trans hSome
  current_eq _ hSome := hSome
  deleted _ _ hNone := hNone
  created _ hNone _ := h.symm.trans hNone
  untouched hBaseline hCurrent := h.symm.trans (hBaseline.trans hCurrent.symm)

/-- A cell that knows anything knows both values. -/
theorem Tracks.eq_of_known (h : cell.Tracks initial final)
    (hKnown : ¬(cell.baseline = none ∧ cell.current = none)) : cell = ⟨initial, final⟩ := by
  obtain ⟨baseline, current⟩ := cell
  cases baseline with
  | some old =>
    rw [h.baseline_eq old rfl]
    cases current with
    | some new => rw [h.current_eq new rfl]
    | none => rw [h.deleted old rfl rfl]
  | none =>
    cases current with
    | some new => rw [h.created new rfl rfl, h.current_eq new rfl]
    | none => exact absurd ⟨rfl, rfl⟩ hKnown

end Cell

end NetChange
