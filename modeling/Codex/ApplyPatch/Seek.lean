import Codex.ApplyPatch.Definitions

/-!
# Codex — what the line search finds

`seek_sequence` makes four passes of decreasing strictness over the same start positions. Without
`eof` the first position at the strictest level that matches at all is found
(`seekSequence_eq_some_iff`).

With `eof` the comment on the function promises a fallback: first the end of the file, then a search
from `start`. The code moves the start of all four passes to the end of the file and never goes back,
so a pattern that stands earlier only is not found. `eof_seek_iff` says when this makes a difference.
-/

namespace Codex.ApplyPatch

open List

variable {norm : Text → Text} {lines pattern : List Text} {start i : Nat}

/-- The passes of the search, the strictest first. -/
def seekLevels : List (Text → Text) := [id, Text.trimEnd, Text.trim, normalise]

/-- `i` is the first match from `start` on at the strictest level that has one there. -/
structure StrictestFirst (lines pattern : List Text) (start i : Nat) : Prop where
  from_start : start ≤ i
  level : ∃ stricter norm laxer, seekLevels = stricter ++ norm :: laxer ∧
    (∀ other ∈ stricter, ∀ j, start ≤ j → matchesAt other lines pattern j = false) ∧
    matchesAt norm lines pattern i = true ∧
    ∀ j, start ≤ j → j < i → matchesAt norm lines pattern j = false

/-- No level matches from `start` on. -/
def MatchesNowhere (lines pattern : List Text) (start : Nat) : Prop :=
  ∀ norm ∈ seekLevels, ∀ j, start ≤ j → matchesAt norm lines pattern j = false

/-- Some level matches the last lines of the file. -/
def matchesAtEnd (lines pattern : List Text) : Bool :=
  seekLevels.any fun norm => matchesAt norm lines pattern (lines.length - pattern.length)

/-- The search at the end of a file as its comment describes it. -/
def documentedEofSeek (lines pattern : List Text) (start : Nat) : Option Nat :=
  if matchesAtEnd lines pattern then some (lines.length - pattern.length)
  else seekSequence lines pattern start false

/-! ## One pass -/

section

variable (hPattern : pattern ≠ [])
include hPattern

theorem le_length_of_matchesAt (h : matchesAt norm lines pattern i = true) :
    i + pattern.length ≤ lines.length := by
  have hLength := congrArg length (beq_iff_eq.mp h)
  simp only [length_map, length_take, length_drop] at hLength
  have hPos := length_pos_of_ne_nil hPattern
  omega

theorem seekPass_eq_some_iff : seekPass norm lines pattern start = some i ↔
      start ≤ i ∧ matchesAt norm lines pattern i = true ∧
        ∀ j, start ≤ j → j < i → matchesAt norm lines pattern j = false := by
  unfold seekPass
  simp only [find?_range'_eq_some, mem_range'_1, Bool.not_eq_true']
  constructor
  · intro ⟨hMatch, hRange, hFirst⟩
    exact ⟨hRange.1, hMatch, hFirst⟩
  · intro ⟨hStart, hMatch, hFirst⟩
    have hEnd := le_length_of_matchesAt hPattern hMatch
    exact ⟨hMatch, ⟨hStart, by omega⟩, hFirst⟩

theorem seekPass_eq_none_iff : seekPass norm lines pattern start = none ↔
      ∀ j, start ≤ j → matchesAt norm lines pattern j = false := by
  unfold seekPass
  simp only [find?_range'_eq_none, Bool.not_eq_true']
  constructor
  · intro hNone j hStart
    by_contra hMatch
    rw [Bool.not_eq_false] at hMatch
    have hEnd := le_length_of_matchesAt hPattern hMatch
    rw [hNone j hStart (by omega)] at hMatch
    cases hMatch
  · intro hNone j hStart _
    exact hNone j hStart

/-! ## All passes -/

/-- The guard for short files changes nothing: a pass over such a file finds nothing. -/
theorem seekSequence_eq (eof : Bool) : seekSequence lines pattern start eof =
      seekLevels.findSome? fun norm =>
        seekPass norm lines pattern (if eof then lines.length - pattern.length else start) := by
  unfold seekSequence
  rw [if_neg hPattern]
  split
  · rename_i hLong
    symm
    rw [findSome?_eq_none_iff]
    intro norm _
    rw [seekPass_eq_none_iff hPattern]
    intro j _
    by_contra hMatch
    rw [Bool.not_eq_false] at hMatch
    have hEnd := le_length_of_matchesAt hPattern hMatch
    omega
  · rfl

theorem seekSequence_eq_some_iff :
    seekSequence lines pattern start false = some i ↔ StrictestFirst lines pattern start i := by
  rw [seekSequence_eq hPattern, findSome?_eq_some_iff]
  simp only [seekPass_eq_some_iff hPattern, seekPass_eq_none_iff hPattern]
  constructor
  · intro ⟨stricter, norm, laxer, hLevels, ⟨hStart, hMatch, hFirst⟩, hStricter⟩
    exact ⟨hStart, stricter, norm, laxer, hLevels, hStricter, hMatch, hFirst⟩
  · intro ⟨hStart, stricter, norm, laxer, hLevels, hStricter, hMatch, hFirst⟩
    exact ⟨stricter, norm, laxer, hLevels, ⟨hStart, hMatch, hFirst⟩, hStricter⟩

theorem seekSequence_eq_none_iff :
    seekSequence lines pattern start false = none ↔ MatchesNowhere lines pattern start := by
  rw [seekSequence_eq hPattern, findSome?_eq_none_iff]
  exact forall₂_congr fun _ _ => seekPass_eq_none_iff hPattern

/-! ## At the end of the file -/

/-- With `eof` only the last lines are ever compared. -/
theorem seekSequence_eof : seekSequence lines pattern start true =
      if matchesAtEnd lines pattern then some (lines.length - pattern.length) else none := by
  have hSame : seekSequence lines pattern start true =
      seekSequence lines pattern (lines.length - pattern.length) false := by
    rw [seekSequence_eq hPattern, seekSequence_eq hPattern]
    rfl
  have hOnly : ∀ {norm : Text → Text} {j : Nat}, lines.length - pattern.length ≤ j →
      matchesAt norm lines pattern j = true → j = lines.length - pattern.length := by
    intro norm j hFrom hMatch
    have hEnd := le_length_of_matchesAt hPattern hMatch
    omega
  rw [hSame]
  cases hSeek : seekSequence lines pattern (lines.length - pattern.length) false with
  | some i =>
    obtain ⟨hFrom, stricter, norm, laxer, hLevels, -, hMatch, -⟩ :=
      (seekSequence_eq_some_iff hPattern).mp hSeek
    obtain rfl := hOnly hFrom hMatch
    have hEnd : matchesAtEnd lines pattern = true := by
      refine any_eq_true.mpr ⟨norm, ?_, hMatch⟩
      rw [hLevels]
      exact mem_append_right _ mem_cons_self
    rw [if_pos hEnd]
  | none =>
    have hNowhere := (seekSequence_eq_none_iff hPattern).mp hSeek
    have hEnd : ¬ matchesAtEnd lines pattern = true := by
      intro h
      obtain ⟨norm, hNorm, hMatch⟩ := any_eq_true.mp h
      rw [hNowhere norm hNorm _ le_rfl] at hMatch
      cases hMatch
    rw [if_neg hEnd]

end

/-- **The line search.** Without `eof` it finds the first match at the strictest level that has one,
and nothing only if no level matches. With `eof` it does what its comment says if and only if the
pattern stands at the end of the file or nowhere from `start` on. -/
theorem eof_seek_iff (lines : List Text) (hPattern : pattern ≠ []) (start : Nat) :
    (∀ i, seekSequence lines pattern start false = some i ↔ StrictestFirst lines pattern start i) ∧
    (seekSequence lines pattern start false = none ↔ MatchesNowhere lines pattern start) ∧
    (seekSequence lines pattern start true = documentedEofSeek lines pattern start ↔
      matchesAtEnd lines pattern = true ∨ MatchesNowhere lines pattern start) := by
  refine ⟨fun i => seekSequence_eq_some_iff hPattern, seekSequence_eq_none_iff hPattern, ?_⟩
  rw [seekSequence_eof hPattern, ← seekSequence_eq_none_iff hPattern]
  unfold documentedEofSeek
  by_cases hEnd : matchesAtEnd lines pattern = true
  · rw [if_pos hEnd, if_pos hEnd]
    exact ⟨fun _ => .inl hEnd, fun _ => rfl⟩
  rw [if_neg hEnd, if_neg hEnd]
  constructor
  · intro hSame
    exact .inr hSame.symm
  · intro hOr
    exact (hOr.resolve_left hEnd).symm

/-- The last line of a file, found with its trailing blank ignored. -/
theorem last_line_found :
    seekSequence ["a".toList, "b ".toList] ["b".toList] 0 true =
      documentedEofSeek ["a".toList, "b ".toList] ["b".toList] 0 :=
  (eof_seek_iff ["a".toList, "b ".toList] (cons_ne_nil _ _) 0).2.2.mpr (.inl (by decide))

/-- A pattern that stands before the last line: promised, and not found. -/
theorem earlier_line_missed :
    seekSequence ["a".toList, "b".toList] ["a".toList] 0 true = none ∧
      seekSequence ["a".toList, "b".toList] ["a".toList] 0 false = some 0 := by
  decide

end Codex.ApplyPatch
