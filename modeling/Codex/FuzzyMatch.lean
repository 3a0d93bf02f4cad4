import Codex.Std.Text
import Mathlib.Algebra.Ring.Int.Defs
import Mathlib.Data.List.Dedup
import Mathlib.Data.List.Flatten
import Mathlib.Data.List.Sort

/-!
# Codex — fuzzy matching

`fuzzy_match` in `utils/fuzzy-match/src/lib.rs`. The haystack is lowered character by character,
each lowered character with the index of its original, and the needle is lowered as a string; the
search is greedy. Both ways to lower are those of the standard library and parameters here.

They differ in one letter: a capital sigma at the end of a word becomes another small letter than
elsewhere. Such a needle is not found, even where the haystack is the needle.

* `greedy_isSome_iff` — the search finds every subsequence.
* `finds_subsequences_iff` — a needle is found wherever it is a subsequence exactly if, lowered as
  a string, it is one of its lowered characters.
-/

namespace Codex.FuzzyMatch

open List

/-- `char::to_lowercase` and `str::to_lowercase` -/
structure Lowercase where
  ofChar : Char → Text
  ofStr : Text → Text
  ofStr_nil : ofStr [] = []

/-- The search loop: `cur` only moves on, so an element that is passed is not seen again. -/
def greedy {α : Type} (char : α → Char) : Text → List α → Option (List α)
  | [], _ => some []
  | _ :: _, [] => none
  | nc :: needle, x :: rest =>
    if char x = nc then (greedy char needle rest).map (x :: ·)
    else greedy char (nc :: needle) rest

namespace Lowercase

variable (lowercase : Lowercase)

def lowerAt (haystack : Text) (origIdx : Nat) : Text := haystack[origIdx]?.elim [] lowercase.ofChar

/-- `lowered_chars` with `lowered_to_orig_char_idx` -/
def loweredChars (haystack : Text) : List (Char × Nat) :=
  (range haystack.length).flatMap fun origIdx => (lowercase.lowerAt haystack origIdx).map (·, origIdx)

/-- The indices with the score; equal indices are side by side once they are sorted. -/
def fuzzyMatch (haystack needle : Text) : Option (List Nat × Int) :=
  if needle.isEmpty then some ([], 2 ^ 31 - 1)
  else
    let lowered := lowercase.loweredChars haystack
    let loweredNeedle := lowercase.ofStr needle
    (greedy (·.1.1) loweredNeedle lowered.zipIdx).map fun hits =>
      let indices := hits.map (·.1.2)
      let firstLowerPos : Nat :=
        (indices.head?.bind fun target => lowered.findIdx? (·.2 = target)).getD 0
      let lastLowerPos : Nat := (hits.getLast?.map (·.2)).getD firstLowerPos
      let window : Int := lastLowerPos - firstLowerPos + 1 - loweredNeedle.length
      (indices.mergeSort.dedup, max window 0 - if firstLowerPos = 0 then 100 else 0)

end Lowercase

/-! ## The search -/

section Greedy

variable {α : Type} {char : α → Char} {needle : Text} {xs hits : List α}

theorem greedy_spec (h : greedy char needle xs = some hits) :
    hits <+ xs ∧ hits.map char = needle := by
  fun_induction greedy char needle xs generalizing hits with
  | case1 xs =>
    cases h
    exact ⟨nil_sublist xs, rfl⟩
  | case2 => cases h
  | case3 needle x rest ih =>
    obtain ⟨later, hLater, rfl⟩ := Option.map_eq_some_iff.mp h
    exact ⟨(ih hLater).1.cons_cons x, by rw [map_cons, (ih hLater).2]⟩
  | case4 nc needle x rest hChar ih => exact (ih h).imp_left (·.cons x)

/-- The search is the greedy test for subsequences. -/
theorem greedy_isSome_iff : (greedy char needle xs).isSome ↔ needle <+ xs.map char := by
  rw [← isSublist_iff_sublist]
  fun_induction greedy char needle xs with
  | case1 | case2 => simp [isSublist]
  | case3 needle x rest ih => simpa [isSublist] using ih
  | case4 nc needle x rest hChar ih => simpa [isSublist, Ne.symm hChar] using ih

end Greedy

/-! ## The indices -/

namespace Lowercase

variable {lowercase : Lowercase} {haystack needle : Text}

theorem map_loweredChars :
    (lowercase.loweredChars haystack).map Prod.fst = haystack.flatMap lowercase.ofChar := by
  simp only [loweredChars, map_flatMap, map_map, Function.comp_def, map_id']
  induction haystack with
  | nil => rfl
  | cons ch haystack ih =>
    rw [length_cons, range_succ_eq_map, flatMap_cons, flatMap_map, flatMap_cons, ← ih]
    rfl

theorem filter_flatMap_pairs (indices : List Nat) (f : Nat → Text) (is : List Nat) :
    (is.flatMap fun i => (f i).map (·, i)).filter (·.2 ∈ indices) =
      (is.filter (· ∈ indices)).flatMap fun i => (f i).map (·, i) := by
  induction is with
  | nil => rfl
  | cons i is ih => by_cases h : i ∈ indices <;> simp [ih, h, filter_map, Function.comp_def]

theorem indices_spec {indices : List Nat} {score : Int}
    (h : lowercase.fuzzyMatch haystack needle = some (indices, score)) :
    indices.Pairwise (· < ·) ∧ (∀ i ∈ indices, i < haystack.length) ∧
      lowercase.ofStr needle <+ indices.flatMap (lowercase.lowerAt haystack) := by
  unfold fuzzyMatch at h
  split at h
  · rename_i hEmpty
    cases h
    rw [isEmpty_iff.mp hEmpty, lowercase.ofStr_nil]
    exact ⟨.nil, forall_mem_nil _, .refl _⟩
  obtain ⟨hits, hHits, hIndices⟩ := Option.map_eq_some_iff.mp h
  obtain ⟨hSub, hChars⟩ := greedy_spec hHits
  have hFound : hits.map Prod.fst <+ lowercase.loweredChars haystack :=
    zipIdx_map_fst 0 (lowercase.loweredChars haystack) ▸ hSub.map Prod.fst
  have hMem : ∀ i, i ∈ indices ↔ ∃ hit ∈ hits, hit.1.2 = i := by
    simp [← (Prod.mk.inj hIndices).1]
  have hStrict : indices.Pairwise (· < ·) := by
    rw [← (Prod.mk.inj hIndices).1]
    have hSorted := pairwise_mergeSort' (· ≤ ·) (hits.map (·.1.2))
    exact ((hSorted.sublist (dedup_sublist _)).and (nodup_dedup _)).imp fun h =>
      lt_of_le_of_ne h.1 h.2
  have hLt : ∀ i ∈ indices, i < haystack.length := by
    have hRange : ∀ pair ∈ lowercase.loweredChars haystack, pair.2 < haystack.length := by
      grind [loweredChars]
    intro i hi
    obtain ⟨hit, hHit, rfl⟩ := (hMem i).mp hi
    exact hRange _ (hFound.subset (mem_map_of_mem hHit))
  refine ⟨hStrict, hLt, ?_⟩
  -- the hits are among the characters at their indices, in the order of the haystack
  have hSelf : indices = (range haystack.length).filter (· ∈ indices) :=
    hStrict.eq_of_mem_iff (pairwise_lt_range.filter _) (by simpa using hLt)
  have hKept := (hFound.filter (·.2 ∈ indices)).map Prod.fst
  rw [loweredChars, filter_flatMap_pairs, ← hSelf, filter_eq_self.mpr (by grind), map_map] at hKept
  simpa [← hChars, map_flatMap, Function.comp_def] using hKept

/-- **Which needles are found.** A needle is found in every text that has it as a subsequence
exactly if, lowered as a string, it is a subsequence of its lowered characters. What is found is
always there. -/
theorem finds_subsequences_iff (lowercase : Lowercase) (needle : Text) :
    (∀ haystack, (needle ≠ [] → needle <+ haystack →
        (lowercase.fuzzyMatch haystack needle).isSome) ∧
      ∀ indices score, lowercase.fuzzyMatch haystack needle = some (indices, score) →
        indices.Pairwise (· < ·) ∧ (∀ i ∈ indices, i < haystack.length) ∧
          lowercase.ofStr needle <+ indices.flatMap (lowercase.lowerAt haystack)) ↔
      lowercase.ofStr needle <+ needle.flatMap lowercase.ofChar := by
  have hSome : ∀ haystack, needle ≠ [] → ((lowercase.fuzzyMatch haystack needle).isSome ↔
      lowercase.ofStr needle <+ haystack.flatMap lowercase.ofChar) := by
    intro haystack hNe
    have hChars : (lowercase.loweredChars haystack).zipIdx.map (·.1.1) =
        haystack.flatMap lowercase.ofChar :=
      map_map.symm.trans ((congrArg _ (zipIdx_map_fst 0 _)).trans map_loweredChars)
    rw [fuzzyMatch, if_neg (by simpa using hNe), Option.isSome_map, greedy_isSome_iff, hChars]
  refine ⟨fun h => ?_, fun h haystack => ⟨fun hNe hSub => ?_, fun _ _ => indices_spec⟩⟩
  · by_cases hNe : needle = []
    · rw [hNe, lowercase.ofStr_nil]
      exact nil_sublist _
    · exact (hSome needle hNe).mp ((h needle).1 hNe (.refl _))
  · exact (hSome haystack hNe).mpr (h.trans (hSub.flatMap lowercase.ofChar))

/-- Greek with two capitals; a sigma at the end of the text ends a word. -/
def greek : Lowercase where
  ofChar ch := if ch = 'Α' then ['α'] else if ch = 'Σ' then ['σ'] else [ch]
  ofStr text := text.dropLast.map (if · = 'Α' then 'α' else 'σ') ++
    text.getLast?.toList.map (if · = 'Σ' then 'ς' else 'α')
  ofStr_nil := rfl

/-- A text is not found in itself. -/
theorem capitals_not_found : greek.fuzzyMatch ['Α', 'Σ'] ['Α', 'Σ'] = none := by
  decide

end Lowercase

end Codex.FuzzyMatch
