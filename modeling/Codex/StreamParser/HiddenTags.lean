import Codex.StreamParser.Chunk
import Codex.Lib.Search
import Mathlib.Data.List.MinMax
import Mathlib.Data.Prod.Lex

/-!
# Codex — hidden inline tags

`utils/stream-parser/src/inline_hidden_tag.rs`. The parser hides `open … close` spans of
the text and extracts their contents; tags do not nest, and one that is open at the end
of the stream is closed there. What might still become a delimiter is held back.

Offsets and lengths are counted in characters. The source counts bytes; at the places
where it compares two of them they measure prefixes, or suffixes, of one text, so the
order is the same.

* `loopBody` is one round of the loop of `push_str`, `pushLoop` the loop. A round that
  goes on has taken a delimiter off the pending text.
* `OpensAt` says which opener comes next; `findNextOpen` finds it
  (`findNextOpen_eq_some_iff`).
-/

namespace Codex.StreamParser

open Search List Text

structure ExtractedInlineTag (T : Type) where
  tag : T
  content : Text
  deriving DecidableEq, Repr

structure InlineTagSpec (T : Type) where
  tag : T
  openText : Text
  closeText : Text
  deriving DecidableEq, Repr

structure ActiveTag (T : Type) where
  tag : T
  close : Text
  content : Text
  deriving DecidableEq, Repr

/-- What the constructor asserts. -/
structure Accepted {T : Type} (specs : List (InlineTagSpec T)) : Prop where
  specs_ne : specs ≠ []
  open_ne : ∀ spec ∈ specs, spec.openText ≠ []
  close_ne : ∀ spec ∈ specs, spec.closeText ≠ []

structure InlineHiddenTagParser (T : Type) where
  specs : List (InlineTagSpec T)
  pending : Text
  active : Option (ActiveTag T)
  accepted : Accepted specs

variable {T : Type} {specs : List (InlineTagSpec T)}

/-- `InlineHiddenTagParser::new`, on specs that pass its assertions. -/
def InlineHiddenTagParser.new (specs : List (InlineTagSpec T)) (accepted : Accepted specs) :
    InlineHiddenTagParser T :=
  { specs, pending := [], active := none, accepted }

/-! ## Definitions -/

def longestSuffixPrefixLen (s needle : Text) : Nat :=
  let max := min s.length (needle.length - 1)
  let lengths := (List.range max).reverse.map (· + 1)
  (lengths.find? fun k => endsWith (needle.take k) s).getD 0

/-- Where each opener stands first: offset, length and index of the spec. -/
def openCandidates (specs : List (InlineTagSpec T)) (pending : Text) : List (Nat × Nat × Nat) :=
  specs.zipIdx.filterMap fun (spec, idx) =>
    (find spec.openText pending).map fun pos => (pos, spec.openText.length, idx)

/-- The order of `min_by`: the earliest opener, of these the longest, of these the one
listed first. -/
def openKey (candidate : Nat × Nat × Nat) : ℕ ×ₗ (ℕᵒᵈ ×ₗ ℕ) :=
  toLex (candidate.1, toLex (OrderDual.toDual candidate.2.1, candidate.2.2))

def findNextOpen (specs : List (InlineTagSpec T)) (pending : Text) : Option (Nat × Nat) :=
  ((openCandidates specs pending).argmin openKey).map fun (pos, _, idx) => (pos, idx)

def maxOpenPrefixSuffixLen (specs : List (InlineTagSpec T)) (pending : Text) : Nat :=
  (specs.map fun spec => longestSuffixPrefixLen pending spec.openText).max?.getD 0

/-- How a round of the loop ends: what it puts out, and the tag and the text that are
then active and pending. -/
inductive LoopStep (T : Type) where
  | next (out : StreamTextChunk (ExtractedInlineTag T)) (active : Option (ActiveTag T))
      (pending : Text)
  | stop (out : StreamTextChunk (ExtractedInlineTag T)) (active : Option (ActiveTag T))
      (pending : Text)

def loopBody (specs : List (InlineTagSpec T)) : Option (ActiveTag T) → Text → LoopStep T
  | some active, pending =>
    match find active.close pending with
    | some closeIdx =>
      .next (.payload { tag := active.tag, content := active.content ++ pending.take closeIdx }) none
        (pending.drop (closeIdx + active.close.length))
    | none =>
      let keep := longestSuffixPrefixLen pending active.close
      let take := pending.length - keep
      .stop 0 (some { active with content := active.content ++ pending.take take })
        (pending.drop take)
  | none, pending =>
    match findNextOpen specs pending with
    | some (openIdx, specIdx) =>
      match specs[specIdx]? with
      | some spec =>
        .next (.visible (pending.take openIdx))
          (some { tag := spec.tag, close := spec.closeText, content := [] })
          (pending.drop (openIdx + spec.openText.length))
      -- not reached: the index is that of a spec
      | none => .stop 0 none pending
    | none =>
      let keep := maxOpenPrefixSuffixLen specs pending
      let take := pending.length - keep
      .stop (.visible (pending.take take)) none (pending.drop take)

/-- The loop of `push_str`. -/
def pushLoop (specs : List (InlineTagSpec T)) : Nat → Option (ActiveTag T) → Text →
    StreamTextChunk (ExtractedInlineTag T) × Option (ActiveTag T) × Text
  | 0, active, pending => (0, active, pending)
  | fuel + 1, active, pending =>
    match loopBody specs active pending with
    | .stop out active pending => (out, active, pending)
    | .next out active pending =>
      let (rest, state) := pushLoop specs fuel active pending
      (out + rest, state)

/-- More rounds than the loop can take. -/
def loopFuel (pending : Text) : Nat := 2 * pending.length + 2

namespace InlineHiddenTagParser

def pushStr (parser : InlineHiddenTagParser T) (chunk : Text) :
    StreamTextChunk (ExtractedInlineTag T) × InlineHiddenTagParser T :=
  let pending := parser.pending ++ chunk
  let (out, active, pending) := pushLoop parser.specs (loopFuel pending) parser.active pending
  (out, { parser with active, pending })

/-- What `finish` flushes. -/
def flush (active : Option (ActiveTag T)) (pending : Text) :
    StreamTextChunk (ExtractedInlineTag T) :=
  match active with
  | some active => .payload { tag := active.tag, content := active.content ++ pending }
  | none => .visible pending

def finish (parser : InlineHiddenTagParser T) :
    StreamTextChunk (ExtractedInlineTag T) × InlineHiddenTagParser T :=
  (flush parser.active parser.pending, { parser with active := none, pending := [] })

end InlineHiddenTagParser

instance : StreamTextParser (InlineHiddenTagParser T) (ExtractedInlineTag T) where
  pushStr := InlineHiddenTagParser.pushStr
  finish := InlineHiddenTagParser.finish

/-! ## Held-back suffixes -/

variable {k : Nat} {text : Text} {pending : Text}

/-- A proper prefix of the needle that the text ends in is no longer than what is held
back. -/
theorem le_longestSuffixPrefixLen {s needle : Text} (hk : k < needle.length)
    (hSuffix : needle.take k <:+ s) : k ≤ longestSuffixPrefixLen s needle := by
  have hLen : k ≤ s.length := by
    have h := hSuffix.length_le
    rw [length_take] at h
    omega
  rcases Nat.eq_zero_or_pos k with rfl | hPos
  · exact Nat.zero_le _
  have hEq : longestSuffixPrefixLen s needle =
      (((List.range (min s.length (needle.length - 1))).reverse.map (· + 1)).find?
        fun k => endsWith (needle.take k) s).getD 0 := rfl
  have hMem : k ∈ (List.range (min s.length (needle.length - 1))).reverse.map (· + 1) := by
    simp only [mem_map, mem_reverse, mem_range]
    exact ⟨k - 1, by omega, by omega⟩
  have hEnds : endsWith (needle.take k) s = true := endsWith_iff.mpr hSuffix
  have hDecreasing : ((List.range (min s.length (needle.length - 1))).reverse.map (· + 1)).Pairwise
      (· > ·) := by
    rw [pairwise_map, pairwise_reverse]
    exact pairwise_lt_range.imp (by omega)
  cases hFind : ((List.range (min s.length (needle.length - 1))).reverse.map (· + 1)).find?
      fun k => endsWith (needle.take k) s with
  | none => exact absurd hEnds (List.find?_eq_none.mp hFind k hMem)
  | some found =>
    -- nothing before `found` in the descending list matches, so `k` is not before it
    obtain ⟨-, before, after, hSplit, hBefore⟩ := List.find?_eq_some_iff_append.mp hFind
    rw [hSplit] at hMem hDecreasing
    rw [mem_append, mem_cons] at hMem
    rw [hEq, hFind, Option.getD_some]
    rcases hMem with hIn | rfl | hIn
    · have hNot := hBefore k hIn
      rw [hEnds] at hNot
      cases hNot
    · exact le_refl _
    · have hTail := (pairwise_append.mp hDecreasing).2.1
      have hGt := (pairwise_cons.mp hTail).1 k hIn
      omega

/-- No occurrence that more text completes starts before what is held back. -/
theorem not_occursAt_of_kept {needle more : Text} {keep i : Nat}
    (hNone : ∀ j, ¬OccursAt needle pending j)
    (hKeep : longestSuffixPrefixLen pending needle ≤ keep) (hi : i < pending.length - keep) :
    ¬OccursAt needle (pending ++ more) i := by
  intro hOccurs
  rcases occursAt_append_cases hOccurs with hOld | hOver
  · exact hNone i hOld
  have hBorder := border_of_occursAt hOccurs (by omega) hOver
  have hSuffix : needle.take (pending.length - i) <:+ pending := by
    rw [← hBorder]
    exact drop_suffix _ _
  have hLe := le_longestSuffixPrefixLen (by omega) hSuffix
  omega

/-! ## The next opener -/

/-- `spec`, the one at index `k`, opens at `i`: it stands there, and every other opener
stands later, or there and is shorter, or there and is listed later. -/
structure OpensAt (specs : List (InlineTagSpec T)) (text : Text) (i k : Nat)
    (spec : InlineTagSpec T) : Prop where
  get : specs[k]? = some spec
  occurs : OccursAt spec.openText text i
  first : ∀ k' spec' j, specs[k']? = some spec' → OccursAt spec'.openText text j →
    i < j ∨ (i = j ∧ (spec'.openText.length < spec.openText.length ∨
      (spec'.openText.length = spec.openText.length ∧ k ≤ k')))

theorem mem_openCandidates {pos len : Nat} : (pos, len, k) ∈ openCandidates specs text ↔
      ∃ spec, specs[k]? = some spec ∧ find spec.openText text = some pos ∧
        len = spec.openText.length := by
  unfold openCandidates
  rw [mem_filterMap]
  constructor
  · intro ⟨⟨spec, idx⟩, hMem, hMap⟩
    rw [Option.map_eq_some_iff] at hMap
    obtain ⟨found, hFind, hEq⟩ := hMap
    obtain ⟨rfl, rfl, rfl⟩ := hEq
    exact ⟨spec, mem_zipIdx_iff_getElem?.mp hMem, hFind, rfl⟩
  · intro ⟨spec, hGet, hFind, hLen⟩
    refine ⟨(spec, k), mem_zipIdx_iff_getElem?.mpr hGet, ?_⟩
    dsimp only
    rw [hFind, Option.map_some, hLen]

theorem openKey_le_iff {pos len pos' len' k' : Nat} :
    openKey (pos, len, k) ≤ openKey (pos', len', k') ↔
      pos < pos' ∨ (pos = pos' ∧ (len' < len ∨ (len' = len ∧ k ≤ k'))) := by
  unfold openKey
  rw [Prod.Lex.toLex_le_toLex, Prod.Lex.toLex_le_toLex]
  simp only [OrderDual.toDual_lt_toDual, OrderDual.toDual_inj]
  omega

theorem openKey_injective {a b : Nat × Nat × Nat} (h : openKey a = openKey b) : a = b := by
  obtain ⟨pos, len, k⟩ := a
  obtain ⟨pos', len', k'⟩ := b
  have hLe := openKey_le_iff.mp (le_of_eq h)
  have hGe := openKey_le_iff.mp (le_of_eq h.symm)
  simp only [Prod.mk.injEq]
  omega

/-- **The next opener.** -/
theorem findNextOpen_eq_some_iff {i : Nat} :
    findNextOpen specs text = some (i, k) ↔ ∃ spec, OpensAt specs text i k spec := by
  unfold findNextOpen
  constructor
  · intro h
    obtain ⟨⟨pos, len, idx⟩, hMin, hEq⟩ := Option.map_eq_some_iff.mp h
    obtain ⟨rfl, rfl⟩ := hEq
    obtain ⟨spec, hGet, hFind, rfl⟩ := mem_openCandidates.mp (argmin_mem hMin)
    refine ⟨spec, hGet, (find_eq_some_iff.mp hFind).1, fun k' spec' j hGet' hOccurs => ?_⟩
    rcases hFind' : find spec'.openText text with _ | first
    · exact absurd hOccurs (find_eq_none_iff.mp hFind' j)
    have hMem := mem_openCandidates.mpr ⟨spec', hGet', hFind', rfl⟩
    have hLe := openKey_le_iff.mp (le_of_mem_argmin hMem hMin)
    have hFirst : first ≤ j := by
      by_contra hLt
      exact (find_eq_some_iff.mp hFind').2 j (by omega) hOccurs
    omega
  · intro ⟨spec, hOpens⟩
    have hFind : find spec.openText text = some i := by
      refine find_eq_some_iff.mpr ⟨hOpens.occurs, fun j hj hOccurs => ?_⟩
      have hOrder := hOpens.first k spec j hOpens.get hOccurs
      omega
    have hMem : (i, spec.openText.length, k) ∈ openCandidates specs text :=
      mem_openCandidates.mpr ⟨spec, hOpens.get, hFind, rfl⟩
    rcases hMin : (openCandidates specs text).argmin openKey with _ | found
    · rw [argmin_eq_none] at hMin
      rw [hMin] at hMem
      cases hMem
    obtain ⟨pos, len, idx⟩ := found
    obtain ⟨spec', hGet', hFind', rfl⟩ := mem_openCandidates.mp (argmin_mem hMin)
    have hLe := le_of_mem_argmin hMem hMin
    have hGe := openKey_le_iff.mpr
      (hOpens.first idx spec' pos hGet' (find_eq_some_iff.mp hFind').1)
    have hEq := openKey_injective (le_antisymm hLe hGe)
    simp only [Prod.mk.injEq] at hEq
    rw [Option.map_some, hEq.1, hEq.2.2]

theorem findNextOpen_eq_none_iff :
    findNextOpen specs text = none ↔ ∀ spec ∈ specs, ∀ i, ¬OccursAt spec.openText text i := by
  unfold findNextOpen
  rw [Option.map_eq_none_iff, argmin_eq_none, eq_nil_iff_forall_not_mem]
  constructor
  · intro hNone spec hSpec i hOccurs
    obtain ⟨k, hGet⟩ := mem_iff_getElem?.mp hSpec
    cases hFind : find spec.openText text with
    | none => exact find_eq_none_iff.mp hFind i hOccurs
    | some pos => exact hNone _ (mem_openCandidates.mpr ⟨spec, hGet, hFind, rfl⟩)
  · intro hNone ⟨pos, len, k⟩ hMem
    obtain ⟨spec, hGet, hFind, -⟩ := mem_openCandidates.mp hMem
    exact hNone spec (mem_of_getElem? hGet) pos (find_eq_some_iff.mp hFind).1

/-- A front in which no opener starts can be skipped. -/
theorem findNextOpen_append_left {front : Text}
    (h : ∀ spec ∈ specs, ∀ i, i < front.length → ¬OccursAt spec.openText (front ++ text) i) :
    findNextOpen specs (front ++ text) =
      (findNextOpen specs text).map fun found => (front.length + found.1, found.2) := by
  cases hFind : findNextOpen specs text with
  | none =>
    rw [Option.map_none, findNextOpen_eq_none_iff]
    intro spec hSpec i hOccurs
    obtain ⟨j, -, hj⟩ := exists_occursAt_of_append_left (h spec hSpec) hOccurs
    exact findNextOpen_eq_none_iff.mp hFind spec hSpec j hj
  | some found =>
    obtain ⟨spec, hOpens⟩ := findNextOpen_eq_some_iff.mp hFind
    rw [Option.map_some, findNextOpen_eq_some_iff]
    refine ⟨spec, hOpens.get, occursAt_append_left.mpr hOpens.occurs, ?_⟩
    intro k' spec' j hGet hOccurs
    obtain ⟨j', rfl, hj'⟩ := exists_occursAt_of_append_left (h spec' (mem_of_getElem? hGet)) hOccurs
    have hOrder := hOpens.first k' spec' j' hGet hj'
    omega

end Codex.StreamParser
