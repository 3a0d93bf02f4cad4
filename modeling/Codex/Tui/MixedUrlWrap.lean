import Codex.Lib.Runs
import Codex.Std.Text
import Mathlib.Algebra.Order.BigOperators.Group.List
import Mathlib.Algebra.Order.Ring.Nat

/-!
# Codex — wrapping lines that hold links

`mixed_url_wrap_ranges` and `split_mixed_url_word` in `tui/src/wrapping.rs`. Words are put on lines;
a link is never cut, and another word is cut where it is too wide for an empty line. The cut
pieces go back to the list they came from, and are looked at again.

Texts are lists of characters, so a range counts characters. Words, widths and cuts are those of
`textwrap`: words are separated by spaces, the width of a text is the sum over its characters, and
`break_apart` starts a new piece before the character that would make this one too wide. Escape
sequences, which have no width there, are left out. What counts as a link (`is_url_like_token`) is
a parameter.

A character that is wider than an empty line is a piece of its own that is cut again and again,
into itself.

* `ends_round` — no round changes whether the loop ends; if it does, every round makes progress
  (`effort_lt_of_round`).
* `terminates_iff` — so the function returns exactly if the first piece fits and, where later lines
  have one column, all wide characters go on the first line.
-/

namespace Codex.Tui

open List

/-- What the terminal and the link detection are asked. -/
structure WrapEnv where
  chWidth : Char → Nat
  chWidth_le : ∀ ch, chWidth ch ≤ 2
  isUrlLikeToken : Text → Bool

/-- The range of a word is its start with its length. -/
structure MixedUrlWord where
  start : Nat
  word : Text
  isUrl : Bool

/-- `Word::break_apart`: the piece that is being made, and its width. -/
def breakFrom (chWidth : Char → Nat) (limit : Nat) (piece : Text) (width : Nat) : Text → List Text
  | [] => if piece.isEmpty then [] else [piece]
  | ch :: rest =>
    if 0 < width ∧ limit < width + chWidth ch then
      piece :: breakFrom chWidth limit [ch] (chWidth ch) rest
    else breakFrom chWidth limit (piece ++ [ch]) (width + chWidth ch) rest

/-- The variables of the loop; `pending` starts at `pending_idx`. -/
structure WrapLoop where
  words : List MixedUrlWord
  pending : List MixedUrlWord
  lines : List (Nat × Nat)
  lineStart : Option Nat
  lineEnd : Nat
  lineWidth : Nat
  lineLimit : Nat

namespace WrapEnv

variable (env : WrapEnv)

variable (text : Text)

def displayWidth : Nat := (text.map env.chWidth).sum

/-- The words among the parts between spaces, of which the first starts at `cursor`. -/
def wordsFrom (cursor : Nat) : List Text → List MixedUrlWord
  | [] => []
  | part :: parts =>
    let later := wordsFrom (cursor + part.length + 1) parts
    if part.isEmpty then later else ⟨cursor, part, env.isUrlLikeToken part⟩ :: later

def words : List MixedUrlWord := env.wordsFrom 0 (Text.split ' ' text)

/-- Pieces that follow each other from `offset` on. -/
def placed (offset : Nat) : List Text → List MixedUrlWord
  | [] => []
  | piece :: pieces => ⟨offset, piece, false⟩ :: placed (offset + piece.length) pieces

def splitMixedUrlWord (word : MixedUrlWord) (lineLimit : Nat) : List MixedUrlWord :=
  if word.isUrl || env.displayWidth word.word ≤ lineLimit then [word]
  else placed word.start (breakFrom env.chWidth (max lineLimit 1) [] 0 word.word)

/-- `empty_line_prefix_width`: the first line keeps the leading spaces. -/
def prefixWidth (leading : Nat) (loop : WrapLoop) : Nat :=
  if loop.lineStart.isNone && loop.lines.isEmpty then leading else 0

def pieceLimit (leading : Nat) (loop : WrapLoop) : Nat :=
  max (loop.lineLimit - prefixWidth leading loop) 1

def interWordSpace (loop : WrapLoop) (piece : MixedUrlWord) : Nat :=
  if loop.lineStart.isSome then piece.start - loop.lineEnd else 0

def fits (leading : Nat) (loop : WrapLoop) (piece : MixedUrlWord) : Bool :=
  if loop.lineStart.isNone then
    piece.isUrl || prefixWidth leading loop + env.displayWidth piece.word ≤ loop.lineLimit ||
      loop.lineLimit ≤ prefixWidth leading loop
  else
    loop.lineWidth + interWordSpace loop piece + env.displayWidth piece.word ≤ loop.lineLimit

/-- The piece goes on the line. -/
def place (leading : Nat) (loop : WrapLoop) (piece : MixedUrlWord) (rest : List MixedUrlWord) :
    WrapLoop :=
  let width := env.displayWidth piece.word
  { loop with
    pending := rest
    lineStart := loop.lineStart <|> some (if loop.lines.isEmpty then 0 else piece.start)
    lineWidth :=
      if loop.lineStart.isNone then (if loop.lines.isEmpty then leading + width else width)
      else loop.lineWidth + interWordSpace loop piece + width
    lineEnd := piece.start + piece.word.length }

def endLine (loop : WrapLoop) : WrapLoop :=
  match loop.lineStart with
  | some start => { loop with lines := loop.lines ++ [(start, loop.lineEnd)], lineStart := none }
  | none => loop

/-- One round of the inner loop, or the next word. -/
def step (leading subsequentWidth : Nat) (loop : WrapLoop) : Option WrapLoop :=
  match loop.pending, loop.words with
  | [], [] => none
  | [], word :: words =>
    some { loop with pending := env.splitMixedUrlWord word loop.lineLimit, words }
  | piece :: rest, _ =>
    if loop.lineStart.isNone && !piece.isUrl &&
        decide (pieceLimit leading loop < env.displayWidth piece.word) then
      some { loop with
        pending := env.splitMixedUrlWord piece (pieceLimit leading loop) ++ rest }
    else if env.fits leading loop piece then some (env.place leading loop piece rest)
    else
      some { endLine loop with lineEnd := 0, lineWidth := 0, lineLimit := max subsequentWidth 1 }

def leadingSpaceWidth : Nat := (text.takeWhile (· = ' ')).length

def start (initialWidth : Nat) : WrapLoop where
  words := env.words text
  pending := []
  lines := []
  lineStart := none
  lineEnd := 0
  lineWidth := 0
  lineLimit := max initialWidth 1

/-- The ranges, if the loop ends with less than `fuel` rounds. -/
def mixedUrlWrapRanges (fuel : Nat) (text : Text) (initialWidth subsequentWidth : Nat) :
    Option (List (Nat × Nat)) :=
  (Runs.final (env.step (leadingSpaceWidth text) subsequentWidth) fuel
    (env.start text initialWidth)).map fun loop => (endLine loop).lines

def Terminates (initialWidth subsequentWidth : Nat) : Prop :=
  ∃ fuel, (env.mixedUrlWrapRanges fuel text initialWidth subsequentWidth).isSome

/-! ## Which texts are wrapped -/

/-- A word that may be cut has a character of two columns. -/
def Wide (word : MixedUrlWord) : Prop :=
  word.isUrl = false ∧ ∃ ch ∈ word.word, env.chWidth ch = 2

def Narrow (pieces : List MixedUrlWord) : Prop := ∀ piece ∈ pieces, ¬env.Wide piece

/-- The words cut to the width of a line. -/
def cutTo (limit : Nat) (words : List MixedUrlWord) : List MixedUrlWord :=
  words.flatMap fun word => env.splitMixedUrlWord word limit

/-- The first piece is cut again, to what the leading spaces leave of the line. -/
def offered (leading limit : Nat) : List MixedUrlWord → List MixedUrlWord
  | [] => []
  | piece :: rest => env.splitMixedUrlWord piece (max (limit - leading) 1) ++ rest

/-- What does not go on a line that is filled from this width and end on. -/
def leftOver (limit width lineEnd : Nat) : List MixedUrlWord → List MixedUrlWord
  | [] => []
  | piece :: rest =>
    let width := width + (piece.start - lineEnd) + env.displayWidth piece.word
    if width ≤ limit then leftOver limit width (piece.start + piece.word.length) rest
    else piece :: rest

/-- The first piece fits on the first line; and if the other lines have one column, all that is not
narrow goes on the first line. -/
def Fitting (leading limit subsequentWidth : Nat) : List MixedUrlWord → Prop
  | [] => True
  | first :: rest =>
    (first.isUrl = true ∨ env.displayWidth first.word ≤ max (limit - leading) 1) ∧
      (subsequentWidth ≤ 1 → env.Narrow (env.leftOver limit
        (leading + env.displayWidth first.word) (first.start + first.word.length) rest))

/-! ## Pieces -/

/-- From this piece on `break_apart` does the same as from the start. -/
def Begun (limit : Nat) (piece : Text) : Prop :=
  ∀ rest, breakFrom env.chWidth limit [] 0 (piece ++ rest) =
    breakFrom env.chWidth limit piece (env.displayWidth piece) rest

variable {env} in
theorem Begun.whole {limit : Nat} {piece : Text} (h : env.Begun limit piece) (hNil : piece ≠ []) :
    breakFrom env.chWidth limit [] 0 piece = [piece] := by
  have hAll := h []
  rwa [append_nil, breakFrom, if_neg (by simpa using hNil)] at hAll

/-- What `break_apart` gives: the text in pieces, none of them empty or cut again, and none too wide
unless a character is. -/
theorem breakFrom_spec {limit : Nat} {piece : Text} (hPiece : env.Begun limit piece) (rest : Text) :
    (breakFrom env.chWidth limit piece (env.displayWidth piece) rest).flatten = piece ++ rest ∧
      ∀ cut ∈ breakFrom env.chWidth limit piece (env.displayWidth piece) rest, cut ≠ [] ∧
        breakFrom env.chWidth limit [] 0 cut = [cut] ∧
        ((∀ ch ∈ piece ++ rest, env.chWidth ch ≤ limit) → env.displayWidth piece ≤ limit →
          env.displayWidth cut ≤ limit) := by
  induction rest generalizing piece with
  | nil =>
    by_cases hNil : piece = []
    · simp [hNil, breakFrom]
    · have hEnd : breakFrom env.chWidth limit piece (env.displayWidth piece) [] = [piece] :=
        if_neg (by simpa using hNil)
      rw [hEnd]
      exact ⟨by simp, forall_mem_singleton.mpr ⟨hNil, hPiece.whole hNil, fun _ h => h⟩⟩
  | cons ch rest ih =>
    have hMore : env.displayWidth (piece ++ [ch]) = env.displayWidth piece + env.chWidth ch := by
      simp [displayWidth]
    by_cases hFull : 0 < env.displayWidth piece ∧ limit < env.displayWidth piece + env.chWidth ch
    · have hStep : breakFrom env.chWidth limit piece (env.displayWidth piece) (ch :: rest) =
          piece :: breakFrom env.chWidth limit [ch] (env.displayWidth [ch]) rest := by
        rw [breakFrom, if_pos hFull, displayWidth, map_singleton, sum_singleton]
      have hNil : piece ≠ [] := by
        rintro rfl
        exact absurd hFull.1 (by simp [displayWidth])
      have hNew : env.Begun limit [ch] := fun later => by simp [breakFrom, displayWidth]
      obtain ⟨hFlatten, hCuts⟩ := ih hNew
      rw [hStep]
      refine ⟨by simp [hFlatten], forall_mem_cons.mpr ⟨⟨hNil, hPiece.whole hNil, fun _ h => h⟩, ?_⟩⟩
      intro cut hCut
      obtain ⟨hNe, hAgain, hWidth⟩ := hCuts cut hCut
      refine ⟨hNe, hAgain, fun hChars _ => hWidth (fun c hc => hChars c (mem_append_right _ hc)) ?_⟩
      simpa [displayWidth] using hChars ch (by simp)
    · have hStep (later : Text) : breakFrom env.chWidth limit piece (env.displayWidth piece)
          (ch :: later) = breakFrom env.chWidth limit (piece ++ [ch])
            (env.displayWidth (piece ++ [ch])) later := by
        rw [breakFrom, if_neg hFull, hMore]
      have hLonger : env.Begun limit (piece ++ [ch]) := fun later => by
        rw [append_assoc, singleton_append, hPiece, hStep]
      obtain ⟨hFlatten, hCuts⟩ := ih hLonger
      rw [hStep]
      refine ⟨by simp [hFlatten], fun cut hCut => ?_⟩
      obtain ⟨hNe, hAgain, hWidth⟩ := hCuts cut hCut
      refine ⟨hNe, hAgain, fun hChars hPiece => ?_⟩
      have hCh := hChars ch (by simp)
      exact hWidth (by simpa using hChars) (by omega)

theorem placed_spec (offset : Nat) (cuts : List Text) :
    (placed offset cuts).map MixedUrlWord.word = cuts ∧
      ∀ piece ∈ placed offset cuts, piece.isUrl = false := by
  induction cuts generalizing offset with
  | nil => exact ⟨rfl, forall_mem_nil _⟩
  | cons cut cuts ih =>
    obtain ⟨hWords, hLater⟩ := ih (offset + cut.length)
    exact ⟨congrArg (cut :: ·) hWords, forall_mem_cons.mpr ⟨rfl, hLater⟩⟩

/-- The pieces of a word, or the word itself. -/
theorem split_spec (word : MixedUrlWord) (limit : Nat) :
    ((env.splitMixedUrlWord word limit).map MixedUrlWord.word).flatten = word.word ∧
      ∀ piece ∈ env.splitMixedUrlWord word limit, piece.isUrl = word.isUrl ∧
        (word.word ≠ [] → piece.word ≠ []) ∧ env.splitMixedUrlWord piece limit = [piece] ∧
        (word.isUrl = false → 0 < limit → (limit ≤ 1 → ¬env.Wide word) →
          env.displayWidth piece.word ≤ limit) := by
  by_cases hKeep : (word.isUrl || env.displayWidth word.word ≤ limit) = true
  · have hSelf : env.splitMixedUrlWord word limit = [word] := if_pos hKeep
    rw [hSelf]
    refine ⟨flatten_singleton, forall_mem_singleton.mpr ⟨rfl, id, hSelf, fun hUrl _ _ => ?_⟩⟩
    rw [hUrl, Bool.false_or, decide_eq_true_eq] at hKeep
    exact hKeep
  · obtain ⟨hFlatten, hCuts⟩ := env.breakFrom_spec (fun _ => rfl : env.Begun (max limit 1) []) word.word
    obtain ⟨hWords, hUrl⟩ := placed_spec word.start
      (breakFrom env.chWidth (max limit 1) [] (env.displayWidth []) word.word)
    have hSplit : env.splitMixedUrlWord word limit = placed word.start
        (breakFrom env.chWidth (max limit 1) [] (env.displayWidth []) word.word) := if_neg hKeep
    rw [hSplit]
    refine ⟨(congrArg _ hWords).trans hFlatten, fun piece hPiece => ?_⟩
    obtain ⟨hNe, hAgain, hWidth⟩ := hCuts piece.word (hWords ▸ mem_map_of_mem hPiece)
    have hWord : word.isUrl = false :=
      Bool.eq_false_iff.mpr fun h => hKeep (by rw [h, Bool.true_or])
    refine ⟨(hUrl piece hPiece).trans hWord.symm, fun _ => hNe, ?_, fun _ hLimit hNarrow => ?_⟩
    · unfold splitMixedUrlWord
      split
      · rfl
      · rw [hAgain, placed, placed, ← hUrl piece hPiece]
    · rw [Nat.max_eq_left hLimit] at hWidth
      refine hWidth (fun ch hCh => ?_) (Nat.zero_le _)
      have hNotTwo : limit ≤ 1 → env.chWidth ch ≠ 2 :=
        fun hOne hTwo => hNarrow hOne ⟨hWord, ch, hCh, hTwo⟩
      have hLe := env.chWidth_le ch
      omega

@[simp] theorem narrow_cons (piece : MixedUrlWord) (rest : List MixedUrlWord) :
    env.Narrow (piece :: rest) ↔ ¬env.Wide piece ∧ env.Narrow rest :=
  forall_mem_cons

@[simp] theorem narrow_append (pieces rest : List MixedUrlWord) :
    env.Narrow (pieces ++ rest) ↔ env.Narrow pieces ∧ env.Narrow rest :=
  forall_mem_append

/-- Cutting makes no character narrow. -/
@[simp] theorem narrow_split (word : MixedUrlWord) (limit : Nat) :
    env.Narrow (env.splitMixedUrlWord word limit) ↔ ¬env.Wide word := by
  obtain ⟨hFlatten, hPieces⟩ := env.split_spec word limit
  constructor
  · rintro hNarrow ⟨hUrl, ch, hCh, hTwo⟩
    rw [← hFlatten, ← flatMap_def, mem_flatMap] at hCh
    obtain ⟨piece, hPiece, hCh⟩ := hCh
    exact hNarrow piece hPiece ⟨(hPieces piece hPiece).1.trans hUrl, ch, hCh, hTwo⟩
  · rintro hWord piece hPiece ⟨hUrl, ch, hCh, hTwo⟩
    refine hWord ⟨(hPieces piece hPiece).1.symm.trans hUrl, ch, ?_, hTwo⟩
    rw [← hFlatten]
    exact mem_flatten.mpr ⟨_, mem_map_of_mem hPiece, hCh⟩

@[simp] theorem narrow_cutTo (limit : Nat) (words : List MixedUrlWord) :
    env.Narrow (env.cutTo limit words) ↔ env.Narrow words := by
  simp only [cutTo, Narrow, mem_flatMap, forall_exists_index, and_imp]
  constructor
  · exact fun h word hWord => (env.narrow_split word limit).mp fun piece => h piece word hWord
  · exact fun h piece word hWord => (env.narrow_split word limit).mpr (h word hWord) piece

theorem split_ne_nil {word : MixedUrlWord} (hWord : word.word ≠ []) (limit : Nat) :
    env.splitMixedUrlWord word limit ≠ [] := by
  intro hNone
  have hFlatten := (env.split_spec word limit).1
  rw [hNone] at hFlatten
  exact hWord hFlatten.symm

/-- Nothing is cut a third time. -/
theorem offered_split {piece : MixedUrlWord} (hPiece : piece.word ≠ []) (leading limit : Nat)
    (rest : List MixedUrlWord) :
    env.offered leading limit (env.splitMixedUrlWord piece (max (limit - leading) 1) ++ rest) =
      env.offered leading limit (piece :: rest) := by
  have hPieces := (env.split_spec piece (max (limit - leading) 1)).2
  obtain ⟨first, others, hSplit⟩ := exists_cons_of_ne_nil (env.split_ne_nil hPiece (max (limit - leading) 1))
  rw [hSplit] at hPieces
  rw [offered, hSplit, cons_append, offered, (hPieces first mem_cons_self).2.2.1]
  rfl

/-- What goes on one column is narrow. -/
theorem not_wide_of_le {piece : MixedUrlWord}
    (h : piece.isUrl = true ∨ env.displayWidth piece.word ≤ 1) : ¬env.Wide piece := by
  rintro ⟨hUrl, ch, hMem, hTwo⟩
  have hLe : env.chWidth ch ≤ env.displayWidth piece.word := le_sum_of_mem (mem_map_of_mem hMem)
  have hOne := h.resolve_left (by simp [hUrl])
  omega

/-! ## One round -/

/-- What a round does: the next word or a piece that is too wide for an empty line is cut, a piece is
placed, or a line that is not empty is ended. -/
inductive Round (leading subsequentWidth : Nat) (loop : WrapLoop) : WrapLoop → Prop
  | takes {word words} (hPending : loop.pending = []) (hWords : loop.words = word :: words) :
    Round leading subsequentWidth loop
      { loop with pending := env.splitMixedUrlWord word loop.lineLimit, words }
  | cuts {piece rest} (hPending : loop.pending = piece :: rest) (hStart : loop.lineStart = none)
    (hUrl : piece.isUrl = false) (hWide : pieceLimit leading loop < env.displayWidth piece.word) :
    Round leading subsequentWidth loop
      { loop with pending := env.splitMixedUrlWord piece (pieceLimit leading loop) ++ rest }
  | places {piece rest} (hPending : loop.pending = piece :: rest)
    (hEmpty : loop.lineStart = none →
      piece.isUrl = true ∨ env.displayWidth piece.word ≤ pieceLimit leading loop)
    (hRoom : loop.lineStart.isSome → loop.lineWidth + interWordSpace loop piece +
      env.displayWidth piece.word ≤ loop.lineLimit) :
    Round leading subsequentWidth loop (env.place leading loop piece rest)
  | ends {piece rest start} (hPending : loop.pending = piece :: rest)
    (hStart : loop.lineStart = some start)
    (hFull : loop.lineLimit <
      loop.lineWidth + interWordSpace loop piece + env.displayWidth piece.word) :
    Round leading subsequentWidth loop { loop with
      lines := loop.lines ++ [(start, loop.lineEnd)], lineStart := none, lineEnd := 0,
      lineWidth := 0, lineLimit := max subsequentWidth 1 }

variable {env} {leading subsequentWidth : Nat} {loop loop' : WrapLoop}

theorem round_of_step (h : env.step leading subsequentWidth loop = some loop') :
    env.Round leading subsequentWidth loop loop' := by
  unfold step at h
  split at h
  · cases h
  · rename_i word words hPending hWords
    cases h
    exact .takes hPending hWords
  rename_i piece rest hPending
  split at h
  · rename_i hCut
    cases h
    simp only [Bool.and_eq_true, Bool.not_eq_true', decide_eq_true_eq, Option.isNone_iff_eq_none]
      at hCut
    exact .cuts hPending hCut.1.1 hCut.1.2 hCut.2
  rename_i hKept
  cases hStart : loop.lineStart with
  | none =>
    -- a piece that is not cut fits on the empty line
    have hFits : piece.isUrl = true ∨ env.displayWidth piece.word ≤ pieceLimit leading loop := by
      by_contra! hNot
      exact hKept (by simp [hStart, hNot])
    rw [if_pos] at h
    · cases h
      exact .places hPending (fun _ => hFits) (by simp [hStart])
    · unfold fits
      unfold pieceLimit at hFits
      simp only [hStart, Option.isNone_none, if_true, Bool.or_eq_true, decide_eq_true_eq]
      rcases hFits with hUrl | hRoom
      · exact .inl (.inl hUrl)
      · omega
  | some start =>
    simp only [fits, hStart, Option.isNone_some, Bool.false_eq_true, if_false,
      decide_eq_true_eq] at h
    split at h
    · rename_i hRoom
      cases h
      exact .places hPending (by simp [hStart]) fun _ => hRoom
    · rename_i hFull
      cases h
      unfold endLine
      rw [hStart]
      exact .ends hPending hStart (by omega)

/-! ## Progress -/

variable (env leading subsequentWidth) in
/-- What decides whether the loop ends, on the first line while it is empty, on the rest of it, and
after it. -/
def Ends (loop : WrapLoop) : Prop :=
  let pieces := loop.pending ++ env.cutTo loop.lineLimit loop.words
  if loop.lines = [] then
    match loop.lineStart with
    | none =>
      env.Fitting leading loop.lineLimit subsequentWidth (env.offered leading loop.lineLimit pieces)
    | some _ => subsequentWidth ≤ 1 →
      env.Narrow (env.leftOver loop.lineLimit loop.lineWidth loop.lineEnd pieces)
  else subsequentWidth ≤ 1 → env.Narrow pieces

variable (subsequentWidth) in
/-- What the loop keeps. -/
structure Sound (loop : WrapLoop) : Prop where
  nonempty : ∀ word ∈ loop.pending ++ loop.words, word.word ≠ []
  limit : loop.lines ≠ [] → loop.lineLimit = max subsequentWidth 1

theorem Sound.round (h : Sound subsequentWidth loop)
    (hRound : env.Round leading subsequentWidth loop loop') : Sound subsequentWidth loop' := by
  obtain ⟨hWords, hLimit⟩ := h
  have hSplit {word : MixedUrlWord} {limit : Nat} (hWord : word.word ≠ []) :
      ∀ piece ∈ env.splitMixedUrlWord word limit, piece.word ≠ [] :=
    fun piece hPiece => ((env.split_spec word limit).2 piece hPiece).2.1 hWord
  cases hRound with
  | takes hPending hNext =>
    refine ⟨?_, hLimit⟩
    simp only [hPending, hNext, forall_mem_append, forall_mem_cons] at hWords ⊢
    exact ⟨hSplit hWords.2.1, hWords.2.2⟩
  | cuts hPending =>
    refine ⟨?_, hLimit⟩
    simp only [hPending, forall_mem_append, forall_mem_cons] at hWords ⊢
    exact ⟨⟨hSplit hWords.1.1, hWords.1.2⟩, hWords.2⟩
  | places hPending =>
    refine ⟨?_, hLimit⟩
    simp only [place, hPending, forall_mem_append, forall_mem_cons] at hWords ⊢
    exact ⟨hWords.1.2, hWords.2⟩
  | ends hPending => exact ⟨hWords, fun _ => rfl⟩

/-- **A round decides nothing.** -/
theorem ends_round (h : Sound subsequentWidth loop)
    (hRound : env.Round leading subsequentWidth loop loop') :
    env.Ends leading subsequentWidth loop' ↔ env.Ends leading subsequentWidth loop := by
  cases hRound with
  | takes hPending hWords => simp [Ends, hPending, hWords, cutTo]
  | @cuts piece rest hPending hStart hUrl hWide =>
    by_cases hLines : loop.lines = []
    · -- the pieces are those that the first line is offered
      have hLimit : pieceLimit leading loop = max (loop.lineLimit - leading) 1 := by
        simp [pieceLimit, prefixWidth, hStart, hLines]
      have hPiece := h.nonempty piece (by simp [hPending])
      simp only [Ends, hLines, hStart, hPending, hLimit, if_true, append_assoc, cons_append,
        env.offered_split hPiece]
    · simp [Ends, hLines, hPending]
  | @places piece rest hPending hEmpty hRoom =>
    by_cases hLines : loop.lines = []
    · cases hStart : loop.lineStart with
      | none =>
        have hFits := hEmpty hStart
        simp only [pieceLimit, prefixWidth, hStart, hLines, Option.isNone_none, isEmpty_nil,
          Bool.and_self, if_true] at hFits
        have hSplit : env.splitMixedUrlWord piece (max (loop.lineLimit - leading) 1) = [piece] :=
          if_pos (by simpa using hFits)
        simp only [Ends, hLines, hStart, hPending, place, offered, hSplit, Fitting, hFits, if_true,
          cons_append, nil_append, true_and]
        simp
      | some start =>
        have hFits := hRoom (by simp [hStart])
        simp only [interWordSpace, hStart, Option.isSome_some, if_true] at hFits
        simp [Ends, hLines, hStart, hPending, place, leftOver, hFits, interWordSpace]
    · have hNarrow : subsequentWidth ≤ 1 → ¬env.Wide piece := by
        intro hOne
        have hLimit := h.limit hLines
        refine env.not_wide_of_le ?_
        cases hStart : loop.lineStart with
        | none =>
          have hPrefix : prefixWidth leading loop = 0 := by simp [prefixWidth, hLines]
          refine (hEmpty hStart).imp_right fun hFits => ?_
          unfold pieceLimit at hFits
          omega
        | some start =>
          have hFits := hRoom (by simp [hStart])
          exact .inr (by omega)
      simp only [Ends, hLines, hPending, place, if_false, cons_append, narrow_cons]
      exact forall_congr' fun hOne => (and_iff_right (hNarrow hOne)).symm
  | @ends piece rest start hPending hStart hFull =>
    simp only [interWordSpace, hStart, Option.isSome_some, if_true] at hFull
    simp [Ends, hStart, hPending, leftOver, Nat.not_le.mpr hFull]

def chars (loop : WrapLoop) : Nat :=
  ((loop.pending ++ loop.words).map MixedUrlWord.word).flatten.length

/-- A piece can be cut as often as it has characters, each piece is placed once, and a line is
ended at most once for each piece. -/
def effort (loop : WrapLoop) : Nat :=
  3 * chars loop - loop.pending.length + if loop.lineStart.isSome then 1 else 0

theorem Sound.pending_le_chars (h : Sound subsequentWidth loop) :
    loop.pending.length ≤ chars loop := by
  have hAll : ∀ words : List MixedUrlWord, (∀ word ∈ words, word.word ≠ []) →
      words.length ≤ (words.map MixedUrlWord.word).flatten.length := by
    intro words hWords
    induction words with
    | nil => exact le_refl _
    | cons word words ih =>
      rw [forall_mem_cons] at hWords
      have hPos := length_pos_of_ne_nil hWords.1
      have hLater := ih hWords.2
      simp only [map_cons, length_cons, flatten_cons, length_append]
      omega
  have hTodo := hAll _ h.nonempty
  rw [length_append] at hTodo
  unfold chars
  omega

/-- If the loop ends, a piece that is cut is not cut into itself. -/
theorem split_length_ne_one {piece : MixedUrlWord} {rest : List MixedUrlWord}
    (h : Sound subsequentWidth loop) (hEnds : env.Ends leading subsequentWidth loop)
    (hPending : loop.pending = piece :: rest) (hStart : loop.lineStart = none)
    (hUrl : piece.isUrl = false) (hWide : pieceLimit leading loop < env.displayWidth piece.word) :
    (env.splitMixedUrlWord piece (pieceLimit leading loop)).length ≠ 1 := by
  intro hOne
  obtain ⟨cut, hCut⟩ := length_eq_one_iff.mp hOne
  obtain ⟨hFlatten, hPieces⟩ := env.split_spec piece (pieceLimit leading loop)
  rw [hCut] at hFlatten hPieces
  obtain ⟨hSame, -, -, hNarrow⟩ := hPieces cut (mem_singleton_self _)
  rw [map_singleton, flatten_singleton] at hFlatten
  rw [hFlatten] at hNarrow
  have hPos : 0 < pieceLimit leading loop := by
    unfold pieceLimit
    omega
  by_cases hLines : loop.lines = []
  · have hLimit : pieceLimit leading loop = max (loop.lineLimit - leading) 1 := by
      simp [pieceLimit, prefixWidth, hStart, hLines]
    simp only [Ends, hLines, hStart, hPending, if_true, cons_append, offered, ← hLimit, hCut,
      Fitting] at hEnds
    rcases hEnds.1 with hLink | hFits
    · rw [hSame, hUrl] at hLink
      cases hLink
    · rw [hFlatten] at hFits
      omega
  · have hLimit : pieceLimit leading loop = max subsequentWidth 1 := by
      simp [pieceLimit, prefixWidth, hLines, h.limit hLines]
    simp only [Ends, hLines, hPending, if_false, cons_append, narrow_cons] at hEnds
    have hFits := hNarrow hUrl hPos fun hOne => (hEnds (by omega)).1
    omega

/-- **A round makes progress** if the loop ends. -/
theorem effort_lt_of_round (h : Sound subsequentWidth loop)
    (hEnds : env.Ends leading subsequentWidth loop)
    (hRound : env.Round leading subsequentWidth loop loop') : effort loop' < effort loop := by
  have hNew := (h.round hRound).pending_le_chars
  have hSome {word : MixedUrlWord} (hWord : word.word ≠ []) (limit : Nat) :=
    length_pos_iff.mpr (env.split_ne_nil hWord limit)
  unfold effort
  cases hRound with
  | @takes word words hPending hWords =>
    have hPos := hSome (h.nonempty word (by simp [hWords])) loop.lineLimit
    simp only [chars, hPending, hWords, nil_append, map_append, flatten_append, map_cons,
      flatten_cons, length_append, length_nil, (env.split_spec word loop.lineLimit).1] at *
    omega
  | @cuts piece rest hPending hStart hUrl hWide =>
    have hMany := split_length_ne_one h hEnds hPending hStart hUrl hWide
    have hPos := hSome (h.nonempty piece (by simp [hPending])) (pieceLimit leading loop)
    simp only [chars, hPending, cons_append, map_append, flatten_append, map_cons, flatten_cons,
      length_append, length_cons, (env.split_spec piece (pieceLimit leading loop)).1] at *
    omega
  | @places piece rest hPending =>
    have hPos := length_pos_of_ne_nil (h.nonempty piece (by simp [hPending]))
    simp only [place, chars, hPending, cons_append, map_append, flatten_append, map_cons,
      flatten_cons, length_append, length_cons] at *
    split_ifs <;> omega
  | ends hPending hStart =>
    simp only [chars, hStart, Option.isSome_some, Option.isSome_none, if_true] at *
    simp

/-! ## Result -/

theorem word_ne_nil {word : MixedUrlWord} {cursor : Nat} {parts : List Text}
    (h : word ∈ env.wordsFrom cursor parts) : word.word ≠ [] := by
  induction parts generalizing cursor with
  | nil => cases h
  | cons part parts ih =>
    unfold wordsFrom at h
    split at h
    · exact ih h
    · rename_i hPart
      rcases mem_cons.mp h with rfl | hLater
      · simpa using hPart
      · exact ih hLater

variable (env)

theorem terminates_iff_ends (text : Text) (initialWidth subsequentWidth : Nat) :
    env.Terminates text initialWidth subsequentWidth ↔
      env.Ends (leadingSpaceWidth text) subsequentWidth (env.start text initialWidth) := by
  have hStart : Sound subsequentWidth (env.start text initialWidth) :=
    ⟨fun word hWord => word_ne_nil hWord, fun h => absurd rfl h⟩
  unfold Terminates mixedUrlWrapRanges
  simp only [Option.isSome_map]
  refine Runs.exists_final_iff (Sound subsequentWidth) _ effort ?_ ?_ hStart
  · intro loop loop' hSound hStep
    have hRound := round_of_step hStep
    exact ⟨hSound.round hRound, ends_round hSound hRound,
      fun hEnds => effort_lt_of_round hSound hEnds hRound⟩
  · intro loop hLast
    unfold step at hLast
    split at hLast
    · rename_i hPending hWords
      cases hStart : loop.lineStart <;>
        simp [Ends, hStart, hPending, hWords, cutTo, offered, Fitting, leftOver, Narrow]
    · cases hLast
    · split_ifs at hLast

/-- **Which texts are wrapped.** The loop ends exactly if the first piece fits on the first line and,
where the lines after it have one column, all characters of two columns go on it. -/
theorem terminates_iff (text : Text) (initialWidth subsequentWidth : Nat) :
    env.Terminates text initialWidth subsequentWidth ↔
      env.Fitting (leadingSpaceWidth text) (max initialWidth 1) subsequentWidth
        (env.offered (leadingSpaceWidth text) (max initialWidth 1)
          (env.cutTo (max initialWidth 1) (env.words text))) :=
  env.terminates_iff_ends text initialWidth subsequentWidth

/-- A terminal on which one ideograph takes two columns, and no links. -/
def ideographic : WrapEnv where
  chWidth ch := if ch = '界' then 2 else 1
  chWidth_le ch := by split <;> omega
  isUrlLikeToken _ := false

/-- One ideograph on lines of one column. -/
theorem ideograph_not_wrapped : ¬ideographic.Terminates ['界'] 1 1 := by
  rw [terminates_iff_ends]
  rintro ⟨hLink | hFits, -⟩
  · cases hLink
  · exact absurd hFits (by decide)

end WrapEnv

end Codex.Tui
