import Codex.ApplyPatch.Preview

/-!
# Codex — where the preview and the patch part

The streaming parser and the parser of the whole text can both accept a text and read
different patches in it. In an update, between a header, move or end-of-file line and
the next chunk, the parser skips blank lines and the preview takes them for context
lines; and the preview cuts the blanks off a context or a move line, which the parser
keeps. `Legible` says that a text has no such line.

* On legible lines the streaming parser follows the reader step by step
  (`mirrors_run`).
* `weight` counts old lines, less the sizes of contexts and move paths. A line never
  adds less of it to the preview than to the patch, and a misread line adds strictly
  more (`lead_step`), so that a difference is never made up for (`lead_run`).

`Codex.ApplyPatch.PreviewExact` puts the two together for whole texts.
-/

namespace Codex.ApplyPatch

open StreamingPatchParser List Text

variable {s s' : StreamingPatchParser} {line t : Text} {r r' : Reader} {hs : List Hunk}
variable {path : PathBuf} {movePath movePath' : Option PathBuf}
variable {chunks chunks' : List UpdateFileChunk} {chunk chunk' : UpdateFileChunk} {n : Nat}

/-! ## Legible patches -/

/-- Where a line of a patch stands: not in an update, in one where no chunk is open, or
in a chunk. -/
inductive Place where
  | outside
  | fresh
  | body
  deriving DecidableEq, Repr

/-- The place of the line after `line`. -/
def Place.next (place : Place) (line : Text) : Place :=
  match place with
  | .outside => if startsWith updateFileMarker (trim line) then .fresh else .outside
  | .fresh | .body =>
    if startsWith ['*'] line then
      if startsWith addFileMarker line || startsWith deleteFileMarker line then .outside
      else .fresh
    else .body

/-- A blank line where no chunk is open, or a context or move line with blanks at its end. -/
def Misread (place : Place) (line : Text) : Prop :=
  place = .fresh ∧ trim line = [] ∨
    (startsWith changeContextMarker line = true ∨ startsWith moveToMarker line = true) ∧
      trimEnd line ≠ line

instance (place : Place) (line : Text) : Decidable (Misread place line) :=
  inferInstanceAs (Decidable (_ ∨ _))

def LegibleFrom : Place → List Text → Prop
  | _, [] => True
  | place, line :: lines => ¬Misread place line ∧ LegibleFrom (place.next line) lines

instance decidableLegibleFrom : ∀ place lines, Decidable (LegibleFrom place lines)
  | _, [] => isTrue trivial
  | place, line :: lines =>
    haveI := decidableLegibleFrom (place.next line) lines
    inferInstanceAs (Decidable (_ ∧ _))

/-- No line between the first and the last is misread. -/
def Legible (t : Text) : Prop :=
  LegibleFrom .outside ((lines (trim t)).drop 1).dropLast

instance (t : Text) : Decidable (Legible t) := inferInstanceAs (Decidable (LegibleFrom _ _))

/-! ## Weights -/

section Total

variable {α : Type} {f : α → Int}

def total (f : α → Int) : List α → Int
  | [] => 0
  | x :: xs => f x + total f xs

theorem total_concat (xs : List α) (x : α) : total f (xs ++ [x]) = total f xs + f x := by
  induction xs with
  | nil => simp [total]
  | cons y ys ih =>
    rw [cons_append]
    unfold total
    omega

end Total

def componentSize : Component → Int
  | .curDir => 0
  | .parentDir => 2
  | .normal name => name.toList.length

def pathSize (p : PathBuf) : Int := total componentSize p.components

def UpdateFileChunk.weight (chunk : UpdateFileChunk) : Int :=
  chunk.oldLines.length - match chunk.changeContext with
    | none => 0
    | some context => context.length + 1

def updateWeight (movePath : Option PathBuf) (chunks : List UpdateFileChunk) : Int :=
  total UpdateFileChunk.weight chunks - match movePath with
    | none => 0
    | some moveTo => pathSize moveTo + 1

def Hunk.weight : Hunk → Int
  | .updateFile _ movePath chunks => updateWeight movePath chunks
  | .addFile _ _ | .deleteFile _ => 0

def weight (hunks : List Hunk) : Int := total Hunk.weight hunks

theorem weight_update (hs : List Hunk) :
    weight (hs ++ [.updateFile path movePath chunks]) = weight hs + updateWeight movePath chunks :=
  total_concat _ _

/-- A hunk without weight adds none. -/
theorem weight_concat (hs : List Hunk) {hunk : Hunk} (hZero : hunk.weight = 0) :
    weight (hs ++ [hunk]) = weight hs := by
  unfold weight
  rw [total_concat, hZero, Int.add_zero]

theorem updateWeight_concat (movePath : Option PathBuf) (chunks : List UpdateFileChunk)
    (chunk : UpdateFileChunk) :
    updateWeight movePath (chunks ++ [chunk]) = updateWeight movePath chunks + chunk.weight := by
  unfold updateWeight
  rw [total_concat]
  omega

/-! ### Paths with blanks at their end -/

/-- What a part of a path text counts. -/
def partSize (part : Text) : Int := if part = ['.'] then 0 else part.length

theorem size_ofText (t : Text) : pathSize (.ofText t) = total partSize (split '/' t) := by
  have hParts : ∀ parts : List Text,
      total componentSize (((parts.filter (· ≠ [])).filter (· ≠ ['.'])).map fun part =>
        if part = ['.', '.'] then .parentDir else .normal (String.ofList part)) =
      total partSize parts := by
    intro parts
    induction parts with
    | nil => rfl
    | cons part parts ih =>
      by_cases hNil : part = []
      · subst hNil
        simpa [total, partSize] using ih
      by_cases hDot : part = ['.']
      · subst hDot
        simpa [total, partSize] using ih
      rw [filter_cons_of_pos (by simpa using hNil),
        filter_cons_of_pos (by simpa using hDot), map_cons]
      unfold total
      rw [ih]
      unfold partSize
      split
      · rename_i hUp
        rw [hUp]
        rfl
      · simp [componentSize]
  unfold pathSize PathBuf.ofText
  dsimp only
  split
  · have hDot : ∀ components, total componentSize (.curDir :: components) =
        0 + total componentSize components := fun _ => rfl
    rw [hDot, hParts, Int.zero_add]
  · exact hParts _

/-- Blanks at the end of a path belong to its last name. -/
theorem size_lt_of_blank {blank : Text} (hNe : blank ≠ [])
    (hBlank : ∀ ch ∈ blank, isWhitespace ch = true) (t : Text) :
    pathSize (.ofText t) < pathSize (.ofText (t ++ blank)) := by
  have hSlash : '/' ∉ blank := fun hMem => absurd (hBlank '/' hMem) (by decide)
  obtain ⟨front, last, hSplit, hAppend⟩ := split_append hSlash t
  have hDot : last ++ blank ≠ ['.'] := by
    intro hEq
    have hLast : '.' ∈ blank := by
      have hEnds : (last ++ blank).getLast? = some '.' := by rw [hEq]; rfl
      rw [getLast?_append_of_ne_nil _ hNe] at hEnds
      exact mem_of_getLast? hEnds
    exact absurd (hBlank '.' hLast) (by decide)
  have hPos := length_pos_of_ne_nil hNe
  rw [size_ofText, size_ofText, hSplit, hAppend, total_concat, total_concat]
  unfold partSize
  rw [length_append]
  split <;> omega

/-! ## What a line of an update weighs -/

/-- The old lines that a line of a chunk adds. -/
def pushes : Text → Int
  | [] | ' ' :: _ | '-' :: _ => 1
  | _ => 0

/-- What a line adds to the weight of an update, if its marker is looked for in `marked`. -/
def gain (marked line : Text) : Int :=
  match stripPrefix? moveToMarker marked with
  | some moveTo => -(pathSize (.ofText moveTo) + 1)
  | none =>
    if startsWith emptyChangeContextMarker marked then 2 - marked.length else pushes line

variable {marked moveTo : Text} {lines : List Text}

theorem gain_of_move (h : stripPrefix? moveToMarker marked = some moveTo)
    (line : Text) : gain marked line = -(pathSize (.ofText moveTo) + 1) := by
  unfold gain
  rw [h]

theorem updateWeight_move (chunks : List UpdateFileChunk)
    (h : stripPrefix? moveToMarker marked = some moveTo) (line : Text) :
    updateWeight (some (.ofText moveTo)) chunks = updateWeight none chunks + gain marked line := by
  rw [gain_of_move h]
  unfold updateWeight
  dsimp only
  omega

/-- A chunk weighs what its first line adds. -/
theorem weight_new_some (context line : Text) :
    (UpdateFileChunk.new (some context)).weight = gain (changeContextMarker ++ context) line := by
  have hGain : gain (changeContextMarker ++ context) line =
      2 - ((changeContextMarker ++ context).length : Int) := rfl
  have hLength : (changeContextMarker ++ context).length = 3 + context.length :=
    length_append
  have hNew : (UpdateFileChunk.new (some context)).weight = 0 - (context.length + 1 : Int) := rfl
  omega

theorem weight_of_pushLine (h : chunk.pushLine? line = some chunk') :
    chunk'.weight = chunk.weight + pushes line := by
  unfold UpdateFileChunk.pushLine? at h
  split at h <;> cases h
  -- a line that is added
  case h_3 => exact (Int.add_zero _).symm
  all_goals
    simp only [UpdateFileChunk.weight, UpdateFileChunk.pushContext, pushes, length_append,
      length_singleton]
    omega

theorem weight_of_pushChunkLine (h : pushChunkLine? chunks line = some chunks') :
    total UpdateFileChunk.weight chunks' = total UpdateFileChunk.weight chunks + pushes line := by
  unfold pushChunkLine? at h
  cases chunks using reverseRecOn with
  | nil =>
    obtain ⟨first, hFirst, rfl⟩ := Option.map_eq_some_iff.mp h
    have hNew : (UpdateFileChunk.new none).weight = 0 := rfl
    have hWeight := weight_of_pushLine hFirst
    simp only [total]
    omega
  | append_singleton front last =>
    rw [getLast?_concat] at h
    obtain ⟨last', hLast, rfl⟩ := Option.map_eq_some_iff.mp h
    rw [dropLast_concat, total_concat, total_concat, weight_of_pushLine hLast]
    omega

/-- A line without a marker in front counts as a line of a chunk. -/
theorem gain_of_head (hStar : line.head? ≠ some '*') (hAt : line.head? ≠ some '@')
    (hMarked : marked <+: line) : gain marked line = pushes line := by
  have hHead : ∀ {ch : Char}, line.head? ≠ some ch → marked.head? ≠ some ch := by
    intro ch hLine hHead
    obtain ⟨rest, rfl⟩ := hMarked
    rw [head?_append, hHead] at hLine
    exact hLine rfl
  unfold gain
  rw [stripPrefix_of_head rfl (hHead hStar), startsWith_of_head rfl (hHead hAt)]
  rfl

theorem exists_pushLine (h : pushChunkLine? chunks line = some chunks') :
    ∃ chunk chunk' : UpdateFileChunk, chunk.pushLine? line = some chunk' := by
  unfold pushChunkLine? at h
  split at h <;>
  · obtain ⟨next, hNext, -⟩ := Option.map_eq_some_iff.mp h
    exact ⟨_, _, hNext⟩

theorem pushes_of_star (h : line.head? = some '*') : pushes line = 0 := by
  obtain ⟨rest, rfl⟩ := head?_eq_some_iff.mp h
  rfl

/-- What the streaming parser makes of a line of an update. -/
theorem weight_of_processUpdateLine
    (h : processUpdateLine movePath chunks line n = .ok (movePath', chunks')) :
    updateWeight movePath' chunks' =
      updateWeight movePath chunks + gain (trimEnd line) line := by
  revert h
  fun_cases processUpdateLine movePath chunks line n <;> rintro ⟨⟩
  case case1 updateLine moveTo hMove =>
    obtain ⟨hNone, hMove⟩ := Option.ite_none_right_eq_some.mp hMove
    obtain ⟨-, hNone⟩ := Bool.and_eq_true_iff.mp hNone
    rw [Option.isNone_iff_eq_none.mp hNone]
    exact updateWeight_move chunks hMove line
  case case3 hBare =>
    rw [updateWeight_concat, show trimEnd line = _ from hBare]
    rfl
  case case4 context hContext =>
    rw [updateWeight_concat, show trimEnd line = _ from stripPrefix?_eq_some.mp hContext,
      weight_new_some context line]
  case case6 hEof _ =>
    have hHead : line.head? = some '*' := by
      obtain ⟨rest, hRest⟩ := trimEnd_isPrefix line
      rw [← hRest, show trimEnd line = _ from hEof]
      rfl
    have hGain : gain eofMarker line = pushes line := rfl
    rw [show trimEnd line = _ from hEof, hGain, pushes_of_star hHead, Int.add_zero]
    cases chunks using reverseRecOn with
    | nil => rfl
    | append_singleton front last =>
      rw [getLast?_concat]
      rw [dropLast_concat, updateWeight_concat, updateWeight_concat]
      rfl
  case case7 hPush =>
    obtain ⟨_, _, hLine⟩ := exists_pushLine hPush
    obtain ⟨hStar, hAt⟩ := head?_of_pushLine hLine
    rw [gain_of_head hStar hAt (trimEnd_isPrefix line)]
    unfold updateWeight
    rw [weight_of_pushChunkLine hPush]
    omega

theorem handle_of_blank (hBlank : trim line = []) :
    s.handleHunkHeadersAndEndPatch (trimEnd line) = .ok none := by
  rw [trimEnd_of_blank (blank_of_trim hBlank)]
  exact handle_of_head (by simp)

theorem pathSize_nonneg (p : PathBuf) : 0 ≤ pathSize p := by
  unfold pathSize
  induction p.components with
  | nil => exact le_refl _
  | cons component components ih =>
    have hSize : 0 ≤ componentSize component := by
      cases component <;> simp [componentSize]
    unfold total
    omega

/-- Cutting the blanks off a move line makes it weigh more. -/
theorem gain_trimEnd_of_move {blank : Text}
    (hMove : stripPrefix? moveToMarker line = some moveTo)
    (hLine : line = trimEnd line ++ blank) (hBlank : ∀ ch ∈ blank, isWhitespace ch = true) :
    gain line line ≤ gain (trimEnd line) line ∧
      (blank ≠ [] → gain line line < gain (trimEnd line) line) := by
  have hMarked := stripPrefix?_eq_some.mp hMove
  rw [gain_of_move hMove]
  cases hCut : stripPrefix? moveToMarker (trimEnd line) with
  | some cut =>
    have hAppend : moveTo = cut ++ blank := by
      rw [stripPrefix?_eq_some.mp hCut, hMarked] at hLine
      exact append_cancel_left hLine
    rw [gain_of_move hCut, hAppend]
    by_cases hNil : blank = []
    · rw [hNil, append_nil]
      exact ⟨le_refl _, fun hNe => absurd rfl hNe⟩
    · have hSize := size_lt_of_blank hNil hBlank cut
      exact ⟨by omega, fun _ => by omega⟩
  | none =>
    -- the blank of the marker itself is cut off, and nothing is left to weigh
    have hStar : line.head? = some '*' := by
      rw [hMarked]
      rfl
    have hAt : startsWith emptyChangeContextMarker (trimEnd line) = false :=
      startsWith_of_head rfl (head?_trimEnd (by rw [hStar]; decide))
    have hCutGain : gain (trimEnd line) line = 0 := by
      unfold gain
      rw [hCut, hAt]
      exact pushes_of_star hStar
    have hSize := pathSize_nonneg (.ofText moveTo)
    exact ⟨by omega, fun _ => by omega⟩

/-- Cutting off blanks makes no line weigh less, and a context or move line more. -/
theorem gain_trimEnd (line : Text) : gain line line ≤ gain (trimEnd line) line ∧
      (startsWith changeContextMarker line = true ∨
          startsWith moveToMarker line = true →
        trimEnd line ≠ line → gain line line < gain (trimEnd line) line) := by
  obtain ⟨blank, hLine, hBlank⟩ := exists_trimEnd_append line
  have hBlankNe : trimEnd line ≠ line → blank ≠ [] := by
    rintro hNe rfl
    exact hNe (by rw [append_nil] at hLine; exact hLine.symm)
  have hPre := trimEnd_isPrefix line
  cases hMove : stripPrefix? moveToMarker line with
  | some moveTo =>
    obtain ⟨hLe, hLt⟩ := gain_trimEnd_of_move hMove hLine hBlank
    exact ⟨hLe, fun _ hNe => hLt (hBlankNe hNe)⟩
  | none =>
    have hNoMove : ¬moveToMarker <+: line := by
      rintro ⟨rest, hRest⟩
      exact ne_marker_append hMove hRest.symm
    have hCut : stripPrefix? moveToMarker (trimEnd line) = none := by
      cases hCut : stripPrefix? moveToMarker (trimEnd line) with
      | none => rfl
      | some cut =>
        exact absurd (List.IsPrefix.trans ⟨cut, (stripPrefix?_eq_some.mp hCut).symm⟩ hPre)
          hNoMove
    unfold gain
    rw [hMove, hCut]
    dsimp only
    by_cases hAt : emptyChangeContextMarker <+: line
    · have hCutAt := isPrefix_trimEnd (by decide) hAt
      have hLength := congrArg length hLine
      rw [length_append] at hLength
      rw [if_pos (startsWith_iff.mpr hAt), if_pos (startsWith_iff.mpr hCutAt)]
      refine ⟨by omega, fun _ hNe => ?_⟩
      have hPos := length_pos_of_ne_nil (hBlankNe hNe)
      omega
    · have hCutAt : ¬emptyChangeContextMarker <+: trimEnd line := fun h => hAt (h.trans hPre)
      rw [if_neg fun h => hAt (startsWith_iff.mp h), if_neg fun h => hCutAt (startsWith_iff.mp h)]
      refine ⟨le_refl _, fun hMarker _ => ?_⟩
      rcases hMarker with hMarker | hMarker
      · have hBare : emptyChangeContextMarker <+: changeContextMarker := by decide
        exact absurd (hBare.trans (startsWith_iff.mp hMarker)) hAt
      · exact absurd (startsWith_iff.mp hMarker) hNoMove

/-! ## One line on both sides -/

/-- The hunks of a reader, the open one as it is. -/
def opened (r : Reader) : List Hunk :=
  match r.reading with
  | .header => r.hunks
  | .adding path contents => r.hunks ++ [.addFile path contents]
  | .updating path movePath chunks _ => r.hunks ++ [.updateFile path movePath chunks]
  | .inChunk path movePath chunks chunk =>
    r.hunks ++ [.updateFile path movePath (chunks ++ [chunk])]

theorem opened_of_close (h : close r = some hs) : opened r = hs := by
  obtain ⟨hunks, reading⟩ := r
  cases reading with
  | header | adding => exact Option.some.inj h
  | updating | inChunk =>
    unfold close at h
    dsimp only at h
    split at h
    · cases h
    · exact Option.some.inj h

theorem weight_opened_inChunk (hunks : List Hunk) (path : PathBuf) (movePath : Option PathBuf)
    (chunks : List UpdateFileChunk) (chunk : UpdateFileChunk) :
    weight (opened ⟨hunks, .inChunk path movePath chunks chunk⟩) =
      weight hunks + (updateWeight movePath chunks + chunk.weight) := by
  unfold opened
  rw [weight_update, updateWeight_concat]

def Reading.place : Reading → Place
  | .header | .adding _ _ => .outside
  | .updating _ _ _ _ => .fresh
  | .inChunk _ _ _ _ => .body

/-- The streaming parser is in the mode for what the reader is in the middle of. -/
def Abreast (r : Reader) (s : StreamingPatchParser) : Prop :=
  match r.reading with
  | .header => s.mode = .startedPatch ∨ s.mode = .deleteFile
  | .adding _ _ => s.mode = .addFile
  | .updating _ movePath _ mayMove =>
    (∃ n, s.mode = .updateFile n) ∧ (mayMove = true → movePath = none)
  | .inChunk _ _ _ _ => ∃ n, s.mode = .updateFile n

/-- How much more the preview weighs than what the reader has. -/
def lead (r : Reader) (s : StreamingPatchParser) : Int := weight s.hunks - weight (opened r)

/-- A header is one on both sides, and a new hunk weighs nothing. -/
theorem abreast_of_header {next : Option StreamingPatchParser}
    (hRead : readHeader hs line = some r')
    (hHandle : s.handleHunkHeadersAndEndPatch (trim line) = .ok next) :
    ∃ s', next = some s' ∧ Abreast r' s' ∧ weight (opened r') = weight hs ∧
      weight s'.hunks = weight s.hunks ∧
      ((addFileMarker <+: trim line ∨ deleteFileMarker <+: trim line) ∧
          r'.reading.place = .outside ∨
        updateFileMarker <+: trim line ∧ r'.reading.place = .fresh) := by
  obtain ⟨s', hEq, path, hHeader⟩ := handle_header s hRead
  rw [hEq] at hHandle
  obtain ⟨-, -, hNext⟩ := exists_ok_of_bind hHandle
  cases hNext
  refine ⟨s', rfl, ?_⟩
  rcases hHeader with ⟨hLine, rfl, rfl⟩ | ⟨hLine, rfl, rfl⟩ | ⟨hLine, rfl, rfl⟩
  · exact ⟨rfl, weight_concat _ rfl, weight_concat _ rfl, .inl ⟨.inl ⟨path, hLine⟩, rfl⟩⟩
  · exact ⟨.inr rfl, weight_concat _ rfl, weight_concat _ rfl, .inl ⟨.inr ⟨path, hLine⟩, rfl⟩⟩
  · exact ⟨⟨⟨_, rfl⟩, fun _ => rfl⟩, weight_concat _ rfl, weight_concat _ rfl,
      .inr ⟨⟨path, hLine⟩, rfl⟩⟩

/-- What a line can be to the reader in the middle of an update. -/
inductive ReadInside (r : Reader) (line : Text) (r' : Reader) : Prop
  | blank : trim line = [] →
    (r.reading.place = .fresh ∨ line ≠ [] ∧ line.head? ≠ some ' ') →
    weight (opened r') = weight (opened r) →
    (∀ s n, s.mode = .updateFile n → Abreast r' s) → ReadInside r line r'
  | header : line.head? = some '*' → readHeader (opened r) line = some r' → ReadInside r line r'
  | marker : (line = eofMarker ∨ moveToMarker <+: line) →
    weight (opened r') = weight (opened r) + gain line line → r'.reading.place = .fresh →
    (∀ s n, s.mode = .updateFile n → Abreast r' s) → ReadInside r line r'
  | text : line.head? ≠ some '*' → (r.reading.place = .fresh → trim line ≠ []) →
    weight (opened r') = weight (opened r) + gain line line → r'.reading.place = .body →
    (∀ s n, s.mode = .updateFile n → Abreast r' s) → ReadInside r line r'

theorem readInside_of_between (hOpened : opened r = hs ++ [.updateFile path movePath chunks])
    (hFresh : r.reading.place = .fresh ∨ line ≠ [] ∧ line.head? ≠ some ' ')
    (h : readBetween hs path movePath chunks line = some r') : ReadInside r line r' := by
  unfold readBetween at h
  split at h
  · rename_i hBlank
    cases h
    exact .blank hBlank hFresh (by rw [hOpened]; rfl) fun _ n hMode => ⟨⟨n, hMode⟩, by simp⟩
  rename_i hNotBlank
  split at h
  · rename_i hStar
    obtain ⟨rest, rfl⟩ := startsWith_star_iff.mp hStar
    split at h
    · cases h
    · exact .header rfl (by rw [hOpened]; exact h)
  rename_i hStar
  have hHead : line.head? ≠ some '*' := by
    intro hHead
    obtain ⟨rest, rfl⟩ := head?_eq_some_iff.mp hHead
    exact hStar rfl
  split at h
  · rename_i hBare
    cases h
    refine .text hHead (fun _ => hNotBlank) ?_ rfl fun _ n hMode => ⟨n, hMode⟩
    rw [weight_opened_inChunk, hOpened, weight_update, hBare, Int.add_assoc]
    rfl
  split at h
  · rename_i context hContext
    cases h
    refine .text hHead (fun _ => hNotBlank) ?_ rfl fun _ n hMode => ⟨n, hMode⟩
    rw [weight_opened_inChunk, hOpened, weight_update, stripPrefix?_eq_some.mp hContext,
      weight_new_some, Int.add_assoc]
  split at h
  · rename_i hNone
    obtain ⟨first, hPush, rfl⟩ := Option.map_eq_some_iff.mp h
    refine .text hHead (fun _ => hNotBlank) ?_ rfl fun _ n hMode => ⟨n, hMode⟩
    have hNew : (UpdateFileChunk.new none).weight = 0 := rfl
    rw [weight_opened_inChunk, hOpened, weight_update, weight_of_pushLine hPush,
      gain_of_head hHead (head?_of_pushLine hPush).2 (prefix_refl line)]
    omega
  · cases h

theorem readInside_of_read (hInside : r.reading.place ≠ .outside) (hAbreast : Abreast r s)
    (h : read r line = some r') : ReadInside r line r' := by
  obtain ⟨hunks, reading⟩ := r
  cases reading with
  | header | adding _ _ => exact absurd rfl hInside
  | updating path movePath chunks mayMove =>
    unfold read at h
    dsimp only at h
    split at h
    · rename_i moveTo hMove
      cases h
      rcases mayMove with _ | _
      · cases hMove
      have hLine := stripPrefix?_eq_some.mp hMove
      refine .marker (.inr ⟨moveTo, hLine.symm⟩) ?_ rfl fun _ n hMode => ⟨⟨n, hMode⟩, by simp⟩
      have hNone : movePath = none := hAbreast.2 rfl
      unfold opened
      rw [weight_update, weight_update, hNone, updateWeight_move chunks hMove line, Int.add_assoc]
    · exact readInside_of_between rfl (.inl rfl) h
  | inChunk path movePath chunks chunk =>
    unfold read at h
    dsimp only at h
    split at h
    · rename_i hEof
      split at h
      · cases h
      cases h
      refine .marker (.inl hEof) ?_ rfl fun _ n hMode => ⟨⟨n, hMode⟩, by simp⟩
      have hGain : gain eofMarker eofMarker = 0 := rfl
      rw [weight_opened_inChunk, hEof, hGain, Int.add_zero]
      unfold opened
      rw [weight_update, updateWeight_concat]
      rfl
    split at h
    · rename_i next hPush
      cases h
      obtain ⟨hStar, hAt⟩ := head?_of_pushLine hPush
      refine .text hStar (fun hFresh => by cases hFresh) ?_ rfl fun _ n hMode => ⟨n, hMode⟩
      rw [gain_of_head hStar hAt (prefix_refl line), weight_opened_inChunk,
        weight_opened_inChunk, weight_of_pushLine hPush]
      omega
    · rename_i hPush
      split at h
      · cases h
      refine readInside_of_between rfl (.inr ⟨?_, ?_⟩) h
      · rintro rfl
        cases hPush
      · intro hHead
        obtain ⟨rest, rfl⟩ := head?_eq_some_iff.mp hHead
        cases hPush

/-- What a line that is no header does to the preview in an update. -/
theorem weight_of_processLine (hMode : s.mode = .updateFile n)
    (hHandle : s.handleHunkHeadersAndEndPatch (trimEnd line) = .ok none)
    (h : s.processLine line = .ok s') :
    s'.mode = .updateFile n ∧ weight s'.hunks = weight s.hunks + gain (trimEnd line) line ∧
      (trim line = [] →
        gain (trimEnd line) line = 1 ∧ (line = [] ∨ line.head? = some ' ')) := by
  unfold processLine at h
  rw [hMode] at h
  rw [hHandle] at h
  obtain ⟨_, hNone, h⟩ := exists_ok_of_bind h
  cases hNone
  dsimp only at h
  split at h
  · rename_i path movePath chunks hLast
    obtain ⟨⟨movePath', chunks'⟩, hUpdate, hEq⟩ := exists_ok_of_bind h
    cases hEq
    have hHunks : s.hunks = s.hunks.dropLast ++ [.updateFile path movePath chunks] :=
      (dropLast_append_getLast? _ hLast).symm
    refine ⟨rfl, ?_, fun hBlank => ?_⟩
    · rw [weight_update, weight_of_processUpdateLine hUpdate]
      conv_rhs => rw [hHunks, weight_update]
      omega
    -- a blank line that the streaming parser takes is a line of a chunk to it
    have hEnd : trimEnd line = [] := trimEnd_of_blank (blank_of_trim hBlank)
    unfold processUpdateLine at hUpdate
    dsimp only at hUpdate
    rw [hEnd, show stripPrefix? moveToMarker [] = none from rfl, ite_self] at hUpdate
    rw [if_neg (by rintro ⟨hEq | hEq, -⟩ <;> cases hEq), if_neg (by decide),
      show stripPrefix? changeContextMarker [] = none from rfl] at hUpdate
    dsimp only at hUpdate
    rw [if_neg (by decide)] at hUpdate
    split at hUpdate
    · rename_i hPush
      obtain ⟨chunk, chunk', hLine⟩ := exists_pushLine hPush
      obtain ⟨hStar, hAt⟩ := head?_of_pushLine hLine
      rw [gain_of_head hStar hAt (trimEnd_isPrefix line)]
      have hAll := blank_of_trim hBlank
      unfold UpdateFileChunk.pushLine? at hLine
      split at hLine
      · exact ⟨rfl, .inl rfl⟩
      · exact ⟨rfl, .inr rfl⟩
      · exact absurd (hAll '+' mem_cons_self) (by decide)
      · exact absurd (hAll '-' mem_cons_self) (by decide)
      · cases hLine
    · split at hUpdate <;> cases hUpdate
  · cases h

/-- Outside an update, what the reader takes for a header is one. -/
theorem handle_of_outside
    (hMode : s.mode = .startedPatch ∨ s.mode = .deleteFile ∨ s.mode = .addFile)
    (hRead : readHeader hs line = some r') (h : s.processLine line = .ok s') :
    s.handleHunkHeadersAndEndPatch (trim line) = .ok (some s') := by
  have hHandled : ∀ {f : Option StreamingPatchParser → Except ParseError StreamingPatchParser},
      (∀ next, f (some next) = .ok next) →
      (s.handleHunkHeadersAndEndPatch (trim line) >>= f) = .ok s' →
      s.handleHunkHeadersAndEndPatch (trim line) = .ok (some s') := by
    intro f hf hBind
    obtain ⟨result, hResult, hRest⟩ := exists_ok_of_bind hBind
    obtain ⟨next, rfl, -⟩ := abreast_of_header hRead hResult
    rw [hf] at hRest
    cases hRest
    exact hResult
  unfold processLine at h
  rcases hMode with hMode | hMode | hMode <;> rw [hMode] at h <;> dsimp only at h
  · have hPreamble : isEnvironmentIdPreambleLine line = false :=
      startsWith_of_readHeader (by decide) (by decide) hRead
    rw [hPreamble] at h
    exact hHandled (fun _ => rfl) h
  · exact hHandled (fun _ => rfl) h
  · exact hHandled (fun _ => rfl) h

theorem startsWith_of_clash {marker other : Text} (hMarker : marker <+: t)
    (hClash : ¬marker <+: other ∧ ¬other <+: marker) : startsWith other t = false := by
  refine eq_false_of_ne_true fun hStarts => ?_
  exact (List.prefix_or_prefix_of_prefix hMarker (startsWith_iff.mp hStarts)).elim
    hClash.1 hClash.2

/-- A line never takes from the lead of the preview; a misread line adds to it. -/
structure KeepsLead (r : Reader) (s : StreamingPatchParser) (line : Text) (r' : Reader)
    (s' : StreamingPatchParser) : Prop where
  abreast : Abreast r' s'
  lead_le : lead r s ≤ lead r' s'
  lead_lt : Misread r.reading.place line → lead r s < lead r' s'
  place_eq : ¬Misread r.reading.place line → r'.reading.place = r.reading.place.next line

theorem next_inside {place : Place} (h : place ≠ .outside) (line : Text) : place.next line =
      if startsWith ['*'] line then
        if startsWith addFileMarker line || startsWith deleteFileMarker line then .outside
        else .fresh
      else .body := by
  cases place with
  | outside => exact absurd rfl h
  | fresh | body => rfl

theorem keepsLead_of_header (hOpened : opened r = hs) (hRead : readHeader hs line = some r')
    (hHandle : s.handleHunkHeadersAndEndPatch (trim line) = .ok (some s'))
    (hStar : r.reading.place ≠ .outside → ∃ rest, line = '*' :: rest) :
    KeepsLead r s line r' s' := by
  obtain ⟨next, hNext, hAbreast, hWeight, hWeight', hMarker⟩ := abreast_of_header hRead hHandle
  cases hNext
  have hLead : lead r' s' = lead r s := by
    unfold lead
    rw [hWeight, hWeight', hOpened]
  have hNotBlank : r.reading.place = .fresh → trim line ≠ [] := by
    intro hFresh
    obtain ⟨rest, rfl⟩ := hStar (by simp [hFresh])
    exact trim_cons_ne_nil (by decide)
  refine ⟨hAbreast, le_of_eq hLead.symm, fun hMisread => ?_, fun _ => ?_⟩
  · rcases hMisread with ⟨hFresh, hBlank⟩ | ⟨hMarker | hMarker, -⟩
    · exact absurd hBlank (hNotBlank hFresh)
    · rw [startsWith_of_readHeader (by decide) (by decide) hRead] at hMarker
      cases hMarker
    · rw [startsWith_of_readHeader (by decide) (by decide) hRead] at hMarker
      cases hMarker
  by_cases hPlace : r.reading.place = .outside
  · rw [hPlace]
    unfold Place.next
    rcases hMarker with ⟨hAdd | hDelete, hOutside⟩ | ⟨hUpdate, hFresh⟩
    · rw [startsWith_of_clash hAdd (by decide), hOutside]
      rfl
    · rw [startsWith_of_clash hDelete (by decide), hOutside]
      rfl
    · rw [if_pos (startsWith_iff.mpr hUpdate), hFresh]
  · obtain ⟨rest, hLine⟩ := hStar hPlace
    have hTrim : trim line <+: line := by
      rw [hLine]
      exact trimEnd_isPrefix _
    rw [next_inside hPlace, if_pos (startsWith_star_iff.mpr ⟨rest, hLine⟩)]
    rcases hMarker with ⟨hAdd | hDelete, hOutside⟩ | ⟨hUpdate, hFresh⟩
    · rw [startsWith_iff.mpr (hAdd.trans hTrim), hOutside]
      rfl
    · rw [startsWith_iff.mpr (hDelete.trans hTrim), Bool.or_true, hOutside]
      rfl
    · rw [startsWith_of_clash (hUpdate.trans hTrim) (by decide),
        startsWith_of_clash (hUpdate.trans hTrim) (by decide), hFresh]
      rfl

theorem keepsLead_of_added {hunks : List Hunk} {contents added : Text} (hMode : s.mode = .addFile)
    (hTake : s.processLine ('+' :: added) = .ok s') :
    KeepsLead ⟨hunks, .adding path contents⟩ s ('+' :: added)
      ⟨hunks, .adding path (contents ++ (added ++ ['\n']))⟩ s' := by
  have hHead : (trim ('+' :: added)).head? ≠ some '*' := by
    rw [trim_cons (by decide)]
    exact head?_trimEnd (by simp)
  unfold processLine at hTake
  rw [hMode] at hTake
  dsimp only at hTake
  rw [handle_of_head hHead] at hTake
  obtain ⟨_, hNone, hTake⟩ := exists_ok_of_bind hTake
  cases hNone
  dsimp only at hTake
  split at hTake
  · rename_i shownPath shown hAdded hLast
    cases hAdded
    cases hTake
    have hHunks : s.hunks = s.hunks.dropLast ++ [.addFile shownPath shown] :=
      (dropLast_append_getLast? _ hLast).symm
    have hLead : lead ⟨hunks, .adding path contents⟩ s = weight s.hunks.dropLast - weight hunks := by
      unfold lead opened
      rw [weight_concat hunks rfl, hHunks, weight_concat _ rfl, dropLast_concat]
    refine ⟨rfl, ?_, ?_, fun _ => ?_⟩
    · rw [hLead]
      show _ ≤ weight (_ ++ [.addFile _ _]) - weight (_ ++ [.addFile _ _])
      rw [weight_concat _ rfl, weight_concat _ rfl]
    · rintro (⟨hFresh, -⟩ | ⟨hMarker | hMarker, -⟩)
      · cases hFresh
      · cases hMarker
      · cases hMarker
    · unfold Place.next
      rw [startsWith_of_head rfl hHead]
      rfl
  · cases hTake

theorem handle_of_no_marker
    (h : ∀ marker ∈ endPatchMarker :: headerMarkers, startsWith marker line = false)
    (ht : t <+: line) : s.handleHunkHeadersAndEndPatch t = .ok none := by
  have hNot : ∀ marker ∈ endPatchMarker :: headerMarkers, ¬marker <+: t := by
    intro marker hMem hMarker
    have hStarts := h marker hMem
    rw [startsWith_iff.mpr (hMarker.trans ht)] at hStarts
    cases hStarts
  have hStrip : ∀ marker ∈ headerMarkers, stripPrefix? marker t = none := by
    intro marker hMem
    cases hStrip : stripPrefix? marker t with
    | none => rfl
    | some rest =>
      exact absurd ⟨rest, (stripPrefix?_eq_some.mp hStrip).symm⟩
        (hNot marker (mem_cons_of_mem _ hMem))
  have hEnd : t ≠ endPatchMarker := by
    rintro rfl
    exact hNot _ mem_cons_self (prefix_refl _)
  unfold handleHunkHeadersAndEndPatch
  rw [if_neg hEnd, hStrip addFileMarker (by decide), hStrip deleteFileMarker (by decide),
    hStrip updateFileMarker (by decide)]

/-- A line that weighs more without its blanks keeps the lead. -/
theorem keepsLead_of_gain (hWeight : weight (opened r') = weight (opened r) + gain line line)
    (hWeight' : weight s'.hunks = weight s.hunks + gain (trimEnd line) line)
    (hNotBlank : r.reading.place = .fresh → trim line ≠ []) (hAbreast : Abreast r' s')
    (hPlace : r'.reading.place = r.reading.place.next line) : KeepsLead r s line r' s' := by
  obtain ⟨hLe, hLt⟩ := gain_trimEnd line
  have hLead : lead r' s' = lead r s + (gain (trimEnd line) line - gain line line) := by
    unfold lead
    omega
  refine ⟨hAbreast, by omega, ?_, fun _ => hPlace⟩
  rintro (⟨hFresh, hBlank⟩ | ⟨hMarked, hNe⟩)
  · exact absurd hBlank (hNotBlank hFresh)
  · have hStrict := hLt hMarked hNe
    omega

theorem keepsLead_of_inside (hInside : r.reading.place ≠ .outside) (hMode : s.mode = .updateFile n)
    (hRead : ReadInside r line r') (hTake : s.processLine line = .ok s') :
    KeepsLead r s line r' s' := by
  cases hRead with
  | blank hBlank hPlace hWeight hAbreast =>
    obtain ⟨hMode', hWeight', hTaken⟩ := weight_of_processLine hMode (handle_of_blank hBlank) hTake
    obtain ⟨hOne, hFirst⟩ := hTaken hBlank
    have hFresh : r.reading.place = .fresh := by
      rcases hPlace with hPlace | ⟨hNe, hHead⟩
      · exact hPlace
      · exact absurd hFirst (not_or.mpr ⟨hNe, hHead⟩)
    have hLead : lead r' s' = lead r s + 1 := by
      unfold lead
      omega
    exact ⟨hAbreast s' n hMode', by omega, fun _ => by omega,
      fun hNot => absurd (.inl ⟨hFresh, hBlank⟩) hNot⟩
  | header hStar hHeader =>
    obtain ⟨rest, hLine⟩ := head?_eq_some_iff.mp hStar
    have hTrim : trimEnd line = trim line := by
      rw [hLine, trim_cons (by decide)]
    refine keepsLead_of_header rfl hHeader ?_ fun _ => ⟨rest, hLine⟩
    unfold processLine at hTake
    rw [hMode] at hTake
    rw [hTrim] at hTake
    obtain ⟨result, hResult, hRest⟩ := exists_ok_of_bind hTake
    obtain ⟨next, rfl, -⟩ := abreast_of_header hHeader hResult
    cases hRest
    exact hResult
  | marker hMarker hWeight hPlace hAbreast =>
    have hStar : ∃ rest, line = '*' :: rest := by
      rcases hMarker with rfl | ⟨rest, rfl⟩
      · exact ⟨_, rfl⟩
      · exact ⟨_, rfl⟩
    have hNone : ∀ marker ∈ endPatchMarker :: headerMarkers,
        startsWith marker line = false := by
      intro marker hMem
      have hClash : ∀ other ∈ [eofMarker, moveToMarker], ∀ marker ∈ endPatchMarker :: headerMarkers,
          ¬other <+: marker ∧ ¬marker <+: other := by decide
      rcases hMarker with rfl | hMove
      · exact startsWith_of_clash (prefix_refl _) (hClash _ (by simp) marker hMem)
      · exact startsWith_of_clash hMove (hClash _ (by simp) marker hMem)
    have hHandle := handle_of_no_marker (s := s) hNone (trimEnd_isPrefix line)
    obtain ⟨hMode', hWeight', -⟩ := weight_of_processLine hMode hHandle hTake
    refine keepsLead_of_gain hWeight hWeight' (fun _ => ?_) (hAbreast s' n hMode') ?_
    · obtain ⟨rest, rfl⟩ := hStar
      exact trim_cons_ne_nil (by decide)
    · rw [next_inside hInside, if_pos (startsWith_star_iff.mpr hStar),
        hNone addFileMarker (by decide), hNone deleteFileMarker (by decide), hPlace]
      rfl
  | text hHead hNotBlank hWeight hPlace hAbreast =>
    have hHandle := handle_of_head (s := s) (head?_trimEnd hHead)
    obtain ⟨hMode', hWeight', -⟩ := weight_of_processLine hMode hHandle hTake
    refine keepsLead_of_gain hWeight hWeight' hNotBlank (hAbreast s' n hMode') ?_
    rw [next_inside hInside, startsWith_of_head rfl hHead, hPlace]
    rfl

/-- **One line on both sides.** -/
theorem lead_step (hAbreast : Abreast r s) (hRead : read r line = some r')
    (hTake : s.processLine line = .ok s') : KeepsLead r s line r' s' := by
  obtain ⟨hunks, reading⟩ := r
  cases reading with
  | header =>
    have hMode : s.mode = .startedPatch ∨ s.mode = .deleteFile ∨ s.mode = .addFile :=
      hAbreast.imp_right .inl
    exact keepsLead_of_header rfl hRead (handle_of_outside hMode hRead hTake)
      fun h => absurd rfl h
  | adding path contents =>
    have hMode : s.mode = .addFile := hAbreast
    unfold read at hRead
    dsimp only at hRead
    split at hRead
    · rename_i added hPlus
      cases hRead
      have hLine : line = '+' :: added := stripPrefix?_eq_some.mp hPlus
      subst hLine
      exact keepsLead_of_added hMode hTake
    · exact keepsLead_of_header rfl hRead (handle_of_outside (.inr (.inr hMode)) hRead hTake)
        fun h => absurd rfl h
  | updating path movePath chunks mayMove =>
    obtain ⟨n, hMode⟩ := hAbreast.1
    have hInside : Reading.place (.updating path movePath chunks mayMove) ≠ .outside := by
      rintro ⟨⟩
    exact keepsLead_of_inside hInside hMode (readInside_of_read hInside hAbreast hRead) hTake
  | inChunk path movePath chunks chunk =>
    obtain ⟨n, hMode⟩ := hAbreast
    have hInside : Reading.place (.inChunk path movePath chunks chunk) ≠ .outside := by
      rintro ⟨⟩
    have hAbreast' : Abreast ⟨hunks, .inChunk path movePath chunks chunk⟩ s := ⟨n, hMode⟩
    exact keepsLead_of_inside hInside hMode (readInside_of_read hInside hAbreast' hRead) hTake

/-- **… and a run of them: a difference is never made up for.** -/
theorem lead_run (hAbreast : Abreast r s)
    (hRead : lines.foldlM read r = some r') (hTake : lines.foldlM takeLine s = .ok s') :
    lead r s ≤ lead r' s' ∧ (¬LegibleFrom r.reading.place lines → lead r s < lead r' s') := by
  induction lines generalizing r s with
  | nil =>
    cases hRead
    cases hTake
    exact ⟨le_refl _, fun h => absurd trivial h⟩
  | cons line lines ih =>
    obtain ⟨next, hNext, hReadRest⟩ := Option.bind_eq_some_iff.mp hRead
    obtain ⟨taken, hTaken, hTakeRest⟩ := exists_ok_of_bind hTake
    have hNumber : Abreast r { s with lineNumber := s.lineNumber + 1 } := hAbreast
    have hStep : KeepsLead r { s with lineNumber := s.lineNumber + 1 } line next taken :=
      lead_step hNumber hNext hTaken
    obtain ⟨hLe, hLt⟩ := ih hStep.abreast hReadRest hTakeRest
    refine ⟨hStep.lead_le.trans hLe, fun hNot => ?_⟩
    by_cases hMisread : Misread r.reading.place line
    · exact lt_of_lt_of_le (hStep.lead_lt hMisread) hLe
    · refine lt_of_le_of_lt hStep.lead_le (hLt fun hRest => hNot ⟨hMisread, ?_⟩)
      rw [← hStep.place_eq hMisread]
      exact hRest

/-! ## Legible lines -/

theorem abreast_of_mirrors (h : Mirrors r s) : Abreast r s := by
  obtain ⟨hunks, reading⟩ := r
  cases reading with
  | header => exact h.2.imp And.left And.left
  | adding path contents => exact h.2
  | updating path movePath chunks mayMove => exact ⟨h.2.1, fun hMay => (h.2.2.2 hMay).1⟩
  | inChunk path movePath chunks chunk => exact h.2

/-- A line that both accept and neither misreads is plain. -/
theorem plain_of_not_misread (hAbreast : Abreast r s) (hNot : ¬Misread r.reading.place line)
    (hRead : read r line = some r') (hTake : s.processLine line = .ok s') :
    Plain TrimmedContext r line where
  not_stray := by
    rintro ⟨hBlank, hPush⟩
    have hHeader : ∀ hunks, readHeader hunks line ≠ some r' := by
      intro hunks hHeader
      unfold readHeader at hHeader
      rw [hBlank] at hHeader
      cases hHeader
    obtain ⟨hunks, reading⟩ := r
    cases reading with
    | header => exact hHeader _ hRead
    | adding path contents =>
      unfold read at hRead
      dsimp only at hRead
      split at hRead
      · rename_i added hPlus
        rw [stripPrefix?_eq_some.mp hPlus] at hBlank
        exact trim_cons_ne_nil (by decide) hBlank
      · exact hHeader _ hRead
    | updating path movePath chunks mayMove => exact hNot (.inl ⟨rfl, hBlank⟩)
    | inChunk path movePath chunks chunk =>
      obtain ⟨n, hMode⟩ := hAbreast
      have hNone := hPush path movePath chunks chunk rfl
      have hTaken := (weight_of_processLine hMode (handle_of_blank hBlank) hTake).2.2 hBlank
      rcases hTaken.2 with rfl | hSpace
      · cases hNone
      · obtain ⟨rest, rfl⟩ := head?_eq_some_iff.mp hSpace
        cases hNone
  context_ok context hLine := by
    by_contra hTrim
    refine hNot (.inr ⟨.inl (startsWith_iff.mpr ⟨context, hLine.symm⟩), ?_⟩)
    rw [hLine]
    exact hTrim
  move_ok moveTo hLine := by
    by_contra hTrim
    exact hNot (.inr ⟨.inr (startsWith_iff.mpr ⟨moveTo, hLine.symm⟩), hTrim⟩)

/-- **On legible lines that both accept, the preview has what the reader has.** -/
theorem mirrors_run (hMirrors : Mirrors r s)
    (hLegible : LegibleFrom r.reading.place lines) (hRead : lines.foldlM read r = some r')
    (hTake : lines.foldlM takeLine s = .ok s') : Mirrors r' s' := by
  induction lines generalizing r s with
  | nil =>
    cases hRead
    cases hTake
    exact hMirrors
  | cons line lines ih =>
    obtain ⟨next, hNext, hReadRest⟩ := Option.bind_eq_some_iff.mp hRead
    obtain ⟨taken, hTaken, hTakeRest⟩ := exists_ok_of_bind hTake
    have hNumber : Mirrors r { s with lineNumber := s.lineNumber + 1 } := hMirrors
    have hAbreast := abreast_of_mirrors hNumber
    have hPlain := plain_of_not_misread hAbreast hLegible.1 hNext hTaken
    obtain ⟨followed, hFollowed, hNextMirrors⟩ := mirrors_step hNumber hPlain hNext
    have hSame : followed = taken := by
      have hEq : Except.ok followed = Except.ok taken := hFollowed.symm.trans hTaken
      exact Except.ok.inj hEq
    rw [hSame] at hNextMirrors
    refine ih hNextMirrors ?_ hReadRest hTakeRest
    rw [(lead_step hAbreast hNext hTaken).place_eq hLegible.1]
    exact hLegible.2

end Codex.ApplyPatch
