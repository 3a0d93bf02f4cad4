import Codex.ApplyPatch.Streaming
import Codex.ApplyPatch.RoundTrip

/-!
# Codex — the preview of a patch

What the streaming parser shows while a patch arrives, against what the parser of the
whole text gives.

* Whatever it is fed, a line leaves all hunks but the last alone and never removes one
  (`grows_of_processLine`), and the deltas it is fed in do not matter
  (`pushDeltas_of_pushDelta`).
* `Mirrors` relates it to the reader of `Codex.ApplyPatch.LineReader`. On plain lines the
  streaming parser follows every step of the reader (`mirrors_step`).

Result: `streaming_agrees`.
-/

namespace Codex.ApplyPatch

open StreamingPatchParser List Text

variable {s s' s'' : StreamingPatchParser} {line t : Text} {r r' : Reader} {hs : List Hunk}
variable {path : PathBuf} {movePath : Option PathBuf} {chunks : List UpdateFileChunk}

/-! ## What a line can do -/

/-- Only the last hunk is still open, and none is taken back. -/
structure Grows (old new : List Hunk) : Prop where
  settled : old.dropLast <+: new.dropLast
  length_le : old.length ≤ new.length

theorem Grows.refl (hunks : List Hunk) : Grows hunks hunks := ⟨prefix_refl _, le_refl _⟩

theorem Grows.trans {old new newer : List Hunk} (h : Grows old new) (h' : Grows new newer) :
    Grows old newer :=
  ⟨h.settled.trans h'.settled, h.length_le.trans h'.length_le⟩

theorem grows_append (hunks added : List Hunk) : Grows hunks (hunks ++ added) := by
  refine ⟨?_, by simp⟩
  cases added using reverseRecOn with
  | nil => simp
  | append_singleton front last =>
    rw [← append_assoc, dropLast_concat]
    exact (List.dropLast_prefix hunks).trans (prefix_append _ _)

/-- The three things a line can do to the hunks: nothing, add some, change the last. -/
theorem processLine_cases (h : s.processLine line = .ok s') : s'.lineBuffer = s.lineBuffer ∧
      ((∃ added, s'.hunks = s.hunks ++ added) ∨
        ∃ last, s.hunks ≠ [] ∧ s'.hunks = s.hunks.dropLast ++ [last]) := by
  have hHandle : ∀ {text : Text} {next : StreamingPatchParser},
      s.handleHunkHeadersAndEndPatch text = .ok (some next) → next.lineBuffer = s.lineBuffer ∧
        ((∃ added, next.hunks = s.hunks ++ added) ∨
          ∃ last, s.hunks ≠ [] ∧ next.hunks = s.hunks.dropLast ++ [last]) := by
    intro text next hSome
    unfold handleHunkHeadersAndEndPatch at hSome
    -- the end of the patch and the three headers
    iterate 4
      split at hSome
      · obtain ⟨-, -, hEq⟩ := exists_ok_of_bind hSome
        cases hEq
        exact ⟨rfl, .inl ⟨_, rfl⟩⟩
    cases hSome
  have hSame : ∃ added, s.hunks = s.hunks ++ added := ⟨[], by simp⟩
  unfold processLine at h
  dsimp only at h
  split at h
  · split at h
    · cases h
      exact ⟨rfl, .inl hSame⟩
    · cases h
  · split at h
    · cases h
      exact ⟨rfl, .inl hSame⟩
    obtain ⟨result, hResult, hRest⟩ := exists_ok_of_bind h
    cases result with
    | none => cases hRest
    | some next =>
      cases hRest
      exact hHandle hResult
  · obtain ⟨result, hResult, hRest⟩ := exists_ok_of_bind h
    cases result with
    | some next =>
      cases hRest
      exact hHandle hResult
    | none =>
      dsimp only at hRest
      split at hRest
      · rename_i hLast
        cases hRest
        exact ⟨rfl, .inr ⟨_, fun hNil => (by simp [hNil] at hLast), rfl⟩⟩
      · cases hRest
  · obtain ⟨result, hResult, hRest⟩ := exists_ok_of_bind h
    cases result with
    | none => cases hRest
    | some next =>
      cases hRest
      exact hHandle hResult
  · obtain ⟨result, hResult, hRest⟩ := exists_ok_of_bind h
    cases result with
    | some next =>
      cases hRest
      exact hHandle hResult
    | none =>
      dsimp only at hRest
      split at hRest
      · rename_i hLast
        obtain ⟨update, -, hEq⟩ := exists_ok_of_bind hRest
        cases hEq
        exact ⟨rfl, .inr ⟨_, fun hNil => (by simp [hNil] at hLast), rfl⟩⟩
      · cases hRest
  · cases h
    exact ⟨rfl, .inl hSame⟩

theorem grows_of_processLine (h : s.processLine line = .ok s') : Grows s.hunks s'.hunks := by
  obtain ⟨-, ⟨added, hEq⟩ | ⟨last, hNe, hEq⟩⟩ := processLine_cases h
  · rw [hEq]
    exact grows_append _ _
  rw [hEq]
  refine ⟨by rw [dropLast_concat], ?_⟩
  rw [length_append, length_dropLast, length_singleton]
  omega

theorem grows_of_pushDelta {delta : Text} (h : s.pushDelta delta = .ok s') :
    Grows s.hunks s'.hunks := by
  refine foldlM_ok_inv (P := fun next => Grows s.hunks next.hunks) h ?_ (Grows.refl _)
  intro ch _ acc next hNext hGrows
  refine hGrows.trans ?_
  unfold pushChar at hNext
  split at hNext
  · have hLine := grows_of_processLine (show processLine _ _ = .ok next from hNext)
    exact hLine
  · cases hNext
    exact Grows.refl _

/-- How the text may end. -/
theorem finish_cases (h : s.finish = .ok hs) : ∃ next, next.mode = .endedPatch ∧ next.hunks = hs ∧
      (next = s ∨ trim s.lineBuffer = endPatchMarker ∧ next.hunks = s.hunks ∨
        processLine { s with lineBuffer := [], lineNumber := s.lineNumber + 1 } s.lineBuffer =
          .ok next) := by
  obtain ⟨next, hLine, hEnded⟩ := exists_ok_of_bind h
  split at hEnded
  · rename_i hMode
    refine ⟨next, hMode, Except.ok.inj hEnded, ?_⟩
    unfold finishLine at hLine
    split at hLine
    · exact .inl (Except.ok.inj hLine).symm
    dsimp only at hLine
    split at hLine
    · rename_i hEnd
      obtain ⟨-, -, hEq⟩ := exists_ok_of_bind hLine
      cases hEq
      exact .inr (.inl ⟨hEnd, rfl⟩)
    · exact .inr (.inr hLine)
  · cases hEnded

/-! ## Deltas -/

theorem pushDelta_append (s : StreamingPatchParser) (first rest : Text) :
    s.pushDelta (first ++ rest) = s.pushDelta first >>= fun next => next.pushDelta rest :=
  foldlM_append

/-- How a text is cut into deltas does not matter, and what is shown on the way grows. -/
theorem pushDeltas_of_pushDelta {deltas : List Text} (h : s.pushDelta deltas.flatten = .ok s') :
    ∃ shown, s.pushDeltas deltas = .ok (shown, s') ∧
      (∀ hunks ∈ shown, Grows s.hunks hunks ∧ Grows hunks s'.hunks) ∧ shown.Pairwise Grows := by
  induction deltas generalizing s with
  | nil =>
    cases h
    exact ⟨[], rfl, forall_mem_nil _, .nil⟩
  | cons delta deltas ih =>
    rw [flatten_cons, pushDelta_append] at h
    obtain ⟨next, hNext, hRest⟩ := exists_ok_of_bind h
    obtain ⟨shown, hShown, hGrows, hPairwise⟩ := ih hRest
    have hFirst := grows_of_pushDelta hNext
    refine ⟨next.hunks :: shown, ?_, ?_, ?_⟩
    · unfold pushDeltas
      rw [hNext]
      show (next.pushDeltas deltas >>= _) = _
      rw [hShown]
      rfl
    · rw [forall_mem_cons]
      exact ⟨⟨hFirst, grows_of_pushDelta hRest⟩,
        fun hunks hMem => ⟨hFirst.trans (hGrows hunks hMem).1, (hGrows hunks hMem).2⟩⟩
    · exact .cons (fun hunks hMem => (hGrows hunks hMem).1) hPairwise

/-- One line that has ended, without its carriage return. -/
def takeLine (s : StreamingPatchParser) (line : Text) : Except ParseError StreamingPatchParser :=
  processLine { s with lineNumber := s.lineNumber + 1 } line

theorem pushDelta_of_no_newline (h : '\n' ∉ t) :
    s.pushDelta t = .ok { s with lineBuffer := s.lineBuffer ++ t } := by
  induction t generalizing s with
  | nil =>
    rw [append_nil]
    rfl
  | cons ch t ih =>
    rw [mem_cons, not_or] at h
    have hChar : s.pushChar ch = .ok { s with lineBuffer := s.lineBuffer ++ [ch] } :=
      if_neg (Ne.symm h.1)
    unfold pushDelta at ih ⊢
    rw [foldlM_cons, hChar]
    show foldlM _ _ t = _
    rw [ih h.2, append_assoc, singleton_append]

/-- A text of whole lines and a rest, from a parser without a begun line. -/
theorem pushDelta_lines (hBuffer : s.lineBuffer = []) {ls : List Text} {last : Text}
    (hLines : ∀ l ∈ ls, '\n' ∉ l) (hLast : '\n' ∉ last) :
    s.pushDelta (join ['\n'] (ls ++ [last])) =
      (ls.map stripCr).foldlM takeLine s >>= fun next =>
        .ok { next with lineBuffer := last } := by
  induction ls generalizing s with
  | nil =>
    unfold join
    rw [nil_append, intercalate_singleton, pushDelta_of_no_newline hLast, hBuffer]
    rfl
  | cons l ls ih =>
    rw [forall_mem_cons] at hLines
    have hJoin : join ['\n'] (l :: ls ++ [last]) =
        l ++ ('\n' :: join ['\n'] (ls ++ [last])) := by
      unfold join
      rw [cons_append, intercalate_cons_of_ne_nil (by simp)]
      simp
    have hEnd : { s with lineBuffer := s.lineBuffer ++ l }.pushChar '\n' =
        takeLine s (stripCr l) := by
      show processLine _ (stripCr (s.lineBuffer ++ l)) = _
      unfold takeLine
      rw [hBuffer, nil_append]
    rw [hJoin, pushDelta_append, pushDelta_of_no_newline hLines.1]
    show foldlM pushChar _ ('\n' :: _) = _
    rw [foldlM_cons, hEnd, map_cons, foldlM_cons]
    cases hNext : takeLine s (stripCr l) with
    | error e => rfl
    | ok next =>
      have hNextBuffer : next.lineBuffer = [] := (processLine_cases hNext).1.trans hBuffer
      exact ih hNextBuffer hLines.2

/-! ## Following the reader -/

/-- The streaming parser has the hunks of the reader, the open one included, and is in
the mode for it. -/
def Mirrors (r : Reader) (s : StreamingPatchParser) : Prop :=
  match r.reading with
  | .header => s.hunks = r.hunks ∧
      (s.mode = .startedPatch ∧ r.hunks = [] ∨
        s.mode = .deleteFile ∧ ∃ front path, r.hunks = front ++ [.deleteFile path])
  | .adding path contents => s.hunks = r.hunks ++ [.addFile path contents] ∧ s.mode = .addFile
  | .updating path movePath chunks mayMove =>
    s.hunks = r.hunks ++ [.updateFile path movePath chunks] ∧ (∃ n, s.mode = .updateFile n) ∧
      lastChunkHasNoLines chunks = false ∧ (mayMove = true → movePath = none ∧ chunks = [])
  | .inChunk path movePath chunks chunk =>
    s.hunks = r.hunks ++ [.updateFile path movePath (chunks ++ [chunk])] ∧
      ∃ n, s.mode = .updateFile n

@[simp] theorem lastChunkHasNoLines_append (chunk : UpdateFileChunk) :
    lastChunkHasNoLines (chunks ++ [chunk]) = chunk.hasNoLines := by
  unfold lastChunkHasNoLines
  rw [getLast?_concat]
  rfl

theorem ensure_of_update (hHunks : s.hunks = hs ++ [.updateFile path movePath chunks])
    (hChunks : chunks ≠ [])
    (hLast : lastChunkHasNoLines chunks = false) (t : Text) :
    s.ensureUpdateHunkIsNotEmpty t = .ok () := by
  unfold ensureUpdateHunkIsNotEmpty
  rw [hHunks, getLast?_concat]
  cases chunks with
  | nil => exact absurd rfl hChunks
  | cons first rest =>
    dsimp only
    rw [hLast, if_neg Bool.false_ne_true]

/-- Where the reader could stop, the streaming parser takes a header. -/
theorem ensure_of_close (h : Mirrors r s) (hClose : close r = some hs) (t : Text) :
    s.hunks = hs ∧ s.ensureUpdateHunkIsNotEmpty t = .ok () := by
  obtain ⟨hunks, reading⟩ := r
  cases reading with
  | header =>
    cases hClose
    refine ⟨h.1, ?_⟩
    unfold ensureUpdateHunkIsNotEmpty
    rw [h.1]
    rcases h.2 with ⟨-, hNil⟩ | ⟨-, front, path, hFront⟩
    · rw [hNil]
      rfl
    · rw [hFront, getLast?_concat]
  | adding path contents =>
    cases hClose
    refine ⟨h.1, ?_⟩
    unfold ensureUpdateHunkIsNotEmpty
    rw [h.1, getLast?_concat]
  | updating path movePath chunks mayMove =>
    obtain ⟨hHunks, -, hLast, -⟩ := h
    unfold close at hClose
    dsimp only at hClose hHunks
    split at hClose
    · cases hClose
    · rename_i hChunks
      cases hClose
      exact ⟨hHunks, ensure_of_update hHunks (fun h => hChunks (by rw [h]; rfl)) hLast t⟩
  | inChunk path movePath chunks chunk =>
    obtain ⟨hHunks, -⟩ := h
    unfold close at hClose
    dsimp only at hClose hHunks
    split at hClose
    · cases hClose
    · rename_i hLines
      cases hClose
      exact ⟨hHunks, ensure_of_update hHunks (by simp) (by simpa using hLines) t⟩

theorem handle_header (s : StreamingPatchParser) (h : readHeader hs line = some r') :
    ∃ s', s.handleHunkHeadersAndEndPatch (trim line) =
        (s.ensureUpdateHunkIsNotEmpty (trim line) >>= fun _ => .ok (some s')) ∧ ∃ path,
      (addFileMarker ++ path = trim line ∧ r' = ⟨hs, .adding (.ofText path) []⟩ ∧
          s' = { s with mode := .addFile, hunks := s.hunks ++ [.addFile (.ofText path) []] } ∨
        deleteFileMarker ++ path = trim line ∧ r' = ⟨hs ++ [.deleteFile (.ofText path)], .header⟩ ∧
          s' = { s with mode := .deleteFile, hunks := s.hunks ++ [.deleteFile (.ofText path)] } ∨
        updateFileMarker ++ path = trim line ∧ r' = ⟨hs, .updating (.ofText path) none [] true⟩ ∧
          s' = { s with
            mode := .updateFile s.lineNumber
            hunks := s.hunks ++ [.updateFile (.ofText path) none []] }) := by
  have hEnd : trim line ≠ endPatchMarker := by
    intro hEnd
    unfold readHeader at h
    rw [hEnd] at h
    cases h
  unfold handleHunkHeadersAndEndPatch
  unfold readHeader at h
  rw [if_neg hEnd]
  cases hAdd : stripPrefix? addFileMarker (trim line) with
  | some path =>
    rw [hAdd] at h
    cases h
    exact ⟨_, rfl, path, .inl ⟨(stripPrefix?_eq_some.mp hAdd).symm, rfl, rfl⟩⟩
  | none =>
  cases hDelete : stripPrefix? deleteFileMarker (trim line) with
  | some path =>
    rw [hAdd, hDelete] at h
    cases h
    exact ⟨_, rfl, path, .inr (.inl ⟨(stripPrefix?_eq_some.mp hDelete).symm, rfl, rfl⟩)⟩
  | none =>
  rw [hAdd, hDelete] at h
  cases hUpdate : stripPrefix? updateFileMarker (trim line) with
  | some path =>
    rw [hUpdate] at h
    cases h
    exact ⟨_, rfl, path, .inr (.inr ⟨(stripPrefix?_eq_some.mp hUpdate).symm, rfl, rfl⟩)⟩
  | none =>
    rw [hUpdate] at h
    cases h

theorem handle_of_readHeader (hHunks : s.hunks = hs)
    (hEnsure : ∀ t, s.ensureUpdateHunkIsNotEmpty t = .ok ())
    (hRead : readHeader hs line = some r') :
    ∃ s', s.handleHunkHeadersAndEndPatch (trim line) = .ok (some s') ∧ Mirrors r' s' := by
  obtain ⟨s', hHandle, path, hHeader⟩ := handle_header s hRead
  rw [hEnsure] at hHandle
  refine ⟨s', hHandle, ?_⟩
  rcases hHeader with ⟨-, rfl, rfl⟩ | ⟨-, rfl, rfl⟩ | ⟨-, rfl, rfl⟩
  · exact ⟨by rw [hHunks], rfl⟩
  · exact ⟨by rw [hHunks], .inr ⟨rfl, hs, _, rfl⟩⟩
  · exact ⟨by rw [hHunks], ⟨_, rfl⟩, rfl, fun _ => ⟨rfl, rfl⟩⟩

/-! ### Lines by their first character -/

variable {ch : Char} {marker : Text}

section

variable (hMarker : marker.head? = some ch) (hHead : t.head? ≠ some ch)
include hMarker hHead

theorem stripPrefix_of_head : stripPrefix? marker t = none := by
  cases hStrip : stripPrefix? marker t with
  | none => rfl
  | some rest =>
    rw [stripPrefix?_eq_some.mp hStrip, head?_append, hMarker] at hHead
    exact absurd rfl hHead

theorem startsWith_of_head : startsWith marker t = false := by
  refine eq_false_of_ne_true fun hStarts => ?_
  obtain ⟨rest, rfl⟩ := startsWith_iff.mp hStarts
  rw [head?_append, hMarker] at hHead
  exact hHead rfl

end

theorem head?_trimEnd (h : line.head? ≠ some ch) : (trimEnd line).head? ≠ some ch := by
  intro hHead
  obtain ⟨rest, hRest⟩ := trimEnd_isPrefix line
  rw [← hRest, head?_append, hHead] at h
  exact h rfl

theorem handle_of_head (h : t.head? ≠ some '*') : s.handleHunkHeadersAndEndPatch t = .ok none := by
  have hEnd : t ≠ endPatchMarker := by
    rintro rfl
    exact h rfl
  unfold handleHunkHeadersAndEndPatch
  rw [if_neg hEnd, stripPrefix_of_head rfl h, stripPrefix_of_head rfl h, stripPrefix_of_head rfl h]

theorem head?_of_pushLine {chunk chunk' : UpdateFileChunk} (h : chunk.pushLine? line = some chunk') :
    line.head? ≠ some '*' ∧ line.head? ≠ some '@' := by
  unfold UpdateFileChunk.pushLine? at h
  split at h
  · simp
  · simp
  · simp
  · simp
  · cases h

variable {n : Nat} {chunks' : List UpdateFileChunk} {patch : PatchText}

/-- A line that a chunk takes is not a marker line, also with its blanks cut off. -/
theorem processUpdateLine_of_push (hStar : line.head? ≠ some '*')
    (hAt : line.head? ≠ some '@') (h : pushChunkLine? chunks line = some chunks') :
    processUpdateLine movePath chunks line n = .ok (movePath, chunks') := by
  have hStar := head?_trimEnd hStar
  have hAt := head?_trimEnd hAt
  have hBare : trimEnd line ≠ emptyChangeContextMarker := by
    intro hEq
    rw [hEq] at hAt
    exact hAt rfl
  have hEof : trimEnd line ≠ eofMarker := by
    intro hEq
    rw [hEq] at hStar
    exact hStar rfl
  have hStarts : startsWith changeContextMarker (trimEnd line) = false := startsWith_of_head rfl hAt
  unfold processUpdateLine
  dsimp only
  rw [stripPrefix_of_head rfl hStar, ite_self]
  rw [if_neg (by simp [hBare, hStarts]), if_neg hBare, stripPrefix_of_head rfl hAt]
  rw [if_neg hEof, h]

/-! ### One step -/

theorem processLine_update {movePath' : Option PathBuf}
    (hMode : s.mode = .updateFile n) (hHunks : s.hunks = hs ++ [.updateFile path movePath chunks])
    (hHandle : s.handleHunkHeadersAndEndPatch (trimEnd line) = .ok none)
    (hUpdate : processUpdateLine movePath chunks line s.lineNumber = .ok (movePath', chunks')) :
    s.processLine line =
      .ok { s with hunks := hs ++ [.updateFile path movePath' chunks'] } := by
  unfold processLine
  rw [hMode]
  rw [hHandle, hHunks, getLast?_concat]
  dsimp only
  rw [hUpdate, dropLast_concat]
  rfl

theorem processLine_header_of_update (hMode : s.mode = .updateFile n)
    (hHandle : s.handleHunkHeadersAndEndPatch (trimEnd line) = .ok (some s')) :
    s.processLine line = .ok s' := by
  unfold processLine
  rw [hMode]
  rw [hHandle]
  rfl

/-- A context that the streaming parser reads as it stands. -/
def TrimmedContext (context : Text) : Prop :=
  trimEnd (changeContextMarker ++ context) = changeContextMarker ++ context

theorem processUpdateLine_context {context : Text} (hTrim : TrimmedContext context)
    (hLast : lastChunkHasNoLines chunks = false) :
    processUpdateLine movePath chunks (changeContextMarker ++ context) n =
      .ok (movePath, chunks ++ [.new (some context)]) := by
  have hBare : changeContextMarker ++ context ≠ emptyChangeContextMarker := by
    intro h
    have hLen := congrArg length h
    rw [length_append, show changeContextMarker.length = 3 from rfl,
      show emptyChangeContextMarker.length = 2 from rfl] at hLen
    omega
  have hMove : stripPrefix? moveToMarker (changeContextMarker ++ context) = none := rfl
  unfold processUpdateLine
  dsimp only
  rw [show trimEnd (changeContextMarker ++ context) = changeContextMarker ++ context from hTrim,
    hMove, ite_self]
  rw [if_neg (by simp [hLast]), if_neg hBare, stripPrefix_append]

theorem processUpdateLine_bare (hLast : lastChunkHasNoLines chunks = false) :
    processUpdateLine movePath chunks emptyChangeContextMarker n =
      .ok (movePath, chunks ++ [.new none]) := by
  have hMove : stripPrefix? moveToMarker emptyChangeContextMarker = none := by decide
  unfold processUpdateLine
  dsimp only
  rw [show trimEnd emptyChangeContextMarker = emptyChangeContextMarker from by decide,
    hMove, ite_self]
  rw [if_neg (by simp [hLast]), if_pos rfl]

theorem processUpdateLine_move {moveTo : Text} (hLine : line = moveToMarker ++ moveTo)
    (hTrim : trimEnd line = line) :
    processUpdateLine none [] line n = .ok (some (.ofText moveTo), []) := by
  unfold processUpdateLine
  dsimp only
  rw [hTrim, hLine, if_pos (show ([].isEmpty && none.isNone) = true from rfl), stripPrefix_append]

theorem processUpdateLine_eof (hLines : lastChunkHasNoLines (chunks ++ [chunk]) = false) :
    processUpdateLine movePath (chunks ++ [chunk]) eofMarker n =
      .ok (movePath, chunks ++ [{ chunk with isEndOfFile := true }]) := by
  have hSome : (chunks ++ [chunk]).isEmpty = false := by simp
  unfold processUpdateLine
  dsimp only
  rw [show trimEnd eofMarker = eofMarker from by decide, hSome, Bool.false_and,
    if_neg Bool.false_ne_true]
  rw [if_neg (by rintro ⟨h | h, -⟩ <;> exact absurd h (by decide)), if_neg (by decide),
    show stripPrefix? changeContextMarker eofMarker = none from by decide]
  rw [if_pos rfl, hLines, if_neg Bool.false_ne_true, getLast?_concat, dropLast_concat]

theorem startsWith_star_iff : startsWith ['*'] line = true ↔ ∃ rest, line = '*' :: rest := by
  rw [startsWith_iff]
  exact ⟨fun ⟨rest, h⟩ => ⟨rest, h.symm⟩, fun ⟨rest, h⟩ => ⟨rest, h.symm⟩⟩

/-- Between chunks, the streaming parser follows a step that is not over a blank line. -/
theorem mirrors_between (hMode : s.mode = .updateFile n)
    (hHunks : s.hunks = hs ++ [.updateFile path movePath chunks])
    (hLast : lastChunkHasNoLines chunks = false) (hBlank : trim line ≠ [])
    (hContext : ∀ context, line = changeContextMarker ++ context → TrimmedContext context)
    (hRead : readBetween hs path movePath chunks line = some r') :
    ∃ s', s.processLine line = .ok s' ∧ Mirrors r' s' := by
  unfold readBetween at hRead
  rw [if_neg hBlank] at hRead
  split at hRead
  · -- a marker line ends the update
    rename_i hStar
    obtain ⟨rest, rfl⟩ := startsWith_star_iff.mp hStar
    split at hRead
    · cases hRead
    rename_i hChunks
    have hEnsure := ensure_of_update hHunks (fun h => hChunks (by rw [h]; rfl)) hLast
    obtain ⟨s', hHandle, hMirrors⟩ := handle_of_readHeader hHunks hEnsure hRead
    exact ⟨s', processLine_header_of_update hMode hHandle, hMirrors⟩
  rename_i hStar
  have hHandle : s.handleHunkHeadersAndEndPatch (trimEnd line) = .ok none := by
    refine handle_of_head (head?_trimEnd fun hHead => hStar ?_)
    obtain ⟨rest, hRest⟩ := head?_eq_some_iff.mp hHead
    exact startsWith_star_iff.mpr ⟨rest, hRest⟩
  split at hRead
  · rename_i hBare
    cases hRead
    rw [hBare] at hHandle ⊢
    exact ⟨_, processLine_update hMode hHunks hHandle (processUpdateLine_bare hLast), rfl, n, hMode⟩
  split at hRead
  · rename_i context hStrip
    cases hRead
    have hLine := stripPrefix?_eq_some.mp hStrip
    rw [hLine] at hHandle ⊢
    exact ⟨_, processLine_update hMode hHunks hHandle
      (processUpdateLine_context (hContext context hLine) hLast), rfl, n, hMode⟩
  · -- the first chunk may come without a context
    split at hRead
    · rename_i hEmpty
      cases isEmpty_iff.mp hEmpty
      obtain ⟨chunk, hPush, hEq⟩ := Option.map_eq_some_iff.mp hRead
      cases hEq
      have hHead := head?_of_pushLine hPush
      have hChunks : pushChunkLine? [] line = some [chunk] := by
        show Option.map _ _ = _
        rw [hPush]
        rfl
      exact ⟨_, processLine_update hMode hHunks hHandle
        (processUpdateLine_of_push hHead.1 hHead.2 hChunks), rfl, n, hMode⟩
    · cases hRead

def headerMarkers : List Text := [addFileMarker, deleteFileMarker, updateFileMarker]

theorem marker_of_readHeader (h : readHeader hs line = some r') :
    ∃ marker ∈ headerMarkers, marker <+: trim line := by
  obtain ⟨-, -, path, ⟨hLine, -⟩ | ⟨hLine, -⟩ | ⟨hLine, -⟩⟩ := handle_header new h
  · exact ⟨addFileMarker, by decide, path, hLine⟩
  · exact ⟨deleteFileMarker, by decide, path, hLine⟩
  · exact ⟨updateFileMarker, by decide, path, hLine⟩

/-- A header starts with no other marker. -/
theorem startsWith_of_readHeader {other : Text}
    (hFirst : other.head?.any (fun ch => !isWhitespace ch) = true)
    (hOther : ∀ marker ∈ headerMarkers, ¬marker <+: other ∧ ¬other <+: marker)
    (h : readHeader hs line = some r') : startsWith other line = false := by
  refine eq_false_of_ne_true fun hStarts => ?_
  have hLine : other <+: line := startsWith_iff.mp hStarts
  have hTrim : trim line <+: line := by
    obtain ⟨rest, rfl⟩ := hLine
    cases other with
    | nil => cases hFirst
    | cons ch other =>
      rw [cons_append, trim_cons (by simpa using hFirst)]
      exact trimEnd_isPrefix _
  obtain ⟨marker, hMarker, hPre⟩ := marker_of_readHeader h
  rcases prefix_or_prefix_of_prefix (hPre.trans hTrim) hLine with hPre | hPre
  · exact (hOther marker hMarker).1 hPre
  · exact (hOther marker hMarker).2 hPre

theorem processLine_add {contents added : Text} (hMode : s.mode = .addFile)
    (hHunks : s.hunks = hs ++ [.addFile path contents]) : s.processLine ('+' :: added) =
      .ok { s with hunks := hs ++ [.addFile path (contents ++ (added ++ ['\n']))] } := by
  have hHead : (trim ('+' :: added)).head? ≠ some '*' := by
    rw [trim_cons (by decide)]
    exact head?_trimEnd (by simp)
  unfold processLine
  rw [hMode]
  dsimp only
  rw [handle_of_head hHead,
    hHunks, getLast?_concat, dropLast_concat]
  rfl

/-- Outside an update, a line is taken for a header before anything else. -/
theorem processLine_of_header
    (hMode : s.mode = .startedPatch ∨ s.mode = .deleteFile ∨ s.mode = .addFile)
    (hRead : readHeader hs line = some r')
    (hHandle : s.handleHunkHeadersAndEndPatch (trim line) = .ok (some s')) :
    s.processLine line = .ok s' := by
  unfold processLine
  rcases hMode with hMode | hMode | hMode <;> rw [hMode] <;> dsimp only
  · have hPreamble : isEnvironmentIdPreambleLine line = false :=
      startsWith_of_readHeader (by decide) (by decide) hRead
    rw [hPreamble, hHandle]
    rfl
  · rw [hHandle]
    rfl
  · rw [hHandle]
    rfl

/-- **On a plain line the streaming parser follows the reader.** -/
theorem mirrors_step (h : Mirrors r s) (hPlain : Plain TrimmedContext r line)
    (hRead : read r line = some r') : ∃ s', s.processLine line = .ok s' ∧ Mirrors r' s' := by
  obtain ⟨hunks, reading⟩ := r
  cases reading with
  | header =>
    have hEnsure := fun t => (ensure_of_close h rfl t).2
    obtain ⟨s', hHandle, hMirrors⟩ := handle_of_readHeader h.1 hEnsure hRead
    have hMode : s.mode = .startedPatch ∨ s.mode = .deleteFile ∨ s.mode = .addFile :=
      h.2.imp And.left fun hDelete => .inl hDelete.1
    exact ⟨s', processLine_of_header hMode hRead hHandle, hMirrors⟩
  | adding path contents =>
    unfold read at hRead
    dsimp only at hRead
    split at hRead
    · rename_i added hPlus
      cases hRead
      rw [stripPrefix?_eq_some.mp hPlus]
      exact ⟨_, processLine_add h.2 h.1, rfl, h.2⟩
    · have hEnsure := fun t => (ensure_of_close h rfl t).2
      obtain ⟨s', hHandle, hMirrors⟩ := handle_of_readHeader h.1 hEnsure hRead
      exact ⟨s', processLine_of_header (.inr (.inr h.2)) hRead hHandle, hMirrors⟩
  | updating path movePath chunks mayMove =>
    obtain ⟨hHunks, ⟨n, hMode⟩, hLast, hMay⟩ := h
    have hBlank : trim line ≠ [] := fun hNil =>
      hPlain.not_stray ⟨hNil, fun _ _ _ _ hReading => by cases hReading⟩
    unfold read at hRead
    dsimp only at hRead hHunks
    split at hRead
    · -- a move line, right after the header
      rename_i moveTo hMove
      cases hRead
      rcases mayMove with _ | _
      · cases hMove
      obtain ⟨rfl, rfl⟩ := hMay rfl
      have hLine := stripPrefix?_eq_some.mp hMove
      have hTrim := hPlain.move_ok moveTo hLine
      have hHandle : s.handleHunkHeadersAndEndPatch (trimEnd line) = .ok none := by
        rw [hTrim, hLine]
        rfl
      exact ⟨_, processLine_update hMode hHunks hHandle (processUpdateLine_move hLine hTrim), rfl,
        ⟨n, hMode⟩, rfl, nofun⟩
    · exact mirrors_between hMode hHunks hLast hBlank hPlain.context_ok hRead
  | inChunk path movePath chunks chunk =>
    obtain ⟨hHunks, n, hMode⟩ := h
    unfold read at hRead
    dsimp only at hRead hHunks
    split at hRead
    · rename_i hEof
      split at hRead
      · cases hRead
      rename_i hLines
      cases hRead
      have hLast : lastChunkHasNoLines (chunks ++ [chunk]) = false := by simpa using hLines
      have hHandle : s.handleHunkHeadersAndEndPatch (trimEnd eofMarker) = .ok none := rfl
      rw [hEof]
      refine ⟨_, processLine_update hMode hHunks hHandle (processUpdateLine_eof hLast), rfl,
        ⟨n, hMode⟩, ?_, nofun⟩
      rwa [lastChunkHasNoLines_append] at hLast ⊢
    split at hRead
    · -- a line of the open chunk
      rename_i next hPush
      cases hRead
      have hHead := head?_of_pushLine hPush
      have hChunks : pushChunkLine? (chunks ++ [chunk]) line = some (chunks ++ [next]) := by
        unfold pushChunkLine?
        rw [getLast?_concat]
        dsimp only
        rw [hPush, dropLast_concat]
        rfl
      exact ⟨_, processLine_update hMode hHunks (handle_of_head (head?_trimEnd hHead.1))
        (processUpdateLine_of_push hHead.1 hHead.2 hChunks), rfl, n, hMode⟩
    · rename_i hPush
      split at hRead
      · cases hRead
      rename_i hLines
      have hBlank : trim line ≠ [] := fun hNil =>
        hPlain.not_stray ⟨hNil, fun _ _ _ _ hReading => by cases hReading; exact hPush⟩
      exact mirrors_between hMode hHunks (by simpa using hLines) hBlank hPlain.context_ok hRead

/-- … and so it does on a run of plain lines. -/
theorem mirrors_reads {lines : List Text} (hReads : Reads (Plain TrimmedContext) r lines r')
    (h : Mirrors r s) : ∃ s', lines.foldlM takeLine s = .ok s' ∧ Mirrors r' s' := by
  induction hReads generalizing s with
  | nil => exact ⟨s, rfl, h⟩
  | cons hRead hPlain _ ih =>
    have hNumber : Mirrors _ { s with lineNumber := s.lineNumber + 1 } := h
    obtain ⟨next, hNext, hMirrors⟩ := mirrors_step hNumber hPlain hRead
    obtain ⟨s', hRest, hLast⟩ := ih hMirrors
    refine ⟨s', ?_, hLast⟩
    have hTake : takeLine s _ = .ok next := hNext
    rw [foldlM_cons, hTake]
    exact hRest

/-! ## The whole text -/

/-- The end marker on a line of its own ends the patch wherever the reader could stop. -/
theorem processLine_end (h : Mirrors r s) (hClose : close r = some hs) :
    s.processLine endPatchMarker = .ok { s with mode := .endedPatch } := by
  have hTrim : trim endPatchMarker = endPatchMarker := by decide
  have hTrimEnd : trimEnd endPatchMarker = endPatchMarker := by decide
  have hEnter : s.handleHunkHeadersAndEndPatch endPatchMarker =
      .ok (some { s with mode := .endedPatch }) := by
    unfold handleHunkHeadersAndEndPatch
    dsimp only
    rw [(ensure_of_close h hClose _).2, append_nil]
    rfl
  have hMode : s.mode = .startedPatch ∨ s.mode = .deleteFile ∨ s.mode = .addFile ∨
      ∃ n, s.mode = .updateFile n := by
    obtain ⟨hunks, reading⟩ := r
    cases reading with
    | header => exact h.2.elim (fun h => .inl h.1) fun h => .inr (.inl h.1)
    | adding path contents => exact .inr (.inr (.inl h.2))
    | updating path movePath chunks mayMove => exact .inr (.inr (.inr h.2.1))
    | inChunk path movePath chunks chunk => exact .inr (.inr (.inr h.2))
  unfold processLine
  rcases hMode with hMode | hMode | hMode | ⟨n, hMode⟩ <;> rw [hMode]
  · have hPreamble : isEnvironmentIdPreambleLine endPatchMarker = false := by decide
    dsimp only
    rw [hPreamble, hTrim, hEnter]
    rfl
  · dsimp only
    rw [hTrim, hEnter]
    rfl
  · dsimp only
    rw [hTrim, hEnter]
    rfl
  · rw [hTrimEnd, hEnter]
    rfl

/-- The end marker ends the patch with a newline after it or without. -/
theorem finish_of_mirrors (h : Mirrors r s) (hClose : close r = some hs) :
    ((endLine { s with lineBuffer := endPatchMarker }) >>= finish) = .ok hs ∧
      finish { s with lineBuffer := endPatchMarker } = .ok hs := by
  have hHunks := (ensure_of_close h hClose []).1
  have hNumber : Mirrors r { s with lineBuffer := [], lineNumber := s.lineNumber + 1 } := h
  constructor
  · have hStrip : stripCr endPatchMarker = endPatchMarker := by decide
    unfold endLine
    rw [hStrip, processLine_end hNumber hClose]
    exact congrArg Except.ok hHunks
  have hEnsure := (ensure_of_close hNumber hClose (trim endPatchMarker)).2
  have hLine : finishLine { s with lineBuffer := endPatchMarker } =
      .ok { s with lineBuffer := [], lineNumber := s.lineNumber + 1, mode := .endedPatch } := by
    unfold finishLine
    dsimp only
    rw [if_neg (by decide), hEnsure]
    rfl
  unfold finish
  rw [hLine]
  exact congrArg Except.ok hHunks

/-- The contexts of a patch, as its author means them. -/
def PatchText.contexts (patch : PatchText) : List Text :=
  patch.hunks.flatMap fun hunk => hunk.chunks.flatMap fun chunk => chunk.context.toList

section

variable (hPatch : patch.Canonical)
  (hContexts : ∀ context ∈ patch.contexts, context ≠ [] ∧ trimEnd context = context)
include hPatch hContexts

/-- The lines of a canonical patch up to its end marker. -/
theorem mirrors_body :
    ∃ s' r', ((beginPatchMarker :: patch.body).map stripCr).foldlM takeLine new = .ok s' ∧
      Mirrors r' s' ∧
      close r' = some (patch.hunks.map fun hunk => (hunk.mapTexts stripCr).hunk) := by
  have hTrimmed : ∀ hunk ∈ patch.hunks.map (HunkText.mapTexts stripCr),
      ∀ chunk ∈ hunk.chunks, ∀ context ∈ chunk.context, TrimmedContext context := by
    intro hunk hHunk chunk hChunk context hContext
    obtain ⟨given, hGiven, rfl⟩ := mem_map.mp hHunk
    cases given with
    | addFile _ _ | deleteFile _ => exact absurd hChunk not_mem_nil
    | updateFile path moveTo chunks =>
      obtain ⟨text, hText, rfl⟩ := mem_map.mp hChunk
      obtain ⟨original, hOriginal, rfl⟩ := Option.map_eq_some_iff.mp hContext
      have hMem : original ∈ patch.contexts :=
        mem_flatMap.mpr ⟨_, hGiven,
          mem_flatMap.mpr ⟨text, hText, Option.mem_toList.mpr hOriginal⟩⟩
      obtain ⟨hNe, hTrim⟩ := hContexts original hMem
      rw [stripCr_of_trimEnd hTrim]
      exact trimEnd_append changeContextMarker hNe hTrim
  obtain ⟨r', hReads, hClose⟩ := reads_hunks (r := ⟨[], .header⟩) rfl
    (canonical_stripped hPatch) hTrimmed
  rw [map_map] at hClose
  -- the begin line and the environment line leave the parser at the first header
  have hStart : ∃ started : StreamingPatchParser,
      (beginPatchMarker :: (patch.environmentId.map (environmentIdMarker ++ ·)).toList).foldlM
        takeLine new = .ok started ∧ started.mode = .startedPatch ∧ started.hunks = [] := by
    cases patch.environmentId with
    | none | some _ => exact ⟨_, rfl, rfl, rfl⟩
  obtain ⟨started, hStarted, hMode, hNil⟩ := hStart
  have hMirrors : Mirrors ⟨[], .header⟩ started := ⟨hNil, .inl ⟨hMode, rfl⟩⟩
  obtain ⟨s', hBody, hEnd⟩ := mirrors_reads hReads hMirrors
  refine ⟨s', r', ?_, hEnd, hClose⟩
  have hBegin : stripCr beginPatchMarker = beginPatchMarker := by decide
  rw [map_cons, hBegin, map_stripCr_body hPatch, ← cons_append, foldlM_append, hStarted]
  exact hBody

/-- The streaming parser on a canonical patch, however it is ended. -/
theorem finish_render (newline : Bool) : ∃ last, new.pushDelta (patch.render newline) = .ok last ∧
      last.finish = .ok (patch.hunks.map fun hunk => (hunk.mapTexts stripCr).hunk) := by
  obtain ⟨s', r', hFold, hMirrors, hClose⟩ := mirrors_body hPatch hContexts
  have hLines : ∀ l ∈ beginPatchMarker :: patch.body, '\n' ∉ l := by
    rw [forall_mem_cons]
    exact ⟨by decide, no_newline_body hPatch⟩
  obtain ⟨hEnded, hFinish⟩ := finish_of_mirrors hMirrors hClose
  have hPush : new.pushDelta (patch.render false) = .ok { s' with lineBuffer := endPatchMarker } := by
    have hText : patch.render false =
        join ['\n'] ((beginPatchMarker :: patch.body) ++ [endPatchMarker]) :=
      append_nil _
    rw [hText, pushDelta_lines rfl hLines (by decide), hFold]
    rfl
  rcases newline with _ | _
  · exact ⟨_, hPush, hFinish⟩
  obtain ⟨last, hLast, hOk⟩ := exists_ok_of_bind hEnded
  refine ⟨last, ?_, hOk⟩
  have hText : patch.render true = patch.render false ++ ['\n'] := by
    unfold PatchText.render
    rw [if_pos rfl, if_neg Bool.false_ne_true, append_nil]
  rw [hText, pushDelta_append, hPush]
  show (endLine _ >>= fun next => pure next) = _
  rw [hLast]
  rfl

end

theorem grows_of_finish (h : s.finish = .ok hs) : Grows s.hunks hs := by
  obtain ⟨next, -, rfl, rfl | ⟨-, hSame⟩ | hLine⟩ := finish_cases h
  · exact Grows.refl _
  · rw [hSame]
    exact Grows.refl _
  · have hGrows := grows_of_processLine hLine
    exact hGrows

/-- **Streaming a canonical patch, in whatever deltas, ends with the hunks of the parser;
on the way all hunks but the last are final and none is taken back.** -/
theorem streaming_agrees {patch : PatchText} (hPatch : patch.Canonical)
    (hContexts : ∀ context ∈ patch.contexts, context ≠ [] ∧ trimEnd context = context)
    (newline : Bool) (deltas : List Text) (hDeltas : deltas.flatten = patch.render newline) :
    ∃ args shown last, parsePatch (patch.render newline) = .ok args ∧
      new.pushDeltas deltas = .ok (shown, last) ∧ last.finish = .ok args.hunks ∧
      (∀ hunks ∈ shown, hunks.dropLast <+: args.hunks) ∧
      (shown ++ [args.hunks]).Pairwise fun hunks later => hunks.length ≤ later.length := by
  obtain ⟨args, hParse, -, hArgs⟩ := parsePatch_render hPatch newline
  obtain ⟨last, hPush, hFinish⟩ := finish_render hPatch hContexts newline
  rw [← hArgs] at hFinish
  rw [← hDeltas] at hPush
  obtain ⟨shown, hShown, hGrows, hPairwise⟩ := pushDeltas_of_pushDelta hPush
  have hFinal : ∀ hunks ∈ shown, Grows hunks args.hunks := fun hunks hMem =>
    (hGrows hunks hMem).2.trans (grows_of_finish hFinish)
  refine ⟨args, shown, last, hParse, hShown, hFinish, fun hunks hMem => ?_, ?_⟩
  · exact (hFinal hunks hMem).settled.trans (List.dropLast_prefix _)
  refine pairwise_append.mpr
    ⟨hPairwise.imp fun h => h.length_le, pairwise_singleton _ _, fun hunks hMem later hLater => ?_⟩
  rw [mem_singleton.mp hLater]
  exact (hFinal hunks hMem).length_le

theorem streaming_agrees_sample :
    ∃ args shown last, parsePatch (samplePatch.render true) = .ok args ∧
      new.pushDeltas ((samplePatch.render true).map ([·])) = .ok (shown, last) ∧
      last.finish = .ok args.hunks ∧ (∀ hunks ∈ shown, hunks.dropLast <+: args.hunks) ∧
      (shown ++ [args.hunks]).Pairwise fun hunks later => hunks.length ≤ later.length :=
  streaming_agrees samplePatch_canonical (by decide) true _ (flatMap_singleton' _)

end Codex.ApplyPatch
