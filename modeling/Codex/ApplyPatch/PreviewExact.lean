import Codex.ApplyPatch.Drift

/-!
# Codex — when the preview shows the patch that is applied

A text that both parsers accept starts with the begin marker on its first line, has no
end marker before its last line that is not blank, and has the same lines in between
for both (`parsePatch_lines`, `streamed_lines`, `hunks_of_finish`).

Result: `preview_shows_patch_iff`.
-/

namespace Codex.ApplyPatch

open StreamingPatchParser List Text

variable {s s' : StreamingPatchParser} {line t : Text} {hs : List Hunk} {n : Nat}
variable {args : ParsedPatchArgs} {lines : List Text}

/-! ## After the last line -/

theorem update_of_blank_line (hMode : s.mode = .updateFile n) (hHead : line.head? ≠ some '*')
    (h : s.processLine line = .ok s') : s'.mode = .updateFile n :=
  (weight_of_processLine hMode (handle_of_head (head?_trimEnd hHead)) h).1

theorem head?_of_blank (h : ∀ ch ∈ line, isWhitespace ch = true) : line.head? ≠ some '*' := by
  intro hHead
  obtain ⟨rest, rfl⟩ := head?_eq_some_iff.mp hHead
  exact absurd (h '*' mem_cons_self) (by decide)

/-- Blank text does not end an update. -/
theorem update_of_blank (hMode : s.mode = .updateFile n)
    (hBuffer : ∀ ch ∈ s.lineBuffer, isWhitespace ch = true) (ht : ∀ ch ∈ t, isWhitespace ch = true)
    (h : s.pushDelta t = .ok s') :
    s'.mode = .updateFile n ∧ ∀ ch ∈ s'.lineBuffer, isWhitespace ch = true := by
  refine foldlM_ok_inv
    (P := fun s => s.mode = .updateFile n ∧ ∀ ch ∈ s.lineBuffer, isWhitespace ch = true) h ?_
    ⟨hMode, hBuffer⟩
  intro ch hMem acc next hNext ⟨hMode, hBuffer⟩
  unfold pushChar at hNext
  split at hNext
  · have hLine : processLine { acc with lineBuffer := [], lineNumber := acc.lineNumber + 1 }
        (stripCr acc.lineBuffer) = .ok next := hNext
    have hBlank := head?_of_blank fun ch hMem => hBuffer ch (mem_of_mem_stripCr hMem)
    have hNil : next.lineBuffer = [] := (processLine_cases hLine).1
    have hSame : ({ acc with lineBuffer := [], lineNumber := acc.lineNumber + 1 } :
        StreamingPatchParser).mode = .updateFile n := hMode
    exact ⟨update_of_blank_line hSame hBlank hLine, by simp [hNil]⟩
  · cases hNext
    exact ⟨hMode, forall_mem_append.mpr ⟨hBuffer, forall_mem_singleton.mpr (ht ch hMem)⟩⟩

/-- After the end marker nothing matters. -/
theorem ended_of_pushDelta (hMode : s.mode = .endedPatch) (h : s.pushDelta t = .ok s') :
    s'.mode = .endedPatch ∧ s'.hunks = s.hunks := by
  refine foldlM_ok_inv (P := fun next => next.mode = .endedPatch ∧ next.hunks = s.hunks) h ?_
    ⟨hMode, rfl⟩
  intro ch _ acc next hNext ⟨hMode, hHunks⟩
  unfold pushChar endLine at hNext
  split at hNext
  · rw [hMode] at hNext
    cases hNext
    exact ⟨rfl, hHunks⟩
  · cases hNext
    exact ⟨hMode, hHunks⟩

theorem hunks_of_ended (hMode : s.mode = .endedPatch) (h : s.finish = .ok hs) : hs = s.hunks := by
  obtain ⟨next, -, rfl, rfl | ⟨-, hSame⟩ | hLine⟩ := finish_cases h
  · rfl
  · exact hSame
  · rw [hMode] at hLine
    cases hLine
    rfl

/-- A line with the end marker, blanks around it or not, ends the patch, or is taken for
a line of the update. -/
theorem ended_or_update (hTrim : trim line = endPatchMarker)
    (h : s.processLine line = .ok s') :
    s'.mode = .endedPatch ∧ s'.hunks = s.hunks ∨ ∃ n, s'.mode = .updateFile n := by
  have hEnter : ∀ {result}, s.handleHunkHeadersAndEndPatch endPatchMarker = .ok result →
      result = some { s with mode := .endedPatch } := by
    intro result hHandle
    unfold handleHunkHeadersAndEndPatch at hHandle
    dsimp only at hHandle
    rw [append_nil] at hHandle
    obtain ⟨-, -, hEq⟩ := exists_ok_of_bind hHandle
    exact (Except.ok.inj hEq).symm
  have hEnded : ∀ {f : Option StreamingPatchParser → Except ParseError StreamingPatchParser},
      (∀ next, f (some next) = .ok next) →
      (s.handleHunkHeadersAndEndPatch endPatchMarker >>= f) = .ok s' →
      s'.mode = .endedPatch ∧ s'.hunks = s.hunks := by
    intro f hf hBind
    obtain ⟨result, hResult, hRest⟩ := exists_ok_of_bind hBind
    rw [hEnter hResult, hf] at hRest
    cases hRest
    exact ⟨rfl, rfl⟩
  have hLine := h
  unfold processLine at h
  rw [hTrim] at h
  split at h
  · cases h
  · have hPreamble : isEnvironmentIdPreambleLine line = false := by
      refine eq_false_of_ne_true fun hStarts => ?_
      obtain ⟨rest, rfl⟩ := startsWith_iff.mp hStarts
      -- without its blank the marker survives the trimming
      have hBare : "*** Environment ID:".toList <+: environmentIdMarker := by decide
      have hKept : "*** Environment ID:".toList <+: trimEnd (environmentIdMarker ++ rest) :=
        isPrefix_trimEnd (by decide) (hBare.trans (prefix_append _ _))
      have hStart : trim (environmentIdMarker ++ rest) =
          trimEnd (environmentIdMarker ++ rest) := trim_cons (by decide)
      rw [← hStart, hTrim] at hKept
      exact absurd hKept (by decide)
    rw [hPreamble] at h
    exact .inl (hEnded (fun _ => rfl) h)
  · exact .inl (hEnded (fun _ => rfl) h)
  · exact .inl (hEnded (fun _ => rfl) h)
  · rename_i n hMode
    by_cases hStar : line.head? = some '*'
    · obtain ⟨rest, hRest⟩ := head?_eq_some_iff.mp hStar
      have hTrimEnd : trimEnd line = endPatchMarker := by
        rw [← hTrim, hRest, trim_cons (by decide)]
      rw [hTrimEnd] at h
      exact .inl (hEnded (fun _ => rfl) h)
    · exact .inr ⟨n, update_of_blank_line hMode hStar hLine⟩
  · rename_i hMode
    cases h
    exact .inl ⟨hMode, rfl⟩

/-- From the last line of the patch on, the hunks do not change. -/
theorem hunks_of_finish {last post : Text} (hLast : trim last = endPatchMarker)
    (hPost : ∀ ch ∈ post, isWhitespace ch = true)
    (h : (pushDelta { s with lineBuffer := last } post >>= finish) = .ok hs) : hs = s.hunks := by
  have hTrim : ∀ {blank : Text}, (∀ ch ∈ blank, isWhitespace ch = true) →
      trim (last ++ blank) = endPatchMarker := by
    intro blank hBlank
    rw [← hLast, ← trim_append (forall_mem_nil _) hBlank last, nil_append]
  obtain ⟨fed, hFed, hFinish⟩ := exists_ok_of_bind h
  by_cases hNewline : '\n' ∈ post
  · obtain ⟨first, rest, rfl, hFirst⟩ := eq_append_cons_of_mem hNewline
    rw [pushDelta_append, pushDelta_of_no_newline hFirst] at hFed
    have hEnd : (endLine { s with lineBuffer := last ++ first } >>= fun next =>
        next.pushDelta rest) = .ok fed := hFed
    obtain ⟨next, hNext, hRest⟩ := exists_ok_of_bind hEnd
    have hLine : processLine { s with lineBuffer := [], lineNumber := s.lineNumber + 1 }
        (stripCr (last ++ first)) = .ok next := hNext
    have hBlank : (∀ ch ∈ first, isWhitespace ch = true) ∧ ∀ ch ∈ rest, isWhitespace ch = true :=
      ⟨fun ch hMem => hPost ch (mem_append_left _ hMem),
        fun ch hMem => hPost ch (mem_append_right _ (mem_cons_of_mem _ hMem))⟩
    have hMarker : trim (stripCr (last ++ first)) = endPatchMarker :=
      (trim_stripCr _).trans (hTrim hBlank.1)
    rcases ended_or_update hMarker hLine with ⟨hMode, hHunks⟩ | ⟨n, hMode⟩
    · obtain ⟨hFedMode, hFedHunks⟩ := ended_of_pushDelta hMode hRest
      exact (hunks_of_ended hFedMode hFinish).trans (hFedHunks.trans hHunks)
    -- still in the update: only blank text comes, and the patch never ends
    have hNil : next.lineBuffer = [] := (processLine_cases hLine).1
    obtain ⟨hFedMode, hFedBuffer⟩ := update_of_blank hMode (by simp [hNil]) hBlank.2 hRest
    obtain ⟨final, hEnded, -, rfl | ⟨hEnd, -⟩ | hFinal⟩ := finish_cases hFinish
    · cases hFedMode.symm.trans hEnded
    · unfold trim trimStart at hEnd
      rw [dropWhile_eq_nil_iff.mpr hFedBuffer] at hEnd
      cases hEnd
    · have hSame : ({ fed with lineBuffer := [], lineNumber := fed.lineNumber + 1 } :
          StreamingPatchParser).mode = .updateFile n := hFedMode
      cases (update_of_blank_line hSame (head?_of_blank hFedBuffer) hFinal).symm.trans hEnded
  · rw [pushDelta_of_no_newline hNewline] at hFed
    cases hFed
    obtain ⟨final, hFinal, hEnded⟩ := exists_ok_of_bind hFinish
    have hNe : last ++ post ≠ [] := by
      intro hNil
      have hEmpty := hTrim hPost
      rw [hNil] at hEmpty
      cases hEmpty
    unfold finishLine at hFinal
    rw [if_neg hNe, if_pos (hTrim hPost)] at hFinal
    obtain ⟨-, -, hEq⟩ := exists_ok_of_bind hFinal
    cases hEq
    exact (Except.ok.inj hEnded).symm

/-! ## The lines of both -/

theorem boundaries_ok {all : List Text} {bounds : List Text × List Text}
    (h : checkPatchBoundariesStrict all = .ok bounds) :
    all.head?.map trim = some beginPatchMarker ∧
      all.getLast?.map trim = some endPatchMarker ∧ bounds = (all, (all.drop 1).dropLast) := by
  obtain ⟨_, hCheck, hBounds⟩ := exists_ok_of_bind h
  unfold checkStartAndEndLinesStrict at hCheck
  dsimp only at hCheck
  split at hCheck
  · rename_i hEnds
    exact ⟨hEnds.1, hEnds.2, (Except.ok.inj hBounds).symm⟩
  · split at hCheck <;> cases hCheck

/-- A text that the parser accepts has its markers on the first and the last line, or a
heredoc around them. -/
theorem parsePatch_bounds (h : parsePatch t = .ok args) :
    (∃ bounds, checkPatchBoundariesStrict (Text.lines (Text.trim t)) = .ok bounds ∧
      ∃ id rest lineNumber, parseEnvironmentIdPreamble bounds.2 = .ok (id, rest, lineNumber) ∧
        readAll ⟨[], .header⟩ rest = some args.hunks) ∨
    4 ≤ (Text.lines (Text.trim t)).length ∧ ∀ first ∈ (Text.lines (Text.trim t)).head?,
      Text.trim first ≠ beginPatchMarker := by
  obtain ⟨bounds, hBounds, hRest⟩ := exists_ok_of_bind h
  unfold checkPatchBoundariesLenient at hBounds
  split at hBounds
  · rename_i strict hStrict
    cases hBounds
    obtain ⟨⟨id, rest, lineNumber⟩, hPreamble, hRest⟩ := exists_ok_of_bind hRest
    obtain ⟨hunks, hHunks, hArgs⟩ := exists_ok_of_bind hRest
    cases hArgs
    refine .inl ⟨bounds, hStrict, id, rest, lineNumber, hPreamble, ?_⟩
    have hOption : (parseHunks rest.length rest lineNumber []).toOption = _ :=
      parseHunks_eq_readAll lineNumber (le_refl rest.length)
    rw [← hOption]
    rw [show parseHunks rest.length rest lineNumber [] = .ok hunks from hHunks]
    rfl
  · split at hBounds
    · rename_i hHeredoc
      rw [Bool.and_eq_true, Bool.and_eq_true] at hHeredoc
      refine .inr ⟨of_decide_eq_true hHeredoc.2, fun first hFirst => ?_⟩
      rw [Option.mem_def.mp hFirst] at hHeredoc
      have hMarks := hHeredoc.1.1
      simp only [Option.any_some, Bool.or_eq_true, decide_eq_true_eq] at hMarks
      rcases hMarks with (rfl | rfl) | rfl <;> decide
    · cases hBounds

/-- The parser accepts only texts of several lines. -/
theorem parsePatch_lines (h : parsePatch t = .ok args) :
    ∃ first middle last, Text.trim t = Text.join ['\n'] (first :: (middle ++ [last])) ∧
      (∀ l ∈ first :: middle, '\n' ∉ l) ∧ '\n' ∉ last ∧
      Text.lines (Text.trim t) =
        Text.stripCr first :: (middle.map Text.stripCr ++ [last]) := by
  have hJoin : join ['\n'] (split '\n' (trim t)) = trim t :=
    intercalate_splitOn '\n'
  have hParts : ∀ l ∈ split '\n' (trim t), '\n' ∉ l := fun l => not_mem_split
  cases hSplit : split '\n' (trim t) using List.reverseRecOn with
  | nil => exact absurd hSplit (splitOn_ne_nil _ _)
  | append_singleton front last =>
    rw [hSplit] at hJoin hParts
    cases front with
    | nil =>
      -- one line is not both markers
      have hLines : lines (trim t) = ([last].getLast?.filter (· ≠ [])).toList := by
        unfold lines
        rw [hSplit]
        rfl
      rcases parsePatch_bounds h with ⟨bounds, hStrict, -⟩ | ⟨hFour, -⟩
      · obtain ⟨hBegin, hEnd, -⟩ := boundaries_ok hStrict
        rw [hLines] at hBegin hEnd
        cases hLast : ([last].getLast?.filter (· ≠ [])) with
        | none =>
          rw [hLast] at hBegin
          cases hBegin
        | some only =>
          rw [hLast] at hBegin hEnd
          have hBoth : some beginPatchMarker = some endPatchMarker := hBegin.symm.trans hEnd
          exact absurd hBoth (by decide)
      · rw [hLines] at hFour
        cases hLast : ([last].getLast?.filter (· ≠ [])) <;> rw [hLast] at hFour <;> simp at hFour
    | cons first middle =>
      have hFront : ∀ l ∈ first :: middle, '\n' ∉ l := fun l hMem =>
        hParts l (mem_append_left _ hMem)
      have hLast : '\n' ∉ last := hParts last (by simp)
      have hNe : last ≠ [] := by
        rintro rfl
        rw [join_concat _ _ (by simp), append_nil] at hJoin
        have hTrim : trimEnd (trim t) = trim t :=
          rdropWhile_idempotent isWhitespace _
        have hNewline : ∀ ch ∈ ['\n'], isWhitespace ch = true :=
          forall_mem_singleton.mpr rfl
        rw [← hJoin, trimEnd_append_blank hNewline] at hTrim
        have hLength := (trimEnd_isPrefix (join ['\n'] (first :: middle))).length_le
        rw [hTrim, length_append, length_singleton] at hLength
        omega
      refine ⟨first, middle, last, hJoin.symm, hFront, hLast, ?_⟩
      rw [← hJoin, lines_join hFront hLast hNe]
      rfl

/-- What the streaming parser makes of a text with these lines. -/
theorem streamed_lines {first last : Text} {middle : List Text}
    (ht : trim t = join ['\n'] (first :: (middle ++ [last])))
    (hLines : ∀ l ∈ first :: middle, '\n' ∉ l) (hLast : '\n' ∉ last)
    (h : (new.pushDelta t >>= finish) = .ok hs) :
    trim (stripCr first) = beginPatchMarker ∧ ∃ started s',
      started.mode = .startedPatch ∧ started.hunks = [] ∧
      (middle.map stripCr).foldlM takeLine started = .ok s' ∧
      (trim last = endPatchMarker → hs = s'.hunks) := by
  obtain ⟨before, after, hText, hBefore, hAfter⟩ := exists_trim_append t
  rw [forall_mem_cons] at hLines
  -- the first line of the text is not blank
  have hNoNewline : '\n' ∉ before := by
    intro hMem
    obtain ⟨blank, rest, rfl, hBlank⟩ := eq_append_cons_of_mem hMem
    obtain ⟨fed, hFed, -⟩ := exists_ok_of_bind h
    rw [hText, append_assoc, pushDelta_append, pushDelta_of_no_newline hBlank] at hFed
    have hEnd : (endLine { new with lineBuffer := [] ++ blank } >>= fun next =>
        next.pushDelta (rest ++ (trim t ++ after))) = .ok fed := hFed
    obtain ⟨next, hNext, -⟩ := exists_ok_of_bind hEnd
    have hFirst : trim (stripCr blank) ≠ beginPatchMarker := by
      have hNil : trim blank = [] := by
        unfold trim trimStart
        rw [dropWhile_eq_nil_iff.mpr fun ch hMem => hBefore ch (mem_append_left _ hMem)]
        rfl
      rw [trim_stripCr, hNil]
      decide
    unfold endLine processLine at hNext
    dsimp only [new] at hNext
    rw [nil_append, if_neg hFirst] at hNext
    cases hNext
  have hJoin : t = join ['\n'] (((before ++ first) :: middle) ++ [last]) ++ after := by
    have hCons : ∀ l : Text, join ['\n'] (l :: (middle ++ [last])) =
        l ++ ['\n'] ++ join ['\n'] (middle ++ [last]) := fun l =>
      intercalate_cons_of_ne_nil (by simp)
    rw [cons_append, hCons]
    conv_lhs => rw [hText, ht, hCons]
    simp
  have hFront : ∀ l ∈ (before ++ first) :: middle, '\n' ∉ l := by
    rw [forall_mem_cons]
    exact ⟨fun hMem => (mem_append.mp hMem).elim hNoNewline hLines.1, hLines.2⟩
  rw [hJoin, pushDelta_append, pushDelta_lines rfl hFront hLast] at h
  obtain ⟨fed, hFed, hFinish⟩ := exists_ok_of_bind h
  obtain ⟨buffered, hBuffered, hPost⟩ := exists_ok_of_bind hFed
  obtain ⟨s', hFold, hBuffer⟩ := exists_ok_of_bind hBuffered
  cases hBuffer
  obtain ⟨started, hStarted, hRest⟩ := exists_ok_of_bind hFold
  have hTrim : trim (stripCr (before ++ first)) = trim (stripCr first) := by
    rw [trim_stripCr, trim_stripCr, ← trim_append hBefore (forall_mem_nil _) first, append_nil]
  unfold takeLine processLine at hStarted
  dsimp only [new] at hStarted
  rw [hTrim] at hStarted
  split at hStarted
  · rename_i hBegin
    cases hStarted
    refine ⟨hBegin, _, s', rfl, rfl, hRest, fun hEnd => hunks_of_finish hEnd hAfter ?_⟩
    rw [hPost]
    exact hFinish
  · cases hStarted

/-- The environment line, if there is one, is passed over by both. -/
theorem preamble_passed {body rest : List Text} {id : Option Text} {started : StreamingPatchParser}
    (hMode : started.mode = .startedPatch) (hNil : started.hunks = [])
    (hPreamble : parseEnvironmentIdPreamble body = .ok (id, rest, n))
    (hTake : body.foldlM takeLine started = .ok s') :
    ∃ s, Mirrors ⟨[], .header⟩ s ∧ rest.foldlM takeLine s = .ok s' ∧
      (LegibleFrom .outside body ↔ LegibleFrom .outside rest) := by
  have hMirrors : Mirrors ⟨[], .header⟩ started := ⟨hNil, .inl ⟨hMode, rfl⟩⟩
  unfold parseEnvironmentIdPreamble at hPreamble
  rcases body with _ | ⟨line, lines⟩
  · cases hPreamble
    exact ⟨started, hMirrors, hTake, Iff.rfl⟩
  dsimp only at hPreamble
  split at hPreamble
  · cases hPreamble
    exact ⟨started, hMirrors, hTake, Iff.rfl⟩
  rename_i id' hId
  split at hPreamble
  · cases hPreamble
  cases hPreamble
  have hMarker : environmentIdMarker <+: trimStart line :=
    ⟨id', (stripPrefix?_eq_some.mp hId).symm⟩
  have hTrim : trim line <+: trimStart line := trimEnd_isPrefix _
  obtain ⟨next, hNext, hRest⟩ := exists_ok_of_bind hTake
  unfold takeLine processLine at hNext
  rw [hMode] at hNext
  dsimp only at hNext
  split at hNext
  · rename_i hStarts
    cases hNext
    have hLine := startsWith_iff.mp hStarts
    have hStart : Mirrors ⟨[], .header⟩ { started with
        mode := .startedPatch, lineNumber := started.lineNumber + 1 } :=
      ⟨hNil, .inl ⟨rfl, rfl⟩⟩
    refine ⟨_, hStart, hRest, ?_⟩
    have hNot : ¬Misread .outside line := by
      rintro (⟨hFresh, -⟩ | ⟨hMarked | hMarked, -⟩)
      · cases hFresh
      · rw [startsWith_of_clash hLine (by decide)] at hMarked
        cases hMarked
      · rw [startsWith_of_clash hLine (by decide)] at hMarked
        cases hMarked
    have hUpdate : startsWith updateFileMarker (trim line) = false := by
      refine eq_false_of_ne_true fun hUpdate => ?_
      have hBoth := prefix_or_prefix_of_prefix
        ((startsWith_iff.mp hUpdate).trans hTrim) hMarker
      exact absurd hBoth (by decide)
    have hNextPlace : Place.next .outside line = .outside := if_neg (by simp [hUpdate])
    show (¬Misread .outside line ∧ LegibleFrom (Place.next .outside line) rest) ↔ _
    rw [hNextPlace]
    exact and_iff_right hNot
  · -- a header line does not start like an environment line
    have hNone : ∀ marker ∈ endPatchMarker :: headerMarkers,
        startsWith marker (trimStart line) = false := by
      have hClash : ∀ marker ∈ endPatchMarker :: headerMarkers,
          ¬environmentIdMarker <+: marker ∧ ¬marker <+: environmentIdMarker := by decide
      exact fun marker hMem => startsWith_of_clash hMarker (hClash marker hMem)
    rw [handle_of_no_marker hNone hTrim] at hNext
    cases hNext

/-- **The preview shows the patch that is applied if and only if the text is legible.** -/
theorem preview_shows_patch_iff (hParse : parsePatch t = .ok args)
    (hStream : (new.pushDelta t >>= finish) = .ok hs) : hs = args.hunks ↔ Legible t := by
  obtain ⟨first, middle, last, ht, hFront, hLast, hLines⟩ := parsePatch_lines hParse
  obtain ⟨hBegin, started, s', hMode, hNil, hTake, hHunks⟩ := streamed_lines ht hFront hLast hStream
  rcases parsePatch_bounds hParse with ⟨bounds, hStrict, hBody⟩ | ⟨-, hHeredoc⟩
  swap
  · rw [hLines] at hHeredoc
    exact absurd hBegin (hHeredoc _ rfl)
  -- the lines between the first and the last are read
  obtain ⟨-, hEnd, rfl⟩ := boundaries_ok hStrict
  rw [hLines] at hEnd hBody
  rw [drop_one, tail_cons, dropLast_concat] at hBody
  rw [← cons_append, List.getLast?_concat] at hEnd
  obtain ⟨id, rest, lineNumber, hPreamble, hRead⟩ := hBody
  obtain ⟨s, hMirrors, hRest, hLegible⟩ := preamble_passed hMode hNil hPreamble hTake
  obtain ⟨r', hFold, hClose⟩ := Option.bind_eq_some_iff.mp hRead
  have hText : Legible t ↔ LegibleFrom .outside rest := by
    unfold Legible
    rw [hLines, drop_one, tail_cons, dropLast_concat]
    exact hLegible
  rw [hHunks (Option.some.inj hEnd), hText]
  constructor
  · intro hEq
    by_contra hNot
    have hLead := (lead_run (abreast_of_mirrors hMirrors) hFold hRest).2 hNot
    have hStart : lead ⟨[], .header⟩ s = 0 := by
      unfold lead
      rw [hMirrors.1]
      rfl
    have hFinal : lead r' s' = 0 := by
      unfold lead
      rw [hEq, opened_of_close hClose]
      omega
    omega
  · intro hRestLegible
    have hFollowed := mirrors_run hMirrors hRestLegible hFold hRest
    exact (ensure_of_close hFollowed hClose []).1

/-- A blank line after an end-of-file line. -/
def blankAfterEof : Text :=
  "*** Begin Patch\n*** Update File: a\n@@\n-x\n*** End of File\n\n*** End Patch".toList

theorem blank_after_eof_shown_as_context :
    ∃ args hunks, parsePatch blankAfterEof = .ok args ∧
      (new.pushDelta blankAfterEof >>= finish) = .ok hunks ∧ hunks ≠ args.hunks :=
  ⟨_, _, rfl, rfl, by decide⟩

/-- The same without the blank line. -/
def plainPatch : Text :=
  "*** Begin Patch\n*** Update File: a\n@@ f\n-x\n*** End of File\n*** End Patch\n".toList

theorem plainPatch_shown :
    ∃ args hunks, parsePatch plainPatch = .ok args ∧
      (new.pushDelta plainPatch >>= finish) = .ok hunks ∧ hunks = args.hunks :=
  ⟨_, _, rfl, rfl, (preview_shows_patch_iff (t := plainPatch) rfl rfl).mpr (by decide)⟩

end Codex.ApplyPatch
