import Codex.ApplyPatch.LineReader
import Codex.Std.Lines

/-!
# Codex — patches in canonical form

`PatchText` is a patch as its author means it: hunks with their paths, the lines of an
added file, and chunks of tagged lines, each under an explicit `@@` line. `render`
writes it down, `HunkText.hunk` is the hunk it stands for.

The parser is followed line by line (`Codex.ApplyPatch.LineReader`). A line that starts
with `*` and is no end-of-file or move line closes whatever is open; this is what lets
hunks be put side by side (`read_of_star`).

Result: `parse_patch_render`.
-/

namespace Codex.ApplyPatch

open List Text

/-! ## Patches as texts -/

inductive LineTag where
  | context
  | removed
  | added
  deriving DecidableEq, Repr

def LineTag.char : LineTag → Char
  | .context => ' '
  | .removed => '-'
  | .added => '+'

structure TaggedLine where
  tag : LineTag
  text : Text
  deriving DecidableEq, Repr

structure ChunkText where
  context : Option Text
  lines : List TaggedLine
  endOfFile : Bool
  deriving DecidableEq, Repr

inductive HunkText where
  | addFile (path : Text) (lines : List Text)
  | deleteFile (path : Text)
  | updateFile (path : Text) (moveTo : Option Text) (chunks : List ChunkText)
  deriving DecidableEq, Repr

open HunkText
structure PatchText where
  environmentId : Option Text
  hunks : List HunkText
  deriving DecidableEq, Repr

def TaggedLine.render (line : TaggedLine) : Text := line.tag.char :: line.text

def ChunkText.contextLine (chunk : ChunkText) : Text :=
  match chunk.context with
  | none => emptyChangeContextMarker
  | some context => changeContextMarker ++ context

def ChunkText.render (chunk : ChunkText) : List Text :=
  chunk.contextLine :: (chunk.lines.map TaggedLine.render ++
    if chunk.endOfFile then [eofMarker] else [])

def HunkText.render : HunkText → List Text
  | .addFile path lines => (addFileMarker ++ path) :: lines.map ('+' :: ·)
  | .deleteFile path => [deleteFileMarker ++ path]
  | .updateFile path moveTo chunks =>
    (updateFileMarker ++ path) :: ((moveTo.map (moveToMarker ++ ·)).toList ++
      chunks.flatMap ChunkText.render)

/-- The lines between the markers. -/
def PatchText.body (patch : PatchText) : List Text :=
  (patch.environmentId.map (environmentIdMarker ++ ·)).toList ++ patch.hunks.flatMap render

/-- The text of a patch, with or without a newline at its end. -/
def PatchText.render (patch : PatchText) (newline : Bool) : Text :=
  Text.join ['\n'] (beginPatchMarker :: (patch.body ++ [endPatchMarker])) ++
    if newline then ['\n'] else []

/-! ## What they stand for -/

def ChunkText.oldLines (lines : List TaggedLine) : List Text :=
  (lines.filter fun line => line.tag ≠ .added).map TaggedLine.text

def ChunkText.newLines (lines : List TaggedLine) : List Text :=
  (lines.filter fun line => line.tag ≠ .removed).map TaggedLine.text

def ChunkText.chunk (chunk : ChunkText) : UpdateFileChunk :=
  { changeContext := chunk.context
    oldLines := ChunkText.oldLines chunk.lines
    newLines := ChunkText.newLines chunk.lines
    isEndOfFile := chunk.endOfFile }

def HunkText.hunk : HunkText → Hunk
  | .addFile path lines => .addFile (.ofText path) (lines.flatMap (· ++ ['\n']))
  | .deleteFile path => .deleteFile (.ofText path)
  | .updateFile path moveTo chunks =>
    .updateFile (.ofText path) (moveTo.map .ofText) (chunks.map ChunkText.chunk)

/-! ## Canonical patches -/

/-- A path that survives on a line of its own. -/
structure IsLinePath (path : Text) : Prop where
  ne_nil : path ≠ []
  no_newline : '\n' ∉ path
  trimmed : Text.trimEnd path = path

instance (path : Text) : Decidable (IsLinePath path) :=
  decidable_of_iff (path ≠ [] ∧ '\n' ∉ path ∧ Text.trimEnd path = path)
    ⟨fun h => ⟨h.1, h.2.1, h.2.2⟩, fun h => ⟨h.ne_nil, h.no_newline, h.trimmed⟩⟩

/-- The texts a patch carries besides its paths. -/
def HunkText.texts : HunkText → List Text
  | .addFile _ lines => lines
  | .deleteFile _ => []
  | .updateFile _ _ chunks =>
    chunks.flatMap fun chunk => chunk.context.toList ++ chunk.lines.map TaggedLine.text

def HunkText.paths : HunkText → List Text
  | .addFile path _ | .deleteFile path => [path]
  | .updateFile path moveTo _ => path :: moveTo.toList

def HunkText.chunks : HunkText → List ChunkText
  | .addFile _ _ | .deleteFile _ => []
  | .updateFile _ _ chunks => chunks

structure HunkText.Canonical (hunk : HunkText) : Prop where
  path_ok : ∀ path ∈ hunk.paths, IsLinePath path
  no_newline : ∀ text ∈ hunk.texts, '\n' ∉ text
  lines_ne_nil : ∀ chunk ∈ hunk.chunks, chunk.lines ≠ []
  chunks_ne_nil : ∀ path moveTo, hunk ≠ .updateFile path moveTo []

structure PatchText.Canonical (patch : PatchText) : Prop where
  hunk_ok : ∀ hunk ∈ patch.hunks, hunk.Canonical
  environment_ok : ∀ id ∈ patch.environmentId, id ≠ [] ∧ '\n' ∉ id ∧ Text.trim id = id

/-! ## Reading with a record of the lines -/

/-- Reading `lines` leads from one reader to another, and each line has `P` where it is
read. -/
inductive Reads (P : Reader → Text → Prop) : Reader → List Text → Reader → Prop
  | nil (r : Reader) : Reads P r [] r
  | cons {r r' r'' : Reader} {line : Text} {lines : List Text} :
    read r line = some r' → P r line → Reads P r' lines r'' → Reads P r (line :: lines) r''

variable {P : Reader → Text → Prop} {r r' r'' : Reader} {line : Text} {lines lines' : List Text}

theorem Reads.single (hRead : read r line = some r') (hP : P r line) : Reads P r [line] r' :=
  .cons hRead hP (.nil r')

theorem Reads.append (h : Reads P r lines r') (h' : Reads P r' lines' r'') :
    Reads P r (lines ++ lines') r'' := by
  induction h with
  | nil => exact h'
  | cons hRead hP _ ih => exact .cons hRead hP (ih h')

theorem Reads.readAll_eq (h : Reads P r lines r') : readAll r lines = close r' := by
  induction h with
  | nil => rfl
  | cons hRead _ _ ih => rw [readAll_cons, hRead, Option.bind_some, ih]

/-- Texts one after another, if each of them may follow those before. -/
theorem Reads.flatMap {α β : Type} {f : α → List Text} {g : α → β} {Q : List β → Reader → Prop}
    {xs : List α} {done : List β} (h : ∀ x ∈ xs, ∀ {done r}, Q done r →
      ∃ r', Reads P r (f x) r' ∧ Q (done ++ [g x]) r') (hStart : Q done r) :
    ∃ r', Reads P r (xs.flatMap f) r' ∧ Q (done ++ xs.map g) r' := by
  induction xs generalizing r done with
  | nil => exact ⟨r, .nil r, by simpa using hStart⟩
  | cons x xs ih =>
    rw [forall_mem_cons] at h
    obtain ⟨r', hFirst, hNext⟩ := h.1 hStart
    obtain ⟨r'', hRest, hEnd⟩ := ih h.2 hNext
    refine ⟨r'', by rw [flatMap_cons]; exact hFirst.append hRest, ?_⟩
    simpa using hEnd

/-- A blank line that is not part of a chunk. -/
def Stray (r : Reader) (line : Text) : Prop :=
  Text.trim line = [] ∧ ∀ path movePath chunks chunk,
    r.reading = .inChunk path movePath chunks chunk → chunk.pushLine? line = none

/-- No stray line, and no context or move line with blanks at its end, up to a condition
`K` on contexts. -/
structure Plain (K : Text → Prop) (r : Reader) (line : Text) : Prop where
  not_stray : ¬Stray r line
  context_ok : ∀ context, line = changeContextMarker ++ context → K context
  move_ok : ∀ moveTo, line = moveToMarker ++ moveTo → Text.trimEnd line = line

variable {K : Text → Prop} {hs : List Hunk} {path : PathBuf} {movePath : Option PathBuf}
variable {chunks : List UpdateFileChunk} {c : Char} {text : Text}

theorem cons_ne_of_head? (h : line.head? ≠ some c) : c :: text ≠ line := by
  rintro rfl
  exact h rfl

variable {marker : Text} {hunk : HunkText}

/-- A text without the marker in front is no marker line. -/
theorem ne_marker_append {line rest : Text} (h : stripPrefix? marker line = none) :
    line ≠ marker ++ rest := by
  intro hEq
  rw [stripPrefix?_eq_some.mpr hEq] at h
  cases h

/-- A line that starts with `*` closes what is open. -/
theorem read_of_star (hClose : close r = some hs) (hEof : '*' :: text ≠ eofMarker)
    (hMove : stripPrefix? moveToMarker ('*' :: text) = none) :
    read r ('*' :: text) = readHeader hs ('*' :: text) := by
  have hBetween : ∀ hunks path movePath chunks, chunks.isEmpty = false →
      readBetween hunks path movePath chunks ('*' :: text) =
        readHeader (hunks ++ [.updateFile path movePath chunks]) ('*' :: text) := by
    intro hunks path movePath chunks hChunks
    unfold readBetween
    rw [if_neg (trim_cons_ne_nil (by decide)), if_pos (by rfl), hChunks, if_neg Bool.false_ne_true]
  obtain ⟨hunks, reading⟩ := r
  cases reading with
  | header | adding _ _ => cases hClose; rfl
  | updating path movePath chunks mayMove =>
    unfold close at hClose
    dsimp only at hClose
    split at hClose
    · cases hClose
    rename_i hChunks
    cases hClose
    unfold read
    dsimp only
    rw [hMove, ite_self]
    exact hBetween _ _ _ _ (eq_false_of_ne_true hChunks)
  | inChunk path movePath chunks chunk =>
    unfold close at hClose
    dsimp only at hClose
    split at hClose
    · cases hClose
    rename_i hLines
    cases hClose
    unfold read
    dsimp only
    rw [if_neg hEof]
    rw [if_neg hLines]
    exact hBetween _ _ _ _ (by simp)

/-! ## Chunks -/

/-- A context line would start the chunk after `chunks` here. -/
inductive BeforeChunk (hs : List Hunk) (path : PathBuf) (movePath : Option PathBuf) :
    List UpdateFileChunk → Reader → Prop
  | updating (chunks : List UpdateFileChunk) (mayMove : Bool) :
    BeforeChunk hs path movePath chunks ⟨hs, .updating path movePath chunks mayMove⟩
  | inChunk (chunks : List UpdateFileChunk) (chunk : UpdateFileChunk) :
    chunk.hasNoLines = false →
    BeforeChunk hs path movePath (chunks ++ [chunk]) ⟨hs, .inChunk path movePath chunks chunk⟩

/-- Where a chunk may start, its context line starts it. -/
theorem read_contextLine (h : BeforeChunk hs path movePath chunks r) (chunk : ChunkText) :
    read r chunk.contextLine =
      some ⟨hs, .inChunk path movePath chunks (.new chunk.context)⟩ := by
  have hBetween : readBetween hs path movePath chunks chunk.contextLine =
      some ⟨hs, .inChunk path movePath chunks (.new chunk.context)⟩ := by
    unfold readBetween ChunkText.contextLine
    rcases chunk.context with _ | context
    · rfl
    have hStrip : stripPrefix? changeContextMarker (changeContextMarker ++ context) =
        some context := stripPrefix?_eq_some.mpr rfl
    have hBare : changeContextMarker ++ context ≠ emptyChangeContextMarker := by
      intro h
      exact absurd (congrArg length h) (by
        rw [length_append]
        exact Nat.ne_of_gt (Nat.lt_of_lt_of_le (by decide) (Nat.le_add_right 3 _)))
    have hTrim : trim (changeContextMarker ++ context) ≠ [] := by
      show trim ('@' :: _) ≠ []
      exact trim_cons_ne_nil (by decide)
    have hStar : startsWith ['*'] (changeContextMarker ++ context) = false := rfl
    rw [if_neg hTrim, if_neg (ne_true_of_eq_false hStar), if_neg hBare, hStrip]
  have hHead : ∃ text, chunk.contextLine = '@' :: text := by
    unfold ChunkText.contextLine
    cases chunk.context with
    | none | some _ => exact ⟨_, rfl⟩
  obtain ⟨text, hText⟩ := hHead
  cases h with
  | updating chunks mayMove =>
    unfold read
    dsimp only
    rw [hText, show stripPrefix? moveToMarker ('@' :: text) = none from rfl, ite_self, ← hText]
    exact hBetween
  | inChunk chunks last hLines =>
    unfold read
    dsimp only
    rw [hText, if_neg (cons_ne_of_head? (by decide)), show last.pushLine? ('@' :: text) = none from rfl]
    rw [hLines, ← hText]
    exact hBetween

/-- A chunk with tagged lines added to it. -/
def pushTagged (chunk : UpdateFileChunk) (lines : List TaggedLine) : UpdateFileChunk :=
  { chunk with
    oldLines := chunk.oldLines ++ ChunkText.oldLines lines
    newLines := chunk.newLines ++ ChunkText.newLines lines }

variable (chunk : UpdateFileChunk)

/-- A rendered line is pushed under its tag. -/
theorem pushLine_render (line : TaggedLine) :
    chunk.pushLine? line.render = some (pushTagged chunk [line]) := by
  obtain ⟨tag, text⟩ := line
  cases tag <;>
    simp [TaggedLine.render, LineTag.char, UpdateFileChunk.pushLine?, UpdateFileChunk.pushContext,
      pushTagged, ChunkText.oldLines, ChunkText.newLines]

theorem pushTagged_cons (line : TaggedLine) (lines : List TaggedLine) :
    pushTagged (pushTagged chunk [line]) lines = pushTagged chunk (line :: lines) := by
  have hCons : line :: lines = [line] ++ lines := rfl
  rw [hCons]
  simp only [pushTagged, ChunkText.oldLines, ChunkText.newLines, filter_append,
    map_append, append_assoc]

/-- The lines of a chunk are read into it. -/
theorem reads_taggedLines (lines : List TaggedLine) :
    Reads (Plain K) ⟨hs, .inChunk path movePath chunks chunk⟩ (lines.map TaggedLine.render)
      ⟨hs, .inChunk path movePath chunks (pushTagged chunk lines)⟩ := by
  induction lines generalizing chunk with
  | nil =>
    have hSame : pushTagged chunk [] = chunk := by
      simp [pushTagged, ChunkText.oldLines, ChunkText.newLines]
    rw [hSame]
    exact .nil _
  | cons line lines ih =>
    have hPush := pushLine_render chunk line
    have hHead : line.tag.char ≠ '*' ∧ line.tag.char ≠ '@' := by cases line.tag <;> decide
    rw [← pushTagged_cons]
    refine .cons ?_ ⟨?_, ?_, ?_⟩ (ih _)
    · have hEof : line.render ≠ eofMarker := fun h => hHead.1 (cons.inj h).1
      unfold read
      dsimp only
      rw [if_neg hEof, hPush]
    · intro hStray
      have hNone := hStray.2 _ _ _ _ rfl
      rw [hPush] at hNone
      cases hNone
    · exact fun context h => absurd (cons.inj h).1 hHead.2
    · exact fun moveTo h => absurd (cons.inj h).1 hHead.1

theorem pushTagged_hasLines {lines : List TaggedLine} (h : lines ≠ []) :
    (pushTagged chunk lines).hasNoLines = false := by
  obtain ⟨line, lines, rfl⟩ := exists_cons_of_ne_nil h
  obtain ⟨tag, text⟩ := line
  cases tag <;>
    simp [pushTagged, ChunkText.oldLines, ChunkText.newLines, UpdateFileChunk.hasNoLines]

/-- A rendered chunk is read as the chunk. -/
theorem reads_chunk (h : BeforeChunk hs path movePath chunks r) {chunk : ChunkText}
    (hLines : chunk.lines ≠ []) (hContext : ∀ context ∈ chunk.context, K context) :
    ∃ r', Reads (Plain K) r chunk.render r' ∧
      BeforeChunk hs path movePath (chunks ++ [chunk.chunk]) r' := by
  have hStart : Reads (Plain K) r [chunk.contextLine]
      ⟨hs, .inChunk path movePath chunks (.new chunk.context)⟩ := by
    refine .single (read_contextLine h chunk) ?_
    unfold ChunkText.contextLine
    rcases hEq : chunk.context with _ | context
    · refine ⟨fun hStray => absurd hStray.1 (by decide), fun context hLine => ?_, fun moveTo hLine => ?_⟩
      · exact absurd hLine (ne_marker_append (by decide))
      · exact absurd (cons.inj hLine).1 (by decide)
    refine ⟨fun hStray => trim_cons_ne_nil (by decide) hStray.1, fun context' hLine => ?_,
      fun moveTo hLine => absurd (cons.inj hLine).1 (by decide)⟩
    rw [← append_cancel_left hLine]
    exact hContext context hEq
  have hBody := hStart.append (reads_taggedLines (K := K) (.new chunk.context) chunk.lines)
  have hHas := pushTagged_hasLines (.new chunk.context) hLines
  unfold ChunkText.render
  cases hEof : chunk.endOfFile with
  | false =>
    refine ⟨_, by simpa using hBody, ?_⟩
    have hChunk : chunk.chunk = pushTagged (.new chunk.context) chunk.lines := by
      simp [ChunkText.chunk, pushTagged, UpdateFileChunk.new, hEof]
    rw [hChunk]
    exact .inChunk _ _ hHas
  | true =>
    have hMark : Reads (Plain K)
        ⟨hs, .inChunk path movePath chunks (pushTagged (.new chunk.context) chunk.lines)⟩
        [eofMarker] ⟨hs, .updating path movePath (chunks ++ [chunk.chunk]) false⟩ := by
      refine .single ?_ ⟨fun hStray => absurd hStray.1 (by decide), fun context hLine => ?_,
        fun moveTo hLine => ?_⟩
      · unfold read
        dsimp only
        rw [hHas]
        simp [ChunkText.chunk, pushTagged, UpdateFileChunk.new, hEof]
      · exact absurd (cons.inj hLine).1 (by decide)
      · exact absurd hLine (ne_marker_append (by decide))
    exact ⟨_, by simpa using hBody.append hMark, .updating _ _⟩

/-- Where a chunk could start, the update could also end, if it has a chunk. -/
theorem close_of_beforeChunk (h : BeforeChunk hs path movePath chunks r) (hSome : chunks ≠ []) :
    close r = some (hs ++ [.updateFile path movePath chunks]) := by
  cases h with
  | updating chunks mayMove =>
    unfold close
    dsimp only
    rw [if_neg (by simpa using hSome)]
  | inChunk chunks chunk hLines =>
    unfold close
    dsimp only
    rw [hLines, if_neg Bool.false_ne_true]

/-! ## Hunks -/

theorem trim_header {path : Text} (hMarker : marker.head? = some '*')
    (hPath : IsLinePath path) : trim (marker ++ path) = marker ++ path := by
  cases marker with
  | nil => cases hMarker
  | cons first rest =>
    cases hMarker
    rw [cons_append, trim_cons (by decide), ← cons_append,
      trimEnd_append _ hPath.ne_nil hPath.trimmed]

/-- A header line is read as a header, whatever is open. -/
theorem reads_headerLine {path : Text} (hClose : close r = some hs)
    (hMarker : marker.head? = some '*') (hEof : stripPrefix? marker eofMarker = none)
    (hMove : stripPrefix? moveToMarker (marker ++ path) = none)
    (hRead : readHeader hs (marker ++ path) = some r') : Reads (Plain K) r [marker ++ path] r' := by
  rcases marker with _ | ⟨first, rest⟩
  · cases hMarker
  cases hMarker
  have hNotEof : '*' :: (rest ++ path) ≠ eofMarker :=
    fun h => ne_marker_append hEof h.symm
  refine .single ((read_of_star hClose hNotEof hMove).trans hRead)
    ⟨fun hStray => trim_cons_ne_nil (by decide) hStray.1, fun context h => ?_,
      fun moveTo h => absurd h (ne_marker_append hMove)⟩
  exact absurd (cons.inj h).1 (by decide)

theorem stripPrefix_append (marker rest : Text) :
    stripPrefix? marker (marker ++ rest) = some rest :=
  stripPrefix?_eq_some.mpr rfl

/-- The lines of a new file are read into its contents. -/
theorem reads_addLines (contents : Text) (lines : List Text) :
    Reads (Plain K) ⟨hs, .adding path contents⟩ (lines.map ('+' :: ·))
      ⟨hs, .adding path (contents ++ lines.flatMap (· ++ ['\n']))⟩ := by
  induction lines generalizing contents with
  | nil => simpa using Reads.nil _
  | cons line lines ih =>
    have hRest := ih (contents ++ (line ++ ['\n']))
    rw [append_assoc] at hRest
    -- a line that starts with a plus is no blank and no marker
    refine .cons rfl ⟨fun h => trim_cons_ne_nil (by decide) h.1, ?_, ?_⟩ hRest
    · exact fun _ h => absurd (cons.inj h).1 (by decide)
    · exact fun _ h => absurd (cons.inj h).1 (by decide)

/-- A rendered hunk is read as the hunk, after whatever is closed by it. -/
theorem reads_hunk (hClose : close r = some hs) (hHunk : hunk.Canonical)
    (hContext : ∀ chunk ∈ hunk.chunks, ∀ context ∈ chunk.context, K context) :
    ∃ r', Reads (Plain K) r hunk.render r' ∧ close r' = some (hs ++ [hunk.hunk]) := by
  cases hunk with
  | addFile path lines =>
    have hPath := hHunk.path_ok path mem_cons_self
    have hRead : readHeader hs (addFileMarker ++ path) =
        some ⟨hs, .adding (.ofText path) []⟩ := by
      unfold readHeader
      rw [trim_header rfl hPath, stripPrefix_append]
    exact ⟨_, (reads_headerLine hClose rfl rfl rfl hRead).append (reads_addLines [] lines), rfl⟩
  | deleteFile path =>
    have hPath := hHunk.path_ok path mem_cons_self
    have hRead : readHeader hs (deleteFileMarker ++ path) =
        some ⟨hs ++ [.deleteFile (.ofText path)], .header⟩ := by
      unfold readHeader
      rw [trim_header rfl hPath]
      rfl
    exact ⟨_, reads_headerLine hClose rfl rfl rfl hRead, rfl⟩
  | updateFile path moveTo chunks =>
    have hPath := hHunk.path_ok path mem_cons_self
    have hRead : readHeader hs (updateFileMarker ++ path) =
        some ⟨hs, .updating (.ofText path) none [] true⟩ := by
      unfold readHeader
      rw [trim_header rfl hPath]
      rfl
    have hHeader := reads_headerLine (K := K) hClose rfl rfl rfl hRead
    have hMove : Reads (Plain K) ⟨hs, .updating (.ofText path) none [] true⟩
        (moveTo.map (moveToMarker ++ ·)).toList
        ⟨hs, .updating (.ofText path) (moveTo.map .ofText) [] (moveTo.isNone)⟩ := by
      rcases moveTo with _ | target
      · exact .nil _
      have hTarget := hHunk.path_ok target (by simp [paths])
      refine .single ?_ ⟨fun hStray => trim_cons_ne_nil (by decide) hStray.1,
        fun context h => absurd (cons.inj h).1 (by decide), fun _ _ => ?_⟩
      · unfold read
        rfl
      · exact trimEnd_append _ hTarget.ne_nil hTarget.trimmed
    obtain ⟨r', hChunks, hBefore⟩ := Reads.flatMap
      (Q := BeforeChunk hs (.ofText path) (moveTo.map .ofText)) (fun chunk hChunk _ _ hDone =>
        reads_chunk hDone (hHunk.lines_ne_nil chunk hChunk) (hContext chunk hChunk))
      (.updating [] moveTo.isNone)
    refine ⟨r', hHeader.append (hMove.append hChunks), ?_⟩
    have hSome : chunks ≠ [] := by
      rintro rfl
      exact hHunk.chunks_ne_nil _ _ rfl
    exact close_of_beforeChunk hBefore (by simpa using hSome)

theorem reads_hunks {hunks : List HunkText} (hClose : close r = some hs)
    (hHunks : ∀ hunk ∈ hunks, hunk.Canonical)
    (hContext : ∀ hunk ∈ hunks, ∀ chunk ∈ hunk.chunks, ∀ context ∈ chunk.context, K context) :
    ∃ r', Reads (Plain K) r (hunks.flatMap render) r' ∧
      close r' = some (hs ++ hunks.map HunkText.hunk) :=
  Reads.flatMap (Q := fun hs r => close r = some hs) (fun hunk hMem _ _ hDone =>
    reads_hunk hDone (hHunks hunk hMem) (hContext hunk hMem)) hClose

/-! ## Carriage returns -/

def ChunkText.mapTexts (f : Text → Text) (chunk : ChunkText) : ChunkText :=
  { chunk with
    context := chunk.context.map f
    lines := chunk.lines.map fun line => { line with text := f line.text } }

def HunkText.mapTexts (f : Text → Text) : HunkText → HunkText
  | .addFile path lines => .addFile path (lines.map f)
  | .deleteFile path => .deleteFile path
  | .updateFile path moveTo chunks => .updateFile path moveTo (chunks.map (ChunkText.mapTexts f))

theorem stripCr_header {path : Text} (hPath : IsLinePath path) :
    stripCr (marker ++ path) = marker ++ path :=
  stripCr_of_trimEnd (trimEnd_append _ hPath.ne_nil hPath.trimmed)

theorem stripCr_cons (hc : c ≠ '\r') : stripCr (c :: text) = c :: stripCr text := by
  refine stripCr_append [c] fun h => hc ?_
  exact (cons.inj (h.eq_of_length rfl)).1.symm

/-- Only a chunk's texts lose a carriage return. -/
theorem map_stripCr_chunk (chunk : ChunkText) :
    chunk.render.map stripCr = (chunk.mapTexts stripCr).render := by
  have hContext : stripCr chunk.contextLine =
      (chunk.mapTexts stripCr).contextLine := by
    unfold ChunkText.contextLine ChunkText.mapTexts
    cases chunk.context with
    | none => rfl
    | some context => exact stripCr_append changeContextMarker (by decide)
  have hLines : (chunk.lines.map TaggedLine.render).map stripCr =
      (chunk.mapTexts stripCr).lines.map TaggedLine.render := by
    unfold ChunkText.mapTexts
    rw [map_map, map_map]
    refine map_congr_left fun line _ => stripCr_cons ?_
    cases line.tag <;> decide
  have hEof : (if chunk.endOfFile then [eofMarker] else []).map stripCr =
      if chunk.endOfFile then [eofMarker] else [] := by
    cases chunk.endOfFile <;> decide
  unfold ChunkText.render
  rw [map_cons, map_append, hContext, hLines, hEof]
  rfl

theorem map_stripCr_hunk (hHunk : hunk.Canonical) :
    hunk.render.map stripCr = (hunk.mapTexts stripCr).render := by
  cases hunk with
  | addFile path lines =>
    have hPath := hHunk.path_ok path mem_cons_self
    show stripCr (addFileMarker ++ path) :: (lines.map ('+' :: ·)).map stripCr =
      (addFileMarker ++ path) :: (lines.map stripCr).map ('+' :: ·)
    rw [stripCr_header hPath, map_map, map_map]
    exact congrArg _ (map_congr_left fun line _ => stripCr_cons (by decide))
  | deleteFile path =>
    have hPath := hHunk.path_ok path mem_cons_self
    show [stripCr (deleteFileMarker ++ path)] = [deleteFileMarker ++ path]
    rw [stripCr_header hPath]
  | updateFile path moveTo chunks =>
    have hPath := hHunk.path_ok path mem_cons_self
    have hMove : ((moveTo.map (moveToMarker ++ ·)).toList).map stripCr =
        (moveTo.map (moveToMarker ++ ·)).toList := by
      cases moveTo with
      | none => rfl
      | some target =>
        have hTarget := hHunk.path_ok target (by simp [paths])
        exact congrArg (fun line => [line]) (stripCr_header hTarget)
    have hChunks : (chunks.flatMap ChunkText.render).map stripCr =
        (chunks.map (ChunkText.mapTexts stripCr)).flatMap ChunkText.render := by
      rw [map_flatMap, flatMap_map]
      exact flatMap_congr fun chunk _ => map_stripCr_chunk chunk
    unfold mapTexts render
    rw [map_cons, map_append, stripCr_header hPath, hMove, hChunks]

theorem mapTexts_of_no_cr (h : ∀ t ∈ hunk.texts, ¬['\r'] <:+ t) :
    hunk.mapTexts stripCr = hunk := by
  cases hunk with
  | addFile path lines =>
    exact congrArg (HunkText.addFile path)
      ((map_congr_left fun line hLine => stripCr_of_not_suffix (h line hLine)).trans (map_id' lines))
  | deleteFile path => rfl
  | updateFile path moveTo chunks =>
    have hChunk : ∀ chunk ∈ chunks, chunk.mapTexts stripCr = chunk := by
      intro chunk hChunk
      have hTexts : ∀ t ∈ chunk.context.toList ++ chunk.lines.map TaggedLine.text, ¬['\r'] <:+ t :=
        fun t ht => h t (mem_flatMap.mpr ⟨chunk, hChunk, ht⟩)
      have hContext : chunk.context.map stripCr = chunk.context.map id := Option.map_congr fun t ht =>
        stripCr_of_not_suffix (hTexts t (mem_append_left _ (Option.mem_toList.mpr ht)))
      unfold ChunkText.mapTexts
      rw [hContext, Option.map_id, map_congr_left (g := id) fun line hLine => ?_, map_id]
      · rfl
      · rw [stripCr_of_not_suffix (hTexts line.text (mem_append_right _ (mem_map_of_mem hLine)))]
        rfl
    exact congrArg (updateFile path moveTo)
      ((map_congr_left hChunk).trans (map_id' chunks))

theorem texts_mapTexts (f : Text → Text) (hunk : HunkText) :
    (hunk.mapTexts f).texts = hunk.texts.map f := by
  cases hunk with
  | addFile _ _ | deleteFile _ => rfl
  | updateFile path moveTo chunks =>
    unfold mapTexts texts
    dsimp only
    rw [flatMap_map, map_flatMap]
    refine flatMap_congr fun chunk _ => ?_
    cases hContext : chunk.context <;> simp [ChunkText.mapTexts, hContext]

/-- A canonical hunk stays so. -/
theorem canonical_mapTexts (hHunk : hunk.Canonical) : (hunk.mapTexts stripCr).Canonical where
  path_ok := by cases hunk <;> exact hHunk.path_ok
  no_newline := by
    rw [texts_mapTexts]
    intro text hText
    obtain ⟨given, hGiven, rfl⟩ := mem_map.mp hText
    exact fun hMem => hHunk.no_newline given hGiven (mem_of_mem_stripCr hMem)
  lines_ne_nil := by
    cases hunk with
    | addFile | deleteFile => exact hHunk.lines_ne_nil
    | updateFile path moveTo chunks =>
      intro chunk hChunk
      obtain ⟨text, hText, rfl⟩ := mem_map.mp hChunk
      exact fun h => hHunk.lines_ne_nil text hText (map_eq_nil_iff.mp h)
  chunks_ne_nil path moveTo h := by
    cases hunk with
    | addFile | deleteFile => cases h
    | updateFile path moveTo chunks =>
      injection h with _ _ hChunks
      rw [map_eq_nil_iff] at hChunks
      exact hHunk.chunks_ne_nil path moveTo (by rw [hChunks])

/-! ## The whole text -/

theorem no_newline_append (marker : Text) (hMarker : '\n' ∉ marker) (hText : '\n' ∉ text) :
    '\n' ∉ marker ++ text := fun h => (mem_append.mp h).elim hMarker hText

theorem no_newline_chunk {chunk : ChunkText}
    (hTexts : ∀ t ∈ chunk.context.toList ++ chunk.lines.map TaggedLine.text, '\n' ∉ t) :
    ∀ line ∈ chunk.render, '\n' ∉ line := by
  intro line hLine
  rcases mem_cons.mp hLine with rfl | hLine
  · unfold ChunkText.contextLine
    cases hContext : chunk.context with
    | none => decide
    | some context =>
      exact no_newline_append _ (by decide) (hTexts context (by simp [hContext]))
  rcases mem_append.mp hLine with hLine | hLine
  · obtain ⟨tagged, hTagged, rfl⟩ := mem_map.mp hLine
    have hText := hTexts tagged.text (mem_append_right _ (mem_map_of_mem hTagged))
    refine no_newline_append [tagged.tag.char] ?_ hText
    cases tagged.tag <;> decide
  cases hEof : chunk.endOfFile with
  | false => simp [hEof] at hLine
  | true =>
    rw [hEof, if_pos rfl, mem_singleton] at hLine
    rw [hLine]
    decide

theorem no_newline_hunk (hHunk : hunk.Canonical) : ∀ line ∈ hunk.render, '\n' ∉ line := by
  intro line hLine
  cases hunk with
  | addFile path lines =>
    rcases mem_cons.mp hLine with rfl | hLine
    · exact no_newline_append _ (by decide) (hHunk.path_ok path mem_cons_self).no_newline
    · obtain ⟨added, hAdded, rfl⟩ := mem_map.mp hLine
      exact no_newline_append ['+'] (by decide) (hHunk.no_newline added hAdded)
  | deleteFile path =>
    rw [mem_singleton.mp hLine]
    exact no_newline_append _ (by decide) (hHunk.path_ok path mem_cons_self).no_newline
  | updateFile path moveTo chunks =>
    rcases mem_cons.mp hLine with rfl | hLine
    · exact no_newline_append _ (by decide) (hHunk.path_ok path mem_cons_self).no_newline
    rcases mem_append.mp hLine with hLine | hLine
    · obtain ⟨target, hTarget, rfl⟩ := Option.map_eq_some_iff.mp (Option.mem_toList.mp hLine)
      exact no_newline_append _ (by decide)
        (hHunk.path_ok target (mem_cons_of_mem _ (Option.mem_toList.mpr hTarget))).no_newline
    · obtain ⟨chunk, hChunk, hLine⟩ := mem_flatMap.mp hLine
      exact no_newline_chunk (fun t ht =>
        hHunk.no_newline t (mem_flatMap.mpr ⟨chunk, hChunk, ht⟩)) line hLine

section Patch

variable {patch : PatchText} (hPatch : patch.Canonical) (newline : Bool)
include hPatch

theorem no_newline_body : ∀ line ∈ patch.body, '\n' ∉ line := by
  intro line hLine
  rcases mem_append.mp hLine with hLine | hLine
  · obtain ⟨id, hId, rfl⟩ := Option.map_eq_some_iff.mp (Option.mem_toList.mp hLine)
    exact no_newline_append _ (by decide) (hPatch.environment_ok id hId).2.1
  · obtain ⟨hunk, hHunk, hLine⟩ := mem_flatMap.mp hLine
    exact no_newline_hunk (hPatch.hunk_ok hunk hHunk) line hLine

omit hPatch in
/-- Trimming takes the last newline and nothing else. -/
theorem trim_render : trim (patch.render newline) =
      join ['\n'] (beginPatchMarker :: (patch.body ++ [endPatchMarker])) := by
  obtain ⟨start, hStart⟩ :=
    join_append_singleton ['\n'] endPatchMarker (beginPatchMarker :: patch.body)
  rw [cons_append] at hStart
  have hHead : ∃ rest, join ['\n'] (beginPatchMarker :: (patch.body ++ [endPatchMarker])) =
      '*' :: rest := by
    unfold join
    rw [intercalate_cons_of_ne_nil (by simp)]
    exact ⟨_, rfl⟩
  obtain ⟨rest, hRest⟩ := hHead
  have hBlank : ∀ ch ∈ (if newline then ['\n'] else [] : Text), isWhitespace ch = true := by
    cases newline with
    | false => exact forall_mem_nil _
    | true => exact forall_mem_singleton.mpr rfl
  unfold PatchText.render
  rw [hRest, cons_append, trim_cons (by decide), ← cons_append,
    trimEnd_append_blank hBlank, ← hRest, hStart]
  exact trimEnd_append start (by decide) (by decide)

/-- The text is read as the body between its markers. -/
theorem lines_render : Text.lines (Text.trim (patch.render newline)) =
      beginPatchMarker :: (patch.body.map Text.stripCr ++ [endPatchMarker]) := by
  have hFront : ∀ l ∈ beginPatchMarker :: patch.body, '\n' ∉ l := by
    rw [forall_mem_cons]
    exact ⟨by decide, no_newline_body hPatch⟩
  rw [trim_render, ← cons_append, lines_join hFront (by decide) (by decide)]
  rfl

omit hPatch in
/-- The body is what stands between the markers. -/
theorem checkPatchBoundaries_body (body : List Text) :
    checkPatchBoundariesLenient (beginPatchMarker :: (body ++ [endPatchMarker])) =
      .ok (beginPatchMarker :: (body ++ [endPatchMarker]), body) := by
  have hLast : (beginPatchMarker :: (body ++ [endPatchMarker])).getLast? = some endPatchMarker := by
    rw [← cons_append, getLast?_concat]
  have hStrict : checkPatchBoundariesStrict (beginPatchMarker :: (body ++ [endPatchMarker])) =
      .ok (beginPatchMarker :: (body ++ [endPatchMarker]), body) := by
    unfold checkPatchBoundariesStrict
    rw [hLast, drop_one, tail_cons, dropLast_concat]
    rfl
  unfold checkPatchBoundariesLenient
  rw [hStrict]

theorem map_stripCr_body :
    patch.body.map stripCr = (patch.environmentId.map (environmentIdMarker ++ ·)).toList ++
      (patch.hunks.map (mapTexts stripCr)).flatMap render := by
  have hId : ((patch.environmentId.map (environmentIdMarker ++ ·)).toList).map stripCr =
      (patch.environmentId.map (environmentIdMarker ++ ·)).toList := by
    cases hEq : patch.environmentId with
    | none => rfl
    | some id =>
      obtain ⟨hNe, -, hTrim⟩ := hPatch.environment_ok id hEq
      exact congrArg (fun line => [line])
        (stripCr_of_trimEnd (trimEnd_append _ hNe (trimEnd_of_trim hTrim)))
  have hHunks : (patch.hunks.flatMap render).map stripCr =
      (patch.hunks.map (mapTexts stripCr)).flatMap render := by
    rw [map_flatMap, flatMap_map]
    exact flatMap_congr fun hunk hHunk => map_stripCr_hunk (hPatch.hunk_ok hunk hHunk)
  unfold PatchText.body
  rw [map_append, hId, hHunks]

/-- The preamble takes the environment line and no hunk. -/
theorem parsePreamble_body (hunks : List HunkText) : ∃ lineNumber, parseEnvironmentIdPreamble
        ((patch.environmentId.map (environmentIdMarker ++ ·)).toList ++
          hunks.flatMap render) =
      .ok (patch.environmentId, hunks.flatMap render, lineNumber) := by
  cases hEq : patch.environmentId with
  | none =>
    -- nothing in front of the hunks is taken for an environment line
    refine ⟨2, ?_⟩
    cases hunks with
    | nil => rfl
    | cons hunk hunks => cases hunk <;> rfl
  | some id =>
    obtain ⟨hNe, -, hTrim⟩ := hPatch.environment_ok id hEq
    refine ⟨3, ?_⟩
    have hStart : trimStart (environmentIdMarker ++ id) = environmentIdMarker ++ id :=
      trimStart_cons (by decide)
    unfold parseEnvironmentIdPreamble
    dsimp only [Option.map_some, Option.toList_some, cons_append]
    rw [hStart, stripPrefix_append]
    dsimp only
    rw [hTrim, if_neg hNe]
    rfl

theorem canonical_stripped :
    ∀ hunk ∈ patch.hunks.map (mapTexts stripCr), hunk.Canonical :=
  forall_mem_map.mpr fun hunk hHunk => canonical_mapTexts (hPatch.hunk_ok hunk hHunk)

/-- What the parser makes of a canonical patch: the lines lose a carriage return. -/
theorem parsePatch_render : ∃ args, parsePatch (patch.render newline) = .ok args ∧
      args.environmentId = patch.environmentId ∧
      args.hunks = patch.hunks.map fun hunk => (hunk.mapTexts stripCr).hunk := by
  obtain ⟨lineNumber, hPreamble⟩ :=
    parsePreamble_body hPatch (patch.hunks.map (mapTexts stripCr))
  obtain ⟨r', hReads, hClose⟩ := reads_hunks (K := fun _ => True) (r := ⟨[], .header⟩) rfl
    (canonical_stripped hPatch) fun _ _ _ _ _ _ => trivial
  have hOption : (parseHunks _ _ lineNumber []).toOption = _ :=
    parseHunks_eq_readAll lineNumber (le_refl
      ((patch.hunks.map (mapTexts stripCr)).flatMap render).length)
  rw [hReads.readAll_eq, hClose, map_map] at hOption
  have hHunks := eq_ok_of_toOption hOption
  refine ⟨⟨⟨join ['\n'] (beginPatchMarker :: (patch.body.map stripCr ++
      [endPatchMarker])), patch.hunks.map (HunkText.hunk ∘ mapTexts stripCr), none⟩,
    patch.environmentId⟩, ?_, rfl, rfl⟩
  · unfold parsePatch parsePatchText
    rw [lines_render hPatch, show parseInStrictMode = false from rfl]
    dsimp only
    rw [checkPatchBoundaries_body]
    show (parseEnvironmentIdPreamble (patch.body.map stripCr) >>= _) = _
    rw [map_stripCr_body hPatch, hPreamble]
    show (parseHunks _ _ lineNumber [] >>= _) = _
    rw [hHunks]
    rfl

/-- **`parse_patch` inverts the canonical rendering of a patch.** -/
theorem parse_patch_render (hNoCr : ∀ hunk ∈ patch.hunks, ∀ text ∈ hunk.texts, ¬['\r'] <:+ text)
    (newline : Bool) :
    ∃ args, parsePatch (patch.render newline) = .ok args ∧
      args.environmentId = patch.environmentId ∧ args.hunks = patch.hunks.map HunkText.hunk := by
  obtain ⟨args, hParse, hId, hHunks⟩ := parsePatch_render hPatch newline
  refine ⟨args, hParse, hId, hHunks.trans (map_congr_left fun hunk hHunk => ?_)⟩
  rw [mapTexts_of_no_cr (hNoCr hunk hHunk)]

end Patch

/-- A patch with one hunk of each kind. -/
def samplePatch : PatchText :=
  { environmentId := some "remote".toList
    hunks := [
      .addFile "new.txt".toList ["first".toList, []],
      .updateFile "src/a.rs".toList (some "src/b.rs".toList)
        [⟨some "fn main()".toList, [⟨.removed, "old".toList⟩, ⟨.added, "new".toList⟩], false⟩,
          ⟨none, [⟨.context, "  ".toList⟩], true⟩],
      .deleteFile "gone.txt".toList] }

theorem samplePatch_canonical : samplePatch.Canonical where
  hunk_ok := by
    unfold samplePatch
    rw [forall_mem_cons, forall_mem_cons, forall_mem_cons]
    refine ⟨⟨by decide, by decide, by decide, fun _ _ h => by cases h⟩,
      ⟨by decide, by decide, by decide, fun _ _ h => by cases h⟩,
      ⟨by decide, by decide, by decide, fun _ _ h => by cases h⟩, forall_mem_nil _⟩
  environment_ok := by
    intro id h
    cases h
    decide

theorem parse_patch_render_sample :
    ∃ args, parsePatch (samplePatch.render true) = .ok args ∧
      args.environmentId = some "remote".toList ∧
      args.hunks = samplePatch.hunks.map HunkText.hunk :=
  parse_patch_render samplePatch_canonical (by decide) true

end Codex.ApplyPatch
