import Codex.ApplyPatch.Verify

/-!
# Codex — the patch parser

`apply-patch/src/parser.rs`: a patch text is trimmed and cut into lines, the begin
and end markers are checked (a heredoc around them is tolerated), an optional
environment line is read, and the lines in between are consumed hunk by hunk. Every
consumer returns how many lines it took.

The two `while` loops take at least one line each time around, so they run with the
number of remaining lines as fuel.

Definitions only; `Codex.ApplyPatch.LineReader` shows what the consumers do line by
line.
-/

namespace Codex.ApplyPatch

open Text

def beginPatchMarker : Text := "*** Begin Patch".toList
def environmentIdMarker : Text := "*** Environment ID: ".toList
def endPatchMarker : Text := "*** End Patch".toList
def addFileMarker : Text := "*** Add File: ".toList
def deleteFileMarker : Text := "*** Delete File: ".toList
def updateFileMarker : Text := "*** Update File: ".toList
def moveToMarker : Text := "*** Move to: ".toList
def eofMarker : Text := "*** End of File".toList
def changeContextMarker : Text := "@@ ".toList
def emptyChangeContextMarker : Text := "@@".toList

inductive ParseError where
  | invalidPatchError (message : Text)
  | invalidHunkError (message : Text) (lineNumber : Nat)
  deriving DecidableEq, Repr

/-- `ApplyPatchArgs` with the environment that only the parser and its caller know. -/
structure ParsedPatchArgs extends ApplyPatchArgs where
  environmentId : Option Text

/-! ## Messages -/

def noLinesMessage : Text := "Update hunk does not contain any lines".toList

def emptyUpdateMessage (path : Text) : Text :=
  "Update file hunk for path '".toList ++ path ++ "' is empty".toList

def invalidHeaderMessage (line : Text) : Text :=
  "'".toList ++ line ++ "' is not a valid hunk header. Valid hunk headers: '*** Add File: \x7bpath\x7d', '*** Delete File: \x7bpath\x7d', '*** Update File: \x7bpath\x7d'".toList

def missingContextMessage (line : Text) : Text :=
  "Expected update hunk to start with a @@ context marker, got: '".toList ++ line ++ "'".toList

def unexpectedLineMessage (line : Text) : Text :=
  "Unexpected line found in update hunk: '".toList ++ line ++ "'. Every line should start with ' ' (context line), '+' (added line), or '-' (removed line)".toList

def firstLineMessage : Text := "The first line of the patch must be '*** Begin Patch'".toList

def lastLineMessage : Text := "The last line of the patch must be '*** End Patch'".toList

/-! ## Chunks -/

namespace UpdateFileChunk

def new (changeContext : Option Text) : UpdateFileChunk :=
  { changeContext, oldLines := [], newLines := [], isEndOfFile := false }

variable (chunk : UpdateFileChunk)

def pushContext (line : Text) : UpdateFileChunk :=
  { chunk with oldLines := chunk.oldLines ++ [line], newLines := chunk.newLines ++ [line] }

/-- A line of a chunk by its first character; an empty line is an empty context line. -/
def pushLine? : Text → Option UpdateFileChunk
  | [] => some (chunk.pushContext [])
  | ' ' :: line => some (chunk.pushContext line)
  | '+' :: line => some { chunk with newLines := chunk.newLines ++ [line] }
  | '-' :: line => some { chunk with oldLines := chunk.oldLines ++ [line] }
  | _ => none

/-- Neither old nor new lines. -/
def hasNoLines : Bool :=
  chunk.oldLines.isEmpty && chunk.newLines.isEmpty

end UpdateFileChunk

/-- The context of a chunk, and how many lines it takes. -/
def chunkStart (first : Text) (lineNumber : Nat) (allowMissingContext : Bool) :
    Except ParseError (Option Text × Nat) :=
  if first = emptyChangeContextMarker then .ok (none, 1)
  else match stripPrefix? changeContextMarker first with
    | some context => .ok (some context, 1)
    | none =>
      if allowMissingContext then .ok (none, 0)
      else .error (.invalidHunkError (missingContextMessage first) lineNumber)

/-- The `for` loop of `parse_update_file_chunk`. -/
def chunkLines (lineNumber : Nat) (chunk : UpdateFileChunk) (parsedLines : Nat) :
    List Text → Except ParseError (UpdateFileChunk × Nat)
  | [] => .ok (chunk, parsedLines)
  | line :: rest =>
    if line = eofMarker then
      if parsedLines = 0 then .error (.invalidHunkError noLinesMessage (lineNumber + 1))
      else .ok ({ chunk with isEndOfFile := true }, parsedLines + 1)
    else match chunk.pushLine? line with
      | some chunk => chunkLines lineNumber chunk (parsedLines + 1) rest
      | none =>
        if parsedLines = 0 then
          .error (.invalidHunkError (unexpectedLineMessage line) (lineNumber + 1))
        else .ok (chunk, parsedLines)

/-- `parse_update_file_chunk` once the context is known. -/
def chunkAfterContext (lines : List Text) (lineNumber : Nat) (changeContext : Option Text)
    (startIndex : Nat) : Except ParseError (UpdateFileChunk × Nat) :=
  if startIndex ≥ lines.length then
    .error (.invalidHunkError noLinesMessage (lineNumber + 1))
  else do
    let (chunk, parsedLines) ←
      chunkLines lineNumber (.new changeContext) 0 (lines.drop startIndex)
    .ok (chunk, parsedLines + startIndex)

def parseUpdateFileChunk (lines : List Text) (lineNumber : Nat) (allowMissingContext : Bool) :
    Except ParseError (UpdateFileChunk × Nat) :=
  match lines with
  | [] => .error (.invalidHunkError noLinesMessage lineNumber)
  | first :: _ => do
    let (changeContext, startIndex) ← chunkStart first lineNumber allowMissingContext
    chunkAfterContext lines lineNumber changeContext startIndex

/-! ## Hunks -/

/-- The `for` loop over the lines of an added file: its contents and their number. -/
def addFileLines : List Text → Text × Nat
  | [] => ([], 0)
  | line :: rest =>
    match stripPrefix? ['+'] line with
    | some lineToAdd =>
      let (contents, parsedLines) := addFileLines rest
      (lineToAdd ++ '\n' :: contents, parsedLines + 1)
    | none => ([], 0)

/-- The `while` loop over the chunks of an updated file. -/
def updateFileChunks (lineNumber : Nat) :
    Nat → List Text → Nat → List UpdateFileChunk → Except ParseError (List UpdateFileChunk × Nat)
  | _, [], parsedLines, chunks => .ok (chunks, parsedLines)
  | 0, _ :: _, parsedLines, chunks => .ok (chunks, parsedLines)
  | fuel + 1, line :: rest, parsedLines, chunks =>
    if trim line = [] then updateFileChunks lineNumber fuel rest (parsedLines + 1) chunks
    else if startsWith ['*'] line then .ok (chunks, parsedLines)
    else do
      let (chunk, chunkLines) ←
        parseUpdateFileChunk (line :: rest) (lineNumber + parsedLines) chunks.isEmpty
      updateFileChunks lineNumber fuel ((line :: rest).drop chunkLines)
        (parsedLines + chunkLines) (chunks ++ [chunk])

/-- `parse_one_hunk`, on a slice that is not empty. -/
def parseOneHunk (first : Text) (rest : List Text) (lineNumber : Nat) :
    Except ParseError (Hunk × Nat) :=
  let firstLine := trim first
  match stripPrefix? addFileMarker firstLine with
  | some path =>
    let (contents, parsedLines) := addFileLines rest
    .ok (.addFile (.ofText path) contents, 1 + parsedLines)
  | none =>
  match stripPrefix? deleteFileMarker firstLine with
  | some path => .ok (.deleteFile (.ofText path), 1)
  | none =>
  match stripPrefix? updateFileMarker firstLine with
  | some path => do
    let movePath := rest.head?.bind (stripPrefix? moveToMarker)
    let moveLines := if movePath.isSome then 1 else 0
    let remainingLines := rest.drop moveLines
    let (chunks, parsedLines) ←
      updateFileChunks lineNumber remainingLines.length remainingLines (1 + moveLines) []
    if chunks.isEmpty then .error (.invalidHunkError (emptyUpdateMessage path) lineNumber)
    else .ok (.updateFile (.ofText path) (movePath.map .ofText) chunks, parsedLines)
  | none => .error (.invalidHunkError (invalidHeaderMessage firstLine) lineNumber)

/-- The `while` loop over the hunks. -/
def parseHunks : Nat → List Text → Nat → List Hunk → Except ParseError (List Hunk)
  | _, [], _, hunks => .ok hunks
  | 0, _ :: _, _, hunks => .ok hunks
  | fuel + 1, first :: rest, lineNumber, hunks => do
    let (hunk, hunkLines) ← parseOneHunk first rest lineNumber
    parseHunks fuel ((first :: rest).drop hunkLines) (lineNumber + hunkLines) (hunks ++ [hunk])

/-! ## Patches -/

def parseEnvironmentIdPreamble (hunkLines : List Text) :
    Except ParseError (Option Text × List Text × Nat) :=
  match hunkLines with
  | [] => .ok (none, hunkLines, 2)
  | firstLine :: rest =>
    match stripPrefix? environmentIdMarker (trimStart firstLine) with
    | none => .ok (none, hunkLines, 2)
    | some environmentId =>
      let environmentId := trim environmentId
      if environmentId = [] then
        .error (.invalidPatchError "apply_patch environment_id cannot be empty".toList)
      else .ok (some environmentId, rest, 3)

def checkStartAndEndLinesStrict (firstLine lastLine : Option Text) : Except ParseError Unit :=
  let firstLine := firstLine.map trim
  let lastLine := lastLine.map trim
  if firstLine = some beginPatchMarker ∧ lastLine = some endPatchMarker then .ok ()
  else if firstLine.isSome && firstLine ≠ some beginPatchMarker then
    .error (.invalidPatchError firstLineMessage)
  else .error (.invalidPatchError lastLineMessage)

/-- All lines of the patch, and those between the markers. -/
def checkPatchBoundariesStrict (lines : List Text) : Except ParseError (List Text × List Text) := do
  checkStartAndEndLinesStrict lines.head? lines.getLast?
  .ok (lines, (lines.drop 1).dropLast)

def checkPatchBoundariesLenient (originalLines : List Text) :
    Except ParseError (List Text × List Text) :=
  match checkPatchBoundariesStrict originalLines with
  | .ok lines => .ok lines
  | .error originalParseError =>
    if (originalLines.head?.any fun first =>
          first = "<<EOF".toList || first = "<<'EOF'".toList || first = "<<\"EOF\"".toList) &&
        (originalLines.getLast?.any fun last => endsWith "EOF".toList last) &&
        originalLines.length ≥ 4 then
      checkPatchBoundariesStrict (originalLines.drop 1).dropLast
    else .error originalParseError

inductive ParseMode where
  | strict
  | lenient
  deriving DecidableEq, Repr

def parseInStrictMode : Bool := false

def parsePatchText (patch : Text) (mode : ParseMode) : Except ParseError ParsedPatchArgs := do
  let lines := lines (trim patch)
  let (patchLines, hunkLines) ←
    match mode with
    | .strict => checkPatchBoundariesStrict lines
    | .lenient => checkPatchBoundariesLenient lines
  let (environmentId, remainingLines, lineNumber) ← parseEnvironmentIdPreamble hunkLines
  let hunks ← parseHunks remainingLines.length remainingLines lineNumber []
  .ok { hunks, patch := join ['\n'] patchLines, workdir := none, environmentId }

def parsePatch (patch : Text) : Except ParseError ParsedPatchArgs :=
  parsePatchText patch (if parseInStrictMode then .strict else .lenient)

end Codex.ApplyPatch
