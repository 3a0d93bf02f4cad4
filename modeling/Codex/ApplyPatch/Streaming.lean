import Codex.ApplyPatch.Parser

/-!
# Codex — the streaming patch parser

`apply-patch/src/streaming_parser.rs`: the parser behind the live preview of a patch.
It is fed deltas, processes a line at each newline, and after every delta shows the
hunks it has so far. It is a state machine of its own and shares only the markers,
the messages and the hunk types with the parser of the final text.

A call that fails gives only its error: nothing is modelled of the parser after it.
An error message about an empty hunk shows the path in its normalized form.
-/

namespace Codex.ApplyPatch

open Text

inductive StreamingParserMode where
  | notStarted
  | startedPatch
  | addFile
  | deleteFile
  | updateFile (hunkLineNumber : Nat)
  | endedPatch
  deriving DecidableEq, Repr

structure StreamingPatchParser where
  lineBuffer : Text
  mode : StreamingParserMode
  hunks : List Hunk
  lineNumber : Nat
  deriving DecidableEq, Repr

/-- A chunk with neither old nor new lines stands last. -/
def lastChunkHasNoLines (chunks : List UpdateFileChunk) : Bool :=
  chunks.getLast?.any UpdateFileChunk.hasNoLines

/-- Adds a line to the last chunk, or to a new one without context. -/
def pushChunkLine? (chunks : List UpdateFileChunk) (line : Text) : Option (List UpdateFileChunk) :=
  match chunks.getLast? with
  | none => ((UpdateFileChunk.new none).pushLine? line).map ([·])
  | some chunk => (chunk.pushLine? line).map (chunks.dropLast ++ [·])

namespace StreamingPatchParser

/-- `StreamingPatchParser::default`. -/
def new : StreamingPatchParser :=
  { lineBuffer := [], mode := .notStarted, hunks := [], lineNumber := 0 }

def isEnvironmentIdPreambleLine (line : Text) : Bool := startsWith environmentIdMarker line

variable (parser : StreamingPatchParser)

def ensureUpdateHunkIsNotEmpty (line : Text) : Except ParseError Unit :=
  match parser.hunks.getLast?, parser.mode with
  | some (.updateFile path _ []), .updateFile hunkLineNumber =>
    .error (.invalidHunkError (emptyUpdateMessage path.display) hunkLineNumber)
  | some (.updateFile _ _ chunks), _ =>
    if lastChunkHasNoLines chunks then
      .error (.invalidHunkError
        (if line = endPatchMarker then noLinesMessage else unexpectedLineMessage line)
        parser.lineNumber)
    else .ok ()
  | _, _ => .ok ()

/-- `none` when the line is neither a hunk header nor the end of the patch. -/
def handleHunkHeadersAndEndPatch (trimmed : Text) :
    Except ParseError (Option StreamingPatchParser) :=
  let enter (mode : StreamingParserMode) (hunk : List Hunk) :
      Except ParseError (Option StreamingPatchParser) := do
    parser.ensureUpdateHunkIsNotEmpty trimmed
    .ok (some { parser with mode, hunks := parser.hunks ++ hunk })
  if trimmed = endPatchMarker then enter .endedPatch []
  else
  match stripPrefix? addFileMarker trimmed with
  | some path => enter .addFile [.addFile (.ofText path) []]
  | none =>
  match stripPrefix? deleteFileMarker trimmed with
  | some path => enter .deleteFile [.deleteFile (.ofText path)]
  | none =>
  match stripPrefix? updateFileMarker trimmed with
  | some path => enter (.updateFile parser.lineNumber) [.updateFile (.ofText path) none []]
  | none => .ok none

/-- What an update makes of a line that is no header: its move path and chunks. -/
def processUpdateLine (movePath : Option PathBuf) (chunks : List UpdateFileChunk)
    (line : Text) (lineNumber : Nat) : Except ParseError (Option PathBuf × List UpdateFileChunk) :=
  let updateLine := trimEnd line
  match if chunks.isEmpty && movePath.isNone then stripPrefix? moveToMarker updateLine
      else none with
  | some moveToPath => .ok (some (.ofText moveToPath), chunks)
  | none =>
    if (updateLine = emptyChangeContextMarker ∨
        startsWith changeContextMarker updateLine = true) ∧
        lastChunkHasNoLines chunks = true then
      .error (.invalidHunkError (unexpectedLineMessage line) lineNumber)
    else if updateLine = emptyChangeContextMarker then .ok (movePath, chunks ++ [.new none])
    else match stripPrefix? changeContextMarker updateLine with
    | some changeContext => .ok (movePath, chunks ++ [.new (some changeContext)])
    | none =>
      if updateLine = eofMarker then
        if lastChunkHasNoLines chunks then .error (.invalidHunkError noLinesMessage lineNumber)
        else
          .ok (movePath, match chunks.getLast? with
            | some chunk => chunks.dropLast ++ [{ chunk with isEndOfFile := true }]
            | none => chunks)
      else match pushChunkLine? chunks line with
      | some chunks => .ok (movePath, chunks)
      | none =>
        if chunks.getLast?.any fun chunk => !chunk.hasNoLines then
          .error (.invalidHunkError (missingContextMessage line) lineNumber)
        else .error (.invalidHunkError (unexpectedLineMessage line) lineNumber)

def processLine (line : Text) : Except ParseError StreamingPatchParser :=
  let trimmed := trim line
  let invalidHeader : Except ParseError StreamingPatchParser :=
    .error (.invalidHunkError (invalidHeaderMessage trimmed) parser.lineNumber)
  match parser.mode with
  | .notStarted =>
    if trimmed = beginPatchMarker then .ok { parser with mode := .startedPatch }
    else .error (.invalidPatchError firstLineMessage)
  | .startedPatch =>
    if isEnvironmentIdPreambleLine line then .ok parser
    else do
      match ← parser.handleHunkHeadersAndEndPatch trimmed with
      | some next => .ok next
      | none => invalidHeader
  | .addFile => do
    match ← parser.handleHunkHeadersAndEndPatch trimmed with
    | some next => .ok next
    | none =>
      match stripPrefix? ['+'] line, parser.hunks.getLast? with
      | some lineToAdd, some (.addFile path contents) =>
        .ok { parser with
          hunks := parser.hunks.dropLast ++ [.addFile path (contents ++ (lineToAdd ++ ['\n']))] }
      | _, _ => invalidHeader
  | .deleteFile => do
    match ← parser.handleHunkHeadersAndEndPatch trimmed with
    | some next => .ok next
    | none => invalidHeader
  | .updateFile _ => do
    match ← parser.handleHunkHeadersAndEndPatch (trimEnd line) with
    | some next => .ok next
    | none =>
      match parser.hunks.getLast? with
      | some (.updateFile path movePath chunks) =>
        let (movePath, chunks) ← processUpdateLine movePath chunks line parser.lineNumber
        .ok { parser with hunks := parser.hunks.dropLast ++ [.updateFile path movePath chunks] }
      | _ => .error (.invalidHunkError (unexpectedLineMessage line) parser.lineNumber)
  | .endedPatch => .ok parser

/-- The line of the buffer, when a newline ends it. -/
def endLine : Except ParseError StreamingPatchParser :=
  processLine { parser with lineBuffer := [], lineNumber := parser.lineNumber + 1 }
    (stripCr parser.lineBuffer)

def pushChar (ch : Char) : Except ParseError StreamingPatchParser :=
  if ch = '\n' then parser.endLine
  else .ok { parser with lineBuffer := parser.lineBuffer ++ [ch] }

/-- `push_delta`; the hunks it returns are those of the parser it leaves. -/
def pushDelta (delta : Text) : Except ParseError StreamingPatchParser :=
  delta.foldlM pushChar parser

/-- The line of the buffer, when the text ends with it. -/
def finishLine : Except ParseError StreamingPatchParser :=
  if parser.lineBuffer = [] then .ok parser
  else
    let line := parser.lineBuffer
    let parser := { parser with lineBuffer := [], lineNumber := parser.lineNumber + 1 }
    if trim line = endPatchMarker then do
      parser.ensureUpdateHunkIsNotEmpty (trim line)
      .ok { parser with mode := .endedPatch }
    else parser.processLine line

def finish : Except ParseError (List Hunk) := do
  let parser ← parser.finishLine
  if parser.mode = .endedPatch then .ok parser.hunks
  else .error (.invalidPatchError lastLineMessage)

/-- The hunks shown after each of the deltas, and the parser after them. -/
def pushDeltas (parser : StreamingPatchParser) :
    List Text → Except ParseError (List (List Hunk) × StreamingPatchParser)
  | [] => .ok ([], parser)
  | delta :: deltas => do
    let next ← parser.pushDelta delta
    let (shown, last) ← next.pushDeltas deltas
    .ok (next.hunks :: shown, last)

end StreamingPatchParser

end Codex.ApplyPatch
