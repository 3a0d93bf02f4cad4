import Codex.Std.Path
import Codex.Std.Result
import Codex.Lib.Splice
import Mathlib.Data.List.Sort

/-!
# Codex — patch hunks and replacements

The patch types of `apply-patch/src/parser.rs`, the line search of
`seek_sequence.rs`, and the computation of new file contents in
`apply-patch/src/lib.rs`. A line is a `Text`, a file a list of lines.

A scheduled replacement `(start_index, old_len, new_lines)` is a `Splice.Edit`.
The four passes of the search differ only in how both sides are normalised
before they are compared, so they are one `seekPass` with a parameter.
-/

namespace Codex.ApplyPatch

open Text

structure UpdateFileChunk where
  changeContext : Option Text
  oldLines : List Text
  newLines : List Text
  isEndOfFile : Bool
  deriving DecidableEq, Repr

inductive Hunk where
  | addFile (path : PathBuf) (contents : Text)
  | deleteFile (path : PathBuf)
  | updateFile (path : PathBuf) (movePath : Option PathBuf) (chunks : List UpdateFileChunk)
  deriving DecidableEq, Repr

namespace Hunk

/-- `Hunk::path`: the path affected, the destination for a move. -/
def path : Hunk → PathBuf
  | .addFile path _ | .deleteFile path | .updateFile path none _ => path
  | .updateFile _ (some movePath) _ => movePath

/-- `Hunk::resolve_path`: the path the hunk reads, also for a move. -/
def resolvePath (env : PathEnv) (cwd : AbsolutePathBuf) : Hunk → AbsolutePathBuf
  | .updateFile path _ _ => AbsolutePathBuf.resolvePathAgainstBase env path cwd
  | hunk => AbsolutePathBuf.resolvePathAgainstBase env hunk.path cwd

end Hunk

/-- The kinds of I/O errors the code tells apart. -/
inductive IoErrorKind where
  | notFound
  | invalidInput
  | other
  deriving DecidableEq, Repr

inductive ApplyPatchError where
  | ioError (context : Text) (source : IoErrorKind)
  | computeReplacements (message : Text)
  /-- An `anyhow` message without a source. -/
  | message (text : Text)
  deriving DecidableEq, Repr

/-! ## Searching for lines -/

/-- The punctuation table of the most permissive pass. -/
def normaliseChar (c : Char) : Char :=
  let n := c.toNat
  if (0x2010 ≤ n && n ≤ 0x2015) || n == 0x2212 then '-'
  else if 0x2018 ≤ n && n ≤ 0x201B then '\''
  else if 0x201C ≤ n && n ≤ 0x201F then '"'
  else if n == 0xA0 || (0x2002 ≤ n && n ≤ 0x200A) || n == 0x202F || n == 0x205F || n == 0x3000 then
    ' '
  else c

def normalise (line : Text) : Text := (trim line).map normaliseChar

def matchesAt (norm : Text → Text) (lines pattern : List Text) (i : Nat) : Bool :=
  ((lines.drop i).take pattern.length).map norm == pattern.map norm

/-- One pass over the start positions `searchStart..=lines.len() - pattern.len()`. -/
def seekPass (norm : Text → Text) (lines pattern : List Text) (searchStart : Nat) : Option Nat :=
  (List.range' searchStart (lines.length - pattern.length + 1 - searchStart)).find?
    (matchesAt norm lines pattern)

def seekSequence (lines pattern : List Text) (start : Nat) (eof : Bool) : Option Nat :=
  if pattern = [] then some start
  else if pattern.length > lines.length then none
  else
    let searchStart := if eof then lines.length - pattern.length else start
    [id, trimEnd, trim, normalise].findSome? fun norm =>
      seekPass norm lines pattern searchStart

/-! ## Computing and applying replacements -/

abbrev Replacement := Splice.Edit Text

/-- The variables of the chunk loop. -/
structure ChunkLoop where
  replacements : List Replacement
  lineIndex : Nat
  deriving DecidableEq, Repr

variable (lines : List Text) (path : AbsolutePathBuf)

/-- The `change_context` step: where the search for a chunk starts. -/
def seekContext (chunk : UpdateFileChunk) (lineIndex : Nat) : Except ApplyPatchError Nat :=
  match chunk.changeContext with
  | none => .ok lineIndex
  | some ctxLine =>
    match seekSequence lines [ctxLine] lineIndex false with
    | some idx => .ok (idx + 1)
    | none =>
      .error (.computeReplacements
        ("Failed to find context '".toList ++ ctxLine ++ "' in ".toList ++ path.display))

/-- Where a chunk without old lines goes: before a final empty line, or at the end. -/
def insertionIdx : Nat :=
  if lines.getLast? = some [] then lines.length - 1 else lines.length

/-- The region a chunk replaces. A pattern that ends in an empty line is tried
again without it. -/
def locateOldLines (chunk : UpdateFileChunk) (lineIndex : Nat) : Option Replacement :=
  match seekSequence lines chunk.oldLines lineIndex chunk.isEndOfFile with
  | some startIdx => some ⟨startIdx, chunk.oldLines.length, chunk.newLines⟩
  | none =>
    if chunk.oldLines.getLast? = some [] then
      let pattern := chunk.oldLines.dropLast
      let newSlice :=
        if chunk.newLines.getLast? = some [] then chunk.newLines.dropLast else chunk.newLines
      (seekSequence lines pattern lineIndex chunk.isEndOfFile).map fun startIdx =>
        ⟨startIdx, pattern.length, newSlice⟩
    else none

/-- One iteration of `compute_replacements`. -/
def scheduleChunk (loop : ChunkLoop)
    (chunk : UpdateFileChunk) : Except ApplyPatchError ChunkLoop := do
  let lineIndex ← seekContext lines path chunk loop.lineIndex
  if chunk.oldLines = [] then
    return { replacements := loop.replacements ++ [⟨insertionIdx lines, 0, chunk.newLines⟩]
             lineIndex }
  else
    match locateOldLines lines chunk lineIndex with
    | some r =>
      return { replacements := loop.replacements ++ [r], lineIndex := r.start + r.oldLen }
    | none =>
      .error (.computeReplacements ("Failed to find expected lines in ".toList ++ path.display ++
        ":\n".toList ++ join ['\n'] chunk.oldLines))

def scheduleChunks (lines : List Text) (path : AbsolutePathBuf) :
    ChunkLoop → List UpdateFileChunk → Except ApplyPatchError ChunkLoop
  | loop, [] => .ok loop
  | loop, chunk :: chunks => do
    let loop ← scheduleChunk lines path loop chunk
    scheduleChunks lines path loop chunks

/-- `compute_replacements`; `sort_by_key` is stable, as `insertionSort` is. -/
def computeReplacements
    (chunks : List UpdateFileChunk) : Except ApplyPatchError (List Replacement) := do
  let loop ← scheduleChunks lines path { replacements := [], lineIndex := 0 } chunks
  return loop.replacements.insertionSort fun a b => a.start ≤ b.start

/-- `apply_replacements`: the last replacement first, line by line. -/
def applyReplacements (replacements : List Replacement) : List Text :=
  replacements.foldr
    (fun r lines => Splice.insertMany r.start r.new (Splice.eraseMany r.start r.oldLen lines)) lines

/-! ## New file contents -/

/-- The lines of a file, without the empty one after a final newline. -/
def originalLines (contents : Text) : List Text :=
  let lines := split '\n' contents
  if lines.getLast? = some [] then lines.dropLast else lines

/-- `derive_new_contents_from_chunks`, after the file was read. -/
def deriveNewContents (chunks : List UpdateFileChunk)
    (originalContents : Text) : Except ApplyPatchError Text := do
  let lines := originalLines originalContents
  let replacements ← computeReplacements lines path chunks
  let newLines := applyReplacements lines replacements
  let newLines := if newLines.getLast? = some [] then newLines else newLines ++ [[]]
  return join ['\n'] newLines

end Codex.ApplyPatch
