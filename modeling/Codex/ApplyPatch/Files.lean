import Codex.ApplyPatch.Definitions
import Codex.Lib.Effect

/-!
# Codex — applying hunks to files

`apply_hunks_to_files` of `apply-patch/src/lib.rs` over a file system that is a
map from absolute paths to regular text files.

Every call of the executor takes one tick of a clock, and a fault may be scheduled
for any tick. A read, a metadata lookup or a remove that faults changes nothing
and is never reported as a missing file. A write that faults leaves anything at
its path. `touched` lists the paths that were written, successfully or not, or
removed; it is not part of the program.
-/

namespace Codex.ApplyPatch

open Effect

abbrev Files := AbsolutePathBuf → Option Text

inductive AppliedPatchFileChange where
  | add (content : Text) (overwrittenContent : Option Text)
  | delete (content : Text)
  | update (movePath : Option AbsolutePathBuf) (oldContent : Text)
      (overwrittenMoveContent : Option Text) (newContent : Text)
  deriving DecidableEq, Repr

structure AppliedPatchChange where
  path : AbsolutePathBuf
  change : AppliedPatchFileChange
  deriving DecidableEq, Repr

structure AppliedPatchDelta where
  changes : List AppliedPatchChange
  isExact : Bool
  deriving DecidableEq, Repr

structure AffectedPaths where
  added : List PathBuf
  modified : List PathBuf
  deleted : List PathBuf
  deriving DecidableEq, Repr

/-- What goes wrong with a call: the error it reports and, for a write, what it leaves. -/
structure Fault where
  kind : IoErrorKind
  leftover : Option Text → Option Text

abbrev Faults := Nat → Option Fault

structure PatchState where
  files : Files
  clock : Nat
  touched : List AbsolutePathBuf
  delta : AppliedPatchDelta

abbrev Exec (ε α : Type) := Eff PatchState ε α

/-! ## The executor file system -/

structure FileMetadata where
  isDirectory : Bool
  isFile : Bool
  isSymlink : Bool

/-- A read that does not fault. -/
def readFile (files : Files) (path : AbsolutePathBuf) : Except IoErrorKind Text :=
  match files path with
  | some content => .ok content
  | none => .error .notFound

section Executor

variable (faults : Faults)

/-- One call: the clock ticks, and a scheduled fault replaces the action. -/
def call {α : Type} (act : Exec IoErrorKind α) (onFault : Fault → Exec IoErrorKind α) :
    Exec IoErrorKind α := fun s =>
  match faults s.clock with
  | none => act { s with clock := s.clock + 1 }
  | some fault => onFault fault { s with clock := s.clock + 1 }

variable (path : AbsolutePathBuf)

def readFileText : Exec IoErrorKind Text :=
  call faults (fun s => (readFile s.files path, s)) fun _ => Eff.fail .other

def getMetadata : Exec IoErrorKind FileMetadata :=
  call faults
    (fun s => ((readFile s.files path).map fun _ => ⟨false, true, false⟩, s))
    fun _ => Eff.fail .other

/-- What a write leaves at its path. -/
def PatchState.store (content : Option Text) (s : PatchState) : PatchState :=
  { s with files := Function.update s.files path content, touched := s.touched ++ [path] }

def writeFile (contents : Text) : Exec IoErrorKind Unit :=
  call faults (Eff.modify (PatchState.store path (some contents))) fun fault s =>
    (.error fault.kind, s.store path (fault.leftover (s.files path)))

def remove : Exec IoErrorKind Unit :=
  call faults
    (fun s => match s.files path with
      | some _ => (.ok (), s.store path none)
      | none => (.error .notFound, s))
    fun _ => Eff.fail .other

def createDirectory (_path : AbsolutePathBuf) : Exec IoErrorKind Unit :=
  call faults (pure ()) fun fault => Eff.fail fault.kind

/-! ## Helpers of `apply_hunks_to_files` -/

def markInexact {ε : Type} : Exec ε Unit :=
  Eff.modify fun s => { s with delta := { s.delta with isExact := false } }

def markInexactIf {ε : Type} (unknown : Bool) : Exec ε Unit :=
  if unknown then markInexact else pure ()

def pushChange {ε : Type} (change : AppliedPatchChange) : Exec ε Unit :=
  Eff.modify fun s => { s with delta := { s.delta with changes := s.delta.changes ++ [change] } }

/-- `delta.changes[index] = change`. -/
def setChange {ε : Type} (index : Nat) (change : AppliedPatchChange) : Exec ε Unit :=
  Eff.modify fun s =>
    { s with delta := { s.delta with changes := s.delta.changes.set index change } }

def withContext {α : Type} (context : Text) (m : Exec IoErrorKind α) : Exec ApplyPatchError α :=
  Eff.mapError (ApplyPatchError.ioError context) m

/-- The `try_write!` of the source. -/
def tryWrite {α : Type} (m : Exec ApplyPatchError α) : Exec ApplyPatchError α := do
  match ← Eff.attempt m with
  | .ok value => pure value
  | .error error =>
    markInexact
    Eff.fail error

def ensureNotDirectory : Exec IoErrorKind Unit := do
  let metadata ← getMetadata faults path
  if metadata.isDirectory then Eff.fail .invalidInput else pure ()

def removeFailureWasSideEffectFree {ε : Type} (path : AbsolutePathBuf)
    (expectedContent : Option Text) : Exec ε Bool :=
  match expectedContent with
  | some expected => do
    let content ← Eff.attempt (readFileText faults path)
    pure (content.toOption == some expected)
  | none => pure false

def noteExistingPathDeltaSupport {ε : Type} (path : AbsolutePathBuf) : Exec ε Unit := do
  match ← Eff.attempt (getMetadata faults path) with
  | .ok metadata => if metadata.isFile && !metadata.isSymlink then pure () else markInexact
  | .error .notFound => pure ()
  | .error _ => markInexact

def readOptionalFileTextForDelta {ε : Type} (path : AbsolutePathBuf) : Exec ε (Option Text) := do
  noteExistingPathDeltaSupport faults path
  match ← Eff.attempt (readFileText faults path) with
  | .ok content => pure (some content)
  | .error .notFound => pure none
  | .error _ =>
    markInexact
    pure none

def writeFileWithMissingParentRetry (contents : Text) : Exec ApplyPatchError Unit := do
  match ← Eff.attempt (writeFile faults path contents) with
  | .ok () => pure ()
  | .error .notFound =>
    match path.parent with
    | some parent =>
      withContext ("Failed to create parent directories for ".toList ++ path.display)
        (createDirectory faults parent)
    | none => pure ()
    withContext ("Failed to write file ".toList ++ path.display) (writeFile faults path contents)
  | .error kind => Eff.fail (.ioError ("Failed to write file ".toList ++ path.display) kind)

/-- `derive_new_contents_from_chunks`: the original and the new contents. -/
def deriveNewContentsFromChunks (chunks : List UpdateFileChunk) :
    Exec ApplyPatchError (Text × Text) := do
  let originalContents ←
    withContext ("Failed to read file to update ".toList ++ path.display) (readFileText faults path)
  match deriveNewContents path chunks originalContents with
  | .ok newContents => pure (originalContents, newContents)
  | .error error => Eff.fail error

/-- Removes a file that must not be a directory; a remove that fails is checked for
side effects before its error is returned. -/
def removeFile (context : Text) (path : AbsolutePathBuf) (expectedContent : Option Text) :
    Exec ApplyPatchError Unit := do
  withContext (context ++ path.display) (ensureNotDirectory faults path)
  match ← Eff.attempt (remove faults path) with
  | .ok () => pure ()
  | .error kind =>
    let sideEffectFree ← removeFailureWasSideEffectFree faults path expectedContent
    Eff.modify fun s =>
      { s with delta := { s.delta with isExact := s.delta.isExact && sideEffectFree } }
    Eff.fail (.ioError (context ++ path.display) kind)

/-! ## The hunks -/

/-- The `Hunk::AddFile` arm. -/
def addFile (contents : Text) : Exec ApplyPatchError Unit := do
  let overwrittenContent ← readOptionalFileTextForDelta faults path
  tryWrite (writeFileWithMissingParentRetry faults path contents)
  pushChange ⟨path, .add contents overwrittenContent⟩

/-- The `Hunk::DeleteFile` arm. -/
def deleteFile : Exec ApplyPatchError Unit := do
  noteExistingPathDeltaSupport faults path
  let read ← Eff.attempt (readFileText faults path)
  let deletedContent := read.toOption
  markInexactIf deletedContent.isNone
  removeFile faults "Failed to delete file ".toList path deletedContent
  match deletedContent with
  | some content => pushChange ⟨path, .delete content⟩
  | none => pure ()

/-- What the `Hunk::UpdateFile` arm reads before it writes anything. -/
def planUpdate (chunks : List UpdateFileChunk) : Exec ApplyPatchError (Text × Text) := do
  noteExistingPathDeltaSupport faults path
  deriveNewContentsFromChunks faults path chunks

/-- The `Hunk::UpdateFile` arm with a destination. The write is logged as an addition
until the source is gone. -/
def moveFile (path dest : AbsolutePathBuf) (originalContents newContents : Text) :
    Exec ApplyPatchError Unit := do
  let overwrittenMoveContent ← readOptionalFileTextForDelta faults dest
  tryWrite (writeFileWithMissingParentRetry faults dest newContents)
  let destWriteChangeIndex ← Eff.gets fun s => s.delta.changes.length
  pushChange ⟨dest, .add newContents overwrittenMoveContent⟩
  removeFile faults "Failed to remove original ".toList path (some originalContents)
  setChange destWriteChangeIndex
    ⟨path, .update (some dest) originalContents overwrittenMoveContent newContents⟩

/-- The `Hunk::UpdateFile` arm without a destination. -/
def rewriteFile (originalContents newContents : Text) : Exec ApplyPatchError Unit := do
  tryWrite (withContext ("Failed to write file ".toList ++ path.display)
    (writeFile faults path newContents))
  pushChange ⟨path, .update none originalContents none newContents⟩

variable (env : PathEnv) (cwd : AbsolutePathBuf)

/-- One iteration of the hunk loop. -/
def applyHunk (hunk : Hunk) : Exec ApplyPatchError Unit :=
  match hunk with
  | .addFile _ contents => addFile faults (hunk.resolvePath env cwd) contents
  | .deleteFile _ => deleteFile faults (hunk.resolvePath env cwd)
  | .updateFile _ movePath chunks => do
    let (originalContents, newContents) ← planUpdate faults (hunk.resolvePath env cwd) chunks
    match movePath with
    | some dest =>
      moveFile faults (hunk.resolvePath env cwd)
        (AbsolutePathBuf.resolvePathAgainstBase env dest cwd) originalContents newContents
    | none => rewriteFile faults (hunk.resolvePath env cwd) originalContents newContents

/-- Which list of the summary a hunk is entered in, under the path it was spelled with. -/
def AffectedPaths.push (affected : AffectedPaths) (hunk : Hunk) : AffectedPaths :=
  match hunk with
  | .addFile .. => { affected with added := affected.added ++ [hunk.path] }
  | .deleteFile _ => { affected with deleted := affected.deleted ++ [hunk.path] }
  | .updateFile .. => { affected with modified := affected.modified ++ [hunk.path] }

def applyHunkLoop : List Hunk → AffectedPaths → Exec ApplyPatchError AffectedPaths
  | [], affected => pure affected
  | hunk :: hunks, affected => do
    applyHunk faults env cwd hunk
    applyHunkLoop hunks (affected.push hunk)

def applyHunksToFiles (hunks : List Hunk) : Exec ApplyPatchError AffectedPaths :=
  if hunks = [] then Eff.fail (.message "No files were modified.".toList)
  else applyHunkLoop faults env cwd hunks { added := [], modified := [], deleted := [] }

end Executor

/-- The state `apply_hunks` starts from: an empty delta. -/
def PatchState.start (files : Files) : PatchState :=
  { files, clock := 0, touched := [], delta := { changes := [], isExact := true } }

end Codex.ApplyPatch
