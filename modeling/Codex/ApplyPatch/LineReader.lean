import Codex.ApplyPatch.Parser

/-!
# Codex — reading a patch line by line

The parser is a nest of loops that hand over to each other in the middle of a list of
lines. Here it is one step per line: `Reading` says which loop is at work, `read` what
it does with the next line (a line that ends one loop is given to the enclosing one at
once), and `close` what it has when the lines are over.

`parseHunks_eq_readAll`: the hunks the parser accepts are those that reading gives.
Error messages are forgotten.
-/

namespace Codex.ApplyPatch

open List Text

/-- What the parser is in the middle of. -/
inductive Reading where
  /-- A hunk header comes next. -/
  | header
  | adding (path : PathBuf) (contents : Text)
  /-- Between the chunks of an update; `mayMove` right after its header. -/
  | updating (path : PathBuf) (movePath : Option PathBuf) (chunks : List UpdateFileChunk)
    (mayMove : Bool)
  | inChunk (path : PathBuf) (movePath : Option PathBuf) (chunks : List UpdateFileChunk)
    (chunk : UpdateFileChunk)
  deriving DecidableEq

/-- The hunks that are complete, and the rest. -/
structure Reader where
  hunks : List Hunk
  reading : Reading
  deriving DecidableEq

def readHeader (hunks : List Hunk) (line : Text) : Option Reader :=
  match stripPrefix? addFileMarker (trim line) with
  | some path => some ⟨hunks, .adding (.ofText path) []⟩
  | none =>
  match stripPrefix? deleteFileMarker (trim line) with
  | some path => some ⟨hunks ++ [.deleteFile (.ofText path)], .header⟩
  | none =>
  match stripPrefix? updateFileMarker (trim line) with
  | some path => some ⟨hunks, .updating (.ofText path) none [] true⟩
  | none => none

def readBetween (hunks : List Hunk) (path : PathBuf) (movePath : Option PathBuf)
    (chunks : List UpdateFileChunk) (line : Text) : Option Reader :=
  if trim line = [] then some ⟨hunks, .updating path movePath chunks false⟩
  else if startsWith ['*'] line then
    if chunks.isEmpty then none
    else readHeader (hunks ++ [.updateFile path movePath chunks]) line
  else if line = emptyChangeContextMarker then
    some ⟨hunks, .inChunk path movePath chunks (.new none)⟩
  else match stripPrefix? changeContextMarker line with
    | some context => some ⟨hunks, .inChunk path movePath chunks (.new (some context))⟩
    | none =>
      if chunks.isEmpty then
        ((UpdateFileChunk.new none).pushLine? line).map fun chunk =>
          ⟨hunks, .inChunk path movePath chunks chunk⟩
      else none

variable (r : Reader)

def read (line : Text) : Option Reader :=
  match r.reading with
  | .header => readHeader r.hunks line
  | .adding path contents =>
    match stripPrefix? ['+'] line with
    | some lineToAdd => some ⟨r.hunks, .adding path (contents ++ (lineToAdd ++ ['\n']))⟩
    | none => readHeader (r.hunks ++ [.addFile path contents]) line
  | .updating path movePath chunks mayMove =>
    match if mayMove then stripPrefix? moveToMarker line else none with
    | some moveTo => some ⟨r.hunks, .updating path (some (.ofText moveTo)) chunks false⟩
    | none => readBetween r.hunks path movePath chunks line
  | .inChunk path movePath chunks chunk =>
    if line = eofMarker then
      if chunk.hasNoLines then none
      else some ⟨r.hunks,
        .updating path movePath (chunks ++ [{ chunk with isEndOfFile := true }]) false⟩
    else match chunk.pushLine? line with
      | some chunk => some ⟨r.hunks, .inChunk path movePath chunks chunk⟩
      | none =>
        if chunk.hasNoLines then none
        else readBetween r.hunks path movePath (chunks ++ [chunk]) line

def close : Option (List Hunk) :=
  match r.reading with
  | .header => some r.hunks
  | .adding path contents => some (r.hunks ++ [.addFile path contents])
  | .updating path movePath chunks _ =>
    if chunks.isEmpty then none else some (r.hunks ++ [.updateFile path movePath chunks])
  | .inChunk path movePath chunks chunk =>
    if chunk.hasNoLines then none
    else some (r.hunks ++ [.updateFile path movePath (chunks ++ [chunk])])

def readAll (lines : List Text) : Option (List Hunk) :=
  (lines.foldlM read r).bind close

variable {hunks : List Hunk} {path : PathBuf} {movePath : Option PathBuf}
variable {chunks : List UpdateFileChunk} {chunk chunk' : UpdateFileChunk}
variable {lines rest : List Text} {line : Text} {n parsed fuel : Nat}

@[simp] theorem readAll_nil : readAll r [] = close r := rfl

theorem readAll_cons (line : Text) (lines : List Text) :
    readAll r (line :: lines) = (read r line).bind fun r' => readAll r' lines := by
  unfold readAll
  rw [foldlM_cons]
  cases read r line <;> rfl

/-! ## Chunks -/

theorem hasNoLines_of_pushLine (h : chunk.pushLine? line = some chunk') :
    chunk'.hasNoLines = false := by
  unfold UpdateFileChunk.pushLine? at h
  split at h <;>
    first
    | (cases h
       simp [UpdateFileChunk.hasNoLines, UpdateFileChunk.pushContext])
    | cases h

variable {lineNumber : Nat}

theorem parsed_le_of_chunkLines (h : chunkLines lineNumber chunk parsed lines = .ok (chunk', n)) :
    parsed ≤ n := by
  fun_induction chunkLines lineNumber chunk parsed lines with
  | case4 _ _ _ _ _ _ _ ih => exact Nat.le_of_succ_le (ih h)
  | _ => cases h <;> omega

theorem chunkLines_eq_read (lineNumber : Nat) (hParsed : chunk.hasNoLines = decide (parsed = 0))
    (hSome : parsed = 0 → lines ≠ []) : readAll ⟨hunks, .inChunk path movePath chunks chunk⟩ lines =
      match chunkLines lineNumber chunk parsed lines with
      | .error _ => none
      | .ok (chunk', n) =>
        readAll ⟨hunks, .updating path movePath (chunks ++ [chunk']) false⟩
          (lines.drop (n - parsed)) := by
  fun_induction chunkLines lineNumber chunk parsed lines with
  | case1 chunk parsed =>
    have hPos : parsed ≠ 0 := fun h => hSome h rfl
    have hLines : chunk.hasNoLines = false := by rw [hParsed, decide_eq_false hPos]
    simp [close, hLines]
  | case4 chunk parsed line rest hEof next hPush ih =>
    have hNext : next.hasNoLines = decide (parsed + 1 = 0) := by
      rw [hasNoLines_of_pushLine hPush]
      rfl
    have hStep : read ⟨hunks, .inChunk path movePath chunks chunk⟩ line =
        some ⟨hunks, .inChunk path movePath chunks next⟩ := by
      simp [read, hEof, hPush]
    rw [readAll_cons, hStep, Option.bind_some, ih hNext fun h => absurd h (Nat.succ_ne_zero _)]
    rcases hLines : chunkLines lineNumber next (parsed + 1) rest with e | result
    · rfl
    have hLe := parsed_le_of_chunkLines hLines
    have hSub : result.2 - parsed = result.2 - (parsed + 1) + 1 := by omega
    dsimp only
    rw [hSub, drop_succ_cons]
  | _ => simp_all [readAll_cons, read]

/-- The hunks that reading gives after a chunk, or nothing after an error. -/
def afterChunk (hunks : List Hunk) (path : PathBuf) (movePath : Option PathBuf)
    (chunks : List UpdateFileChunk) (lines : List Text) :
    Except ParseError (UpdateFileChunk × Nat) → Option (List Hunk)
  | .error _ => none
  | .ok (chunk, n) =>
    readAll ⟨hunks, .updating path movePath (chunks ++ [chunk]) false⟩ (lines.drop n)

theorem chunkAfterContext_eq_read (lines : List Text) (lineNumber : Nat)
    (context : Option Text) (n : Nat) :
    readAll ⟨hunks, .inChunk path movePath chunks (.new context)⟩ (lines.drop n) =
      afterChunk hunks path movePath chunks lines
        (chunkAfterContext lines lineNumber context n) := by
  unfold chunkAfterContext
  split
  · rename_i hEnd
    rw [drop_eq_nil_of_le hEnd]
    rfl
  rename_i hMore
  have hNew : (UpdateFileChunk.new context).hasNoLines = decide (0 = 0) := rfl
  rw [chunkLines_eq_read lineNumber hNew fun _ h => hMore (drop_eq_nil_iff.mp h)]
  cases chunkLines lineNumber (.new context) 0 (lines.drop n) with
  | error e => rfl
  | ok result =>
    show readAll _ _ = readAll _ _
    rw [drop_drop, Nat.sub_zero, Nat.add_comm]

/-- Between chunks, a line that is neither blank nor a marker starts a chunk. -/
theorem parseUpdateFileChunk_eq_read (lineNumber : Nat) (hBlank : trim line ≠ [])
    (hStar : startsWith ['*'] line = false) :
    readAll ⟨hunks, .updating path movePath chunks false⟩ (line :: rest) =
      afterChunk hunks path movePath chunks (line :: rest)
        (parseUpdateFileChunk (line :: rest) lineNumber chunks.isEmpty) := by
  have hStep : read ⟨hunks, .updating path movePath chunks false⟩ line =
      readBetween hunks path movePath chunks line := rfl
  have hChunk : parseUpdateFileChunk (line :: rest) lineNumber chunks.isEmpty =
      chunkStart line lineNumber chunks.isEmpty >>= fun start =>
        chunkAfterContext (line :: rest) lineNumber start.1 start.2 := rfl
  rw [readAll_cons, hStep, hChunk]
  unfold readBetween chunkStart
  rw [if_neg hBlank, hStar]
  by_cases hBare : line = emptyChangeContextMarker
  · rw [if_pos hBare, if_pos hBare]
    exact chunkAfterContext_eq_read (line :: rest) lineNumber none 1
  rw [if_neg hBare, if_neg hBare]
  cases stripPrefix? changeContextMarker line with
  | some context => exact chunkAfterContext_eq_read (line :: rest) lineNumber (some context) 1
  | none =>
    rcases chunks.isEmpty with _ | _
    · rfl
    -- without a context line, the first line is already one of the chunk
    have hEof : line ≠ eofMarker := by
      intro h
      rw [h] at hStar
      exact absurd hStar (by decide)
    refine Eq.trans ?_ (chunkAfterContext_eq_read (line :: rest) lineNumber none 0)
    rw [drop_zero, readAll_cons]
    congr 1
    unfold read
    dsimp only
    rw [if_neg hEof]
    cases (UpdateFileChunk.new none).pushLine? line with
    | some _ | none => rfl

theorem pos_of_chunkLines (h : chunkLines lineNumber chunk 0 (line :: rest) = .ok (chunk', n)) :
    0 < n := by
  unfold chunkLines at h
  split at h
  · cases h
  · split at h
    · exact parsed_le_of_chunkLines h
    · cases h

/-- A chunk takes at least one line. -/
theorem pos_of_parseUpdateFileChunk {allow : Bool}
    (h : parseUpdateFileChunk (line :: rest) lineNumber allow = .ok (chunk, n)) : 0 < n := by
  obtain ⟨⟨context, start⟩, -, hAfter⟩ := exists_ok_of_bind h
  change chunkAfterContext (line :: rest) lineNumber context start = .ok (chunk, n) at hAfter
  unfold chunkAfterContext at hAfter
  split at hAfter
  · cases hAfter
  obtain ⟨⟨chunk', parsed⟩, hLines, hResult⟩ := exists_ok_of_bind hAfter
  cases hResult
  cases start with
  | zero => exact pos_of_chunkLines hLines
  | succ start => exact Nat.succ_pos _

/-! ## Hunks -/

/-- The hunks that reading gives after the chunks of an update. -/
def afterChunks (hunks : List Hunk) (path : PathBuf) (movePath : Option PathBuf)
    (lines : List Text) (parsed : Nat) :
    Except ParseError (List UpdateFileChunk × Nat) → Option (List Hunk)
  | .error _ => none
  | .ok (chunks, n) =>
    if chunks.isEmpty then none
    else readAll ⟨hunks ++ [.updateFile path movePath chunks], .header⟩ (lines.drop (n - parsed))

theorem parsed_le_of_updateFileChunks {chunks' : List UpdateFileChunk}
    (h : updateFileChunks lineNumber fuel lines parsed chunks = .ok (chunks', n)) : parsed ≤ n := by
  fun_induction updateFileChunks lineNumber fuel lines parsed chunks with
  | case3 _ _ _ _ _ _ ih => exact Nat.le_of_succ_le (ih h)
  | case5 _ _ _ _ _ _ _ ih =>
    obtain ⟨⟨chunk, k⟩, -, hRest⟩ := exists_ok_of_bind h
    exact Nat.le_trans (Nat.le_add_right _ _) (ih _ _ hRest)
  | _ => cases h; omega

theorem updateFileChunks_eq_read (lineNumber parsed : Nat) (hFuel : lines.length ≤ fuel) :
    readAll ⟨hunks, .updating path movePath chunks false⟩ lines =
      afterChunks hunks path movePath lines parsed
        (updateFileChunks lineNumber fuel lines parsed chunks) := by
  fun_induction updateFileChunks lineNumber fuel lines parsed chunks with
  | case1 => simp [afterChunks, close]
  | case2 => cases hFuel
  | case3 fuel line rest parsed chunks hBlank ih =>
    have hStep : read ⟨hunks, .updating path movePath chunks false⟩ line =
        some ⟨hunks, .updating path movePath chunks false⟩ := if_pos hBlank
    rw [readAll_cons, hStep, Option.bind_some, ih (Nat.le_of_succ_le_succ hFuel)]
    rcases hRest : updateFileChunks lineNumber fuel rest (parsed + 1) chunks with e | result
    · rfl
    have hLe := parsed_le_of_updateFileChunks hRest
    have hSub : result.2 - parsed = result.2 - (parsed + 1) + 1 := by omega
    unfold afterChunks
    dsimp only
    rw [hSub, drop_succ_cons]
  | case4 fuel line rest parsed chunks hBlank hStar =>
    have hStep : read ⟨hunks, .updating path movePath chunks false⟩ line =
        if chunks.isEmpty then none
        else readHeader (hunks ++ [.updateFile path movePath chunks]) line := by
      show readBetween hunks path movePath chunks line = _
      unfold readBetween
      rw [if_neg hBlank, if_pos hStar]
    rw [readAll_cons, hStep]
    unfold afterChunks
    dsimp only
    rw [Nat.sub_self, drop_zero]
    cases chunks.isEmpty with
    | true => rfl
    | false =>
      rw [readAll_cons]
      rfl
  | case5 fuel line rest parsed chunks hBlank hStar ih =>
    rw [parseUpdateFileChunk_eq_read (lineNumber + parsed) hBlank (by simpa using hStar)]
    cases hChunk : parseUpdateFileChunk (line :: rest) (lineNumber + parsed)
        chunks.isEmpty with
    | error e => rfl
    | ok result =>
      obtain ⟨chunk, k⟩ := result
      have hPos := pos_of_parseUpdateFileChunk hChunk
      have hLess : ((line :: rest).drop k).length ≤ fuel := by
        rw [length_drop]
        omega
      show readAll _ _ = afterChunks _ _ _ _ _ (updateFileChunks _ _ _ _ _)
      rw [ih chunk k hLess]
      cases hRest : updateFileChunks lineNumber fuel ((line :: rest).drop k) (parsed + k)
          (chunks ++ [chunk]) with
      | error e => rfl
      | ok result =>
        have hLe := parsed_le_of_updateFileChunks hRest
        have hSub : k + (result.2 - (parsed + k)) = result.2 - parsed := by omega
        unfold afterChunks
        dsimp only
        rw [drop_drop, hSub]

theorem addFileLines_eq_read (contents : Text) : readAll ⟨hunks, .adding path contents⟩ lines =
      readAll ⟨hunks ++ [.addFile path (contents ++ (addFileLines lines).1)], .header⟩
        (lines.drop (addFileLines lines).2) := by
  fun_induction addFileLines lines generalizing contents with
  | case1 => simp [close]
  | case2 line rest lineToAdd hPlus added parsed hRest ih =>
    have hStep : read ⟨hunks, .adding path contents⟩ line =
        some ⟨hunks, .adding path (contents ++ (lineToAdd ++ ['\n']))⟩ := by
      unfold read
      rw [hPlus]
    rw [readAll_cons, hStep, Option.bind_some, ih]
    simp [hRest]
  | case3 line rest hPlus =>
    have hStep : read ⟨hunks, .adding path contents⟩ line =
        readHeader (hunks ++ [.addFile path contents]) line := by
      unfold read
      rw [hPlus]
    rw [readAll_cons, hStep, append_nil, drop_zero, readAll_cons]
    rfl

/-- The hunks that reading gives after one hunk. -/
def afterHunk (hunks : List Hunk) (lines : List Text) :
    Except ParseError (Hunk × Nat) → Option (List Hunk)
  | .error _ => none
  | .ok (hunk, n) => readAll ⟨hunks ++ [hunk], .header⟩ (lines.drop n)

theorem parseOneHunk_eq_read (lineNumber : Nat) : readAll ⟨hunks, .header⟩ (line :: rest) =
      afterHunk hunks (line :: rest) (parseOneHunk line rest lineNumber) := by
  have hStep : read ⟨hunks, .header⟩ line = readHeader hunks line := rfl
  rw [readAll_cons, hStep]
  unfold readHeader parseOneHunk
  dsimp only
  cases stripPrefix? addFileMarker (trim line) with
  | some path =>
    rw [Option.bind_some, addFileLines_eq_read, nil_append]
    unfold afterHunk
    dsimp only
    rw [Nat.add_comm, drop_succ_cons]
  | none =>
  cases stripPrefix? deleteFileMarker (trim line) with
  | some path => rfl
  | none =>
  rcases stripPrefix? updateFileMarker (trim line) with _ | path
  · rfl
  rw [Option.bind_some]
  -- the line after the header may be a move
  have hMove : readAll ⟨hunks, .updating (.ofText path) none [] true⟩ rest =
      readAll ⟨hunks, .updating (.ofText path)
          ((rest.head?.bind (stripPrefix? moveToMarker)).map .ofText) [] false⟩
        (rest.drop (if (rest.head?.bind (stripPrefix? moveToMarker)).isSome then 1 else 0)) := by
    rcases rest with _ | ⟨second, rest⟩
    · rfl
    rw [readAll_cons]
    unfold read
    dsimp only
    rw [List.head?_cons, Option.bind_some]
    cases stripPrefix? moveToMarker second with
    | some moveTo => rfl
    | none =>
      exact (readAll_cons ⟨hunks, .updating (.ofText path) none [] false⟩ second rest).symm
  rw [hMove, updateFileChunks_eq_read lineNumber
    (1 + if (rest.head?.bind (stripPrefix? moveToMarker)).isSome then 1 else 0) (le_refl _)]
  rcases hChunks : updateFileChunks lineNumber _ _ _ [] with e | result
  · rfl
  obtain ⟨chunks, n⟩ := result
  have hLe := parsed_le_of_updateFileChunks hChunks
  show (if chunks.isEmpty then none else _) =
    afterHunk hunks (line :: rest) (if chunks.isEmpty then _ else _)
  cases chunks.isEmpty with
  | true => rfl
  | false =>
    show readAll _ _ = readAll _ ((line :: rest).drop n)
    rw [drop_drop]
    have hDrop : ∀ k, 1 + k ≤ n → rest.drop (k + (n - (1 + k))) = (line :: rest).drop n := by
      intro k hk
      have hEq : n = (k + (n - (1 + k))) + 1 := by omega
      conv_rhs => rw [hEq, drop_succ_cons]
    rw [hDrop _ hLe]

/-- **The parser accepts what reading accepts, with the same hunks.** -/
theorem parseHunks_eq_readAll (lineNumber : Nat) (hFuel : lines.length ≤ fuel) :
    (parseHunks fuel lines lineNumber hunks).toOption = readAll ⟨hunks, .header⟩ lines := by
  fun_induction parseHunks fuel lines lineNumber hunks with
  | case1 => rfl
  | case2 => cases hFuel
  | case3 fuel line rest lineNumber hunks ih =>
    rw [parseOneHunk_eq_read lineNumber]
    rcases hHunk : parseOneHunk line rest lineNumber with e | result
    · rfl
    obtain ⟨hunk, n⟩ := result
    -- a hunk takes at least its header
    have hPos : 0 < n := by
      unfold parseOneHunk at hHunk
      dsimp only at hHunk
      split at hHunk
      · cases hHunk
        omega
      split at hHunk
      · cases hHunk
        omega
      split at hHunk
      · obtain ⟨⟨chunks, parsed⟩, hChunks, hResult⟩ := exists_ok_of_bind hHunk
        have hLe := parsed_le_of_updateFileChunks hChunks
        split at hResult
        · cases hResult
        · cases hResult
          omega
      · cases hHunk
    have hLess : ((line :: rest).drop n).length ≤ fuel := by
      rw [length_drop]
      omega
    exact ih hunk n hLess

end Codex.ApplyPatch
