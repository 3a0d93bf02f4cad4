import Codex.Std.Text
import Mathlib.Algebra.Ring.Nat

/-!
# Codex — offsets into the message history

`message-history/src/lib.rs`. The history file has one entry a line. `append_entry` adds a line
and then, if the file is longer than `max_bytes`, writes the newest lines back over it. The file
keeps its identifier in that, and an offset is the number of a line.

The file is the list of its lines, since only whole lines are ever written. What `serde_json`
reads and writes, the soft cap (computed in floating point) and the identifier of a new file are
parameters.

* `appendAll_suffix`: appending and trimming cut lines off at the front, and nothing else.
* **Result.** `offsets_name_entries`: an offset handed out earlier goes on naming its entry if all
  lines since then fit into `max_bytes`, and otherwise it does not, unless an entry is repeated.
-/

namespace Codex.MessageHistory

open List

variable {Entry : Type}

structure HistoryEnv (Entry : Type) where
  toLine : Entry → Text
  fromLine : Text → Option Entry
  /-- `0.8 * max_bytes`, rounded down and at least 1. -/
  softCapBytes : Nat → Nat
  softCapBytes_le : ∀ maxBytes, 0 < maxBytes → softCapBytes maxBytes ≤ maxBytes

inductive HistoryPersistence where
  | saveAll
  | none
  deriving DecidableEq, Repr

structure HistoryConfig where
  persistence : HistoryPersistence
  maxBytes : Option Nat

structure HistoryFile where
  logId : Nat
  lines : List Text

/-! ## Appending -/

/-- The bytes of a line, with its newline. -/
def lineBytes (line : Text) : Nat := (line.map Char.utf8Size).sum + 1

def fileBytes (lines : List Text) : Nat := (lines.map lineBytes).sum

variable (env : HistoryEnv Entry)

def trimTargetBytes (maxBytes newestEntryLen : Nat) : Nat :=
  max (env.softCapBytes maxBytes) newestEntryLen

/-- The loop over the lines: the last one always stays. -/
def dropOldest (trimTarget : Nat) : Nat → List Text → List Text
  | currentLen, line :: next :: rest =>
    if currentLen > trimTarget then
      dropOldest trimTarget (currentLen - lineBytes line) (next :: rest)
    else line :: next :: rest
  | _, lines => lines

def enforceHistoryLimit (lines : List Text) : Option Nat → List Text
  | none | some 0 => lines
  | some maxBytes =>
    if fileBytes lines ≤ maxBytes then lines
    else
      match lines.getLast? with
      | none => lines
      | some newest =>
        dropOldest (trimTargetBytes env maxBytes (lineBytes newest)) (fileBytes lines) lines

/-- A call of `append_entry`. `newLogId` identifies the file if the call creates it; `locked` says
whether one of its tries to lock the file succeeds. -/
structure AppendCall (Entry : Type) where
  entry : Entry
  config : HistoryConfig
  newLogId : Nat
  locked : Bool

/-- The line the call writes, if it gets that far. -/
def AppendCall.line? (call : AppendCall Entry) : Option Text :=
  if call.config.persistence = .saveAll ∧ call.locked then some (env.toLine call.entry) else none

def appendEntry (file : Option HistoryFile) (call : AppendCall Entry) : Option HistoryFile :=
  match call.config.persistence with
  | .none => file
  | .saveAll =>
    let opened := file.getD ⟨call.newLogId, []⟩
    match call.line? env with
    | some line =>
      some { opened with
        lines := enforceHistoryLimit env (opened.lines ++ [line]) call.config.maxBytes }
    | none => some opened

def appendAll (file : Option HistoryFile) (calls : List (AppendCall Entry)) : Option HistoryFile :=
  calls.foldl (appendEntry env) file

/-! ## Reading -/

def historyMetadata : Option HistoryFile → Nat × Nat
  | none => (0, 0)
  | some file => (file.logId, file.lines.length)

def entryAt (lines : List Text) (offset : Nat) : Option Entry := lines[offset]?.bind env.fromLine

def lookup (file : Option HistoryFile) (logId offset : Nat) : Option Entry :=
  match file with
  | none => none
  | some file =>
    if logId ≠ 0 ∧ file.logId ≠ logId then none else entryAt env file.lines offset

/-! ## What is cut off -/

variable (file : HistoryFile) (calls : List (AppendCall Entry))

/-- The lines that were in the file at the start, or written since. -/
def allLines (calls : List (AppendCall Entry)) : List Text :=
  file.lines ++ calls.filterMap (AppendCall.line? env)

/-- The file is not longer than `max_bytes` after the line of the call is added to these lines. -/
def AppendCall.Fits (call : AppendCall Entry) (lines : List Text) : Prop :=
  ∀ line, call.line? env = some line → ∀ maxBytes, call.config.maxBytes = some maxBytes →
    maxBytes = 0 ∨ fileBytes (lines ++ [line]) ≤ maxBytes

/-- So it is for every call, with all lines that were written before it. -/
def AllFit (lines : List Text) : List (AppendCall Entry) → Prop
  | [] => True
  | call :: calls => call.Fits env lines ∧ AllFit (lines ++ (call.line? env).toList) calls

/-- Of `lines`, the first of which were there at the start, the last ones are kept, and all of them if
they fit. If there were any at the start, they are all kept only then. -/
structure Trimmed (start lines kept : List Text) (fits : Prop) : Prop where
  suffix : kept <:+ lines
  whole : fits → kept = lines
  ne_nil : start ≠ [] → kept ≠ []
  fits : start ≠ [] → kept = lines → fits

theorem Trimmed.refl {start lines : List Text} {fits : Prop} (hLines : start ≠ [] → lines ≠ [])
    (hFits : fits) : Trimmed start lines lines fits :=
  ⟨suffix_rfl, fun _ => rfl, hLines, fun _ _ => hFits⟩

theorem dropOldest_suffix (trimTarget currentLen : Nat) (lines : List Text) :
    dropOldest trimTarget currentLen lines <:+ lines := by
  fun_induction dropOldest trimTarget currentLen lines with
  | case1 currentLen line next rest _ ih => exact ih.trans (suffix_cons _ _)
  | case2 | case3 => exact suffix_rfl

theorem dropOldest_ne_nil (trimTarget currentLen : Nat) {lines : List Text} (h : lines ≠ []) :
    dropOldest trimTarget currentLen lines ≠ [] := by
  fun_induction dropOldest trimTarget currentLen lines with
  | case1 currentLen line next rest _ ih => exact ih (cons_ne_nil _ _)
  | case2 => exact cons_ne_nil _ _
  | case3 => exact h

/-- The first of several lines goes if they are longer than the target. -/
theorem dropOldest_ne {trimTarget currentLen : Nat} {lines : List Text} {line : Text}
    (hLines : lines ≠ []) (hLong : trimTarget < currentLen) :
    dropOldest trimTarget currentLen (lines ++ [line]) ≠ lines ++ [line] := by
  obtain ⟨first, rest, rfl⟩ := exists_cons_of_ne_nil hLines
  obtain ⟨next, others, hRest⟩ := exists_cons_of_ne_nil (append_ne_nil_of_right_ne_nil rest (cons_ne_nil line []))
  rw [cons_append, hRest, dropOldest, if_pos hLong]
  intro hSame
  have hLength := (dropOldest_suffix trimTarget (currentLen - lineBytes first) (next :: others)).length_le
  rw [hSame] at hLength
  exact absurd hLength (Nat.not_succ_le_self _)

/-- The newest line alone is shorter than a file of several lines, and so is the soft cap if they
exceed the limit. -/
theorem trimTargetBytes_lt {maxBytes : Nat} {lines : List Text} {line : Text} (hLines : lines ≠ [])
    (hZero : 0 < maxBytes) (hLong : maxBytes < fileBytes (lines ++ [line])) :
    trimTargetBytes env maxBytes (lineBytes line) < fileBytes (lines ++ [line]) := by
  have hCap := env.softCapBytes_le maxBytes hZero
  obtain ⟨first, rest, rfl⟩ := exists_cons_of_ne_nil hLines
  simp only [fileBytes, trimTargetBytes, lineBytes, map_append, sum_append, map_cons, sum_cons] at *
  simp at *
  omega

theorem enforceHistoryLimit_trimmed (lines : List Text) (line : Text) (maxBytes : Option Nat) :
    Trimmed lines (lines ++ [line]) (enforceHistoryLimit env (lines ++ [line]) maxBytes)
      (∀ limit, maxBytes = some limit → limit = 0 ∨ fileBytes (lines ++ [line]) ≤ limit) := by
  unfold enforceHistoryLimit
  split
  · exact .refl (by simp) (by simp)
  · exact .refl (by simp) (by simp)
  · next limit hZero =>
    split
    · exact .refl (by simp) (by simp_all)
    · next hLong =>
      have hFits : ¬∀ bytes, some limit = some bytes →
          bytes = 0 ∨ fileBytes (lines ++ [line]) ≤ bytes := by
        intro h
        grind
      simp only [getLast?_concat]
      refine ⟨dropOldest_suffix .., fun h => absurd h hFits, fun _ => dropOldest_ne_nil _ _ (by simp), ?_⟩
      intro hLines hSame
      exact absurd hSame (dropOldest_ne hLines (trimTargetBytes_lt env hLines (by grind) (by omega)))

/-- One call leaves the file with its line, less some lines in front. -/
theorem appendEntry_trimmed (call : AppendCall Entry) :
    ∃ kept, appendEntry env (some file) call = some ⟨file.logId, kept⟩ ∧
      Trimmed file.lines (file.lines ++ (call.line? env).toList) kept (call.Fits env file.lines) := by
  unfold appendEntry AppendCall.Fits
  split
  · next hNone =>
    have hLine : call.line? env = none := by simp [AppendCall.line?, hNone]
    exact ⟨file.lines, rfl, by simpa [hLine] using Trimmed.refl id trivial⟩
  · split
    · next line hLine =>
      exact ⟨_, rfl, by simpa [hLine] using enforceHistoryLimit_trimmed env _ _ _⟩
    · next hLine => exact ⟨file.lines, rfl, by simpa [hLine] using Trimmed.refl id trivial⟩

/-- **Appending** keeps the identifier, and cuts lines off the front. -/
theorem appendAll_trimmed :
    ∃ kept, appendAll env (some file) calls = some ⟨file.logId, kept⟩ ∧
      Trimmed file.lines (allLines env file calls) kept (AllFit env file.lines calls) := by
  induction calls generalizing file with
  | nil => exact ⟨file.lines, rfl, by simpa [allLines, AllFit] using Trimmed.refl id trivial⟩
  | cons call calls ih =>
    obtain ⟨first, hFirst, hCall⟩ := appendEntry_trimmed env file call
    obtain ⟨kept, hKept, hCalls⟩ := ih ⟨file.logId, first⟩
    have hAll : allLines env file (call :: calls) =
        (file.lines ++ (call.line? env).toList) ++ calls.filterMap (AppendCall.line? env) := by
      unfold allLines
      cases hLine : call.line? env <;> simp [hLine]
    obtain ⟨front, hFront⟩ := hCall.suffix
    refine ⟨kept, ?_, ?_, ?_, fun h => hCalls.ne_nil (hCall.ne_nil h), ?_⟩
    · rw [appendAll, foldl_cons, hFirst]
      exact hKept
    · rw [hAll, ← hFront, append_assoc]
      exact hCalls.suffix.trans (suffix_append _ _)
    · rintro ⟨hFits, hRest⟩
      have hWhole := hCall.whole hFits
      rw [hAll, ← hWhole]
      exact hCalls.whole (hWhole ▸ hRest)
    · -- a line that one call cuts off does not come back
      intro hStart hSame
      have hLength := hCalls.suffix.length_le
      have hWhole : first = file.lines ++ (call.line? env).toList := by
        refine hCall.suffix.eq_of_length_le ?_
        rw [hSame, hAll] at hLength
        simp only [allLines, length_append] at hLength ⊢
        omega
      refine ⟨hCall.fits hStart hWhole, hWhole ▸ hCalls.fits (hCall.ne_nil hStart) ?_⟩
      rw [hSame, hAll, ← hWhole]
      rfl

/-- `lookup` with an offset below the number of entries finds nothing, or the entry that was there. -/
def OffsetsNameEntries (calls : List (AppendCall Entry)) : Prop :=
  let (logId, count) := historyMetadata (some file)
  ∀ i < count, ∀ entry, lookup env (appendAll env (some file) calls) logId i = some entry →
    lookup env (some file) logId i = some entry

/-- **History offsets.** Whatever is appended after `history_metadata` returned the identifier and
the number of entries, the offsets go on naming their entries if all lines fit into `max_bytes`, and
only then, unless a later line repeats the first entry. -/
theorem offsets_name_entries (file : HistoryFile) (calls : List (AppendCall Entry)) :
    (AllFit env file.lines calls → OffsetsNameEntries env file calls) ∧
    (file.lines ≠ [] → (∀ i, 0 < i → i < (allLines env file calls).length →
        ∃ entry, entryAt env (allLines env file calls) i = some entry ∧
          entryAt env file.lines 0 ≠ some entry) →
      OffsetsNameEntries env file calls → AllFit env file.lines calls) := by
  obtain ⟨kept, hKept, hTrim⟩ := appendAll_trimmed env file calls
  have hLookup (i : Nat) (lines : List Text) :
      lookup env (some ⟨file.logId, lines⟩) file.logId i = entryAt env lines i :=
    if_neg fun h => h.2 rfl
  simp only [OffsetsNameEntries, historyMetadata, hKept, hLookup]
  constructor
  · intro hFits i hi entry hEntry
    rwa [hTrim.whole hFits, entryAt, allLines, getElem?_append_left hi] at hEntry
  · intro hStart hOther hNames
    refine hTrim.fits hStart (hTrim.suffix.eq_of_length_le ?_)
    by_contra! hShort
    -- offset 0 now names the first line that is kept
    have hPos := length_pos_iff.mpr (hTrim.ne_nil hStart)
    obtain ⟨entry, hEntry, hNot⟩ :=
      hOther ((allLines env file calls).length - kept.length) (by omega) (by omega)
    refine hNot (hNames 0 (length_pos_iff.mpr hStart) entry ?_)
    rw [← hEntry, entryAt, entryAt]
    nth_rewrite 1 [suffix_iff_eq_drop.mp hTrim.suffix]
    rw [getElem?_drop, Nat.add_zero]

/-- Lines of six bytes and a limit of thirteen. The third entry cuts off the first two, and offset 0
names it instead of the first. -/
theorem offset_names_other_entry :
    let env : HistoryEnv Text := ⟨id, some, fun maxBytes => max 1 (maxBytes * 4 / 5), by omega⟩
    let call := fun text : String =>
      (⟨text.toList, ⟨.saveAll, some 13⟩, 7, true⟩ : AppendCall Text)
    let file := appendAll env none [call "first", call "again"]
    historyMetadata file = (7, 2) ∧ lookup env file 7 0 = some "first".toList ∧
      lookup env (appendAll env file [call "third"]) 7 0 = some "third".toList := by
  decide

end Codex.MessageHistory
