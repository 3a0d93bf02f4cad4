import Codex.History.Definitions
import Codex.History.Normalize
import Codex.Lib.Search
import Codex.Std.HashMap

/-!
# Codex — superseded diagnostics

`compact_superseded_diagnostics` in `core/src/context_manager/history.rs`, and `for_prompt`, which
runs it after `normalize_history`. Of the outputs of diagnostics and builds only the last one for a
key is sent; the others are replaced by a stub. Outputs are told apart by the id of their call, the
keys are those of the calls. What `lean_diagnostic_messages` gets as `file_path` is read out of JSON;
that reading is the parameter `filePath?`.

Normalisation puts in an output for a call that has none. Compaction takes it for an output like any
other, so an interrupted build supersedes the one before it (`interrupted_build_supersedes`).

* `compact_getElem?`            — one place of a list: an output stays if no later one has its key.
* `forPrompt_getElem?`          — the same, in terms of what was recorded.
* `forPrompt_keeps_latest_iff`  — exactly when the latest output of every key is sent.
-/

namespace Codex

open ResponseItem Search List

variable (filePath? : Text → Option Text)

/-! ## Definitions -/

/-- The piece of a tool name after its last `__`. -/
def shortName (name : Text) : Text :=
  match find "__".toList name.reverse with
  | some i => (name.reverse.take i).reverse
  | none => name

def supersededBuild : Text × Text :=
  ("build".toList, "[superseded build output — project rebuilt on a later turn]".toList)

def supersededDiagnostics (file : Text) : Text × Text :=
  ("diag:".toList ++ file,
    "[superseded diagnostics for ".toList ++ file ++ " — file re-checked on a later turn]".toList)

/-- The key of a diagnostic-like call, and the stub for its outputs. -/
def supersededDiagnosticKey (name : String) (arguments : Text) : Option (Text × Text) :=
  let short := shortName name.toList
  if short = "lean_diagnostic_messages".toList then
    (filePath? arguments).map supersededDiagnostics
  else if short = "lean_build".toList then some supersededBuild
  else if (short = "shell".toList ∨ short = "exec_command".toList) ∧
      (find "lake build".toList arguments).isSome then some supersededBuild
  else none

def keyedCall? : ResponseItem → Option (String × Text × Text)
  | .functionCall name _ arguments callId =>
    (supersededDiagnosticKey filePath? name arguments).map (callId, ·)
  | _ => none

/-- The key and the stub of each diagnostic-like call, by its id. -/
def keyedCalls (items : List ResponseItem) : HashMap String (Text × Text) :=
  HashMap.collect (items.filterMap (keyedCall? filePath?))

def outputKey? (keyed : HashMap String (Text × Text)) : ResponseItem → Option (Text × Text)
  | .functionCallOutput callId _ => keyed.lookup callId
  | _ => none

def lastIndexPair? (keyed : HashMap String (Text × Text)) (pair : ResponseItem × Nat) :
    Option (Text × Nat) :=
  (outputKey? keyed pair.1).map fun found => (found.1, pair.2)

/-- The index of the last output carrying a key. -/
def lastIndex (keyed : HashMap String (Text × Text)) (items : List ResponseItem) :
    HashMap Text Nat :=
  HashMap.collect (items.zipIdx.filterMap (lastIndexPair? keyed))

def stubbed (stub : Text) : ResponseItem → ResponseItem
  | .functionCallOutput callId output =>
    .functionCallOutput callId { output with body := .text stub }
  | item => item

def compactItem (keyed : HashMap String (Text × Text)) (last : HashMap Text Nat)
    (pair : ResponseItem × Nat) : ResponseItem :=
  match outputKey? keyed pair.1 with
  | some (key, stub) => if last.lookup key = some pair.2 then pair.1 else stubbed stub pair.1
  | none => pair.1

def compactSupersededDiagnostics (items : List ResponseItem) : List ResponseItem :=
  let keyed := keyedCalls filePath? items
  if keyed.entries.isEmpty then items
  else items.zipIdx.map (compactItem keyed (lastIndex keyed items))

/-- `compactionEnabled` is what `superseded_diagnostic_compaction_enabled` finds in the
environment. -/
def ContextManager.forPrompt (compactionEnabled : Bool) (inputModalities : List InputModality)
    (history : ContextManager) : List ResponseItem :=
  let items := normalizeHistory inputModalities history.items
  if compactionEnabled then compactSupersededDiagnostics filePath? items else items

/-! ## One place of a list -/

/-- The item is an output with the key. -/
def carries (keyed : HashMap String (Text × Text)) (key : Text) (item : ResponseItem) : Bool :=
  (outputKey? keyed item).any fun found => found.1 == key

variable {filePath?} {keyed : HashMap String (Text × Text)} {item : ResponseItem} {key stub : Text}

theorem carries_iff : carries keyed key item = true ↔ ∃ stub, outputKey? keyed item = some (key, stub) := by
  unfold carries
  cases hKey : outputKey? keyed item with
  | none => simp
  | some found =>
    obtain ⟨key', stub'⟩ := found
    simp only [Option.any_some, beq_iff_eq, Option.some.injEq, Prod.mk.injEq]
    exact ⟨fun h => ⟨stub', h, rfl⟩, fun ⟨_, h, _⟩ => h⟩

theorem mem_lastIndexEntries {items : List ResponseItem} {start idx : Nat} :
    (key, idx) ∈ (items.zipIdx start).filterMap (lastIndexPair? keyed) ↔
      ∃ later, (later, idx) ∈ items.zipIdx start ∧ carries keyed key later = true := by
  simp only [mem_filterMap, lastIndexPair?, Option.map_eq_some_iff, carries_iff, Prod.exists]
  constructor
  · rintro ⟨later, _, hMem, _, stub, hKey, hEq⟩
    cases hEq
    exact ⟨later, hMem, stub, hKey⟩
  · rintro ⟨later, hMem, stub, hKey⟩
    exact ⟨later, idx, hMem, key, stub, hKey, rfl⟩

variable (before after : List ResponseItem)

/-- An output is the last one of its key if none after it has the key. -/
theorem lookup_lastIndex
    (hKey : outputKey? keyed item = some (key, stub)) :
    (lastIndex keyed (before ++ item :: after)).lookup key = some before.length ↔
      after.any (carries keyed key) = false := by
  have hEntry : lastIndexPair? keyed (item, before.length) = some (key, before.length) := by
    unfold lastIndexPair?
    rw [hKey]
    rfl
  have hSplit : ((before ++ item :: after).zipIdx.filterMap (lastIndexPair? keyed)) =
      (before.zipIdx.filterMap (lastIndexPair? keyed) ++ [(key, before.length)]) ++
        (after.zipIdx (before.length + 1)).filterMap (lastIndexPair? keyed) := by
    rw [zipIdx_append, filterMap_append, Nat.zero_add, zipIdx_cons,
      filterMap_cons_some hEntry, append_assoc]
    rfl
  unfold lastIndex
  rw [hSplit, HashMap.lookup_collect_append, HashMap.collect_concat, AList.lookup_insert]
  constructor
  · -- a later output would have put a larger index
    intro hLast
    rw [any_eq_false]
    intro later hLater hCarries
    rw [← zipIdx_map_fst (before.length + 1) after] at hLater
    obtain ⟨⟨later, idx⟩, hMem, rfl⟩ := mem_map.mp hLater
    obtain ⟨found, hFound⟩ :=
      HashMap.exists_lookup_collect (mem_lastIndexEntries.mpr ⟨later, hMem, hCarries⟩)
    rw [hFound, Option.some_or, Option.some.injEq] at hLast
    obtain ⟨newest, hNewest, -⟩ := mem_lastIndexEntries.mp (HashMap.mem_of_lookup_collect hFound)
    have hLe := le_snd_of_mem_zipIdx hNewest
    omega
  · intro hNone
    have hLookup : (HashMap.collect ((after.zipIdx (before.length + 1)).filterMap
        (lastIndexPair? keyed))).lookup key = none := by
      refine HashMap.lookup_collect_eq_none fun pair hPair hEq => ?_
      subst hEq
      obtain ⟨later, hMem, hCarries⟩ := mem_lastIndexEntries.mp hPair
      exact any_eq_false.mp hNone later (fst_mem_of_mem_zipIdx hMem) hCarries
    rw [hLookup]
    rfl

/-- **One place of a list.** -/
theorem compact_getElem?
    (hKey : outputKey? (keyedCalls filePath? (before ++ item :: after)) item = some (key, stub)) :
    (compactSupersededDiagnostics filePath? (before ++ item :: after))[before.length]? =
      some (if after.any (carries (keyedCalls filePath? (before ++ item :: after)) key) then
        stubbed stub item else item) := by
  unfold compactSupersededDiagnostics
  generalize keyedCalls filePath? (before ++ item :: after) = keyed at hKey ⊢
  have hSome : ¬ keyed.entries.isEmpty = true := by
    intro hEmpty
    have hNone : keyed = ∅ := AList.ext (isEmpty_iff.mp hEmpty)
    rw [hNone] at hKey
    cases item <;> cases hKey
  rw [if_neg hSome, List.getElem?_map, List.getElem?_zipIdx, List.getElem?_append_right (le_refl _),
    Nat.sub_self, Nat.zero_add, getElem?_cons_zero, Option.map_some, Option.map_some]
  unfold compactItem
  simp only [hKey, lookup_lastIndex before after hKey]
  cases after.any (carries keyed key) <;> rfl

/-- Items that are no outputs of diagnostic-like calls stay. -/
theorem compact_getElem?_of_none {items : List ResponseItem} {p : Nat} (hItem : items[p]? = some item)
    (hKey : outputKey? (keyedCalls filePath? items) item = none) :
    (compactSupersededDiagnostics filePath? items)[p]? = some item := by
  unfold compactSupersededDiagnostics
  dsimp only
  split
  · exact hItem
  · rw [List.getElem?_map, List.getElem?_zipIdx, hItem, Option.map_some, Option.map_some]
    unfold compactItem
    rw [hKey]

/-! ## After normalisation -/

variable {inputModalities : List InputModality} {items : List ResponseItem}

/-- What normalisation makes of one item of the history: the item, if it stays, and behind it the
output that it misses. -/
def normalizedPiece (inputModalities : List InputModality) (items : List ResponseItem)
    (item : ResponseItem) : List ResponseItem :=
  ((item :: (missingOutput? items item).toList).filter
    (isRetained (ensureCallOutputsPresent items))).map (stripImagesWhenUnsupported inputModalities)

theorem normalizeHistory_eq_flatMap : normalizeHistory inputModalities items =
      items.flatMap (normalizedPiece inputModalities items) := by
  have hRetained : removeOrphanOutputs (ensureCallOutputsPresent items) =
      (items.flatMap fun item => item :: (missingOutput? items item).toList).filter
        (isRetained (ensureCallOutputsPresent items)) := by
    rw [← ensureCallOutputsPresent_eq]
    rfl
  unfold normalizeHistory
  rw [hRetained, filter_flatMap, map_flatMap]
  rfl

theorem keyedCall?_strip (item : ResponseItem) :
    keyedCall? filePath? (stripImagesWhenUnsupported inputModalities item) =
      keyedCall? filePath? item := by
  unfold stripImagesWhenUnsupported
  split
  · rfl
  · cases item <;> rfl

theorem outputKey?_strip (item : ResponseItem) :
    outputKey? keyed (stripImagesWhenUnsupported inputModalities item) = outputKey? keyed item := by
  unfold stripImagesWhenUnsupported
  split
  · rfl
  · cases item <;> rfl

theorem keyedCall?_eq_none_of_isOutput (h : isOutput item = true) :
    keyedCall? filePath? item = none := by
  cases item <;> first | rfl | cases h

/-- Normalisation leaves the keys. -/
theorem keyedCalls_normalizeHistory :
    keyedCalls filePath? (normalizeHistory inputModalities items) = keyedCalls filePath? items := by
  unfold keyedCalls
  rw [normalizeHistory_eq_flatMap, filterMap_flatMap, filterMap_eq_flatMap_toList]
  refine congrArg HashMap.collect (flatMap_congr fun item _ => ?_)
  have hComp : keyedCall? filePath? ∘ stripImagesWhenUnsupported inputModalities =
      keyedCall? filePath? := funext keyedCall?_strip
  -- what is dropped is an output, as is what is put in
  have hDropped : ∀ x, (if isRetained (ensureCallOutputsPresent items) x = true then
      keyedCall? filePath? x else none) = keyedCall? filePath? x := by
    intro x
    split
    · rfl
    next hNot =>
    refine (keyedCall?_eq_none_of_isOutput ?_).symm
    by_contra hOutput
    exact hNot (isRetained_iff.mpr fun hNeeds => absurd (isOutput_of_needsCall hNeeds) hOutput)
  have hMissing : (missingOutput? items item).toList.filterMap (keyedCall? filePath?) = [] := by
    rw [filterMap_eq_nil_iff]
    intro output hOutput
    have hAnswers := answers_of_missingOutput? (Option.mem_toList.mp hOutput)
    exact keyedCall?_eq_none_of_isOutput (isOutput_of_answers hAnswers)
  unfold normalizedPiece
  rw [filterMap_map, hComp, filterMap_filter]
  simp only [hDropped]
  rw [filterMap_cons, hMissing]
  cases keyedCall? filePath? item <;> rfl

/-- A recorded output of a diagnostic-like call stays, and nothing is put in behind it. -/
theorem normalizedPiece_of_key (hKey : outputKey? (keyedCalls filePath? items) item = some (key, stub)) :
    normalizedPiece inputModalities items item = [stripImagesWhenUnsupported inputModalities item] := by
  cases item with
  | functionCallOutput callId output =>
    obtain ⟨call, hCall, hEntry⟩ := mem_filterMap.mp (HashMap.mem_of_lookup_collect hKey)
    have hId : functionCallId? call = some callId := by
      cases call with
      | functionCall name namespaceName arguments id =>
        obtain ⟨found, -, hEq⟩ := Option.map_eq_some_iff.mp hEntry
        cases hEq
        rfl
      | _ => cases hEntry
    have hKept : isRetained (ensureCallOutputsPresent items) (.functionCallOutput callId output) =
        true := by
      refine isRetained_iff.mpr fun _ => ⟨call, mem_ensureCallOutputsPresent.mpr (.inl hCall), ?_⟩
      exact answers_iff.mpr ⟨_, rfl, (callId?_iff call callId).1.mp (.inl hId)⟩
    unfold normalizedPiece
    rw [filter_cons_of_pos hKept]
    rfl
  | _ => cases hKey

/-- Where normalisation puts the item at a position of the history. -/
def placeOf (inputModalities : List InputModality) (items : List ResponseItem) (position : Nat) :
    Nat :=
  ((items.take position).flatMap (normalizedPiece inputModalities items)).length

/-- An interrupted call whose output is put in with the key. -/
def abortsWith (keyed : HashMap String (Text × Text)) (items : List ResponseItem) (key : Text)
    (call : ResponseItem) : Bool :=
  (missingOutput? items call).any (carries keyed key)

theorem carries_strip :
    carries keyed key (stripImagesWhenUnsupported inputModalities item) = carries keyed key item := by
  unfold carries
  rw [outputKey?_strip]

theorem any_normalizedPiece (hItem : item ∈ items) :
    (normalizedPiece inputModalities items item).any (carries (keyedCalls filePath? items) key) =
      (carries (keyedCalls filePath? items) key item ||
        abortsWith (keyedCalls filePath? items) items key item) := by
  cases hCarries : carries (keyedCalls filePath? items) key item with
  | true =>
    obtain ⟨found, hKey⟩ := carries_iff.mp hCarries
    rw [normalizedPiece_of_key hKey, any_cons, carries_strip, hCarries]
    rfl
  | false =>
    have hComp : carries (keyedCalls filePath? items) key ∘ stripImagesWhenUnsupported inputModalities =
        carries (keyedCalls filePath? items) key := funext fun _ => carries_strip
    unfold normalizedPiece abortsWith
    rw [any_map, hComp, Bool.false_or]
    cases hMissing : missingOutput? items item with
    | none =>
      rw [Option.any_none, any_eq_false]
      intro kept hKept
      rw [mem_singleton.mp (mem_filter.mp hKept).1, hCarries]
      decide
    | some output =>
      have hKept : isRetained (ensureCallOutputsPresent items) output = true := by
        refine isRetained_iff.mpr fun _ => ⟨item, mem_ensureCallOutputsPresent.mpr (.inl hItem), ?_⟩
        exact answers_of_missingOutput? hMissing
      rw [Option.toList_some, filter_cons, filter_cons_of_pos hKept]
      split <;> simp [hCarries]

variable {older newer : List ResponseItem}

/-- **A recorded output in the prompt.** It is replaced if a later output of its key was recorded or
put in, and stays otherwise. -/
theorem forPrompt_getElem? (inputModalities : List InputModality) (history : ContextManager)
    (hItems : history.items = older ++ item :: newer)
    (hKey : outputKey? (keyedCalls filePath? history.items) item = some (key, stub)) :
    (history.forPrompt filePath? false inputModalities)[placeOf inputModalities history.items
        older.length]? = some (stripImagesWhenUnsupported inputModalities item) ∧
      (history.forPrompt filePath? true inputModalities)[placeOf inputModalities history.items
        older.length]? =
        some (if newer.any fun later => carries (keyedCalls filePath? history.items) key later ||
            abortsWith (keyedCalls filePath? history.items) history.items key later then
          stubbed stub (stripImagesWhenUnsupported inputModalities item)
        else stripImagesWhenUnsupported inputModalities item) := by
  have hNormalized : normalizeHistory inputModalities history.items =
      older.flatMap (normalizedPiece inputModalities history.items) ++
        stripImagesWhenUnsupported inputModalities item ::
          newer.flatMap (normalizedPiece inputModalities history.items) := by
    rw [normalizeHistory_eq_flatMap]
    conv_lhs => rw [hItems]
    rw [flatMap_append, flatMap_cons, ← hItems, normalizedPiece_of_key hKey]
    rfl
  have hPlace : placeOf inputModalities history.items older.length =
      (older.flatMap (normalizedPiece inputModalities history.items)).length := by
    unfold placeOf
    conv_lhs => rw [hItems]
    rw [take_left, ← hItems]
  have hLater : (newer.flatMap (normalizedPiece inputModalities history.items)).any
        (carries (keyedCalls filePath? history.items) key) =
      newer.any fun later => carries (keyedCalls filePath? history.items) key later ||
        abortsWith (keyedCalls filePath? history.items) history.items key later := by
    rw [any_flatMap, Bool.eq_iff_iff, any_eq_true, any_eq_true]
    refine exists_congr fun later => and_congr_right fun hMem => ?_
    have hRecorded : later ∈ history.items := by
      rw [hItems]
      exact mem_append_right _ (mem_cons_of_mem _ hMem)
    rw [any_normalizedPiece hRecorded]
  constructor
  · show (normalizeHistory inputModalities history.items)[_]? = _
    rw [hPlace, hNormalized, List.getElem?_append_right (le_refl _), Nat.sub_self]
    rfl
  show (compactSupersededDiagnostics filePath?
    (normalizeHistory inputModalities history.items))[_]? = _
  have hKeyed : keyedCalls filePath? (normalizeHistory inputModalities history.items) =
      keyedCalls filePath? history.items := keyedCalls_normalizeHistory
  rw [hPlace, ← hLater, ← hKeyed, hNormalized]
  refine compact_getElem? _ _ ?_
  rw [← hNormalized, hKeyed, outputKey?_strip, hKey]

/-- The last output recorded for a key is followed by no interrupted call of that key, unless it is
the stub already. -/
def LatestUninterrupted (filePath? : Text → Option Text) (items : List ResponseItem) : Prop :=
  let keyed := keyedCalls filePath? items
  ∀ older item newer key stub, items = older ++ item :: newer →
    outputKey? keyed item = some (key, stub) → newer.any (carries keyed key) = false →
    newer.any (abortsWith keyed items key) = true → stubbed stub item = item

/-- Stripping images makes no stub. -/
theorem stubbed_strip_eq_iff : stubbed stub (stripImagesWhenUnsupported inputModalities item) =
      stripImagesWhenUnsupported inputModalities item ↔ stubbed stub item = item := by
  unfold stripImagesWhenUnsupported
  split
  · rfl
  · cases item with
    | functionCallOutput callId output =>
      obtain ⟨body, success⟩ := output
      cases body <;> simp [stripImages, stripOutput, stubbed]
    | _ => simp [stripImages, stubbed]

/-- **The latest diagnostics are sent**: the last output recorded for a key as without compaction,
every earlier one as the stub of the key, and all else as without compaction. That is so exactly if no
interrupted call comes after the last output of its key. -/
theorem forPrompt_keeps_latest_iff (filePath? : Text → Option Text)
    (inputModalities : List InputModality) (history : ContextManager) :
    let keyed := keyedCalls filePath? history.items
    let plain := history.forPrompt filePath? false inputModalities
    let prompt := history.forPrompt filePath? true inputModalities
    ((∀ older item newer key stub, history.items = older ++ item :: newer →
        outputKey? keyed item = some (key, stub) →
        let place := placeOf inputModalities history.items older.length
        plain[place]? = some (stripImagesWhenUnsupported inputModalities item) ∧
          (newer.any (carries keyed key) = false → prompt[place]? = plain[place]?) ∧
          (newer.any (carries keyed key) = true →
            prompt[place]? = some (stubbed stub (stripImagesWhenUnsupported inputModalities item)))) ∧
      prompt.length = plain.length ∧
      ∀ (p : Nat) item, plain[p]? = some item → outputKey? keyed item = none →
        prompt[p]? = some item) ↔
      LatestUninterrupted filePath? history.items := by
  intro keyed plain prompt
  constructor
  · rintro ⟨hOutputs, -⟩ older item newer key stub hItems hKey hLast hAborts
    obtain ⟨hPlain, hPrompt⟩ := forPrompt_getElem? inputModalities history hItems hKey
    -- what was put in for the interrupted call turned the output into the stub
    have hLater : newer.any (fun later => carries keyed key later ||
        abortsWith keyed history.items key later) = true := by
      obtain ⟨later, hMem, hLater⟩ := any_eq_true.mp hAborts
      exact any_eq_true.mpr ⟨later, hMem, by rw [hLater, Bool.or_true]⟩
    have hKept := (hOutputs older item newer key stub hItems hKey).2.1 hLast
    rw [hPrompt, if_pos hLater, hPlain, Option.some.injEq] at hKept
    exact stubbed_strip_eq_iff.mp hKept
  · intro h
    refine ⟨fun older item newer key stub hItems hKey => ?_, ?_, fun p item hItem hKey => ?_⟩
    · obtain ⟨hPlain, hPrompt⟩ := forPrompt_getElem? inputModalities history hItems hKey
      refine ⟨hPlain, fun hLast => ?_, fun hLater => ?_⟩
      · refine (hPrompt.trans ?_).trans hPlain.symm
        split
        · next hAny =>
          -- no output was recorded later, so one was put in
          obtain ⟨later, hMem, hLater⟩ := any_eq_true.mp hAny
          rw [Bool.eq_false_iff.mpr (any_eq_false.mp hLast later hMem), Bool.false_or] at hLater
          have hAborts := any_eq_true.mpr ⟨later, hMem, hLater⟩
          rw [stubbed_strip_eq_iff.mpr (h older item newer key stub hItems hKey hLast hAborts)]
        · rfl
      · obtain ⟨later, hMem, hCarries⟩ := any_eq_true.mp hLater
        rw [if_pos (any_eq_true.mpr ⟨later, hMem, by rw [hCarries, Bool.true_or]⟩)] at hPrompt
        exact hPrompt
    · show (compactSupersededDiagnostics _ _).length = _
      unfold compactSupersededDiagnostics
      dsimp only
      split
      · rfl
      · rw [length_map, length_zipIdx]
        rfl
    · refine compact_getElem?_of_none hItem ?_
      rwa [keyedCalls_normalizeHistory]

def buildCall (callId : String) : ResponseItem :=
  .functionCall "mcp__lean__lean_build" none [] callId

def buildOutput (callId message : String) : ResponseItem :=
  .functionCallOutput callId (.fromText message.toList)

/-- A build with its output, and a build that was interrupted. Of the two outputs that are sent, the
one that was recorded is the stub. -/
theorem interrupted_build_supersedes :
    let history := { ContextManager.new with
      items := [buildCall "a", buildOutput "a" "error", buildCall "b"] }
    history.forPrompt (fun _ => none) true [.text] =
      [buildCall "a", stubbed supersededBuild.2 (buildOutput "a" "error"), buildCall "b",
        buildOutput "b" "aborted"] := by
  decide

end Codex
