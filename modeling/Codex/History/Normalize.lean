import Codex.Protocol.Items
import Codex.Lib.Splice
import Mathlib.Data.List.Forall2

/-!
# Codex — the history that is sent to the model

`core/src/context_manager/normalize.rs` and `ContextManager::normalize_history`: before
a history is sent, every call gets an output, outputs without a call go, and images go
if the model does not take them. What a missing output or call logs (`error_or_panic`)
is left out.

`answers` says which output belongs to which call: by its kind and its id. All passes
are stated in its terms (`missingOutput?_spec`, `isRetained_iff`), and stripping images
does not change it (`answers_stripImages`).

Result: `normalizeHistory_normalizes`.
-/

namespace Codex

open List

inductive InputModality where
  | text
  | image
  deriving DecidableEq, Repr

def FunctionCallOutputPayload.fromText (content : Text) : FunctionCallOutputPayload :=
  { body := .text content, success := none }

/-! ## Ids -/

namespace ResponseItem

def functionCallId? : ResponseItem → Option String
  | .functionCall _ _ _ callId => some callId
  | _ => none

def localShellCallId? : ResponseItem → Option String
  | .localShellCall callId => callId
  | _ => none

def customToolCallId? : ResponseItem → Option String
  | .customToolCall callId _ _ => some callId
  | _ => none

def toolSearchCallId? : ResponseItem → Option String
  | .toolSearchCall callId _ => callId
  | _ => none

def functionCallOutputId? : ResponseItem → Option String
  | .functionCallOutput callId _ => some callId
  | _ => none

def customToolCallOutputId? : ResponseItem → Option String
  | .customToolCallOutput callId _ _ => some callId
  | _ => none

def toolSearchOutputId? : ResponseItem → Option String
  | .toolSearchOutput callId _ _ => callId
  | _ => none

end ResponseItem

open ResponseItem

/-! ## Missing outputs -/

/-- Some item is an output of the kind with the id. -/
def hasOutput (outputId? : ResponseItem → Option String) (items : List ResponseItem)
    (callId : String) : Bool :=
  items.any fun item => outputId? item == some callId

/-- The output to insert after an item, if it is a call without one. The tools of a
search output, an empty list here, are not part of the model's items. -/
def missingOutput? (items : List ResponseItem) : ResponseItem → Option ResponseItem
  | .functionCall _ _ _ callId =>
    if hasOutput functionCallOutputId? items callId then none
    else some (.functionCallOutput callId (.fromText "aborted".toList))
  | .toolSearchCall (some callId) _ =>
    if hasOutput toolSearchOutputId? items callId then none
    else some (.toolSearchOutput (some callId) "completed" "client")
  | .customToolCall callId _ _ =>
    if hasOutput customToolCallOutputId? items callId then none
    else some (.customToolCallOutput callId none (.fromText "aborted".toList))
  -- the output of a local shell call is a function call output
  | .localShellCall (some callId) =>
    if hasOutput functionCallOutputId? items callId then none
    else some (.functionCallOutput callId (.fromText "aborted".toList))
  | _ => none

def ensureCallOutputsPresent (items : List ResponseItem) : List ResponseItem :=
  let missingOutputsToInsert :=
    items.zipIdx.filterMap fun p => (missingOutput? items p.1).map (p.2, ·)
  Splice.insertAfter missingOutputsToInsert items

/-! ## Orphan outputs -/

/-- The ids of the calls of a kind. -/
def callIds (callId? : ResponseItem → Option String) (items : List ResponseItem) : List String :=
  items.filterMap callId?

def isRetained (items : List ResponseItem) : ResponseItem → Bool
  | .functionCallOutput callId _ =>
    (callIds functionCallId? items).contains callId ||
      (callIds localShellCallId? items).contains callId
  | .customToolCallOutput callId _ _ => (callIds customToolCallId? items).contains callId
  | .toolSearchOutput callId _ execution =>
    if execution = "server" then true
    else match callId with
      | some callId => (callIds toolSearchCallId? items).contains callId
      | none => true
  | _ => true

def removeOrphanOutputs (items : List ResponseItem) : List ResponseItem :=
  items.filter (isRetained items)

/-! ## Images -/

def imageContentOmittedPlaceholder : Text :=
  "image content omitted because you do not support image input".toList

def stripContentItem : ContentItem → ContentItem
  | .inputImage _ _ => .inputText imageContentOmittedPlaceholder
  | item => item

def stripOutputContentItem : FunctionCallOutputContentItem → FunctionCallOutputContentItem
  | .inputImage _ _ => .inputText imageContentOmittedPlaceholder
  | item => item

def stripOutput (output : FunctionCallOutputPayload) : FunctionCallOutputPayload :=
  match output.body with
  | .text _ => output
  | .contentItems items => { output with body := .contentItems (items.map stripOutputContentItem) }

def stripImages : ResponseItem → ResponseItem
  | .message id role content phase => .message id role (content.map stripContentItem) phase
  | .functionCallOutput callId output => .functionCallOutput callId (stripOutput output)
  | .customToolCallOutput callId name output => .customToolCallOutput callId name (stripOutput output)
  | .imageGenerationCall id status revisedPrompt _ => .imageGenerationCall id status revisedPrompt []
  | item => item

/-- What becomes of an item that stays. -/
def stripImagesWhenUnsupported (inputModalities : List InputModality) (item : ResponseItem) :
    ResponseItem :=
  if inputModalities.contains .image then item else stripImages item

def normalizeHistory (inputModalities : List InputModality) (items : List ResponseItem) :
    List ResponseItem :=
  (removeOrphanOutputs (ensureCallOutputsPresent items)).map
    (stripImagesWhenUnsupported inputModalities)

/-! ## Calls and outputs -/

namespace ResponseItem

/-- Calls that can be answered. -/
def isCall : ResponseItem → Bool
  | .functionCall _ _ _ _ | .localShellCall (some _) | .customToolCall _ _ _
  | .toolSearchCall (some _) _ => true
  | _ => false

def isOutput : ResponseItem → Bool
  | .functionCallOutput _ _ | .customToolCallOutput _ _ _ | .toolSearchOutput _ _ _ => true
  | _ => false

/-- Outputs that must have a call. -/
def needsCall : ResponseItem → Bool
  | .functionCallOutput _ _ | .customToolCallOutput _ _ _ => true
  | .toolSearchOutput (some _) _ execution => execution ≠ "server"
  | _ => false

/-- The output is of the kind for the call and has its id. -/
def answers : (output call : ResponseItem) → Bool
  | .functionCallOutput existing _, .functionCall _ _ _ callId => callId == existing
  | .functionCallOutput existing _, .localShellCall (some callId) => callId == existing
  | .customToolCallOutput existing _ _, .customToolCall callId _ _ => callId == existing
  | .toolSearchOutput (some existing) _ _, .toolSearchCall (some callId) _ => callId == existing
  | _, _ => false

/-- Images, and results of image generation. -/
def hasImageContent : ResponseItem → Bool
  | .message _ _ content _ => content.any fun
    | .inputImage _ _ => true
    | _ => false
  | .functionCallOutput _ output | .customToolCallOutput _ _ output =>
    match output.body with
    | .text _ => false
    | .contentItems items => items.any fun
      | .inputImage _ _ => true
      | _ => false
  | .imageGenerationCall _ _ _ result => !result.isEmpty
  | _ => false

end ResponseItem

/-! ### Slots -/

/-- Local shell calls are answered like function calls. -/
inductive CallKind where
  | function
  | customTool
  | toolSearch
  deriving DecidableEq

namespace ResponseItem

/-- What a call is to be answered under, if it can be answered. -/
def callSlot? : ResponseItem → Option (CallKind × String)
  | .functionCall _ _ _ callId | .localShellCall (some callId) => some (.function, callId)
  | .customToolCall callId _ _ => some (.customTool, callId)
  | .toolSearchCall (some callId) _ => some (.toolSearch, callId)
  | _ => none

def outputSlot? : ResponseItem → Option (CallKind × String)
  | .functionCallOutput callId _ => some (.function, callId)
  | .customToolCallOutput callId _ _ => some (.customTool, callId)
  | .toolSearchOutput (some callId) _ _ => some (.toolSearch, callId)
  | _ => none

end ResponseItem

variable {items : List ResponseItem} {item call output : ResponseItem} {callId : String}
variable {inputModalities : List InputModality} {slot : CallKind × String}

theorem outputId?_iff (item : ResponseItem) (callId : String) :
    (functionCallOutputId? item = some callId ↔ outputSlot? item = some (.function, callId)) ∧
      (customToolCallOutputId? item = some callId ↔
        outputSlot? item = some (.customTool, callId)) ∧
      (toolSearchOutputId? item = some callId ↔ outputSlot? item = some (.toolSearch, callId)) := by
  unfold functionCallOutputId? customToolCallOutputId? toolSearchOutputId? outputSlot?
  cases item with
  | toolSearchOutput id status execution => cases id <;> simp
  | _ => simp

theorem callId?_iff (item : ResponseItem) (callId : String) :
    (functionCallId? item = some callId ∨ localShellCallId? item = some callId ↔
        callSlot? item = some (.function, callId)) ∧
      (customToolCallId? item = some callId ↔ callSlot? item = some (.customTool, callId)) ∧
      (toolSearchCallId? item = some callId ↔ callSlot? item = some (.toolSearch, callId)) := by
  unfold functionCallId? localShellCallId? customToolCallId? toolSearchCallId? callSlot?
  cases item with
  | localShellCall id | toolSearchCall id _ => cases id <;> simp
  | _ => simp

/-- An output answers the calls with its slot. -/
theorem answers_iff :
    answers output call = true ↔ ∃ slot, outputSlot? output = some slot ∧ callSlot? call = some slot := by
  cases output with
  | functionCallOutput | customToolCallOutput =>
    cases call with
    | localShellCall id | toolSearchCall id _ => cases id <;> simp [answers, outputSlot?, callSlot?]
    | _ => simp [answers, outputSlot?, callSlot?]
  | toolSearchOutput id status execution =>
    rcases id with _ | callId
    · exact ⟨nofun, nofun⟩
    cases call with
    | localShellCall id | toolSearchCall id _ =>
      cases id <;> simp [answers, outputSlot?, callSlot?]
    | _ => simp [answers, outputSlot?, callSlot?]
  | _ => exact ⟨nofun, nofun⟩

theorem isCall_eq (item : ResponseItem) : isCall item = (callSlot? item).isSome := by
  unfold isCall callSlot?
  split <;> rfl

/-- No item is both. -/
theorem outputSlot?_of_callSlot? (h : callSlot? item = some slot) :
    outputSlot? item = none ∧ isOutput item = false := by
  cases item <;> first | exact ⟨rfl, rfl⟩ | cases h

theorem isOutput_of_answers (h : answers output call = true) : isOutput output = true := by
  cases output <;> first | rfl | cases h

theorem isCall_of_answers (h : answers output call = true) : isCall call = true := by
  obtain ⟨slot, -, hSlot⟩ := answers_iff.mp h
  rw [isCall_eq, hSlot]
  rfl

theorem not_isCall_of_isOutput (h : isOutput item = true) : isCall item = false := by
  cases item <;> first | rfl | cases h

theorem isOutput_of_needsCall (h : needsCall item = true) : isOutput item = true := by
  cases item <;> first | rfl | cases h

/-- A call gets an output under its slot, unless there is one. -/
theorem missingOutput?_spec (items : List ResponseItem) (h : callSlot? call = some slot) :
    ∃ output, outputSlot? output = some slot ∧ missingOutput? items call =
      if items.any (outputSlot? · == some slot) then none else some output := by
  have hHas : ∀ (outputId? : ResponseItem → Option String) (kind : CallKind) (callId : String),
      (∀ item, outputId? item = some callId ↔ outputSlot? item = some (kind, callId)) →
      hasOutput outputId? items callId = items.any (outputSlot? · == some (kind, callId)) := by
    intro outputId? kind callId hId
    refine any_congr rfl fun item => ?_
    rw [Bool.eq_iff_iff, beq_iff_eq, beq_iff_eq, hId]
  unfold callSlot? at h
  split at h
  · cases h
    exact ⟨_, rfl, by rw [missingOutput?, hHas _ _ _ fun item => (outputId?_iff item _).1]⟩
  · cases h
    exact ⟨_, rfl, by rw [missingOutput?, hHas _ _ _ fun item => (outputId?_iff item _).1]⟩
  · cases h
    exact ⟨_, rfl, by rw [missingOutput?, hHas _ _ _ fun item => (outputId?_iff item _).2.1]⟩
  · cases h
    exact ⟨_, rfl, by rw [missingOutput?, hHas _ _ _ fun item => (outputId?_iff item _).2.2]⟩
  · cases h

/-- A call misses no output if and only if it has one. -/
theorem missingOutput?_eq_none_iff (hCall : isCall call = true) :
    missingOutput? items call = none ↔ ∃ output ∈ items, answers output call = true := by
  rw [isCall_eq] at hCall
  obtain ⟨slot, hSlot⟩ := Option.isSome_iff_exists.mp hCall
  obtain ⟨output, -, hMissing⟩ := missingOutput?_spec items hSlot
  simp [hMissing, answers_iff, hSlot]

/-- An output that is put in answers its call. -/
theorem answers_of_missingOutput? (h : missingOutput? items call = some output) :
    answers output call = true := by
  rcases hSlot : callSlot? call with _ | slot
  · unfold missingOutput? at h
    split at h <;> first | cases hSlot | cases h
  obtain ⟨inserted, hInserted, hMissing⟩ := missingOutput?_spec items hSlot
  rw [hMissing] at h
  split at h
  · cases h
  · cases h
    exact answers_iff.mpr ⟨slot, hInserted, hSlot⟩

theorem contains_callIds_iff {callId? : ResponseItem → Option String} :
    (callIds callId? items).contains callId = true ↔ ∃ item ∈ items, callId? item = some callId := by
  simp [callIds]

/-- An output stays if and only if it has a call or needs none. -/
theorem isRetained_iff : isRetained items item = true ↔
      (needsCall item = true → ∃ call ∈ items, answers item call = true) := by
  cases item with
  | functionCallOutput callId payload =>
    simp only [isRetained, needsCall, Bool.or_eq_true, contains_callIds_iff, ← exists_or,
      ← and_or_left, (callId?_iff _ callId).1]
    simp [answers_iff, outputSlot?]
  | customToolCallOutput callId name payload =>
    simp only [isRetained, needsCall, contains_callIds_iff, (callId?_iff _ callId).2.1]
    simp [answers_iff, outputSlot?]
  | toolSearchOutput id status execution =>
    rcases id with _ | callId
    · simp [isRetained, needsCall]
    by_cases hServer : execution = "server"
    · simp [isRetained, needsCall, hServer]
    · simp only [isRetained, needsCall, hServer, if_false, contains_callIds_iff,
        (callId?_iff _ callId).2.2, ne_eq]
      simp [answers_iff, outputSlot?]
  | _ => simp [isRetained, needsCall]

/-! ## The passes -/

/-- Every call has an output and every output its call. -/
structure Paired (items : List ResponseItem) : Prop where
  answered : ∀ call ∈ items, isCall call = true → ∃ output ∈ items, answers output call = true
  called : ∀ output ∈ items, needsCall output = true → ∃ call ∈ items, answers output call = true

theorem ensureCallOutputsPresent_eq (items : List ResponseItem) : ensureCallOutputsPresent items =
      items.flatMap fun item => item :: (missingOutput? items item).toList :=
  Splice.insertAfter_eq_flatMap (missingOutput? items) items

theorem mem_ensureCallOutputsPresent : item ∈ ensureCallOutputsPresent items ↔
      item ∈ items ∨ ∃ call ∈ items, missingOutput? items call = some item := by
  rw [ensureCallOutputsPresent_eq, mem_flatMap]
  simp only [mem_cons, Option.mem_toList, and_or_left, exists_or, exists_eq_right']

theorem answered_ensureCallOutputsPresent (h : call ∈ ensureCallOutputsPresent items)
    (hCall : isCall call = true) :
    ∃ output ∈ ensureCallOutputsPresent items, answers output call = true := by
  have hMem : call ∈ items := by
    rcases mem_ensureCallOutputsPresent.mp h with hItem | ⟨call, -, hMissing⟩
    · exact hItem
    · -- what is put in is an output, so the calls are those of before
      rw [not_isCall_of_isOutput (isOutput_of_answers (answers_of_missingOutput? hMissing))] at hCall
      cases hCall
  cases hMissing : missingOutput? items call with
  | some output =>
    exact ⟨output, mem_ensureCallOutputsPresent.mpr (.inr ⟨call, hMem, hMissing⟩),
      answers_of_missingOutput? hMissing⟩
  | none =>
    obtain ⟨output, hOutput, hAnswers⟩ := (missingOutput?_eq_none_iff hCall).mp hMissing
    exact ⟨output, mem_ensureCallOutputsPresent.mpr (.inl hOutput), hAnswers⟩

theorem mem_removeOrphanOutputs : item ∈ removeOrphanOutputs items ↔
      item ∈ items ∧ (needsCall item = true → ∃ call ∈ items, answers item call = true) := by
  unfold removeOrphanOutputs
  rw [mem_filter, isRetained_iff]

theorem paired_removeOrphanOutputs
    (h : ∀ call ∈ items, isCall call = true → ∃ output ∈ items, answers output call = true) :
    Paired (removeOrphanOutputs items) where
  answered call hMem hCall := by
    have hBefore := (mem_removeOrphanOutputs.mp hMem).1
    obtain ⟨output, hOutput, hAnswers⟩ := h call hBefore hCall
    exact ⟨output, mem_removeOrphanOutputs.mpr ⟨hOutput, fun _ => ⟨call, hBefore, hAnswers⟩⟩,
      hAnswers⟩
  called output hMem hNeeds := by
    obtain ⟨call, hCall, hAnswers⟩ := (mem_removeOrphanOutputs.mp hMem).2 hNeeds
    refine ⟨call, mem_removeOrphanOutputs.mpr ⟨hCall, fun hNeeds => ?_⟩, hAnswers⟩
    -- calls are never removed
    have hIsCall := isCall_of_answers hAnswers
    rw [not_isCall_of_isOutput (isOutput_of_needsCall hNeeds)] at hIsCall
    cases hIsCall

/-- On paired items the two passes do nothing. -/
theorem passes_of_paired (h : Paired items) :
    ensureCallOutputsPresent items = items ∧ removeOrphanOutputs items = items := by
  constructor
  · have hNone : ∀ item ∈ items, missingOutput? items item = none := by
      intro item hItem
      cases hMissing : missingOutput? items item with
      | none => rfl
      | some output =>
        have hCall := isCall_of_answers (answers_of_missingOutput? hMissing)
        rw [(missingOutput?_eq_none_iff hCall).mpr (h.answered item hItem hCall)] at hMissing
        cases hMissing
    rw [ensureCallOutputsPresent_eq, flatMap_congr fun item hItem => by rw [hNone item hItem]]
    simp
  · exact filter_eq_self.mpr fun item hItem => isRetained_iff.mpr (h.called item hItem)

/-! ## Images -/

theorem answers_stripImages :
    answers (stripImages output) (stripImages call) = true ↔ answers output call = true := by
  have hOutput : outputSlot? (stripImages output) = outputSlot? output := by cases output <;> rfl
  have hCall : callSlot? (stripImages call) = callSlot? call := by cases call <;> rfl
  rw [answers_iff, answers_iff, hOutput, hCall]

theorem isCall_stripImages (item : ResponseItem) : isCall (stripImages item) = isCall item := by
  cases item <;> rfl

theorem needsCall_stripImages (item : ResponseItem) :
    needsCall (stripImages item) = needsCall item := by
  cases item <;> rfl

theorem stripOutput_stripOutput (output : FunctionCallOutputPayload) :
    stripOutput (stripOutput output) = stripOutput output := by
  obtain ⟨body, success⟩ := output
  cases body with
  | text text => rfl
  | contentItems items =>
    simp only [stripOutput, map_map]
    congr 2
    refine map_congr_left fun item _ => ?_
    cases item <;> rfl

theorem stripImages_stripImages (item : ResponseItem) :
    stripImages (stripImages item) = stripImages item := by
  cases item with
  | message id role content phase =>
    simp only [stripImages, map_map]
    congr 1
    refine map_congr_left fun item _ => ?_
    cases item <;> rfl
  | functionCallOutput _ _ | customToolCallOutput _ _ _ =>
    simp only [stripImages, stripOutput_stripOutput]
  | _ => rfl

theorem hasImageContent_stripImages (item : ResponseItem) :
    hasImageContent (stripImages item) = false := by
  have hOutput : ∀ output : FunctionCallOutputPayload,
      hasImageContent (.functionCallOutput "" (stripOutput output)) = false := by
    intro output
    obtain ⟨body, success⟩ := output
    cases body with
    | text text => rfl
    | contentItems items =>
      simp only [stripOutput, hasImageContent, any_map, any_eq_false]
      intro item _
      cases item <;> simp [stripOutputContentItem]
  cases item with
  | message id role content phase =>
    simp only [stripImages, hasImageContent, any_map, any_eq_false]
    intro item _
    cases item <;> simp [stripContentItem]
  | functionCallOutput _ output | customToolCallOutput _ _ output => exact hOutput output
  | _ => rfl

theorem paired_map_stripImages (h : Paired items) : Paired (items.map stripImages) where
  answered call hMem hCall := by
    obtain ⟨original, hOriginal, rfl⟩ := mem_map.mp hMem
    rw [isCall_stripImages] at hCall
    obtain ⟨output, hOutput, hAnswers⟩ := h.answered original hOriginal hCall
    exact ⟨stripImages output, mem_map_of_mem hOutput, answers_stripImages.mpr hAnswers⟩
  called output hMem hNeeds := by
    obtain ⟨original, hOriginal, rfl⟩ := mem_map.mp hMem
    rw [needsCall_stripImages] at hNeeds
    obtain ⟨call, hCall, hAnswers⟩ := h.called original hOriginal hNeeds
    exact ⟨stripImages call, mem_map_of_mem hCall, answers_stripImages.mpr hAnswers⟩

section

variable {α : Type} {isImage : α → Bool} {f : α → α}

/-- The parts are the same, but for the images among them. -/
def SameParts (isImage : α → Bool) (parts parts' : List α) : Prop :=
  Forall₂ (fun part part' => part' = part ∨ isImage part = true) parts parts'

theorem sameParts_map (h : ∀ part, f part = part ∨ isImage part = true) (parts : List α) :
    SameParts isImage parts (parts.map f) :=
  forall₂_map_right_iff.mpr (forall₂_same.mpr fun part _ => h part)

end

def ContentItem.isImage : ContentItem → Bool
  | .inputImage _ _ => true
  | _ => false

def FunctionCallOutputContentItem.isImage : FunctionCallOutputContentItem → Bool
  | .inputImage _ _ => true
  | _ => false

/-- The item is the same, but for its images. -/
inductive SameButImages : ResponseItem → ResponseItem → Prop
  | verbatim (item : ResponseItem) : SameButImages item item
  | message {id role phase} {content content' : List ContentItem}
      (h : SameParts ContentItem.isImage content content') :
      SameButImages (.message id role content phase) (.message id role content' phase)
  | functionCallOutput {callId success} {items items' : List FunctionCallOutputContentItem}
      (h : SameParts FunctionCallOutputContentItem.isImage items items') :
      SameButImages (.functionCallOutput callId ⟨.contentItems items, success⟩)
        (.functionCallOutput callId ⟨.contentItems items', success⟩)
  | customToolCallOutput {callId name success} {items items' : List FunctionCallOutputContentItem}
      (h : SameParts FunctionCallOutputContentItem.isImage items items') :
      SameButImages (.customToolCallOutput callId name ⟨.contentItems items, success⟩)
        (.customToolCallOutput callId name ⟨.contentItems items', success⟩)
  | imageGenerationCall {id status revisedPrompt result result'} :
      SameButImages (.imageGenerationCall id status revisedPrompt result)
        (.imageGenerationCall id status revisedPrompt result')

theorem sameButImages_stripImages (item : ResponseItem) : SameButImages item (stripImages item) := by
  have hPart : ∀ part, stripContentItem part = part ∨ part.isImage = true := by
    intro part
    cases part <;> simp [stripContentItem, ContentItem.isImage]
  have hOutputPart : ∀ part, stripOutputContentItem part = part ∨ part.isImage = true := by
    intro part
    cases part <;> simp [stripOutputContentItem, FunctionCallOutputContentItem.isImage]
  cases item with
  | message id role content phase => exact .message (sameParts_map hPart content)
  | functionCallOutput callId output =>
    obtain ⟨body, success⟩ := output
    cases body with
    | text _ => exact .verbatim _
    | contentItems items => exact .functionCallOutput (sameParts_map hOutputPart items)
  | customToolCallOutput callId name output =>
    obtain ⟨body, success⟩ := output
    cases body with
    | text _ => exact .verbatim _
    | contentItems items => exact .customToolCallOutput (sameParts_map hOutputPart items)
  | imageGenerationCall _ _ _ _ => exact .imageGenerationCall
  | _ => exact .verbatim _

/-! ## The history -/

theorem paired_normalizeHistory (inputModalities : List InputModality) (items : List ResponseItem) :
    Paired (normalizeHistory inputModalities items) := by
  have hPaired : Paired (removeOrphanOutputs (ensureCallOutputsPresent items)) :=
    paired_removeOrphanOutputs fun call => answered_ensureCallOutputsPresent
  unfold normalizeHistory
  unfold stripImagesWhenUnsupported
  split
  · rwa [map_id']
  · exact paired_map_stripImages hPaired

/-- Items that are no outputs stay, and outputs that had a call, in their order. -/
theorem kept_sublist (items : List ResponseItem) :
    (items.filter fun item => !isOutput item || items.any (answers item)).Sublist
      (removeOrphanOutputs (ensureCallOutputsPresent items)) := by
  have hItems : items.Sublist (ensureCallOutputsPresent items) := by
    rw [ensureCallOutputsPresent_eq]
    have hPass : ∀ xs : List ResponseItem,
        xs.Sublist (xs.flatMap fun item => item :: (missingOutput? items item).toList) := by
      intro xs
      induction xs with
      | nil => exact .slnil
      | cons x xs ih =>
        exact (ih.trans (sublist_append_right _ _)).cons_cons x
    exact hPass items
  have hKept : ∀ item ∈ items, (!isOutput item || items.any (answers item)) = true →
      isRetained (ensureCallOutputsPresent items) item = true := by
    intro item _ hKeep
    refine isRetained_iff.mpr fun hNeeds => ?_
    rw [isOutput_of_needsCall hNeeds, Bool.not_true] at hKeep
    obtain ⟨call, hCall, hAnswers⟩ := any_eq_true.mp hKeep
    exact ⟨call, mem_ensureCallOutputsPresent.mpr (.inl hCall), hAnswers⟩
  have hFilter : items.filter (fun item => !isOutput item || items.any (answers item)) =
      (items.filter fun item => !isOutput item || items.any (answers item)).filter
        (isRetained (ensureCallOutputsPresent items)) := by
    refine (filter_eq_self.mpr fun item hItem => ?_).symm
    exact hKept item (mem_filter.mp hItem).1 (mem_filter.mp hItem).2
  rw [hFilter]
  exact (filter_sublist.trans hItems).filter _

/-- **What `normalize_history` guarantees, for every history.** What survives does so verbatim if the
model takes images, and otherwise but for its images. -/
theorem normalizeHistory_normalizes (inputModalities : List InputModality)
    (items : List ResponseItem) :
    let normalized := normalizeHistory inputModalities items
    let survivors := items.filter fun item => !isOutput item || items.any (answers item)
    (∀ call ∈ normalized, isCall call = true → ∃ output ∈ normalized, answers output call = true) ∧
      (∀ output ∈ normalized, needsCall output = true →
        ∃ call ∈ normalized, answers output call = true) ∧
      (InputModality.image ∈ inputModalities → survivors.Sublist normalized) ∧
      (∃ kept : List ResponseItem, kept.Sublist normalized ∧ Forall₂ SameButImages survivors kept) ∧
      (InputModality.image ∉ inputModalities →
        ∀ item ∈ normalized, hasImageContent item = false) ∧
      normalizeHistory inputModalities normalized = normalized := by
  have hPaired := paired_normalizeHistory inputModalities items
  have hKept := (kept_sublist items).map (stripImagesWhenUnsupported inputModalities)
  refine ⟨hPaired.answered, hPaired.called, fun hImages => ?_, ⟨_, hKept, ?_⟩, ?_, ?_⟩
  · have hSame : stripImagesWhenUnsupported inputModalities = id := by
      funext item
      exact if_pos (by simpa using hImages)
    show Sublist _ (map _ _)
    rw [hSame, map_id]
    exact kept_sublist items
  · refine forall₂_map_right_iff.mpr (forall₂_same.mpr fun item _ => ?_)
    unfold stripImagesWhenUnsupported
    split
    · exact .verbatim item
    · exact sameButImages_stripImages item
  · intro hUnsupported item hItem
    obtain ⟨original, -, rfl⟩ := mem_map.mp hItem
    unfold stripImagesWhenUnsupported
    rw [if_neg (by simpa using hUnsupported)]
    exact hasImageContent_stripImages original
  · obtain ⟨hEnsure, hRemove⟩ := passes_of_paired hPaired
    have hStrip : ∀ item, stripImagesWhenUnsupported inputModalities
        (stripImagesWhenUnsupported inputModalities item) =
          stripImagesWhenUnsupported inputModalities item := by
      intro item
      unfold stripImagesWhenUnsupported
      split
      · rfl
      · exact stripImages_stripImages item
    rw [normalizeHistory, hEnsure, hRemove, normalizeHistory, map_map]
    exact map_congr_left fun item _ => hStrip item

end Codex
