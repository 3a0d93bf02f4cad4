import Codex.StreamParser.TagChunking
import Codex.StreamParser.TaggedLines

/-!
# Codex — assistant text in chunks

`utils/stream-parser/src/{citation,proposed_plan,assistant_text}.rs`. Assistant text passes
two parsers: `<oai-mem-citation>` tags are taken out, and in plan mode what is left is cut
at the lines that open and close a `<proposed_plan>` block. Both hold text back at the end
of a chunk, and a plan tag may be cut by a citation.

`reference` says what the text as a whole stands for: `citationSpans` takes the citations
out from left to right, `planLines` goes over the lines of the rest. The main result is
`assistant_text_chunking`: whatever the chunks, what is handed out adds up to the reference,
once neighbouring pieces of one kind are merged.
-/

namespace Codex.StreamParser

open Search Transducer List Text

/-! ## Citations -/

inductive CitationTag where
  | citation
  deriving DecidableEq, Repr

def citationOpen : Text := "<oai-mem-citation>".toList
def citationClose : Text := "</oai-mem-citation>".toList

def citationSpec : InlineTagSpec CitationTag where
  tag := .citation
  openText := citationOpen
  closeText := citationClose

theorem citation_accepted : Accepted [citationSpec] :=
  ⟨cons_ne_nil _ _, forall_mem_singleton.mpr (cons_ne_nil _ _),
    forall_mem_singleton.mpr (cons_ne_nil _ _)⟩

structure CitationStreamParser where
  inner : InlineHiddenTagParser CitationTag

def CitationStreamParser.new : CitationStreamParser :=
  ⟨InlineHiddenTagParser.new [citationSpec] citation_accepted⟩

/-- The bodies of the extracted tags. -/
def citationChunk (inner : StreamTextChunk (ExtractedInlineTag CitationTag)) :
    StreamTextChunk Text where
  visibleText := inner.visibleText
  extracted := inner.extracted.map ExtractedInlineTag.content

instance : StreamTextParser CitationStreamParser Text where
  pushStr parser chunk :=
    let (out, inner) := parser.inner.pushStr chunk
    (citationChunk out, ⟨inner⟩)
  finish parser :=
    let (out, inner) := parser.inner.finish
    (citationChunk out, ⟨inner⟩)

/-! ## Plans -/

def planOpenTag : Text := "<proposed_plan>".toList
def planCloseTag : Text := "</proposed_plan>".toList

inductive PlanTag where
  | proposedPlan
  deriving DecidableEq, Repr

inductive ProposedPlanSegment where
  | normal (text : Text)
  | proposedPlanStart
  | proposedPlanDelta (text : Text)
  | proposedPlanEnd
  deriving DecidableEq, Repr

structure ProposedPlanParser where
  parser : TaggedLineParser PlanTag

def planSpec : TagSpec PlanTag where
  openText := planOpenTag
  closeText := planCloseTag
  tag := .proposedPlan

def ProposedPlanParser.new : ProposedPlanParser := ⟨TaggedLineParser.new [planSpec]⟩

/-- The match in the loop of `map_segments`. -/
def planSegment : TaggedLineSegment PlanTag → ProposedPlanSegment
  | .normal text => .normal text
  | .tagStart .proposedPlan => .proposedPlanStart
  | .tagDelta .proposedPlan text => .proposedPlanDelta text
  | .tagEnd .proposedPlan => .proposedPlanEnd

/-- The text of a segment outside of plans. -/
def ProposedPlanSegment.normalText : ProposedPlanSegment → Text
  | .normal text => text
  | _ => []

def mapSegments (segments : List (TaggedLineSegment PlanTag)) :
    StreamTextChunk ProposedPlanSegment :=
  segments.foldl
    (fun out segment =>
      let mapped := planSegment segment
      { visibleText := out.visibleText ++ mapped.normalText
        extracted := out.extracted ++ [mapped] })
    0

instance : StreamTextParser ProposedPlanParser ProposedPlanSegment where
  pushStr plan chunk :=
    let (segments, parser) := plan.parser.parse chunk
    (mapSegments segments, ⟨parser⟩)
  finish plan :=
    let (segments, parser) := plan.parser.finish
    (mapSegments segments, ⟨parser⟩)

/-! ## Assistant text -/

structure AssistantTextChunk where
  visibleText : Text
  citations : List Text
  planSegments : List ProposedPlanSegment
  deriving DecidableEq, Repr

namespace AssistantTextChunk

/-- `AssistantTextChunk::default`. -/
instance : Zero AssistantTextChunk := ⟨{ visibleText := [], citations := [], planSegments := [] }⟩

/-- Chunks add up field by field. -/
instance : Add AssistantTextChunk :=
  ⟨fun a b =>
    { visibleText := a.visibleText ++ b.visibleText
      citations := a.citations ++ b.citations
      planSegments := a.planSegments ++ b.planSegments }⟩

instance : AddMonoid AssistantTextChunk where
  add_assoc a b c := by
    show AssistantTextChunk.mk _ _ _ = AssistantTextChunk.mk _ _ _
    exact congr (congr (congrArg _ (append_assoc _ _ _)) (append_assoc _ _ _))
      (append_assoc _ _ _)
  zero_add a := rfl
  add_zero a := by
    show AssistantTextChunk.mk _ _ _ = AssistantTextChunk.mk _ _ _
    exact congr (congr (congrArg _ (append_nil _)) (append_nil _)) (append_nil _)
  nsmul := nsmulRec

end AssistantTextChunk

structure AssistantTextStreamParser where
  planMode : Bool
  citations : CitationStreamParser
  plan : ProposedPlanParser

namespace AssistantTextStreamParser

def new (planMode : Bool) : AssistantTextStreamParser where
  planMode := planMode
  citations := .new
  plan := .new

def parseVisibleText (parser : AssistantTextStreamParser) (visibleText : Text) :
    AssistantTextChunk × AssistantTextStreamParser :=
  if !parser.planMode then
    ({ visibleText, citations := [], planSegments := [] }, parser)
  else
    let (planChunk, plan) := StreamTextParser.pushStr parser.plan visibleText
    ({ visibleText := planChunk.visibleText, citations := [], planSegments := planChunk.extracted },
      { parser with plan })

def pushStr (parser : AssistantTextStreamParser) (chunk : Text) :
    AssistantTextChunk × AssistantTextStreamParser :=
  let (citationChunk, citations) := StreamTextParser.pushStr parser.citations chunk
  let (out, parser) := { parser with citations }.parseVisibleText citationChunk.visibleText
  ({ out with citations := citationChunk.extracted }, parser)

/-- What `finish` does with the flush of the plan parser. -/
def appendTail (out : AssistantTextChunk) (tail : StreamTextChunk ProposedPlanSegment) :
    AssistantTextChunk :=
  if tail.isEmpty then out
  else
    { out with
      visibleText := out.visibleText ++ tail.visibleText
      planSegments := out.planSegments ++ tail.extracted }

def finish (parser : AssistantTextStreamParser) : AssistantTextChunk × AssistantTextStreamParser :=
  let (citationChunk, citations) := StreamTextParser.finish parser.citations
  let (out, parser) := { parser with citations }.parseVisibleText citationChunk.visibleText
  let (out, parser) :=
    if parser.planMode then
      let (tail, plan) := StreamTextParser.finish parser.plan
      (appendTail out tail, { parser with plan })
    else (out, parser)
  ({ out with citations := citationChunk.extracted }, parser)

/-- The parser as a machine that is fed in chunks. -/
def machine : Transducer.Machine AssistantTextStreamParser Char AssistantTextChunk where
  push := pushStr
  finish := finish

/-- Everything handed out for a text that comes in chunks. -/
def collectChunks (planMode : Bool) (chunks : List Text) : AssistantTextChunk :=
  machine.collect (new planMode) chunks

end AssistantTextStreamParser

/-! ## What a text stands for -/

/-- `segment` in front, merged with the first of the others if both are text of one kind. -/
def mergeFront : ProposedPlanSegment → List ProposedPlanSegment → List ProposedPlanSegment
  | .normal text, .normal more :: rest => .normal (text ++ more) :: rest
  | .proposedPlanDelta text, .proposedPlanDelta more :: rest =>
    .proposedPlanDelta (text ++ more) :: rest
  | segment, rest => segment :: rest

/-- Adjacent normal segments, and adjacent plan deltas, in one. -/
def mergeSegments (segments : List ProposedPlanSegment) : List ProposedPlanSegment :=
  segments.foldr mergeFront []

def AssistantTextChunk.merged (chunk : AssistantTextChunk) : AssistantTextChunk :=
  { chunk with planSegments := mergeSegments chunk.planSegments }

/-- The text without its citations, and their bodies. The leftmost opening tag opens a
citation, which ends at the first closing tag after it, or with the text. -/
def citationSpans (text : Text) : Text × List Text :=
  match _hOpen : find citationOpen text with
  | none => (text, [])
  | some i =>
    let after := text.drop (i + citationOpen.length)
    match find citationClose after with
    | none => (text.take i, [after])
    | some j =>
      let (visible, citations) := citationSpans (after.drop (j + citationClose.length))
      (text.take i ++ visible, after.take j :: citations)
termination_by text.length
decreasing_by
  have hLen := find_length_le _hOpen
  have hPos : 0 < citationOpen.length := by decide
  simp only [length_drop]
  omega

/-- The lines of a text, in a plan or not. A line that holds nothing but the tag opens or
closes a plan; an open plan ends with the text. -/
def planLines : Bool → List Text → List ProposedPlanSegment
  | false, [] => []
  | true, [] => [.proposedPlanEnd]
  | false, line :: lines =>
    if trim line = planOpenTag then .proposedPlanStart :: planLines true lines
    else .normal line :: planLines false lines
  | true, line :: lines =>
    if trim line = planCloseTag then .proposedPlanEnd :: planLines false lines
    else .proposedPlanDelta line :: planLines true lines

def reference (planMode : Bool) (text : Text) : AssistantTextChunk :=
  let (remaining, citations) := citationSpans text
  if planMode then
    let segments := planLines false (linesInclusive remaining)
    { visibleText := segments.flatMap ProposedPlanSegment.normalText
      citations
      planSegments := mergeSegments segments }
  else { visibleText := remaining, citations, planSegments := [] }

/-! ## Citations are taken out as the reference has it -/

/-- The leftmost opening tag is the one that opens. -/
theorem opensAt_citation {text : Text} {i : Nat} (h : find citationOpen text = some i) :
    OpensAt [citationSpec] text i 0 citationSpec := by
  obtain ⟨hOccurs, hFirst⟩ := find_eq_some_iff.mp h
  refine ⟨rfl, hOccurs, ?_⟩
  intro k' spec' j hGet hOther
  have hMem := mem_of_getElem? hGet
  rw [mem_singleton.mp hMem] at hOther ⊢
  have hLe : i ≤ j := Nat.le_of_not_lt fun hLt => hFirst j hLt hOther
  omega

theorem citationChunk_add (a b : StreamTextChunk (ExtractedInlineTag CitationTag)) :
    citationChunk (a + b) = citationChunk a + citationChunk b := by
  ext1
  · rfl
  · exact map_append

theorem drain_citation (text : Text) : citationChunk (drain [citationSpec] none text) =
      { visibleText := (citationSpans text).1, extracted := (citationSpans text).2 } := by
  fun_induction citationSpans text with
  | case1 text hOpen =>
    have hNone : findNextOpen [citationSpec] text = none :=
      findNextOpen_eq_none_iff.mpr (forall_mem_singleton.mpr (find_eq_none_iff.mp hOpen))
    rw [drain_unopened hNone]
    rfl
  | case2 text i hOpen after hClose =>
    rw [drain_open citation_accepted (opensAt_citation hOpen),
      drain_unclosed hClose]
    ext1
    · exact append_nil _
    · rfl
  | case3 text i hOpen after j hClose visible citations hRest ih =>
    rw [hRest] at ih
    rw [drain_open citation_accepted (opensAt_citation hOpen), citationChunk_add,
      drain_close citation_accepted hClose, citationChunk_add]
    show _ + (_ + citationChunk (drain [citationSpec] none
      (after.drop (j + citationClose.length)))) = _
    rw [ih]
    rfl

/-- The citation parser is the tag parser with the bodies taken out. -/
theorem collectChunks_inner (parser : CitationStreamParser) (chunks : List Text) :
    StreamTextParser.collectChunks parser chunks =
      citationChunk (StreamTextParser.collectChunks parser.inner chunks) := by
  unfold StreamTextParser.collectChunks
  induction chunks generalizing parser with
  | nil =>
    rfl
  | cons chunk chunks ih =>
    rw [Machine.collect_cons, Machine.collect_cons, ih, citationChunk_add]
    rfl

variable (chunks : List Text)

/-- **Citations.** However a text is cut, its citations are those of the text. -/
theorem collectChunks_citation :
    StreamTextParser.collectChunks CitationStreamParser.new chunks =
      { visibleText := (citationSpans chunks.flatten).1
        extracted := (citationSpans chunks.flatten).2 } := by
  have hInner := collectChunks_eq_drain citation_accepted
    (noInnerOpener_singleton (citation_accepted.open_ne citationSpec mem_cons_self)) chunks
  rw [← drain_citation, ← hInner]
  exact collectChunks_inner _ chunks

/-! ## Plans are cut as the reference has it -/

variable (segments : List (TaggedLineSegment PlanTag)) (plan : ProposedPlanParser) (line : Text)

theorem mapSegments_eq : mapSegments segments =
      { visibleText := (segments.map planSegment).flatMap ProposedPlanSegment.normalText
        extracted := segments.map planSegment } := by
  induction segments using reverseRecOn with
  | nil => rfl
  | append_singleton segments segment ih =>
    unfold mapSegments at ih ⊢
    rw [foldl_append, ih]
    simp

theorem lineKind_outside : lineKind [planSpec] none line =
      if trim line = planOpenTag then .opens .proposedPlan else .text := by
  have hSlug : (trimStart ((stripSuffix? ['\n'] line).getD line)).trimEnd = line.trim :=
    trim_stripNewline line
  unfold lineKind
  by_cases hOpen : trim line = planOpenTag
  · simp [matchOpen, hSlug, hOpen, planSpec, Option.filter_some]
  · simp [matchOpen, hSlug, hOpen, Ne.symm hOpen, planSpec]

theorem lineKind_inside : lineKind [planSpec] (some .proposedPlan) line =
      if trim line = planCloseTag then .closes .proposedPlan else .text := by
  have hSlug : (trimStart ((stripSuffix? ['\n'] line).getD line)).trimEnd = line.trim :=
    trim_stripNewline line
  unfold lineKind
  by_cases hClose : trim line = planCloseTag
  · simp [matchClose, hSlug, hClose, planSpec, Option.filter_some]
  · simp [matchClose, hSlug, hClose, Ne.symm hClose, planSpec]

theorem map_blockSegments (lines : List Text) :
    (blockSegments [planSpec] none lines).map planSegment = planLines false lines ∧
      (blockSegments [planSpec] (some .proposedPlan) lines).map planSegment =
        planLines true lines := by
  induction lines with
  | nil => exact ⟨rfl, rfl⟩
  | cons line lines ih =>
    obtain ⟨hOutside, hInside⟩ := ih
    rw [blockSegments_cons, blockSegments_cons, lineKind_outside, lineKind_inside, planLines,
      planLines]
    constructor
    · by_cases hOpen : trim line = planOpenTag
      · simp [if_pos hOpen, hInside, planSegment]
      · simp [if_neg hOpen, hOutside, planSegment, textSegment]
    · by_cases hClose : trim line = planCloseTag
      · simp [if_pos hClose, hOutside, planSegment]
      · simp [if_neg hClose, hInside, planSegment, textSegment]

/-! ## Merged segments are marked characters -/

namespace ProposedPlanSegment

def atoms : ProposedPlanSegment → List (LineAtom PlanTag)
  | .normal text => text.map .normal
  | .proposedPlanStart => [.tagStart .proposedPlan]
  | .proposedPlanDelta text => text.map (.tagDelta .proposedPlan)
  | .proposedPlanEnd => [.tagEnd .proposedPlan]

def Substantial : ProposedPlanSegment → Prop
  | .normal text => text ≠ []
  | .proposedPlanStart => True
  | .proposedPlanDelta text => text ≠ []
  | .proposedPlanEnd => True

/-- The segment of one marked character. -/
def ofAtom : LineAtom PlanTag → ProposedPlanSegment
  | .normal ch => .normal [ch]
  | .tagStart .proposedPlan => .proposedPlanStart
  | .tagDelta .proposedPlan ch => .proposedPlanDelta [ch]
  | .tagEnd .proposedPlan => .proposedPlanEnd

end ProposedPlanSegment

open ProposedPlanSegment
theorem atoms_map_planSegment : (segments.map planSegment).flatMap atoms =
      segments.flatMap TaggedLineSegment.atoms := by
  rw [flatMap_map]
  exact flatMap_congr fun segment _ => by cases segment <;> rfl

theorem substantial_map_planSegment {segments : List (TaggedLineSegment PlanTag)}
    (h : ∀ segment ∈ segments, segment.Substantial) :
    ∀ segment ∈ segments.map planSegment, segment.Substantial := by
  refine forall_mem_map.mpr fun segment hMem => ?_
  have hSegment := h segment hMem
  cases segment <;> exact hSegment

/-- Text of one kind is merged character by character. -/
theorem mergeFront_text {segment : Text → ProposedPlanSegment} {mark : Char → LineAtom PlanTag}
    (hMark : ∀ ch, ofAtom (mark ch) = segment [ch])
    (hMerge : ∀ front back rest, mergeFront (segment front) (mergeFront (segment back) rest) =
      mergeFront (segment (front ++ back)) rest)
    {text : Text} (hNe : text ≠ []) (rest : List ProposedPlanSegment) :
    mergeFront (segment text) rest =
      (text.map mark).foldr (fun atom => mergeFront (ofAtom atom)) rest := by
  induction text with
  | nil => exact absurd rfl hNe
  | cons ch text ih =>
    rw [map_cons, foldr_cons, hMark]
    by_cases hNil : text = []
    · subst hNil
      rfl
    · rw [← ih hNil, hMerge]
      rfl

theorem mergeSegments_eq_foldr {segments : List ProposedPlanSegment}
    (h : ∀ segment ∈ segments, segment.Substantial) : mergeSegments segments =
      (segments.flatMap atoms).foldr
        (fun atom => mergeFront (ofAtom atom)) [] := by
  rw [foldr_flatMap]
  refine foldr_ext _ _ _ fun segment hMem rest => ?_
  have hSegment := h segment hMem
  cases segment with
  | proposedPlanStart | proposedPlanEnd => rfl
  | normal _ | proposedPlanDelta _ =>
    refine mergeFront_text (fun _ => rfl) (fun front back rest => ?_) hSegment rest
    rcases rest with _ | ⟨_ | _ | _ | _, rest⟩ <;> simp [mergeFront]

/-- The character of a mark outside of plans. -/
def normalChar? : LineAtom PlanTag → Option Char
  | .normal ch => some ch
  | _ => none

theorem normalText_eq_filterMap (segment : ProposedPlanSegment) :
    segment.normalText = segment.atoms.filterMap normalChar? := by
  cases segment with
  | normal text =>
    show text = (text.map LineAtom.normal).filterMap normalChar?
    rw [filterMap_map]
    exact filterMap_some.symm
  | proposedPlanStart => rfl
  | proposedPlanDelta text =>
    show [] = (text.map (LineAtom.tagDelta PlanTag.proposedPlan)).filterMap normalChar?
    rw [filterMap_map, filterMap_eq_nil_iff.mpr]
    exact fun _ _ => rfl
  | proposedPlanEnd => rfl

theorem flatMap_normalText (segments : List ProposedPlanSegment) :
    segments.flatMap normalText =
      (segments.flatMap atoms).filterMap normalChar? := by
  rw [filterMap_flatMap]
  exact flatMap_congr fun segment _ => normalText_eq_filterMap segment

/-! ## The two parsers in a row -/

/-- The visible text is the text outside of plans, and no segment is empty. -/
structure Sound (out : StreamTextChunk ProposedPlanSegment) : Prop where
  visible : out.visibleText = out.extracted.flatMap normalText
  substantial : ∀ segment ∈ out.extracted, segment.Substantial

theorem Sound.add {out out' : StreamTextChunk ProposedPlanSegment} (h : Sound out)
    (h' : Sound out') : Sound (out + out') := by
  constructor
  · simp [h.visible, h'.visible]
  · exact forall_mem_append.mpr ⟨h.substantial, h'.substantial⟩

theorem sound_mapSegments {segments : List (TaggedLineSegment PlanTag)}
    (h : ∀ segment ∈ segments, segment.Substantial) : Sound (mapSegments segments) := by
  rw [mapSegments_eq]
  exact ⟨rfl, substantial_map_planSegment h⟩

theorem atoms_mapSegments : (mapSegments segments).extracted.flatMap atoms =
      segments.flatMap TaggedLineSegment.atoms := by
  rw [mapSegments_eq]
  exact atoms_map_planSegment segments

/-- **Plans.** However a text is cut, the segments hold what the parser is foretold to hand
out for it. -/
theorem collectChunks_plan (h : plan.parser.Buffering)
    (chunks : List Text) : Sound (StreamTextParser.collectChunks plan chunks) ∧
      (StreamTextParser.collectChunks plan chunks).extracted.flatMap atoms =
        plan.parser.foretold chunks.flatten := by
  unfold StreamTextParser.collectChunks
  induction chunks generalizing plan with
  | nil =>
    refine ⟨sound_mapSegments TaggedLineParser.substantial_finish, ?_⟩
    exact (atoms_mapSegments _).trans (TaggedLineParser.finish_foretold h)
  | cons chunk chunks ih =>
    obtain ⟨hNext, hParse⟩ := TaggedLineParser.parse_foretold h chunk chunks.flatten
    obtain ⟨hSound, hRest⟩ := ih ⟨(plan.parser.parse chunk).2⟩ hNext
    rw [Machine.collect_cons]
    refine ⟨(sound_mapSegments (TaggedLineParser.substantial_parse _)).add hSound, ?_⟩
    rw [StreamTextChunk.extracted_add, flatMap_append, flatten_cons, ← hParse]
    exact congrArg₂ _ (atoms_mapSegments _) hRest

namespace AssistantTextStreamParser

theorem appendTail_eq (out : AssistantTextChunk) (tail : StreamTextChunk ProposedPlanSegment) :
    appendTail out tail =
      { out with
        visibleText := out.visibleText ++ tail.visibleText
        planSegments := out.planSegments ++ tail.extracted } := by
  unfold appendTail
  by_cases hEmpty : tail.isEmpty = true
  · have hNone := hEmpty
    unfold StreamTextChunk.isEmpty at hNone
    rw [Bool.and_eq_true, List.isEmpty_iff, List.isEmpty_iff] at hNone
    rw [if_pos hEmpty, hNone.1, hNone.2, append_nil, append_nil]
  · rw [if_neg hEmpty]

/-- What the text without its citations goes through: the plan parser, or nothing. -/
def visibleMachine :
    Bool → Transducer.Machine ProposedPlanParser Char (StreamTextChunk ProposedPlanSegment)
  | true => StreamTextParser.machine ProposedPlanParser
  | false => { push := fun plan text => (.visible text, plan), finish := fun plan => (0, plan) }

/-- What the two parsers hand out, in one chunk. -/
def joinChunks (citation : StreamTextChunk Text) (visible : StreamTextChunk ProposedPlanSegment) :
    AssistantTextChunk where
  visibleText := visible.visibleText
  citations := citation.extracted
  planSegments := visible.extracted

variable (planMode : Bool)

theorem piped :
    Piped machine (StreamTextParser.machine CitationStreamParser) (visibleMachine planMode)
      (mk planMode) StreamTextChunk.visibleText joinChunks where
  pass_add _ _ := rfl
  join_add _ _ _ _ := rfl
  push _ _ _ := by cases planMode <;> rfl
  finish citations plan := by
    rw [Machine.collect_cons]
    rcases planMode with _ | _
    · show _ = joinChunks _ (_ + 0)
      rw [add_zero]
      rfl
    -- the flush hands on what the citation parser held back, and then flushes the plan parser
    show AssistantTextChunk.mk (appendTail _ _).visibleText _ (appendTail _ _).planSegments = _
    rw [appendTail_eq]
    rfl

theorem collect_visible :
    (visibleMachine false).collect plan chunks = .visible chunks.flatten := by
  induction chunks with
  | nil => rfl
  | cons chunk chunks ih =>
    rw [Machine.collect_cons, flatten_cons]
    exact congrArg _ ih

/-! ## The main result -/

/-- The plan parser cuts a text as the reference does, up to merging. -/
theorem merged_plan :
    let out := StreamTextParser.collectChunks ProposedPlanParser.new chunks
    let segments := planLines false (linesInclusive chunks.flatten)
    out.visibleText = segments.flatMap normalText ∧
      mergeSegments out.extracted = mergeSegments segments := by
  have hStart : (TaggedLineParser.new [planSpec]).Buffering := ⟨not_mem_nil, fun _ => rfl⟩
  obtain ⟨hSound, hForetold⟩ := collectChunks_plan .new hStart chunks
  have hLines : ∀ segment ∈ planLines false (linesInclusive chunks.flatten),
      segment.Substantial := by
    rw [← (map_blockSegments _).1]
    exact substantial_map_planSegment
      (substantial_blockSegments _ (ne_nil_of_mem_linesInclusive _) none)
  -- the marked characters are those of the lines of the whole text
  have hAtoms := hForetold.trans (atoms_map_planSegment
    (blockSegments [planSpec] none (linesInclusive chunks.flatten))).symm
  rw [(map_blockSegments _).1] at hAtoms
  constructor
  · rw [hSound.visible, flatMap_normalText, hAtoms, ← flatMap_normalText]
  · rw [mergeSegments_eq_foldr hSound.substantial, hAtoms, ← mergeSegments_eq_foldr hLines]

theorem merged_collectChunks (chunks : List Text) :
    (collectChunks planMode chunks).merged = reference planMode chunks.flatten := by
  obtain ⟨middle, hMiddle, hOut⟩ := (piped planMode).collect_eq .new .new chunks
  have hCitation : (StreamTextParser.machine CitationStreamParser).collect .new chunks = _ :=
    collectChunks_citation chunks
  rw [hCitation] at hMiddle hOut
  show (machine.collect (mk planMode .new .new) chunks).merged = _
  rw [hOut]
  rcases planMode with _ | _
  · rw [collect_visible, hMiddle]
    rfl
  obtain ⟨hVisible, hMerged⟩ := merged_plan middle
  rw [hMiddle] at hVisible hMerged
  show AssistantTextChunk.mk _ _ _ = AssistantTextChunk.mk _ _ _
  exact congrArg₂ (fun visible segments => AssistantTextChunk.mk visible _ segments)
    hVisible hMerged

/-- **Assistant text.** Whatever the chunks, in either mode: what is handed out adds up to
what one chunk with all the text gives, and to the reference. -/
theorem assistant_text_chunking (planMode : Bool) (chunks : List Text) :
    (collectChunks planMode chunks).merged = (collectChunks planMode [chunks.flatten]).merged ∧
      (collectChunks planMode chunks).merged = reference planMode chunks.flatten := by
  have hWhole := merged_collectChunks planMode [chunks.flatten]
  rw [flatten_singleton] at hWhole
  rw [merged_collectChunks, hWhole]
  exact ⟨rfl, rfl⟩

end AssistantTextStreamParser

end Codex.StreamParser
