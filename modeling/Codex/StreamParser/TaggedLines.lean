import Codex.Std.Lines
import Codex.StreamParser.Chunk

/-!
# Codex — blocks between tag lines

`utils/stream-parser/src/tagged_line_parser.rs`. `TaggedLineParser` reads a text character
by character and cuts it into normal text and blocks. A block is opened and closed by a
line that holds nothing but the tag, so a line is buffered until it cannot be one.

* **The code.** `parse` and `finish`, with the loop state of `parse` (the run of characters
  that needs no buffering, and the segments so far) as a record.
* **What it is for.** `blockSegments`: the text is cut into lines first and each line is
  looked at once.
* **What connects them.** Segments are compared as sequences of marked characters (`atoms`),
  since the code may hand out one line of text in several pieces. `foretold` is what a
  parser will have handed out when a given rest of the text has followed; one character
  settles part of it (`parseChar_foretold`), so a chunk does (`parse_foretold`).
-/

namespace Codex.StreamParser

open List Text

variable {T : Type}

/-- `open` and `close` of the source. -/
structure TagSpec (T : Type) where
  openText : Text
  closeText : Text
  tag : T

inductive TaggedLineSegment (T : Type) where
  | normal (text : Text)
  | tagStart (tag : T)
  | tagDelta (tag : T) (text : Text)
  | tagEnd (tag : T)
  deriving DecidableEq, Repr

/-- A character with the place it stands in, or the start or the end of a block. -/
inductive LineAtom (T : Type) where
  | normal (ch : Char)
  | tagStart (tag : T)
  | tagDelta (tag : T) (ch : Char)
  | tagEnd (tag : T)

namespace TaggedLineSegment

def atoms : TaggedLineSegment T → List (LineAtom T)
  | .normal text => text.map .normal
  | .tagStart tag => [.tagStart tag]
  | .tagDelta tag text => text.map (.tagDelta tag)
  | .tagEnd tag => [.tagEnd tag]

/-- A segment that is there to hold text holds some. -/
def Substantial : TaggedLineSegment T → Prop
  | .normal text => text ≠ []
  | .tagDelta _ text => text ≠ []
  | .tagStart _ => True
  | .tagEnd _ => True

end TaggedLineSegment

open TaggedLineSegment
structure TaggedLineParser (T : Type) where
  specs : List (TagSpec T)
  activeTag : Option T
  detectTag : Bool
  lineBuffer : Text

variable (specs : List (TagSpec T))

def TaggedLineParser.new : TaggedLineParser T where
  specs := specs
  activeTag := none
  detectTag := true
  lineBuffer := []

def isTagPrefix (slug : Text) : Bool :=
  let slug := trimEnd slug
  specs.any fun spec => startsWith slug spec.openText || startsWith slug spec.closeText

def matchOpen (slug : Text) : Option T :=
  (specs.find? fun spec => spec.openText == slug).map TagSpec.tag

def matchClose (slug : Text) : Option T :=
  (specs.find? fun spec => spec.closeText == slug).map TagSpec.tag

/-- The segment that `push_text` pushes. -/
def textSegment (active : Option T) (text : Text) : TaggedLineSegment T :=
  match active with
  | some tag => .tagDelta tag text
  | none => .normal text

/-- What a whole line does. -/
inductive LineKind (T : Type) where
  | opens (tag : T)
  | closes (tag : T)
  | text

variable [DecidableEq T]

variable (segments : List (TaggedLineSegment T))

def pushSegment : TaggedLineSegment T → List (TaggedLineSegment T)
  | .normal delta =>
    if delta.isEmpty then segments
    else
      match segments.getLast? with
      | some (.normal existing) => segments.dropLast ++ [.normal (existing ++ delta)]
      | _ => segments ++ [.normal delta]
  | .tagDelta tag delta =>
    if delta.isEmpty then segments
    else
      match segments.getLast? with
      | some (.tagDelta existingTag existing) =>
        if existingTag = tag then segments.dropLast ++ [.tagDelta existingTag (existing ++ delta)]
        else segments ++ [.tagDelta tag delta]
      | _ => segments ++ [.tagDelta tag delta]
  | .tagStart tag => segments ++ [.tagStart tag]
  | .tagEnd tag => segments ++ [.tagEnd tag]

/-- The three branches that `finish_line` and `finish` share. -/
def lineKind (specs : List (TagSpec T)) (active : Option T) (line : Text) : LineKind T :=
  let withoutNewline := (stripSuffix? ['\n'] line).getD line
  let slug := trimEnd (trimStart withoutNewline)
  -- each branch is an `if let Some(tag) = … && …`
  match (matchOpen specs slug).filter fun _ => active.isNone with
  | some tag => .opens tag
  | none =>
    match (matchClose specs slug).filter fun tag => active = some tag with
    | some tag => .closes tag
    | none => .text

namespace TaggedLineParser

variable (parser : TaggedLineParser T)

def pushText (text : Text) (segments : List (TaggedLineSegment T)) : List (TaggedLineSegment T) :=
  pushSegment segments (textSegment parser.activeTag text)

/-- `line` has been taken out of the buffer. -/
def endLine (line : Text) (segments : List (TaggedLineSegment T)) :
    List (TaggedLineSegment T) × TaggedLineParser T :=
  match lineKind parser.specs parser.activeTag line with
  | .opens tag => (pushSegment segments (.tagStart tag), { parser with activeTag := some tag })
  | .closes tag => (pushSegment segments (.tagEnd tag), { parser with activeTag := none })
  | .text => (parser.pushText line segments, parser)

def finishLine (segments : List (TaggedLineSegment T)) :
    List (TaggedLineSegment T) × TaggedLineParser T :=
  { parser with lineBuffer := [], detectTag := true }.endLine parser.lineBuffer segments

/-- The variables of the loop in `parse`. -/
structure ParseLoop (T : Type) where
  parser : TaggedLineParser T
  run : Text
  segments : List (TaggedLineSegment T)

def parseChar (loop : ParseLoop T) (ch : Char) : ParseLoop T :=
  let parser := loop.parser
  if parser.detectTag then
    let segments :=
      if loop.run.isEmpty then loop.segments else parser.pushText loop.run loop.segments
    let buffer := parser.lineBuffer ++ [ch]
    if ch = '\n' then
      let (segments, parser) := { parser with lineBuffer := buffer }.finishLine segments
      { parser, run := [], segments }
    else
      let slug := trimStart buffer
      if slug.isEmpty || isTagPrefix parser.specs slug then
        { parser := { parser with lineBuffer := buffer }, run := [], segments }
      else
        -- the line is no tag: hand out what was buffered of it
        let parser := { parser with lineBuffer := [], detectTag := false }
        { parser, run := [], segments := parser.pushText buffer segments }
  else
    let run := loop.run ++ [ch]
    if ch = '\n' then
      { parser := { parser with detectTag := true }, run := [],
        segments := parser.pushText run loop.segments }
    else
      { loop with run }

def parse (delta : Text) : List (TaggedLineSegment T) × TaggedLineParser T :=
  let loop := delta.foldl parseChar { parser, run := [], segments := [] }
  let segments :=
    if loop.run.isEmpty then loop.segments else loop.parser.pushText loop.run loop.segments
  (segments, loop.parser)

/-- The end of the text ends the block that is open. -/
def endBlock (active : Option T) (segments : List (TaggedLineSegment T)) :
    List (TaggedLineSegment T) :=
  match active with
  | some tag => pushSegment segments (.tagEnd tag)
  | none => segments

def finish : List (TaggedLineSegment T) × TaggedLineParser T :=
  let (segments, parser) :=
    if parser.lineBuffer.isEmpty then ([], parser)
    else { parser with lineBuffer := [] }.endLine parser.lineBuffer []
  (endBlock parser.activeTag segments, { parser with activeTag := none, detectTag := true })

end TaggedLineParser

/-! ## What the parser is for -/

/-- `split_inclusive('\n')`: the lines with their newline; the last may have none. -/
def linesInclusive : Text → List Text
  | [] => []
  | c :: rest =>
    if c = '\n' then [c] :: linesInclusive rest
    else
      match linesInclusive rest with
      | [] => [[c]]
      | line :: lines => (c :: line) :: lines

/-- The blocks of a text that is given as its lines. A block still open at the end of the
text ends there. -/
def blockSegments (specs : List (TagSpec T)) : Option T → List Text → List (TaggedLineSegment T)
  | none, [] => []
  | some tag, [] => [.tagEnd tag]
  | active, line :: lines =>
    match lineKind specs active line with
    | .opens tag => .tagStart tag :: blockSegments specs (some tag) lines
    | .closes tag => .tagEnd tag :: blockSegments specs none lines
    | .text => textSegment active line :: blockSegments specs active lines

/-! ## Lines -/

/-- A text up to and with its first newline, and what follows. -/
def restOfLine : Text → Text × Text
  | [] => ([], [])
  | c :: rest =>
    if c = '\n' then ([c], rest)
    else
      let (line, after) := restOfLine rest
      (c :: line, after)

variable {front : Text} (active : Option T) (segment : TaggedLineSegment T) (line : Text)

theorem restOfLine_append (hFront : '\n' ∉ front) (rest : Text) :
    restOfLine (front ++ rest) = (front ++ (restOfLine rest).1, (restOfLine rest).2) := by
  induction front with
  | nil => rfl
  | cons c front ih =>
    have hc : c ≠ '\n' := fun hEq => hFront (hEq ▸ mem_cons_self)
    rw [cons_append, restOfLine, if_neg hc, ih fun hMem => hFront (mem_cons_of_mem _ hMem)]
    rfl

theorem linesInclusive_cons {c : Char} (hc : c ≠ '\n') (rest : Text) : linesInclusive (c :: rest) =
      (c :: (restOfLine rest).1) :: linesInclusive (restOfLine rest).2 := by
  induction rest generalizing c with
  | nil => simp [linesInclusive, restOfLine]
  | cons d rest ih =>
    rw [linesInclusive, if_neg hc]
    by_cases hd : d = '\n'
    · simp [linesInclusive, restOfLine, hd]
    · rw [ih hd, restOfLine, if_neg hd]

/-- A line that has begun is the first line, however it goes on. -/
theorem linesInclusive_append (hNe : front ≠ []) (hFront : '\n' ∉ front) (rest : Text) :
    linesInclusive (front ++ rest) =
      (front ++ (restOfLine rest).1) :: linesInclusive (restOfLine rest).2 := by
  obtain ⟨c, front, rfl⟩ := exists_cons_of_ne_nil hNe
  have hc : c ≠ '\n' := fun hEq => hFront (hEq ▸ mem_cons_self)
  rw [cons_append, linesInclusive_cons hc,
    restOfLine_append fun hMem => hFront (mem_cons_of_mem _ hMem)]
  rfl

theorem linesInclusive_newline (hFront : '\n' ∉ front) (rest : Text) :
    linesInclusive (front ++ '\n' :: rest) = (front ++ ['\n']) :: linesInclusive rest := by
  by_cases hNe : front = []
  · subst hNe
    rfl
  · rw [linesInclusive_append hNe hFront]
    rfl

theorem ne_nil_of_mem_linesInclusive (text : Text) : ∀ line ∈ linesInclusive text, line ≠ [] := by
  induction text with
  | nil => exact forall_mem_nil _
  | cons c rest ih =>
    unfold linesInclusive
    split
    · exact forall_mem_cons.mpr ⟨cons_ne_nil _ _, ih⟩
    · split
      · exact forall_mem_singleton.mpr (cons_ne_nil _ _)
      · rename_i hLines
        rw [hLines, forall_mem_cons] at ih
        exact forall_mem_cons.mpr ⟨cons_ne_nil _ _, ih.2⟩

/-! ## Segments as marked characters -/

omit [DecidableEq T] in
@[simp] theorem atoms_textSegment_nil : (textSegment active []).atoms = [] := by
  cases active <;> rfl

omit [DecidableEq T] in
@[simp] theorem atoms_textSegment_append (front back : Text) :
    (textSegment active (front ++ back)).atoms =
      (textSegment active front).atoms ++ (textSegment active back).atoms := by
  cases active <;> exact map_append

/-- A segment without text is dropped; any other one is put at the end, or joined to the
last one. -/
theorem pushSegment_cases :
    (pushSegment segments segment = segments ∧ segment.atoms = []) ∨
      (pushSegment segments segment = segments ++ [segment] ∧ segment.Substantial) ∨
      ∃ front last joined, segments = front ++ [last] ∧
        pushSegment segments segment = front ++ [joined] ∧
        joined.atoms = last.atoms ++ segment.atoms ∧ joined.Substantial := by
  cases segment with
  | tagStart _ | tagEnd _ => exact .inr (.inl ⟨rfl, trivial⟩)
  | normal delta =>
    by_cases hNe : delta = []
    · subst hNe
      exact .inl ⟨rfl, rfl⟩
    simp only [pushSegment, List.isEmpty_iff, if_neg hNe]
    right
    split
    · rename_i existing hLast
      exact .inr ⟨_, _, _, (List.dropLast_append_getLast? _ hLast).symm, rfl, List.map_append,
        List.append_ne_nil_of_right_ne_nil existing hNe⟩
    · exact .inl ⟨rfl, hNe⟩
  | tagDelta tag delta =>
    by_cases hNe : delta = []
    · subst hNe
      exact .inl ⟨rfl, rfl⟩
    simp only [pushSegment, List.isEmpty_iff, if_neg hNe]
    right
    split
    · rename_i existingTag existing hLast
      split
      · rename_i hTag
        subst hTag
        exact .inr ⟨_, _, _, (List.dropLast_append_getLast? _ hLast).symm, rfl, List.map_append,
          append_ne_nil_of_right_ne_nil existing hNe⟩
      · exact .inl ⟨rfl, hNe⟩
    · exact .inl ⟨rfl, hNe⟩

theorem atoms_pushSegment :
    (pushSegment segments segment).flatMap atoms =
      segments.flatMap atoms ++ segment.atoms := by
  rcases pushSegment_cases segments segment with
    ⟨hEq, hNone⟩ | ⟨hEq, -⟩ | ⟨front, last, joined, rfl, hEq, hJoined, -⟩
  · rw [hEq, hNone, append_nil]
  · rw [hEq, flatMap_append, flatMap_singleton]
  · rw [hEq, flatMap_append, flatMap_append, flatMap_singleton,
      flatMap_singleton, hJoined, append_assoc]

variable {segments : List (TaggedLineSegment T)}

theorem substantial_pushSegment
    (h : ∀ segment ∈ segments, segment.Substantial) (segment : TaggedLineSegment T) :
    ∀ pushed ∈ pushSegment segments segment, pushed.Substantial := by
  rcases pushSegment_cases segments segment with
    ⟨hEq, -⟩ | ⟨hEq, hSegment⟩ | ⟨front, last, joined, rfl, hEq, -, hJoined⟩
  · rw [hEq]
    exact h
  · rw [hEq]
    exact forall_mem_append.mpr ⟨h, forall_mem_singleton.mpr hSegment⟩
  · rw [hEq]
    exact forall_mem_append.mpr
      ⟨(forall_mem_append.mp h).1, forall_mem_singleton.mpr hJoined⟩

/-! ## What a line that is no tag can be told by -/

theorem trim_stripNewline :
    trim ((stripSuffix? ['\n'] line).getD line) = trim line := by
  cases hStrip : stripSuffix? ['\n'] line with
  | none => rfl
  | some front =>
    have hNewline : ∀ ch ∈ ['\n'], isWhitespace ch = true := forall_mem_singleton.mpr rfl
    rw [stripSuffix?_eq_some.mp hStrip]
    exact (trim_append (forall_mem_nil _) hNewline front).symm

/-- A line whose beginning is no beginning of a tag is text. -/
theorem lineKind_eq_text {specs : List (TagSpec T)} {line : Text} (hFront : front <+: line)
    (hNot : isTagPrefix specs (trimStart front) = false) (active : Option T) :
    lineKind specs active line = .text := by
  -- otherwise the trimmed line is a tag, and the trimmed beginning is a prefix of it
  have hSlug : ∀ spec ∈ specs,
      ¬(spec.openText = trim line ∨ spec.closeText = trim line) := by
    intro spec hSpec hTag
    have hPrefix := trim_isPrefix hFront
    refine any_eq_false.mp hNot spec hSpec ?_
    rw [Bool.or_eq_true, startsWith_iff, startsWith_iff]
    rcases hTag with hTag | hTag <;> rw [hTag]
    · exact .inl hPrefix
    · exact .inr hPrefix
  have hOpen : matchOpen specs (trim line) = none := by
    unfold matchOpen
    rw [Option.map_eq_none_iff, find?_eq_none]
    intro spec hSpec
    simpa using fun h => hSlug spec hSpec (.inl h)
  have hClose : matchClose specs (trim line) = none := by
    unfold matchClose
    rw [Option.map_eq_none_iff, find?_eq_none]
    intro spec hSpec
    simpa using fun h => hSlug spec hSpec (.inr h)
  rw [← trim_stripNewline line] at hOpen hClose
  unfold trim at hOpen hClose
  simp [lineKind, hOpen, hClose]

theorem blockSegments_cons (lines : List Text) :
    blockSegments specs active (line :: lines) =
      match lineKind specs active line with
      | .opens tag => .tagStart tag :: blockSegments specs (some tag) lines
      | .closes tag => .tagEnd tag :: blockSegments specs none lines
      | .text => textSegment active line :: blockSegments specs active lines := by
  cases active <;> rfl

/-! ## What a parser will have handed out -/

namespace TaggedLineParser

/-- A parser that looks for a tag holds the beginning of a line; any other one holds nothing. -/
structure Buffering (parser : TaggedLineParser T) : Prop where
  no_newline : '\n' ∉ parser.lineBuffer
  passing : parser.detectTag = false → parser.lineBuffer = []

/-- Everything the parser hands out when `rest` is what still comes. -/
def foretold (parser : TaggedLineParser T) (rest : Text) : List (LineAtom T) :=
  if parser.detectTag then
    (blockSegments parser.specs parser.activeTag
      (linesInclusive (parser.lineBuffer ++ rest))).flatMap atoms
  else
    -- the line is text already, up to its newline
    (textSegment parser.activeTag (restOfLine rest).1).atoms ++
      (blockSegments parser.specs parser.activeTag
        (linesInclusive (restOfLine rest).2)).flatMap atoms

/-- What the loop has handed out so far, the run included. -/
def ParseLoop.handed (loop : ParseLoop T) : List (LineAtom T) :=
  loop.segments.flatMap atoms ++ (textSegment loop.parser.activeTag loop.run).atoms

variable (parser : TaggedLineParser T)

theorem atoms_pushText (text : Text)
    (segments : List (TaggedLineSegment T)) :
    (parser.pushText text segments).flatMap atoms =
      segments.flatMap atoms ++ (textSegment parser.activeTag text).atoms :=
  atoms_pushSegment _ _

/-- The run is flushed before anything else is handed out. -/
theorem atoms_flushRun (loop : ParseLoop T) : (if loop.run.isEmpty then loop.segments
      else loop.parser.pushText loop.run loop.segments).flatMap atoms =
      loop.handed := by
  unfold ParseLoop.handed
  by_cases hRun : loop.run = []
  · simp [hRun]
  · rw [if_neg (by simpa using hRun), atoms_pushText]

/-- The end of a line settles that line. -/
theorem atoms_endLine (line : Text)
    (segments : List (TaggedLineSegment T)) (lines : List Text) :
    (parser.endLine line segments).1.flatMap atoms ++
        (blockSegments parser.specs (parser.endLine line segments).2.activeTag lines).flatMap
          atoms =
      segments.flatMap atoms ++
        (blockSegments parser.specs parser.activeTag (line :: lines)).flatMap
          atoms := by
  rw [blockSegments_cons]
  unfold endLine
  cases lineKind parser.specs parser.activeTag line with
  | opens _ | closes _ => simp [atoms_pushSegment]
  | text => simp [atoms_pushText]

/-- The end of a line changes the active tag, and nothing else of the parser. -/
theorem endLine_keeps (line : Text)
    (segments : List (TaggedLineSegment T)) : (parser.endLine line segments).2 =
      { parser with activeTag := (parser.endLine line segments).2.activeTag } := by
  unfold endLine
  cases lineKind parser.specs parser.activeTag line <;> rfl

variable {loop : ParseLoop T}

/-- What one character does: part of what was foretold is settled. -/
def Settles (loop : ParseLoop T) (ch : Char) : Prop :=
  (parseChar loop ch).parser.Buffering ∧
    ∀ rest, (parseChar loop ch).handed ++ (parseChar loop ch).parser.foretold rest =
      loop.handed ++ loop.parser.foretold (ch :: rest)

section

variable (hBuffering : loop.parser.Buffering) {ch : Char}
include hBuffering

theorem settles_of_passing (hDetect : loop.parser.detectTag = false) (ch : Char) :
    Settles loop ch := by
  have hNil := hBuffering.passing hDetect
  by_cases hch : ch = '\n'
  · subst hch
    refine ⟨⟨by simp [parseChar, hDetect, hNil], by simp [parseChar, hDetect]⟩, ?_⟩
    intro rest
    simp [parseChar, hDetect, hNil, ParseLoop.handed, foretold, atoms_pushText, restOfLine]
  · refine ⟨⟨by simp [parseChar, hDetect, hNil, hch], by simp [parseChar, hDetect, hNil, hch]⟩, ?_⟩
    intro rest
    have hLine : ch :: (restOfLine rest).1 = [ch] ++ (restOfLine rest).1 := rfl
    simp only [parseChar, hDetect, hch, ParseLoop.handed, foretold, restOfLine, if_false,
      Bool.false_eq_true, hLine, atoms_textSegment_append, append_assoc]

section

variable (hDetect : loop.parser.detectTag = true)
include hDetect

theorem settles_newline : Settles loop '\n' := by
  have hFlush := atoms_flushRun loop
  have hParser := endLine_keeps { loop.parser with lineBuffer := [], detectTag := true }
    (loop.parser.lineBuffer ++ ['\n'])
    (if loop.run.isEmpty then loop.segments else loop.parser.pushText loop.run loop.segments)
  have hAtoms := atoms_endLine { loop.parser with lineBuffer := [], detectTag := true }
    (loop.parser.lineBuffer ++ ['\n'])
    (if loop.run.isEmpty then loop.segments else loop.parser.pushText loop.run loop.segments)
  unfold Settles
  simp only [parseChar, hDetect, finishLine]
  rw [hParser]
  refine ⟨⟨not_mem_nil, fun h => by cases h⟩, ?_⟩
  intro rest
  have hLines := linesInclusive_newline hBuffering.no_newline rest
  simp only [ParseLoop.handed, foretold, hDetect, if_true, atoms_textSegment_nil,
    append_nil, hLines]
  rw [hAtoms, hFlush]
  rfl

end

/-- **One character** settles part of what was foretold. -/
theorem settles_parseChar (ch : Char) : Settles loop ch := by
  by_cases hDetect : loop.parser.detectTag = true
  · by_cases hch : ch = '\n'
    · subst hch
      exact settles_newline hBuffering hDetect
    cases hTag : ((trimStart (loop.parser.lineBuffer ++ [ch])).isEmpty ||
      isTagPrefix loop.parser.specs (trimStart (loop.parser.lineBuffer ++ [ch]))) with
    | true =>
      have hFlush := atoms_flushRun loop
      unfold Settles
      simp only [parseChar, hDetect, hch, hTag, if_false]
      refine ⟨⟨?_, fun h => by cases h⟩, ?_⟩
      · simp [hBuffering.no_newline, Ne.symm hch]
      · intro rest
        simp only [ParseLoop.handed, foretold, hDetect, if_true]
        rw [hFlush]
        simp [ParseLoop.handed]
    | false =>
      have hFlush := atoms_flushRun loop
      have hNewline : '\n' ∉ loop.parser.lineBuffer ++ [ch] := by
        simp [hBuffering.no_newline, Ne.symm hch]
      unfold Settles
      simp only [parseChar, hDetect, hch, hTag]
      refine ⟨⟨not_mem_nil, fun _ => rfl⟩, ?_⟩
      intro rest
      -- the line that has begun is text, whatever comes up to its newline
      have hLines : linesInclusive (loop.parser.lineBuffer ++ ch :: rest) =
          (loop.parser.lineBuffer ++ [ch] ++ (restOfLine rest).1) ::
            linesInclusive (restOfLine rest).2 := by
        rw [← linesInclusive_append (by simp) hNewline, append_assoc]
        rfl
      have hText := lineKind_eq_text (prefix_append _ (restOfLine rest).1)
        (Bool.or_eq_false_iff.mp hTag).2 loop.parser.activeTag
      have hForetold : loop.parser.foretold (ch :: rest) =
          (textSegment loop.parser.activeTag (loop.parser.lineBuffer ++ [ch])).atoms ++
            ({ loop.parser with lineBuffer := [], detectTag := false } :
              TaggedLineParser T).foretold rest := by
        unfold foretold
        rw [if_pos hDetect, hLines, blockSegments_cons, hText, flatMap_cons,
          atoms_textSegment_append, append_assoc]
        rfl
      rw [hForetold, ← hFlush]
      simp [ParseLoop.handed, atoms_pushText]
  · exact settles_of_passing hBuffering (by simpa using hDetect) ch

end

theorem foldl_parseChar_foretold (loop : ParseLoop T) (hBuffering : loop.parser.Buffering)
    (delta rest : Text) : (delta.foldl parseChar loop).parser.Buffering ∧
      (delta.foldl parseChar loop).handed ++ (delta.foldl parseChar loop).parser.foretold rest =
        loop.handed ++ loop.parser.foretold (delta ++ rest) := by
  induction delta generalizing loop with
  | nil => exact ⟨hBuffering, rfl⟩
  | cons ch delta ih =>
    obtain ⟨hNext, hSettled⟩ := settles_parseChar hBuffering ch
    obtain ⟨hValid, hRest⟩ := ih _ hNext
    refine ⟨hValid, ?_⟩
    rw [foldl_cons, hRest, hSettled]
    rfl

variable {parser : TaggedLineParser T}

/-- **One chunk** settles part of what was foretold. -/
theorem parse_foretold (hBuffering : parser.Buffering) (delta rest : Text) :
    (parser.parse delta).2.Buffering ∧
      (parser.parse delta).1.flatMap atoms ++ (parser.parse delta).2.foretold rest =
        parser.foretold (delta ++ rest) := by
  obtain ⟨hValid, hRest⟩ := foldl_parseChar_foretold ⟨parser, [], []⟩ hBuffering delta rest
  refine ⟨hValid, ?_⟩
  unfold parse
  rw [atoms_flushRun, hRest]
  simp [ParseLoop.handed]

theorem atoms_endBlock (specs : List (TagSpec T)) (active : Option T)
    (segments : List (TaggedLineSegment T)) :
    (endBlock active segments).flatMap atoms =
      segments.flatMap atoms ++
        (blockSegments specs active []).flatMap atoms := by
  cases active with
  | none => exact (append_nil _).symm
  | some tag =>
    show (pushSegment segments (.tagEnd tag)).flatMap atoms = _
    rw [atoms_pushSegment]
    rfl

/-- The flush hands out the rest. -/
theorem finish_foretold (hBuffering : parser.Buffering) :
    parser.finish.1.flatMap atoms = parser.foretold [] := by
  unfold finish
  by_cases hNil : parser.lineBuffer = []
  · simp only [hNil, isEmpty_nil, if_true]
    rw [atoms_endBlock parser.specs]
    unfold foretold
    split <;> simp [hNil, linesInclusive, restOfLine]
  · have hDetect : parser.detectTag = true := by
      by_contra hPassing
      exact hNil (hBuffering.passing (by simpa using hPassing))
    have hLines : linesInclusive (parser.lineBuffer ++ []) = [parser.lineBuffer] := by
      rw [linesInclusive_append hNil hBuffering.no_newline, restOfLine, append_nil]
      rfl
    rw [if_neg (by simpa using hNil)]
    rw [atoms_endBlock parser.specs]
    unfold foretold
    rw [if_pos hDetect, hLines]
    exact atoms_endLine { parser with lineBuffer := [] } parser.lineBuffer [] []

/-! ## No segment is empty -/

theorem substantial_endLine
    (h : ∀ segment ∈ segments, segment.Substantial) (parser : TaggedLineParser T) (line : Text) :
    ∀ segment ∈ (parser.endLine line segments).1, segment.Substantial := by
  unfold endLine
  cases lineKind parser.specs parser.activeTag line with
  | opens tag => exact substantial_pushSegment h (.tagStart tag)
  | closes tag => exact substantial_pushSegment h (.tagEnd tag)
  | text => exact substantial_pushSegment h _

section

variable (h : ∀ segment ∈ loop.segments, segment.Substantial)
include h

theorem substantial_flushRun :
    ∀ segment ∈ (if loop.run.isEmpty then loop.segments
      else loop.parser.pushText loop.run loop.segments), segment.Substantial := by
  split
  · exact h
  · exact substantial_pushSegment h _

theorem substantial_parseChar (ch : Char) :
    ∀ segment ∈ (parseChar loop ch).segments, segment.Substantial := by
  have hFlushed := substantial_flushRun h
  unfold parseChar
  dsimp only
  split
  · split
    · exact substantial_endLine hFlushed _ _
    · split
      · exact hFlushed
      · exact substantial_pushSegment hFlushed _
  · split
    · exact substantial_pushSegment h _
    · exact h

end

theorem substantial_parse (delta : Text) :
    ∀ segment ∈ (parser.parse delta).1, segment.Substantial := by
  refine substantial_flushRun (foldlRecOn (motive := fun loop : ParseLoop T =>
    ∀ segment ∈ loop.segments, segment.Substantial) _ _ (forall_mem_nil _) ?_)
  exact fun loop h ch _ => substantial_parseChar h ch

theorem substantial_finish :
    ∀ segment ∈ parser.finish.1, segment.Substantial := by
  have hNone : ∀ segment ∈ ([] : List (TaggedLineSegment T)), segment.Substantial :=
    forall_mem_nil _
  have hLine : ∀ segment ∈ (if parser.lineBuffer.isEmpty then ([], parser)
      else ({ parser with lineBuffer := [] } : TaggedLineParser T).endLine
        parser.lineBuffer []).1, segment.Substantial := by
    split
    · exact hNone
    · exact substantial_endLine hNone _ _
  unfold finish endBlock
  dsimp only
  split
  · exact substantial_pushSegment hLine _
  · exact hLine

end TaggedLineParser

theorem substantial_blockSegments {lines : List Text}
    (hLines : ∀ line ∈ lines, line ≠ []) (active : Option T) :
    ∀ segment ∈ blockSegments specs active lines, segment.Substantial := by
  induction lines generalizing active with
  | nil => cases active <;> simp [blockSegments, Substantial]
  | cons line lines ih =>
    obtain ⟨hLine, hRest⟩ := forall_mem_cons.mp hLines
    rw [blockSegments_cons]
    cases lineKind specs active line with
    | opens _ | closes _ => exact forall_mem_cons.mpr ⟨trivial, ih hRest _⟩
    | text =>
      exact forall_mem_cons.mpr ⟨by cases active <;> exact hLine, ih hRest active⟩

end Codex.StreamParser
