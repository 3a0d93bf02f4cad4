import Codex.Std.Utf8
import Codex.StreamParser.AssistantText

/-!
# Codex — streamed bytes

`utils/stream-parser/src/utf8_stream.rs`. `Utf8StreamParser` puts a text parser behind a
byte stream: bytes that end inside a character are kept for the next chunk, and a chunk
with bytes that belong to no character is refused as a whole.

The wrapped parser is arbitrary. What it gets to see does not depend on it, so the decoding
is followed on its own (`Decoder`: the accepted bytes, the texts passed on, the pending
bytes), and the code is shown to follow it whatever the parser (`follows_ofChunks`).
`utf8_stream_spec` says what the accepted bytes and the texts have to do with each other.
-/

namespace Codex.StreamParser

open PrefixCode Transducer List StreamTextParser

inductive Utf8StreamParserError where
  | invalidUtf8 (validUpTo errorLen : Nat)
  | incompleteUtf8AtEof
  deriving DecidableEq, Repr

structure Utf8StreamParser (P : Type) where
  inner : P
  pendingUtf8 : List UInt8

variable {P E : Type} [StreamTextParser P E] {text : Text}

namespace Utf8StreamParser

omit [StreamTextParser P E] in
def new (inner : P) : Utf8StreamParser P where
  inner := inner
  pendingUtf8 := []

def pushBytes (parser : Utf8StreamParser P) (chunk : List UInt8) :
    Except Utf8StreamParserError (StreamTextChunk E) × Utf8StreamParser P :=
  let oldLen := parser.pendingUtf8.length
  let pending := parser.pendingUtf8 ++ chunk
  match fromUtf8 pending with
  | .ok text =>
    let (out, inner) := pushStr parser.inner text
    (.ok out, { inner, pendingUtf8 := [] })
  | .error err =>
    match err.errorLen with
    | some errorLen =>
      (.error (.invalidUtf8 err.validUpTo errorLen),
        { parser with pendingUtf8 := pending.take oldLen })
    | none =>
      if err.validUpTo = 0 then (.ok 0, { parser with pendingUtf8 := pending })
      else
        match fromUtf8 (pending.take err.validUpTo) with
        | .ok text =>
          let (out, inner) := pushStr parser.inner text
          (.ok out, { inner, pendingUtf8 := pending.drop err.validUpTo })
        | .error prefixErr =>
          (.error (.invalidUtf8 prefixErr.validUpTo (prefixErr.errorLen.getD 0)),
            { parser with pendingUtf8 := pending.take oldLen })

omit [StreamTextParser P E] in
/-- The check of the pending bytes that `finish` and `into_inner` make. -/
def checkPending (parser : Utf8StreamParser P) : Except Utf8StreamParserError Unit :=
  if parser.pendingUtf8.isEmpty then .ok ()
  else
    match fromUtf8 parser.pendingUtf8 with
    | .ok _ => .ok ()
    | .error err =>
      match err.errorLen with
      | some errorLen => .error (.invalidUtf8 err.validUpTo errorLen)
      | none => .error .incompleteUtf8AtEof

/-- The text of the pending bytes goes to the wrapped parser. -/
def flushPending (parser : Utf8StreamParser P) :
    Except Utf8StreamParserError (StreamTextChunk E × Utf8StreamParser P) :=
  if parser.pendingUtf8.isEmpty then .ok (0, parser)
  else
    match fromUtf8 parser.pendingUtf8 with
    | .ok text =>
      let (out, inner) := pushStr parser.inner text
      .ok (out, { inner, pendingUtf8 := [] })
    | .error err => .error (.invalidUtf8 err.validUpTo (err.errorLen.getD 0))

def finish (parser : Utf8StreamParser P) :
    Except Utf8StreamParserError (StreamTextChunk E) × Utf8StreamParser P :=
  match parser.checkPending with
  | .error err => (.error err, parser)
  | .ok () =>
    match parser.flushPending with
    | .error err => (.error err, parser)
    | .ok (out, parser) =>
      let (tail, inner) := StreamTextParser.finish parser.inner
      (.ok { visibleText := out.visibleText ++ tail.visibleText
             extracted := out.extracted ++ tail.extracted },
        { parser with inner })

end Utf8StreamParser

open Utf8StreamParser
/-- A stream of chunks so far: the parser, the bytes of the chunks it accepted, and what it
returned for them. -/
structure ByteRun (P E : Type) where
  parser : Utf8StreamParser P
  accepted : List UInt8
  output : StreamTextChunk E

namespace ByteRun

/-- A refused chunk is left out; the stream goes on. -/
def push (run : ByteRun P E) (chunk : List UInt8) : ByteRun P E :=
  match run.parser.pushBytes chunk with
  | (.ok out, parser) =>
    { parser, accepted := run.accepted ++ chunk, output := run.output + out }
  | (.error _, parser) => { run with parser }

def ofChunks (inner : P) (chunks : List (List UInt8)) : ByteRun P E :=
  chunks.foldl push { parser := .new inner, accepted := [], output := 0 }

end ByteRun

open ByteRun
/-! ## The decoding on its own -/

/-- What is passed on, whatever parser it is passed to. -/
structure Decoder where
  accepted : List UInt8
  texts : List Text
  pending : List UInt8

namespace Decoder

/-- The texts one chunk passes on: none if it has no complete character and leaves one begun. -/
def pieces (text : Text) (rest : List UInt8) : List Text :=
  if text.isEmpty && !rest.isEmpty then [] else [text]

def push (decoder : Decoder) (chunk : List UInt8) : Decoder :=
  let (text, rest) := Utf8.utf8.decode (decoder.pending ++ chunk)
  match Utf8.scan rest with
  | .invalid _ => decoder
  | _ =>
    { accepted := decoder.accepted ++ chunk
      texts := decoder.texts ++ pieces text rest
      pending := rest }

def ofChunks (chunks : List (List UInt8)) : Decoder :=
  chunks.foldl push { accepted := [], texts := [], pending := [] }

theorem flatten_pieces (text : Text) (rest : List UInt8) : (pieces text rest).flatten = text := by
  unfold pieces
  split
  · rename_i hEmpty
    simp only [Bool.and_eq_true, List.isEmpty_iff] at hEmpty
    rw [hEmpty.1]
    rfl
  · exact List.flatten_singleton

/-- The accepted bytes are the texts and a character that has begun. -/
structure Sound (decoder : Decoder) : Prop where
  accepted : decoder.accepted = asBytes decoder.texts.flatten ++ decoder.pending
  pending : decoder.pending = [] ∨ Utf8.utf8.Begun decoder.pending

theorem sound_push {decoder : Decoder} (h : decoder.Sound) (chunk : List UInt8) :
    (decoder.push chunk).Sound := by
  obtain ⟨hSplit, hStuck⟩ := Utf8.utf8.decode_spec (decoder.pending ++ chunk)
  unfold push
  dsimp only
  cases hScan : Utf8.scan (Utf8.utf8.decode (decoder.pending ++ chunk)).2 with
  | symbol ch rest => exact absurd hScan (hStuck ch rest)
  | invalid len => exact h
  | incomplete =>
    constructor
    · unfold asBytes
      rw [flatten_append, flatten_pieces, Code.encodeAll_append, append_assoc, ← hSplit,
        ← append_assoc]
      exact congrArg (· ++ chunk) h.accepted
    · by_cases hNil : (Utf8.utf8.decode (decoder.pending ++ chunk)).2 = []
      · exact .inl hNil
      · exact .inr ((Utf8.utf8.scan_eq_incomplete_iff hNil).mp hScan)

theorem sound_ofChunks (chunks : List (List UInt8)) : (ofChunks chunks).Sound :=
  foldlRecOn chunks push ⟨rfl, .inl rfl⟩ fun _ h chunk _ => sound_push h chunk

end Decoder

open Decoder
/-! ## The code follows the decoding -/

theorem asBytes_length_eq_zero_iff : (asBytes text).length = 0 ↔ text = [] := by
  rw [length_eq_zero_iff]
  constructor
  · intro hNil
    have hOk := fromUtf8_asBytes text
    rw [hNil] at hOk
    exact (Except.ok.inj hOk).symm
  · intro hNil
    rw [hNil]
    rfl

theorem pushAll_singleton (inner : P) (text : Text) :
    (machine P).pushAll inner [text] = pushStr inner text :=
  Prod.ext (add_zero _) rfl

variable (parser : Utf8StreamParser P)

/-- What one chunk does: it is refused and nothing changes, or its text is passed on. -/
theorem pushBytes_cases {chunk rest : List UInt8}
    (hDecode : Utf8.utf8.decode (parser.pendingUtf8 ++ chunk) = (text, rest)) :
    ((∃ len, Utf8.scan rest = .invalid len) ∧
        ∃ err, parser.pushBytes chunk = (.error err, parser)) ∨
      ((rest = [] ∨ Utf8.utf8.Begun rest) ∧
        parser.pushBytes chunk =
          (.ok ((machine P).pushAll parser.inner (pieces text rest)).1,
            { inner := ((machine P).pushAll parser.inner
                (pieces text rest)).2
              pendingUtf8 := rest })) := by
  have hSplit := (Utf8.utf8.decode_spec (parser.pendingUtf8 ++ chunk)).1
  rw [hDecode] at hSplit
  rcases fromUtf8_cases hDecode with ⟨hNil, hOk⟩ | ⟨hBegun, hErr⟩ | ⟨len, hScan, hErr⟩
  · right
    refine ⟨.inl hNil, ?_⟩
    have hPieces : pieces text rest = [text] := by
      rw [hNil]
      simp [pieces]
    unfold pushBytes
    dsimp only
    rw [hOk, hPieces, pushAll_singleton, hNil]
  · right
    refine ⟨.inr hBegun, ?_⟩
    unfold pushBytes
    dsimp only
    rw [hErr]
    dsimp only
    by_cases hText : text = []
    · -- no complete character: the wrapped parser is not called
      have hPieces : pieces text rest = [] := by
        simp [pieces, hText, hBegun.1]
      rw [hPieces, hSplit, hText]
      rfl
    · have hPieces : pieces text rest = [text] := by
        simp [pieces, hText]
      have hFront : (parser.pendingUtf8 ++ chunk).take (asBytes text).length = asBytes text := by
        rw [hSplit]
        exact take_left
      have hRest : (parser.pendingUtf8 ++ chunk).drop (asBytes text).length = rest := by
        rw [hSplit]
        exact drop_left
      rw [if_neg (mt asBytes_length_eq_zero_iff.mp hText), hFront, fromUtf8_asBytes, hRest, hPieces,
        pushAll_singleton]
  · left
    refine ⟨⟨len, hScan⟩, .invalidUtf8 (asBytes text).length len, ?_⟩
    unfold pushBytes
    dsimp only
    rw [hErr]
    rw [take_left]

/-- A run and the decoding of the same chunks. -/
structure Follows (inner : P) (run : ByteRun P E) (decoder : Decoder) : Prop where
  accepted : run.accepted = decoder.accepted
  pending : run.parser.pendingUtf8 = decoder.pending
  wrapped : run.parser.inner = ((machine P).pushAll inner decoder.texts).2
  output : run.output = ((machine P).pushAll inner decoder.texts).1

variable {inner : P} {run : ByteRun P E} {decoder : Decoder}

theorem Follows.push (h : Follows inner run decoder) (chunk : List UInt8) :
    Follows inner (run.push chunk) (decoder.push chunk) := by
  obtain ⟨⟨text, rest⟩, hDecode⟩ : ∃ found,
    Utf8.utf8.decode (run.parser.pendingUtf8 ++ chunk) = found := ⟨_, rfl⟩
  have hDecode' := hDecode
  rw [h.pending] at hDecode'
  unfold ByteRun.push Decoder.push
  rw [hDecode']
  dsimp only
  rcases pushBytes_cases run.parser hDecode with ⟨⟨len, hScan⟩, err, hPush⟩ | ⟨hRest, hPush⟩
  · rw [hPush, hScan]
    exact h
  have hScan : Utf8.scan rest = .incomplete := by
    rcases hRest with rfl | hBegun
    · rfl
    · exact (Utf8.utf8.scan_eq_incomplete_iff hBegun.1).mpr hBegun
  rw [hPush, hScan]
  refine ⟨?_, rfl, ?_, ?_⟩
  · exact congrArg (· ++ chunk) h.accepted
  · rw [Transducer.Machine.pushAll_append, h.wrapped]
  · rw [Transducer.Machine.pushAll_append, h.wrapped, h.output]

theorem follows_ofChunks (inner : P) (chunks : List (List UInt8)) :
    Follows inner (ofChunks inner chunks : ByteRun P E) (ofChunks chunks) :=
  foldl_rel ⟨rfl, rfl, rfl, rfl⟩ fun chunk _ _ _ h => h.push chunk

/-! ## The flush -/

/-- With nothing pending the wrapped parser is flushed. -/
theorem finish_of_nil (h : parser.pendingUtf8 = []) :
    parser.finish.1 = .ok (StreamTextParser.finish parser.inner).1 := by
  simp [Utf8StreamParser.finish, checkPending, flushPending, h]

/-! ## The main result -/

/-- What a stream of bytes amounts to. -/
structure StreamSpec (inner : P) (run : ByteRun P E) (texts : List Text) : Prop where
  /-- A refused chunk changes nothing. -/
  rollback : ∀ chunk err, (run.parser.pushBytes chunk).1 = .error err →
    (run.parser.pushBytes chunk).2 = run.parser
  /-- The wrapped parser has been given `texts`, and nothing else. -/
  wrapped : run.parser.inner = ((machine P).pushAll inner texts).2
  accepted : run.accepted = asBytes texts.flatten ++ run.parser.pendingUtf8
  /-- `texts` are the longest valid front of the accepted bytes. -/
  longest : ∀ text, asBytes text <+: run.accepted → asBytes text <+: asBytes texts.flatten
  /-- At most three bytes are pending, the beginning of a character. -/
  pending : run.parser.pendingUtf8 = [] ∨
    (run.parser.pendingUtf8.length ≤ 3 ∧
      ∃ ch more, more ≠ [] ∧ run.parser.pendingUtf8 ++ more = asBytes [ch])
  finishes : (∃ out, run.parser.finish.1 = .ok out) ↔ ∃ text, run.accepted = asBytes text
  /-- All in all, what the wrapped parser makes of the decoded text, given in the pieces
  `texts`. -/
  total : ∀ out, run.parser.finish.1 = .ok out →
    run.accepted = asBytes texts.flatten ∧
      run.output + out = collectChunks inner texts
  /-- The pieces do not show if they do not matter to the wrapped parser. -/
  total_whole : (∀ pieces, collectChunks inner pieces =
      collectChunks inner [pieces.flatten]) →
    ∀ out, run.parser.finish.1 = .ok out →
      run.output + out = collectChunks inner [texts.flatten]

theorem Decoder.Sound.decode_accepted (h : decoder.Sound) :
    Utf8.utf8.decode decoder.accepted = (decoder.texts.flatten, decoder.pending) := by
  refine Code.decode_eq h.accepted ?_
  rcases h.pending with hNil | hBegun
  · rw [hNil]
    exact Code.stuck_nil
  · exact hBegun.stuck

theorem Follows.finish_iff (h : Follows inner run decoder) (hSound : decoder.Sound) :
    (∃ out, run.parser.finish.1 = .ok out) ↔ decoder.pending = [] := by
  constructor
  · intro ⟨out, hOk⟩
    rcases hSound.pending with hNil | hBegun
    · exact hNil
    rw [← h.pending] at hBegun
    have hNe : run.parser.pendingUtf8.isEmpty = false := by simpa using hBegun.1
    have hDecode : Utf8.utf8.decode run.parser.pendingUtf8 = ([], run.parser.pendingUtf8) :=
      Code.decode_eq rfl hBegun.stuck
    -- a parser with a character begun refuses to finish
    rcases fromUtf8_cases hDecode with ⟨hNil, -⟩ | ⟨-, hErr⟩ | ⟨len, hScan, hErr⟩
    · exact absurd hNil hBegun.1
    · simp [Utf8StreamParser.finish, checkPending, hNe, hErr] at hOk
    · simp [Utf8StreamParser.finish, checkPending, hNe, hErr] at hOk
  · intro hNil
    rw [← h.pending] at hNil
    exact ⟨_, finish_of_nil run.parser hNil⟩

theorem Follows.total (h : Follows inner run decoder) (hSound : decoder.Sound)
    {out : StreamTextChunk E} (hOk : run.parser.finish.1 = .ok out) :
    run.accepted = asBytes decoder.texts.flatten ∧
      run.output + out = collectChunks inner decoder.texts := by
  have hNil := (h.finish_iff hSound).mp ⟨out, hOk⟩
  constructor
  · rw [h.accepted, hSound.accepted, hNil, append_nil]
  · rw [finish_of_nil run.parser (h.pending.trans hNil), h.wrapped] at hOk
    rw [h.output, ← Except.ok.inj hOk]
    rfl

/-- **Streamed bytes.** For every sequence of chunks there are texts, the same for every
wrapped parser, that stand for the accepted bytes. -/
theorem utf8_stream_spec (chunks : List (List UInt8)) :
    ∃ texts : List Text, ∀ {P E : Type} [StreamTextParser P E] (inner : P),
      StreamSpec inner (ofChunks inner chunks : ByteRun P E) texts := by
  refine ⟨(ofChunks chunks).texts, ?_⟩
  intro P E _ inner
  have hSound := sound_ofChunks chunks
  have hDecode := hSound.decode_accepted
  have hFollows : Follows inner (ofChunks inner chunks : ByteRun P E) _ :=
    follows_ofChunks inner chunks
  refine
    { rollback := ?_
      wrapped := hFollows.wrapped
      accepted := ?_
      longest := ?_
      pending := ?_
      finishes := ?_
      total := fun out hOk => hFollows.total hSound hOk
      total_whole := ?_ }
  · intro chunk err hErr
    rcases pushBytes_cases (ofChunks inner chunks).parser rfl with
      ⟨-, err', hPush⟩ | ⟨-, hPush⟩
    · rw [hPush]
    · rw [hPush] at hErr
      cases hErr
  · rw [hFollows.accepted, hFollows.pending]
    exact hSound.accepted
  · intro text hPrefix
    rw [hFollows.accepted] at hPrefix
    have hLongest := Code.prefix_of_encodeAll hPrefix
    rw [hDecode] at hLongest
    exact hLongest
  · rw [hFollows.pending]
    rcases hSound.pending with hNil | hBegun
    · exact .inl hNil
    obtain ⟨ch, more, hNe, hMore⟩ := hBegun.2
    refine .inr ⟨?_, ch, more, hNe, ?_⟩
    · have hLength := congrArg length hMore
      have hFour : (Utf8.utf8.encode ch).length ≤ 4 :=
        String.length_utf8EncodeChar ch ▸ ch.utf8Size_le_four
      have hPos := length_pos_of_ne_nil hNe
      rw [length_append] at hLength
      omega
    · rw [hMore]
      exact (append_nil _).symm
  · rw [hFollows.finish_iff hSound, hFollows.accepted]
    have hValid := @Code.exists_encodeAll_iff _ _ Utf8.utf8 (ofChunks chunks).accepted
    rw [hDecode] at hValid
    exact hValid.symm
  · intro hPieces out hOk
    rw [(hFollows.total hSound hOk).2, hPieces]

/-- Citations in streamed bytes are those of the decoded text. -/
theorem citations_of_bytes (chunks : List (List UInt8)) {out : StreamTextChunk Text}
    (hOk : (ofChunks CitationStreamParser.new chunks : ByteRun _ Text).parser.finish.1 =
      .ok out) :
    ∃ text, (ofChunks CitationStreamParser.new chunks : ByteRun _ Text).accepted =
        asBytes text ∧
      (ofChunks CitationStreamParser.new chunks : ByteRun _ Text).output + out =
        { visibleText := (citationSpans text).1, extracted := (citationSpans text).2 } := by
  obtain ⟨hAccepted, hTotal⟩ :=
    (follows_ofChunks CitationStreamParser.new chunks).total (sound_ofChunks chunks) hOk
  exact ⟨_, hAccepted, hTotal.trans (collectChunks_citation _)⟩

/-- A citation of one letter, which is cut in two. -/
theorem citation_of_two_chunks :
    let chunks := [asBytes "a<oai-mem-citation>".toList ++ [0xC3],
      0xA9 :: asBytes "</oai-mem-citation>".toList]
    let run : ByteRun _ Text := ofChunks CitationStreamParser.new chunks
    run.output = { visibleText := ['a'], extracted := [['é']] } ∧
    ∃ text, run.accepted = asBytes text ∧
      run.output + 0 =
        { visibleText := (citationSpans text).1, extracted := (citationSpans text).2 } := by
  intro chunks run
  refine ⟨?_, citations_of_bytes chunks ?_⟩
  · decide +kernel
  · rfl

end Codex.StreamParser
