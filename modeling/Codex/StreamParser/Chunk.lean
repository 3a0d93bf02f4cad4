import Codex.Std.Text
import Codex.Lib.Transducer

/-!
# Codex — parsers of streamed text

`utils/stream-parser/src/stream_text.rs`: a parser takes text in chunks and returns for
each chunk the text that is safe to show and the payloads it extracted.
`StreamTextParser` is the trait; a `&mut self` method returns the parser after the call.

Chunks add up field by field, as the callers add them up.
-/

namespace Codex.StreamParser

structure StreamTextChunk (T : Type) where
  visibleText : Text
  extracted : List T
  deriving DecidableEq, Repr

namespace StreamTextChunk

variable {T : Type} (text : Text) (value : T)

def isEmpty (chunk : StreamTextChunk T) : Bool :=
  chunk.visibleText.isEmpty && chunk.extracted.isEmpty

/-- `StreamTextChunk::default`. -/
instance : Zero (StreamTextChunk T) := ⟨{ visibleText := [], extracted := [] }⟩

instance : Add (StreamTextChunk T) :=
  ⟨fun a b =>
    { visibleText := a.visibleText ++ b.visibleText, extracted := a.extracted ++ b.extracted }⟩

/-- A chunk of visible text alone. -/
def visible (text : Text) : StreamTextChunk T := { visibleText := text, extracted := [] }

/-- A chunk of one payload alone. -/
def payload (value : T) : StreamTextChunk T := { visibleText := [], extracted := [value] }

@[ext] theorem ext {a b : StreamTextChunk T} (hText : a.visibleText = b.visibleText)
    (hExtracted : a.extracted = b.extracted) : a = b := by
  cases a
  cases b
  simp_all

@[simp] theorem visibleText_zero : (0 : StreamTextChunk T).visibleText = [] := rfl
@[simp] theorem extracted_zero : (0 : StreamTextChunk T).extracted = [] := rfl

@[simp] theorem visibleText_add (a b : StreamTextChunk T) :
    (a + b).visibleText = a.visibleText ++ b.visibleText := rfl
@[simp] theorem extracted_add (a b : StreamTextChunk T) :
    (a + b).extracted = a.extracted ++ b.extracted := rfl

@[simp] theorem visibleText_visible :
    (visible text : StreamTextChunk T).visibleText = text := rfl
@[simp] theorem extracted_visible :
    (visible text : StreamTextChunk T).extracted = [] := rfl

@[simp] theorem visibleText_payload : (payload value).visibleText = [] := rfl
@[simp] theorem extracted_payload : (payload value).extracted = [value] := rfl

instance : AddMonoid (StreamTextChunk T) where
  add_assoc a b c := by ext1 <;> simp
  zero_add a := by ext1 <;> simp
  add_zero a := by ext1 <;> simp
  nsmul := nsmulRec

theorem visible_append (front back : Text) :
    (visible (front ++ back) : StreamTextChunk T) = visible front + visible back := by
  ext1 <;> simp

end StreamTextChunk

/-- The trait `StreamTextParser`. -/
class StreamTextParser (P : Type) (Extracted : outParam Type) where
  pushStr : P → Text → StreamTextChunk Extracted × P
  finish : P → StreamTextChunk Extracted × P

namespace StreamTextParser

variable (P : Type) {Extracted : Type} [StreamTextParser P Extracted]

/-- A parser as a machine that is fed in chunks. -/
def machine : Transducer.Machine P Char (StreamTextChunk Extracted) where
  push := pushStr
  finish := finish

variable {P}

/-- `collect_chunks` of the tests: every chunk pushed, then the flush, all added up. -/
def collectChunks (parser : P) (chunks : List Text) : StreamTextChunk Extracted :=
  (machine P).collect parser chunks

end StreamTextParser

end Codex.StreamParser
