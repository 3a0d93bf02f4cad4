import Codex.Lib.Quoting
import Codex.Shell.Syntax

/-!
# Codex — tokens and what bash reads of them

The code takes the words of a command from the source text of its tokens: a word
token as it stands, a quoted one without its quotes. Bash takes them from the
same text by quote removal.

`Tree.WellParsed` collects what a correct parse means for the source text of the
tokens; it is the only thing the development assumes about tree-sitter. A token
is `Literal` when nothing in it is dropped or special, and `parseWord_spec` is the
result of this module: the code's word is what bash reads exactly for the literal
tokens.
-/

namespace Codex.Shell

open Quoting List Text

/-! ## What a correct parse guarantees -/

/-- The text between the quotes of a quoted token. -/
def Node.inner (node : Node) : Text := (node.text.drop 1).dropLast

/-- The source text of a token that is not put together from others. -/
def PieceOk (piece : Node) : Prop :=
  (piece.kind = "word" ∨ piece.kind = "number" → Bare piece.text) ∧
  (piece.kind = "string" →
    piece.text = doubleQuote :: piece.inner ++ [doubleQuote] ∧ DoubleBody piece.inner) ∧
  (piece.kind = "raw_string" →
    piece.text = singleQuote :: piece.inner ++ [singleQuote] ∧ singleQuote ∉ piece.inner)

instance (piece : Node) : Decidable (PieceOk piece) :=
  inferInstanceAs (Decidable (_ ∧ _ ∧ _))

/-- The source text of an argument: the parts of a concatenation stand side by side, and the
name of a command is its only child. -/
def WordOk (word : Node) : Prop :=
  PieceOk word ∧
  (word.kind = "command_name" →
    ∀ name ∈ word.namedChildren.head?, word.text = name.text ∧ PieceOk name) ∧
  (word.kind = "concatenation" →
    word.text = (word.namedChildren.map Node.text).flatten ∧
      ∀ part ∈ word.namedChildren, PieceOk part)

instance (word : Node) : Decidable (WordOk word) :=
  inferInstanceAs (Decidable (_ ∧ (_ → _) ∧ _))

/-- **A correct parse** of a script, as far as the words of its commands go. -/
structure Tree.WellParsed (script : Text) (tree : Tree) : Prop where
  words : ∀ cmd ∈ tree.commands, ∀ word ∈ cmd.namedChildren, WordOk word
  ordered : tree.commands.Pairwise fun a b => a.startByte < b.startByte
  within : ∀ cmd ∈ tree.commands, ∀ word ∈ cmd.namedChildren, word.text <:+: script

/-- What is assumed of tree-sitter: scripts that it finds no error in are parsed correctly. -/
def ParsesCorrectly (tryParseShell : Text → Option Tree) : Prop :=
  ∀ script tree, tryParseShell script = some tree → tree.hasError = false → tree.WellParsed script

theorem ParsesCorrectly.of_accepted {tryParseShell : Text → Option Tree} {script : Text}
    {tree : Tree} {commands : List (List Text)} (h : ParsesCorrectly tryParseShell)
    (hTree : tryParseShell script = some tree)
    (hAccepted : tryParseWordOnlyCommandsSequence tree = some commands) :
    tree.WellParsed script := by
  refine h script tree hTree (Bool.eq_false_iff.mpr fun hError => ?_)
  rw [tryParseWordOnlyCommandsSequence, if_pos hError] at hAccepted
  cases hAccepted

/-! ## What bash reads -/

/-- The arguments of a command after quote removal. -/
def Node.reading (cmd : Node) : List (List Glyph) :=
  cmd.namedChildren.map fun word => removeQuotes word.text

/-- The argv bash runs for a command. `expand` stands for the expansions that follow, which may
make any number of arguments of one word. -/
def Node.argv (expand : List Glyph → List Text) (cmd : Node) : List Text :=
  cmd.reading.flatMap expand

/-- The argvs bash runs for a script, in the order of the source. -/
def Tree.argvs (expand : List Glyph → List Text) (tree : Tree) : List (List Text) :=
  tree.commands.map (Node.argv expand)

/-! ## Literal tokens -/

/-- Nothing in the token is dropped by quote removal, and nothing unquoted is special. -/
def PieceLiteral (special : Char → Bool) (piece : Node) : Prop :=
  (piece.kind = "word" ∨ piece.kind = "number" →
    backslash ∉ piece.text ∧ ∀ c ∈ piece.text, special c = false) ∧
  (piece.kind = "string" → Unescaped piece.inner)

instance (special : Char → Bool) (piece : Node) : Decidable (PieceLiteral special piece) :=
  have : Decidable (∀ c ∈ piece.text, special c = false) := List.decidableBAll _ piece.text
  inferInstanceAs (Decidable (_ ∧ _))

def WordLiteral (special : Char → Bool) (word : Node) : Prop :=
  PieceLiteral special word ∧
  (word.kind = "command_name" → ∀ name ∈ word.namedChildren.head?, PieceLiteral special name) ∧
  (word.kind = "concatenation" → ∀ part ∈ word.namedChildren, PieceLiteral special part)

instance (special : Char → Bool) (word : Node) : Decidable (WordLiteral special word) :=
  inferInstanceAs (Decidable (_ ∧ (_ → _) ∧ _))

/-- Every argument of the command is literal. -/
def Node.Literal (special : Char → Bool) (cmd : Node) : Prop :=
  ∀ word ∈ cmd.namedChildren, WordLiteral special word

instance (special : Char → Bool) (cmd : Node) : Decidable (cmd.Literal special) :=
  inferInstanceAs (Decidable (∀ word ∈ cmd.namedChildren, _))

def Tree.Literal (special : Char → Bool) (tree : Tree) : Prop :=
  ∀ cmd ∈ tree.commands, cmd.Literal special

instance (special : Char → Bool) (tree : Tree) : Decidable (tree.Literal special) :=
  inferInstanceAs (Decidable (∀ cmd ∈ tree.commands, _))

/-! ## One token -/

variable {special : Char → Bool} {piece word : Node} {value : Text}

/-- What the code takes from a token, compared with what bash reads of its text. -/
structure Reads (special : Char → Bool) (text value : Text) (isLiteral : Prop) : Prop where
  closed : Closed text
  shorter : (scan .plain text).length ≤ value.length
  exactly : mark special (scan .plain text) = literal value ↔ isLiteral
  within : value.Sublist text

theorem stripQuotes {quote : Char} {body : Text} :
    (stripPrefix? [quote] (quote :: body ++ [quote])).bind (stripSuffix? [quote]) =
      some body := by
  have hOpen : stripPrefix? [quote] (quote :: body ++ [quote]) = some (body ++ [quote]) :=
    stripPrefix?_eq_some.mpr rfl
  rw [hOpen]
  exact stripSuffix?_eq_some.mpr rfl

theorem parsePart_spec (hOk : PieceOk piece) (h : parsePart piece = some value) :
    Reads special piece.text value (PieceLiteral special piece) := by
  obtain ⟨hBare, hString, hRaw⟩ := hOk
  unfold parsePart at h
  split_ifs at h with hWord hStr hRawKind
  · cases h
    have hNot : piece.kind ≠ "string" := by
      rcases hWord with hk | hk <;> rw [hk] <;> decide
    refine ⟨(hBare hWord).2, length_scan_le .plain piece.text, ?_, List.Sublist.refl _⟩
    rw [mark_scan_bare_iff (hBare hWord)]
    exact ⟨fun h => ⟨fun _ => h, fun hk => absurd hk hNot⟩, fun h => h.1 hWord⟩
  · obtain ⟨hText, hBody⟩ := hString hStr
    have hValue : value = piece.inner := by
      unfold parseDoubleQuotedString at h
      rw [if_neg (not_not_intro hStr)] at h
      split at h
      · cases h
      · rw [hText] at h
        exact Option.some.inj (h.symm.trans stripQuotes)
    obtain ⟨hScan, hClosed⟩ := scan_doubleQuoted hBody
    rw [← hText] at hScan hClosed
    subst hValue
    refine ⟨hClosed, ?_, ?_, ?_⟩
    · rw [hScan]
      exact length_scan_le .double _
    · rw [hScan, mark_scan_double_iff hBody]
      exact ⟨fun h => ⟨fun hk => absurd hk hWord, fun _ => h⟩, fun h => h.2 hStr⟩
    · exact (dropLast_sublist _).trans (drop_sublist _ _)
  · obtain ⟨hText, hBody⟩ := hRaw hRawKind
    have hValue : value = piece.inner := by
      unfold parseRawString at h
      rw [if_neg (not_not_intro hRawKind), hText] at h
      exact Option.some.inj (h.symm.trans stripQuotes)
    obtain ⟨hScan, hClosed⟩ := scan_singleQuoted hBody
    rw [← hText] at hScan hClosed
    subst hValue
    refine ⟨hClosed, ?_, ?_, ?_⟩
    · rw [hScan]
      exact Nat.le_of_eq (length_map _)
    · -- between single quotes nothing is ever dropped
      rw [hScan, mark_literal]
      exact iff_of_true rfl ⟨fun hk => absurd hk hWord, fun hk => absurd hk hStr⟩
    · exact (dropLast_sublist _).trans (drop_sublist _ _)

/-! ## Concatenations and whole arguments -/

theorem Reads.append {text text' value value' : Text} {p q : Prop}
    (h : Reads special text value p) (h' : Reads special text' value' q) :
    Reads special (text ++ text') (value ++ value') (p ∧ q) where
  closed := h.closed.append h'.closed
  shorter := by
    rw [h.closed.scan_append, length_append, length_append]
    exact Nat.add_le_add h.shorter h'.shorter
  exactly := by
    rw [h.closed.scan_append, mark_append, ← literal_append, ← h.exactly, ← h'.exactly]
    refine ⟨fun hEq => ?_, fun hEq => by rw [hEq.1, hEq.2]⟩
    -- neither piece is longer than what it stands for
    have hLen := congrArg length hEq
    have hShorter := h.shorter
    have hShorter' := h'.shorter
    simp at hLen
    exact append_inj hEq (by simp; omega)
  within := h.within.append h'.within

/-- The parts of a concatenation, read one after the other. -/
theorem reads_parts {parts : List Node} {values : List Text}
    (h : List.Forall₂ (fun part value => parsePart part = some value) parts values)
    (hOk : ∀ part ∈ parts, PieceOk part) :
    Reads special (parts.map Node.text).flatten values.flatten
      (∀ part ∈ parts, PieceLiteral special part) := by
  induction h with
  | nil => exact ⟨rfl, Nat.le_refl _, by simp [mark, scan, literal], .refl _⟩
  | cons hHead _ ih =>
    rw [forall_mem_cons] at hOk
    have hBoth := (parsePart_spec hOk.1 hHead).append (ih hOk.2)
    rw [← forall_mem_cons] at hBoth
    exact hBoth

/-- **One argument.** The code's word is what bash reads exactly when the token is literal. -/
theorem parseWord_spec (hOk : WordOk word) (h : parseWord word = some value) :
    Reads special word.text value (WordLiteral special word) := by
  obtain ⟨hPiece, hName, hConcat⟩ := hOk
  unfold parseWord at h
  split_ifs at h with hIsName hIsConcat
  · -- the name of the command: its only child is a word token
    obtain ⟨name, hHead, hRest⟩ := Option.bind_eq_some_iff.mp h
    split_ifs at hRest with hKind
    rw [not_not] at hKind
    obtain ⟨hText, hNameOk⟩ := hName hIsName name hHead
    have hPart : parsePart name = some value := by
      rw [parsePart, if_pos (.inl hKind)]
      exact hRest
    have hLiteral : WordLiteral special word ↔ PieceLiteral special name := by
      simp [WordLiteral, PieceLiteral, hIsName, hHead]
    rw [hText, hLiteral]
    exact parsePart_spec hNameOk hPart
  · obtain ⟨concatenated, hMap, hRest⟩ := Option.bind_eq_some_iff.mp h
    obtain ⟨values, hValues, rfl⟩ := Option.map_eq_some_iff.mp hMap
    split_ifs at hRest with hEmpty
    cases hRest
    obtain ⟨hText, hParts⟩ := hConcat hIsConcat
    have hLiteral : WordLiteral special word ↔
        ∀ part ∈ word.namedChildren, PieceLiteral special part := by
      simp [WordLiteral, PieceLiteral, hIsConcat]
    rw [hText, hLiteral]
    exact reads_parts (mapM_eq_some_iff.mp hValues) hParts
  · have hLiteral : WordLiteral special word ↔ PieceLiteral special word := by
      simp [WordLiteral, hIsName, hIsConcat]
    rw [hLiteral]
    exact parsePart_spec hPiece h

/-! ## A whole command -/

variable {cmd : Node} {words : List Text}

/-- The words of a command are found token by token. -/
theorem forall₂_of_parsePlainCommand (h : parsePlainCommandFromNode cmd = some words) :
    List.Forall₂ (fun word value => parseWord word = some value) cmd.namedChildren words := by
  unfold parsePlainCommandFromNode at h
  split_ifs at h
  exact mapM_eq_some_iff.mp h

section

variable (hOk : ∀ word ∈ cmd.namedChildren, WordOk word)
include hOk

/-- **One command.** The words the code finds are, one by one, what an expansion with the
characters `special` is given, exactly when the command is literal. -/
theorem reading_eq_literal_iff (h : parsePlainCommandFromNode cmd = some words) :
    cmd.reading.map (mark special) = words.map literal ↔ cmd.Literal special := by
  rw [Node.reading, map_map]
  refine map_eq_map_iff_of_forall₂ (forall₂_of_parsePlainCommand h) ?_
  intro word hWord value hValue
  have hReads : Reads special _ _ _ := parseWord_spec (hOk word hWord) hValue
  rw [Function.comp_apply, removeQuotes_of_closed hReads.closed]
  exact hReads.exactly

/-- Without special characters, what bash reads is a text. -/
theorem reading_eq_words_iff (h : parsePlainCommandFromNode cmd = some words) :
    cmd.reading.map chars = words ↔ cmd.Literal fun _ => false := by
  have hMark : mark (fun _ => false) = literal ∘ chars := by
    funext gs
    simp [mark, literal, chars]
  rw [← reading_eq_literal_iff hOk h, hMark, ← map_map]
  refine (map_injective_iff.mpr fun xs ys hEq => ?_).eq_iff.symm
  rw [← chars_literal xs, hEq, chars_literal]

end

/-! ## Scripts of one command -/

/-- The node of a token without children. -/
def leaf (kind : String) (startByte : Nat) (text : String) : Node :=
  .mk kind true startByte text.toList []

/-- The node of a text between double quotes; the quotes are anonymous tokens. -/
def quotedString (startByte : Nat) (content : String) : Node :=
  let quote (startByte : Nat) : Node := .mk "\"" false startByte [doubleQuote] []
  .mk "string" true startByte (doubleQuote :: content.toList ++ [doubleQuote])
    [quote startByte, leaf "string_content" (startByte + 1) content,
      quote (startByte + 1 + content.toList.length)]

/-- The tree of a script that is one command. -/
def oneCommand (script name : String) (args : List Node) : Tree where
  root := .mk "program" true 0 script.toList [.mk "command" true 0 script.toList
    (.mk "command_name" true 0 name.toList [leaf "word" 0 name] :: args)]
  hasError := false

/-- A parser that knows one script. -/
def parserOf (script : String) (tree : Tree) (input : Text) : Option Tree :=
  if input = script.toList then some tree else none

theorem parserOf_correct {script : String} {tree : Tree}
    (h : tree.WellParsed script.toList) : ParsesCorrectly (parserOf script tree) := by
  intro input found hFound _
  unfold parserOf at hFound
  split_ifs at hFound with hInput
  cases hFound
  rw [hInput]
  exact h

end Codex.Shell
