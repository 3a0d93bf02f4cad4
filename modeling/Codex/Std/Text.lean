import Mathlib.Data.List.Infix
import Mathlib.Data.List.DropRight

/-!
# Codex — Rust strings

A Rust `String` is a sequence of Unicode scalar values, so the model uses
`List Char`. The functions here are the ones of the standard library that the
modelled code calls, under their documented behaviour:

* `isWhitespace` is the Unicode `White_Space` property (Lean's own predicate
  knows only the ASCII blanks);
* `trimStart`, `trimEnd` and `trim` strip it on one side or on both;
* `toAsciiLowercase` leaves everything outside `A`–`Z` alone.
-/

namespace Codex

open List

abbrev Text := List Char

-- by name, so that a search for texts in a list refers to it in every module alike
instance : LawfulBEq Text := inferInstance

/-- `char::is_whitespace`. -/
def isWhitespace (c : Char) : Bool :=
  let n := c.toNat
  (9 ≤ n && n ≤ 13) || n == 0x20 || n == 0x85 || n == 0xA0 || n == 0x1680 ||
    (0x2000 ≤ n && n ≤ 0x200A) || n == 0x2028 || n == 0x2029 || n == 0x202F ||
    n == 0x205F || n == 0x3000

namespace Text

def trimStart (t : Text) : Text := t.dropWhile isWhitespace

def trimEnd (t : Text) : Text := t.rdropWhile isWhitespace

def trim (t : Text) : Text := trimEnd (trimStart t)

def toAsciiLowercase (t : Text) : Text := t.map Char.toLower

/-- `str::trim_end_matches` for a single character. -/
def trimEndMatches (c : Char) (t : Text) : Text := t.rdropWhile (· == c)

/-- `str::starts_with`. -/
def startsWith (pre t : Text) : Bool := pre.isPrefixOf t

/-- `str::ends_with`. -/
def endsWith (suf t : Text) : Bool := suf.isSuffixOf t

/-- `str::strip_prefix`. -/
def stripPrefix? (pre t : Text) : Option Text :=
  if pre.isPrefixOf t then some (t.drop pre.length) else none

/-- `str::strip_suffix`. -/
def stripSuffix? (suf t : Text) : Option Text :=
  if suf.isSuffixOf t then some (t.take (t.length - suf.length)) else none

/-- `str::split` for a single character. -/
def split (c : Char) (t : Text) : List Text := t.splitOn c

/-- `str::split_once` for a non-empty separator. -/
def splitOnce (sep : Text) : Text → Option (Text × Text)
  | [] => none
  | c :: rest =>
    if sep.isPrefixOf (c :: rest) then some ([], (c :: rest).drop sep.length)
    else (splitOnce sep rest).map fun (before, after) => (c :: before, after)

/-- `[String]::join`. -/
def join (sep : Text) (ts : List Text) : Text := sep.intercalate ts

/-- A line without one carriage return at its end. -/
def stripCr (line : Text) : Text := (stripSuffix? ['\r'] line).getD line

/-- `str::lines`: what follows the last newline is a line only if there is something,
and it keeps its carriage return. -/
def lines (t : Text) : List Text :=
  let pieces := split '\n' t
  pieces.dropLast.map stripCr ++ (pieces.getLast?.filter (· ≠ [])).toList

/-! ## Prefixes and suffixes -/

theorem stripPrefix?_eq_some {pre t rest : Text} :
    stripPrefix? pre t = some rest ↔ t = pre ++ rest := by
  unfold stripPrefix?
  split
  · rename_i h
    obtain ⟨r, rfl⟩ := isPrefixOf_iff_prefix.mp h
    simp
  rename_i h
  constructor
  · intro hn
    cases hn
  · rintro rfl
    exact absurd (List.isPrefixOf_iff_prefix.mpr (prefix_append _ _)) h

theorem stripSuffix?_eq_some {suf t rest : Text} :
    stripSuffix? suf t = some rest ↔ t = rest ++ suf := by
  unfold stripSuffix?
  split
  · rename_i h
    obtain ⟨r, rfl⟩ := isSuffixOf_iff_suffix.mp h
    simp
  rename_i h
  constructor
  · intro hn
    cases hn
  · rintro rfl
    exact absurd (isSuffixOf_iff_suffix.mpr (suffix_append _ _)) h

theorem startsWith_iff {pre t : Text} : startsWith pre t = true ↔ pre <+: t :=
  isPrefixOf_iff_prefix

theorem endsWith_iff {suf t : Text} : endsWith suf t = true ↔ suf <:+ t :=
  isSuffixOf_iff_suffix

end Text

end Codex
