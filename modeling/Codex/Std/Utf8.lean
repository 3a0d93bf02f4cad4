import Codex.Lib.PrefixCode
import Codex.Std.Text

/-!
# Codex — UTF-8

`std::str::from_utf8` and its error. Texts are written with the UTF-8 encoder of core Lean;
the scanner follows the validation loop of the Rust library: the width of a character is
known from its first byte, the range of the second one depends on the first, and the bytes
after that are continuation bytes.

`utf8` puts the two together as a code: the scanner reads back what the encoder writes
(`scan_encodeChar`), accepts nothing else (`encodeChar_of_scan`), and asks for more bytes
only where a character has begun (`exists_completion`).
-/

namespace Codex.Utf8

open PrefixCode

/-- How many continuation bytes a first byte calls for, and the bits it brings. -/
def lead? (b : Nat) : Option (Nat × Nat) :=
  if 0xC2 ≤ b ∧ b ≤ 0xDF then some (1, b - 0xC0)
  else if 0xE0 ≤ b ∧ b ≤ 0xEF then some (2, b - 0xE0)
  else if 0xF0 ≤ b ∧ b ≤ 0xF4 then some (3, b - 0xF0)
  else none

/-- The least second byte: a character is not written longer than it has to be. -/
def secondLow (b : Nat) : Nat :=
  if b = 0xE0 then 0xA0 else if b = 0xF0 then 0x90 else 0x80

/-- The greatest second byte: no surrogates, and nothing above `0x10FFFF`. -/
def secondHigh (b : Nat) : Nat :=
  if b = 0xED then 0x9F else if b = 0xF4 then 0x8F else 0xBF

/-- The continuation bytes of a character of which `seen` bytes are read. The next one lies
between `low` and `high`. -/
def scanTail (low high value seen : Nat) : Nat → List UInt8 → Scan Char UInt8
  | 0, rest => .symbol (Char.ofNat value) rest
  | _ + 1, [] => .incomplete
  | more + 1, b :: rest =>
    if low ≤ b.toNat ∧ b.toNat ≤ high then
      scanTail 0x80 0xBF (value * 64 + (b.toNat - 0x80)) (seen + 1) more rest
    else .invalid seen

def scan : List UInt8 → Scan Char UInt8
  | [] => .incomplete
  | b :: rest =>
    if b.toNat < 0x80 then .symbol (Char.ofNat b.toNat) rest
    else
      match lead? b.toNat with
      | some (more, value) =>
        scanTail (secondLow b.toNat) (secondHigh b.toNat) value 1 more rest
      | none => .invalid 1

variable {b more value low high seen n : Nat} {input : List UInt8}

theorem lead?_two (h : 0xC2 ≤ b) (h' : b ≤ 0xDF) : lead? b = some (1, b - 0xC0) := by
  unfold lead?
  rw [if_pos ⟨h, h'⟩]

theorem lead?_three (h : 0xE0 ≤ b) (h' : b ≤ 0xEF) : lead? b = some (2, b - 0xE0) := by
  unfold lead?
  rw [if_neg (by omega), if_pos ⟨h, h'⟩]

theorem lead?_four (h : 0xF0 ≤ b) (h' : b ≤ 0xF4) : lead? b = some (3, b - 0xF0) := by
  unfold lead?
  rw [if_neg (by omega), if_neg (by omega), if_pos ⟨h, h'⟩]

theorem lead?_cases (h : lead? b = some (more, value)) :
    (0xC2 ≤ b ∧ b ≤ 0xDF ∧ more = 1 ∧ value = b - 0xC0) ∨
      (0xE0 ≤ b ∧ b ≤ 0xEF ∧ more = 2 ∧ value = b - 0xE0) ∨
      (0xF0 ≤ b ∧ b ≤ 0xF4 ∧ more = 3 ∧ value = b - 0xF0) := by
  unfold lead? at h
  split_ifs at h <;> simp only [Option.some.injEq, Prod.mk.injEq] at h <;> omega

/-- The second byte keeps the value out of the shorter forms, off the surrogates and below
the last character. -/
theorem second_iff {c : Nat} : secondLow b ≤ c ∧ c ≤ secondHigh b ↔
    0x80 ≤ c ∧ c ≤ 0xBF ∧ (b = 0xE0 → 0xA0 ≤ c) ∧ (b = 0xED → c ≤ 0x9F) ∧
      (b = 0xF0 → 0x90 ≤ c) ∧ (b = 0xF4 → c ≤ 0x8F) := by
  unfold secondLow secondHigh
  split_ifs <;> omega

theorem scanTail_cons {b : UInt8} (h : low ≤ b.toNat ∧ b.toNat ≤ high) (rest : List UInt8) :
    scanTail low high value seen (more + 1) (b :: rest) =
      scanTail 0x80 0xBF (value * 64 + (b.toNat - 0x80)) (seen + 1) more rest := by
  rw [scanTail, if_pos h]

/-- What `scanTail` has read when it finds a character. -/
theorem scanTail_symbol {rest : List UInt8} {ch : Char}
    (h : scanTail low high value seen (more + 1) input = .symbol ch rest) :
    ∃ b input', input = b :: input' ∧ (low ≤ b.toNat ∧ b.toNat ≤ high) ∧
      scanTail 0x80 0xBF (value * 64 + (b.toNat - 0x80)) (seen + 1) more input' =
        .symbol ch rest := by
  rcases input with _ | ⟨b, input'⟩
  · cases h
  by_cases hb : low ≤ b.toNat ∧ b.toNat ≤ high
  · rw [scanTail_cons hb] at h
    exact ⟨b, input', rfl, hb, h⟩
  · rw [scanTail, if_neg hb] at h
    cases h

/-! ## The scanner reads what the encoder writes -/

theorem toNat_byte (h : n < 256) : (UInt8.ofNat n).toNat = n := by
  rw [UInt8.toNat_ofNat']
  omega

theorem byte_eq (b : UInt8) (h : n = b.toNat) : UInt8.ofNat n = b := by
  rw [h, UInt8.ofNat_toNat]

/-- The encoder, by the range the character lies in. -/
theorem encodeChar_ofNat (h : n.isValidChar) : String.utf8EncodeChar (Char.ofNat n) =
      if n ≤ 0x7F then [UInt8.ofNat n]
      else if n ≤ 0x7FF then [UInt8.ofNat (n / 64 % 32 + 0xC0), UInt8.ofNat (n % 64 + 0x80)]
      else if n ≤ 0xFFFF then
        [UInt8.ofNat (n / 4096 % 16 + 0xE0), UInt8.ofNat (n / 64 % 64 + 0x80),
          UInt8.ofNat (n % 64 + 0x80)]
      else
        [UInt8.ofNat (n / 262144 % 8 + 0xF0), UInt8.ofNat (n / 4096 % 64 + 0x80),
          UInt8.ofNat (n / 64 % 64 + 0x80), UInt8.ofNat (n % 64 + 0x80)] := by
  have hVal : (Char.ofNat n).val.toNat = n := by
    unfold Char.ofNat
    rw [dif_pos h]
    rfl
  rw [String.utf8EncodeChar]
  simp only [hVal]

theorem scan_encodeChar (ch : Char) (rest : List UInt8) :
    scan (String.utf8EncodeChar ch ++ rest) = .symbol ch rest := by
  obtain ⟨v, hValid, rfl⟩ : ∃ v : Nat, v.isValidChar ∧ ch = Char.ofNat v :=
    ⟨_, ch.valid, (Char.ofNat_toNat ch).symm⟩
  rw [encodeChar_ofNat hValid]
  have hLast := toNat_byte (n := v % 64 + 0x80) (by omega)
  have hThird := toNat_byte (n := v / 64 % 64 + 0x80) (by omega)
  have hSecond := toNat_byte (n := v / 4096 % 64 + 0x80) (by omega)
  split_ifs with h1 h2 h3
  · have hb := toNat_byte (n := v) (by omega)
    show scan (_ :: rest) = _
    rw [scan, hb, if_pos (by omega)]
  · have hb := toNat_byte (n := v / 64 % 32 + 0xC0) (by omega)
    show scan (_ :: _ :: rest) = _
    rw [scan, if_neg (by omega), lead?_two (by omega) (by omega)]
    dsimp only
    rw [scanTail_cons (second_iff.mpr (by omega))]
    exact congrArg (fun n => Scan.symbol (Char.ofNat n) rest) (by omega)
  · have hb := toNat_byte (n := v / 4096 % 16 + 0xE0) (by omega)
    show scan (_ :: _ :: _ :: rest) = _
    rw [scan, if_neg (by omega), lead?_three (by omega) (by omega)]
    dsimp only
    rw [scanTail_cons (second_iff.mpr (by omega)), scanTail_cons (by omega)]
    exact congrArg (fun n => Scan.symbol (Char.ofNat n) rest) (by omega)
  · have hb := toNat_byte (n := v / 262144 % 8 + 0xF0) (by omega)
    show scan (_ :: _ :: _ :: _ :: rest) = _
    rw [scan, if_neg (by omega), lead?_four (by omega) (by omega)]
    dsimp only
    rw [scanTail_cons (second_iff.mpr (by omega)), scanTail_cons (by omega),
      scanTail_cons (by omega)]
    exact congrArg (fun n => Scan.symbol (Char.ofNat n) rest) (by omega)

/-! ## The scanner reads nothing else -/

theorem encodeChar_of_scan (input : List UInt8) (ch : Char) (rest : List UInt8)
    (h : scan input = .symbol ch rest) : input = String.utf8EncodeChar ch ++ rest := by
  rcases input with _ | ⟨b, input⟩
  · cases h
  rw [scan] at h
  by_cases hb : b.toNat < 0x80
  · rw [if_pos hb] at h
    obtain ⟨rfl, rfl⟩ := Scan.symbol.inj h
    rw [encodeChar_ofNat (.inl (by omega)), if_pos (by omega), UInt8.ofNat_toNat]
    rfl
  rw [if_neg hb] at h
  rcases hLead : lead? b.toNat with _ | lead
  · rw [hLead] at h
    cases h
  rw [hLead] at h
  dsimp only at h
  -- the bytes are peeled off one by one, as many as the first one calls for
  rcases lead?_cases hLead with ⟨hb, hb', hMore, hValue⟩ | ⟨hb, hb', hMore, hValue⟩ |
    ⟨hb, hb', hMore, hValue⟩ <;> rw [hMore, hValue] at h <;>
    obtain ⟨c, input, rfl, hc, h⟩ := scanTail_symbol h <;> rw [second_iff] at hc
  · obtain ⟨rfl, rfl⟩ := Scan.symbol.inj h
    rw [encodeChar_ofNat (.inl (by omega)), if_neg (by omega), if_pos (by omega),
      byte_eq b (by omega), byte_eq c (by omega)]
    rfl
  · obtain ⟨d, input, rfl, hd, h⟩ := scanTail_symbol h
    obtain ⟨rfl, rfl⟩ := Scan.symbol.inj h
    have hValid : Nat.isValidChar
        (((b.toNat - 0xE0) * 64 + (c.toNat - 0x80)) * 64 + (d.toNat - 0x80)) := by
      omega
    rw [encodeChar_ofNat hValid, if_neg (by omega), if_neg (by omega), if_pos (by omega),
      byte_eq b (by omega), byte_eq c (by omega), byte_eq d (by omega)]
    rfl
  · obtain ⟨d, input, rfl, hd, h⟩ := scanTail_symbol h
    obtain ⟨e, input, rfl, he, h⟩ := scanTail_symbol h
    obtain ⟨rfl, rfl⟩ := Scan.symbol.inj h
    have hValid : Nat.isValidChar ((((b.toNat - 0xF0) * 64 + (c.toNat - 0x80)) * 64 +
        (d.toNat - 0x80)) * 64 + (e.toNat - 0x80)) := by
      omega
    rw [encodeChar_ofNat hValid, if_neg (by omega), if_neg (by omega), if_neg (by omega),
      byte_eq b (by omega), byte_eq c (by omega), byte_eq d (by omega), byte_eq e (by omega)]
    rfl

/-! ## The code -/

/-- Continuation bytes can always be supplied. -/
theorem scanTail_complete (low high value seen more : Nat) (hRange : low ≤ high)
    (hByte : low < 256) :
    ∃ supply ch, scanTail low high value seen more supply = .symbol ch [] := by
  induction more generalizing low high value seen with
  | zero => exact ⟨[], Char.ofNat value, rfl⟩
  | succ more ih =>
    obtain ⟨supply, ch, hSupply⟩ :=
      ih 0x80 0xBF (value * 64 + (low - 0x80)) (seen + 1) (by omega) (by omega)
    have hLow := toNat_byte hByte
    refine ⟨UInt8.ofNat low :: supply, ch, ?_⟩
    rw [scanTail_cons (by omega), hLow]
    exact hSupply

theorem exists_scanTail_append (hRange : low ≤ high) (hByte : low < 256)
    (h : scanTail low high value seen more input = .incomplete) :
    ∃ supply ch, scanTail low high value seen more (input ++ supply) = .symbol ch [] := by
  induction input generalizing low high value seen more with
  | nil => exact scanTail_complete low high value seen more hRange hByte
  | cons b input ih =>
    rcases more with _ | more
    · cases h
    by_cases hb : low ≤ b.toNat ∧ b.toNat ≤ high
    · rw [scanTail_cons hb] at h
      obtain ⟨supply, ch, hSupply⟩ := ih (by omega) (by omega) h
      refine ⟨supply, ch, ?_⟩
      rw [List.cons_append, scanTail_cons hb]
      exact hSupply
    · rw [scanTail, if_neg hb] at h
      cases h

theorem scanTail_invalid_append {len : Nat}
    (h : scanTail low high value seen more input = .invalid len) (rest : List UInt8) :
    scanTail low high value seen more (input ++ rest) = .invalid len := by
  induction input generalizing low high value seen more with
  | nil => cases more <;> cases h
  | cons b input ih =>
    rcases more with _ | more
    · cases h
    by_cases hb : low ≤ b.toNat ∧ b.toNat ≤ high
    · rw [scanTail_cons hb] at h
      rw [List.cons_append, scanTail_cons hb]
      exact ih h
    · rw [scanTail, if_neg hb] at h
      rw [List.cons_append, scanTail, if_neg hb]
      exact h

theorem second_range (b : Nat) : secondLow b ≤ secondHigh b ∧ secondLow b < 256 := by
  unfold secondLow secondHigh
  split_ifs <;> omega

/-- Where more bytes are asked for, some would make a character. -/
theorem exists_completion (input : List UInt8) (h : scan input = .incomplete) :
    ∃ ch more, input ++ more = String.utf8EncodeChar ch := by
  have hSupply : ∃ supply ch, scan (input ++ supply) = .symbol ch [] := by
    rcases input with _ | ⟨b, input⟩
    · exact ⟨String.utf8EncodeChar 'a', 'a', by simpa using scan_encodeChar 'a' []⟩
    rw [scan] at h
    by_cases hb : b.toNat < 0x80
    · rw [if_pos hb] at h
      cases h
    rw [if_neg hb] at h
    rcases hLead : lead? b.toNat with _ | lead
    · rw [hLead] at h
      cases h
    rw [hLead] at h
    obtain ⟨hRange, hByte⟩ := second_range b.toNat
    obtain ⟨supply, ch, hSupply⟩ := exists_scanTail_append hRange hByte h
    refine ⟨supply, ch, ?_⟩
    rw [List.cons_append, scan, if_neg hb, hLead]
    exact hSupply
  obtain ⟨supply, ch, hScan⟩ := hSupply
  refine ⟨ch, supply, ?_⟩
  rw [encodeChar_of_scan _ _ _ hScan, List.append_nil]

theorem scan_invalid_append (input : List UInt8) (len : Nat) (more : List UInt8)
    (h : scan input = .invalid len) : scan (input ++ more) = .invalid len := by
  rcases input with _ | ⟨b, input⟩
  · cases h
  rw [scan] at h
  rw [List.cons_append, scan]
  by_cases hb : b.toNat < 0x80
  · rw [if_pos hb] at h
    cases h
  rw [if_neg hb] at h ⊢
  cases hLead : lead? b.toNat with
  | none =>
    rw [hLead] at h
    exact h
  | some lead =>
    rw [hLead] at h
    exact scanTail_invalid_append h more

/-- UTF-8 as a code. -/
def utf8 : Code Char UInt8 where
  encode := String.utf8EncodeChar
  scan := scan
  encode_ne _ := String.utf8EncodeChar_ne_nil
  scan_encode := scan_encodeChar
  of_symbol := encodeChar_of_scan
  of_incomplete := exists_completion
  invalid_append := scan_invalid_append

end Codex.Utf8

namespace Codex

/-- `std::str::Utf8Error`. -/
structure Utf8Error where
  validUpTo : Nat
  errorLen : Option Nat
  deriving DecidableEq, Repr

/-- `std::str::from_utf8`. -/
def fromUtf8 (bytes : List UInt8) : Except Utf8Error Text :=
  let (text, rest) := Utf8.utf8.decode bytes
  if rest.isEmpty then .ok text
  else
    .error
      { validUpTo := bytes.length - rest.length
        errorLen :=
          match Utf8.scan rest with
          | .invalid len => some len
          | _ => none }

/-- `str::as_bytes`. -/
def asBytes (text : Text) : List UInt8 := Utf8.utf8.encodeAll text

/-- What `from_utf8` finds: all is text, or it stops inside a character, or at bytes that
belong to none. -/
theorem fromUtf8_cases {bytes rest : List UInt8} {text : Text}
    (hDecode : Utf8.utf8.decode bytes = (text, rest)) : (rest = [] ∧ fromUtf8 bytes = .ok text) ∨
      (Utf8.utf8.Begun rest ∧
        fromUtf8 bytes = .error { validUpTo := (asBytes text).length, errorLen := none }) ∨
      ∃ len, Utf8.scan rest = .invalid len ∧
        fromUtf8 bytes = .error { validUpTo := (asBytes text).length, errorLen := some len } := by
  obtain ⟨hSplit, hStuck⟩ := Utf8.utf8.decode_spec bytes
  rw [hDecode] at hSplit hStuck
  have hLength : bytes.length - rest.length = (asBytes text).length := by
    rw [hSplit, List.length_append]
    exact Nat.add_sub_cancel _ _
  unfold fromUtf8
  rw [hDecode]
  dsimp only
  by_cases hNil : rest = []
  · left
    rw [if_pos (by simpa using hNil)]
    exact ⟨hNil, rfl⟩
  right
  rw [if_neg (by simpa using hNil), hLength]
  cases hScan : Utf8.scan rest with
  | symbol ch more => exact absurd hScan (hStuck ch more)
  | incomplete => exact .inl ⟨(Utf8.utf8.scan_eq_incomplete_iff hNil).mp hScan, rfl⟩
  | invalid len => exact .inr ⟨len, rfl, rfl⟩

theorem fromUtf8_asBytes (text : Text) : fromUtf8 (asBytes text) = .ok text := by
  unfold fromUtf8 asBytes
  rw [PrefixCode.Code.decode_encodeAll]
  rfl

end Codex
