import Codex.Std.Text

/-!
# Codex — base64

The standard engine of `base64`: three bytes are four digits, and a rest of one or two bytes is
padded. Only canonical texts are decoded: padding stands at the end, and the bits that it leaves
over are zero.
-/

namespace Codex.Base64

def alphabet : List Char :=
  "ABCDEFGHIJKLMNOPQRSTUVWXYZabcdefghijklmnopqrstuvwxyz0123456789+/".toList

def digit (n : Nat) : Char := alphabet.getD n '='

def value (ch : Char) : Option Nat := alphabet.findIdx? (· = ch)

def encode : List UInt8 → Text
  | [] => []
  | [a] => [digit (a.toNat / 4), digit (a.toNat % 4 * 16), '=', '=']
  | [a, b] =>
    [digit (a.toNat / 4), digit (a.toNat % 4 * 16 + b.toNat / 16), digit (b.toNat % 16 * 4), '=']
  | a :: b :: c :: rest =>
    digit (a.toNat / 4) :: digit (a.toNat % 4 * 16 + b.toNat / 16) ::
      digit (b.toNat % 16 * 4 + c.toNat / 64) :: digit (c.toNat % 64) :: encode rest

/-- The first byte of two digits, the second of two, and the third. -/
def firstByte (w x : Nat) : UInt8 := .ofNat (w * 4 + x / 16)
def secondByte (x y : Nat) : UInt8 := .ofNat (x % 16 * 16 + y / 4)
def thirdByte (y z : Nat) : UInt8 := .ofNat (y % 4 * 64 + z)

def decode : Text → Option (List UInt8)
  | [] => some []
  | w :: x :: y :: z :: rest => do
    let w ← value w
    let x ← value x
    if rest = [] ∧ z = '=' then
      if y = '=' then
        if x % 16 = 0 then some [firstByte w x] else none
      else
        let y ← value y
        if y % 4 = 0 then some [firstByte w x, secondByte x y] else none
    else
      let y ← value y
      let z ← value z
      return firstByte w x :: secondByte x y :: thirdByte y z :: (← decode rest)
  | _ => none

/-- `decoded_len_estimate` -/
def decodedLenEstimate (encodedLen : Nat) : Nat :=
  (encodedLen / 4 + if encodedLen % 4 > 0 then 1 else 0) * 3

theorem value_digit {n : Nat} (h : n < 64) : value (digit n) = some n := by
  have hAll : ∀ n : Fin 64, value (digit n) = some n.val := by decide +kernel
  exact hAll ⟨n, h⟩

theorem digit_ne_pad {n : Nat} (h : n < 64) : digit n ≠ '=' := by
  have hAll : ∀ n : Fin 64, digit n ≠ '=' := by decide +kernel
  exact hAll ⟨n, h⟩

theorem ofNat_eq {n : Nat} {byte : UInt8} (h : n = byte.toNat) : UInt8.ofNat n = byte := by
  rw [h, UInt8.ofNat_toNat]

theorem decode_encode (raw : List UInt8) : decode (encode raw) = some raw := by
  fun_induction encode raw with
  | case1 => rfl
  | case2 a =>
    have hA := a.toNat_lt
    have hFirst : firstByte (a.toNat / 4) (a.toNat % 4 * 16) = a := ofNat_eq (by omega)
    simp (disch := omega) [decode, value_digit, hFirst]
  | case3 a b =>
    have hA := a.toNat_lt
    have hB := b.toNat_lt
    have hFirst : firstByte (a.toNat / 4) (a.toNat % 4 * 16 + b.toNat / 16) = a :=
      ofNat_eq (by omega)
    have hSecond : secondByte (a.toNat % 4 * 16 + b.toNat / 16) (b.toNat % 16 * 4) = b :=
      ofNat_eq (by omega)
    simp (disch := omega) [decode, value_digit, digit_ne_pad, hFirst, hSecond]
  | case4 a b c rest ih =>
    have hA := a.toNat_lt
    have hB := b.toNat_lt
    have hC := c.toNat_lt
    have hFirst : firstByte (a.toNat / 4) (a.toNat % 4 * 16 + b.toNat / 16) = a :=
      ofNat_eq (by omega)
    have hSecond : secondByte (a.toNat % 4 * 16 + b.toNat / 16)
        (b.toNat % 16 * 4 + c.toNat / 64) = b := ofNat_eq (by omega)
    have hThird : thirdByte (b.toNat % 16 * 4 + c.toNat / 64) (c.toNat % 64) = c :=
      ofNat_eq (by omega)
    simp (disch := omega) [decode, value_digit, digit_ne_pad, ih, hFirst, hSecond, hThird]

theorem encode_ne_nil (raw : List UInt8) (h : raw ≠ []) : encode raw ≠ [] := by
  fun_cases encode raw <;> simp at h ⊢

theorem length_encode (raw : List UInt8) : (encode raw).length = 4 * ((raw.length + 2) / 3) := by
  fun_induction encode raw with
  | case4 a b c rest ih =>
    simp only [List.length_cons, ih]
    omega
  | _ => simp

theorem length_decode_le (text : Text) (decoded : List UInt8) (h : decode text = some decoded) :
    decoded.length ≤ decodedLenEstimate text.length := by
  fun_induction decode text generalizing decoded with
  | case1 => cases h; simp
  | case2 w x y z rest ih =>
    have hTail : decodedLenEstimate (w :: x :: y :: z :: rest).length =
        decodedLenEstimate rest.length + 3 := by
      simp only [decodedLenEstimate, List.length_cons]
      split <;> split <;> omega
    simp only [Option.bind_eq_bind, Option.bind_eq_some_iff] at h
    obtain ⟨w, -, x, -, h⟩ := h
    rw [hTail]
    split at h
    · -- the last digits, padded
      have hPadded : decoded.length ≤ 2 := by grind [Option.bind_eq_some_iff]
      omega
    · simp only [Option.bind_eq_some_iff] at h
      obtain ⟨y, -, z, -, bytes, hRest, hEq⟩ := h
      cases hEq
      simpa using ih bytes hRest
  | case3 => cases h

end Codex.Base64
