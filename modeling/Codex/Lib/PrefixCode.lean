import Mathlib.Data.List.Basic

/-!
# Prefix codes, read from the front

A code writes each symbol as a non-empty word. A scanner reads the first symbol of an
input, or says why it cannot: the input ends inside a word, or no word goes on like this.

`decode` scans as long as it can. It finds the longest front of the input that is written
in the code (`prefix_of_encodeAll`), and more input changes nothing about the symbols it
has read (`decode_append`).
-/

namespace PrefixCode

open List

/-- What a scanner finds at the front of an input. -/
inductive Scan (α β : Type*) where
  | symbol (a : α) (rest : List β)
  | incomplete
  /-- `len` letters are of no use, whatever follows. -/
  | invalid (len : Nat)

/-- A code with its scanner. -/
structure Code (α β : Type*) where
  encode : α → List β
  scan : List β → Scan α β
  encode_ne : ∀ a, encode a ≠ []
  scan_encode : ∀ a rest, scan (encode a ++ rest) = .symbol a rest
  of_symbol : ∀ input a rest, scan input = .symbol a rest → input = encode a ++ rest
  /-- An input that ends inside a word can be completed. -/
  of_incomplete : ∀ input, scan input = .incomplete → ∃ a more, input ++ more = encode a
  invalid_append : ∀ input len more, scan input = .invalid len → scan (input ++ more) = .invalid len

variable {α β : Type*} (code : Code α β)

namespace Code

def encodeAll (symbols : List α) : List β := symbols.flatMap code.encode

/-- The symbols at the front, and the rest that the scanner finds no symbol in; `fuel`
bounds the number of symbols. -/
def decodeLoop : Nat → List β → List α × List β
  | 0, input => ([], input)
  | fuel + 1, input =>
    match code.scan input with
    | .symbol a rest =>
      let (symbols, stop) := decodeLoop fuel rest
      (a :: symbols, stop)
    | _ => ([], input)

def decode (input : List β) : List α × List β := code.decodeLoop input.length input

/-- The scanner finds no symbol. -/
def Stuck (input : List β) : Prop := ∀ a rest, code.scan input ≠ .symbol a rest

/-- A non-empty beginning of a word, short of the word. -/
def Begun (input : List β) : Prop :=
  input ≠ [] ∧ ∃ a more, more ≠ [] ∧ input ++ more = code.encode a

@[simp] theorem encodeAll_nil : code.encodeAll [] = [] := rfl

@[simp] theorem encodeAll_cons (a : α) (symbols : List α) :
    code.encodeAll (a :: symbols) = code.encode a ++ code.encodeAll symbols := rfl

@[simp] theorem encodeAll_append (front back : List α) :
    code.encodeAll (front ++ back) = code.encodeAll front ++ code.encodeAll back :=
  flatMap_append

variable {code} {input rest rest' : List β} {symbols symbols' : List α}

theorem length_lt_of_symbol {a : α} (h : code.scan input = .symbol a rest) :
    rest.length < input.length := by
  have hPos := length_pos_of_ne_nil (code.encode_ne a)
  rw [code.of_symbol _ _ _ h, length_append]
  omega

theorem stuck_nil : code.Stuck [] := by
  intro a rest h
  have hNil := code.of_symbol _ _ _ h
  exact code.encode_ne a (append_eq_nil_iff.mp hNil.symm).1

/-- With enough fuel the loop stops where the scanner is stuck. -/
theorem decodeLoop_spec {fuel : Nat} (hFuel : input.length ≤ fuel) :
    input = code.encodeAll (code.decodeLoop fuel input).1 ++ (code.decodeLoop fuel input).2 ∧
      code.Stuck (code.decodeLoop fuel input).2 := by
  fun_induction decodeLoop code fuel input with
  | case1 input =>
    obtain rfl := length_eq_zero_iff.mp (Nat.le_zero.mp hFuel)
    exact ⟨rfl, stuck_nil⟩
  | case2 fuel input a rest hScan symbols stop hLoop ih =>
    have hLt := length_lt_of_symbol hScan
    obtain ⟨hRest, hStuck⟩ := ih (by omega)
    rw [hLoop] at hRest hStuck
    refine ⟨?_, hStuck⟩
    rw [encodeAll_cons, append_assoc, ← hRest]
    exact code.of_symbol _ _ _ hScan
  | case3 fuel input hScan => exact ⟨rfl, hScan⟩

theorem decode_spec (input : List β) :
    input = code.encodeAll (code.decode input).1 ++ (code.decode input).2 ∧
      code.Stuck (code.decode input).2 :=
  decodeLoop_spec (Nat.le_refl _)

/-- An input can be read in one way only. -/
theorem split_unique (h : code.encodeAll symbols ++ rest = code.encodeAll symbols' ++ rest')
    (hStuck : code.Stuck rest) (hStuck' : code.Stuck rest') :
    symbols = symbols' ∧ rest = rest' := by
  induction symbols generalizing symbols' with
  | nil =>
    cases symbols' with
    | nil => exact ⟨rfl, h⟩
    | cons a symbols' =>
      rw [encodeAll_nil, nil_append, encodeAll_cons, append_assoc] at h
      exact absurd (code.scan_encode a _) (h ▸ hStuck a _)
  | cons a symbols ih =>
    rw [encodeAll_cons, append_assoc] at h
    rcases symbols' with _ | ⟨b, symbols'⟩
    · rw [encodeAll_nil, nil_append] at h
      exact absurd (code.scan_encode a _) (h ▸ hStuck' a _)
    rw [encodeAll_cons, append_assoc] at h
    have hScan := code.scan_encode a (code.encodeAll symbols ++ rest)
    rw [h, code.scan_encode, Scan.symbol.injEq] at hScan
    obtain ⟨rfl, hRest⟩ := hScan
    obtain ⟨rfl, rfl⟩ := ih hRest.symm
    exact ⟨rfl, rfl⟩

theorem decode_eq (hInput : input = code.encodeAll symbols ++ rest) (hStuck : code.Stuck rest) :
    code.decode input = (symbols, rest) := by
  obtain ⟨hSplit, hStop⟩ := code.decode_spec input
  obtain ⟨hSymbols, hRest⟩ := split_unique (hInput.symm.trans hSplit) hStuck hStop
  rw [hSymbols, hRest]

theorem decode_encodeAll (symbols : List α) :
    code.decode (code.encodeAll symbols) = (symbols, []) :=
  decode_eq (append_nil _).symm stuck_nil

/-- What was read stays read; the rest is read on with what follows. -/
theorem decode_append (input more : List β) : code.decode (input ++ more) =
      ((code.decode input).1 ++ (code.decode ((code.decode input).2 ++ more)).1,
        (code.decode ((code.decode input).2 ++ more)).2) := by
  obtain ⟨hSplit, -⟩ := code.decode_spec input
  obtain ⟨hMore, hStuck⟩ := code.decode_spec ((code.decode input).2 ++ more)
  refine decode_eq ?_ hStuck
  rw [encodeAll_append, append_assoc, ← hMore, ← append_assoc, ← hSplit]

/-- **The longest front** of the input that is written in the code is the one `decode` finds. -/
theorem prefix_of_encodeAll (h : code.encodeAll symbols <+: input) :
    code.encodeAll symbols <+: code.encodeAll (code.decode input).1 := by
  obtain ⟨more, rfl⟩ := h
  rw [decode_append, decode_encodeAll, encodeAll_append]
  exact prefix_append _ _

theorem exists_encodeAll_iff : (∃ symbols, input = code.encodeAll symbols) ↔
    (code.decode input).2 = [] := by
  constructor
  · intro ⟨symbols, hInput⟩
    rw [hInput, decode_encodeAll]
  · intro hNil
    have hSplit := (code.decode_spec input).1
    rw [hNil, append_nil] at hSplit
    exact ⟨_, hSplit⟩

/-- The scanner asks for more exactly inside a word. -/
theorem scan_eq_incomplete_iff (hNe : input ≠ []) :
    code.scan input = .incomplete ↔ code.Begun input := by
  constructor
  · intro hScan
    obtain ⟨a, more, hMore⟩ := code.of_incomplete _ hScan
    refine ⟨hNe, a, more, ?_, hMore⟩
    intro hNil
    have hWord := code.scan_encode a []
    rw [append_nil, ← hMore, hNil, append_nil, hScan] at hWord
    cases hWord
  · intro ⟨_, a, more, hMoreNe, hMore⟩
    have hWord := code.scan_encode a []
    rw [append_nil, ← hMore] at hWord
    cases hScan : code.scan input with
    | incomplete => rfl
    | invalid len =>
      rw [code.invalid_append _ _ more hScan] at hWord
      cases hWord
    | symbol b rest =>
      -- the symbol would be the same one, and its word no longer than the input
      rw [code.of_symbol _ _ _ hScan, append_assoc, code.scan_encode, Scan.symbol.injEq] at hWord
      exact absurd (append_eq_nil_iff.mp hWord.2).2 hMoreNe

theorem Begun.stuck (h : code.Begun input) : code.Stuck input := by
  intro a rest hSymbol
  rw [(scan_eq_incomplete_iff h.1).mpr h] at hSymbol
  cases hSymbol

end Code

end PrefixCode
