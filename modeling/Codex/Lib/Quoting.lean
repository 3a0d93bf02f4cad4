import Mathlib.Data.List.Chain

/-!
# Quote removal

What a POSIX shell makes of the source text of one word: a five-state
transducer that drops quoting characters and remembers, for each character it
keeps, whether the shell still gives it a special meaning.

* Outside quotes a backslash is dropped and quotes the next character; a
  backslash before a newline disappears together with it.
* Between single quotes everything is literal.
* Between double quotes a backslash is dropped only before `$`, a backquote,
  a double quote, a backslash or a newline.

`Closed.scan_append` is the rule for pieces written side by side: pieces that
close what they open are read independently. The last part says when a piece is read
as it is written, which is the question every tool asks that looks at the
source text of a word instead of at the word.
-/

namespace Quoting

open List

abbrev backslash : Char := '\x5c'
abbrev singleQuote : Char := '\x27'
abbrev doubleQuote : Char := '\x22'
abbrev backquote : Char := '\x60'

/-- Where in a word the reader is. -/
inductive State where
  | plain
  | plainEscape
  | single
  | double
  | doubleEscape
  deriving DecidableEq, Repr

open State
/-- A character of a word after quote removal. -/
structure Glyph where
  char : Char
  /-- Not quoted: the character keeps its special meaning, if it has one. -/
  active : Bool
  deriving DecidableEq, Repr

/-- The characters a backslash is dropped before, between double quotes. -/
def escapable (c : Char) : Bool :=
  c = '$' || c = backquote || c = doubleQuote || c = backslash

def next : State → Char → State
  | .plain, c =>
    if c = backslash then .plainEscape
    else if c = singleQuote then .single
    else if c = doubleQuote then .double
    else .plain
  | .plainEscape, _ => .plain
  | .single, c => if c = singleQuote then .plain else .single
  | .double, c =>
    if c = doubleQuote then .plain
    else if c = backslash then .doubleEscape
    else .double
  | .doubleEscape, _ => .double

def emit : State → Char → List Glyph
  | .plain, c =>
    if c = backslash ∨ c = singleQuote ∨ c = doubleQuote then [] else [⟨c, true⟩]
  | .plainEscape, c => if c = '\n' then [] else [⟨c, false⟩]
  | .single, c => if c = singleQuote then [] else [⟨c, false⟩]
  | .double, c => if c = doubleQuote ∨ c = backslash then [] else [⟨c, false⟩]
  | .doubleEscape, c =>
    if c = '\n' then []
    else if escapable c then [⟨c, false⟩]
    else [⟨backslash, false⟩, ⟨c, false⟩]

variable (s : State)

/-- The state after a text. -/
def finish (cs : List Char) : State := cs.foldl next s

/-- What is kept of a text that is read from state `s`. -/
def scan : State → List Char → List Glyph
  | _, [] => []
  | s, c :: cs => emit s c ++ scan (next s c) cs

/-- A backslash at the very end has nothing to quote and stays. -/
def flush : State → List Glyph
  | .plainEscape => [⟨backslash, true⟩]
  | .doubleEscape => [⟨backslash, false⟩]
  | _ => []

/-- **Quote removal** on the source text of one word. -/
def removeQuotes (cs : List Char) : List Glyph :=
  scan .plain cs ++ flush (finish .plain cs)

/-- The text of a word, without the marks. -/
def chars (gs : List Glyph) : List Char := gs.map Glyph.char

/-- A word that no character of which is special. -/
def literal (cs : List Char) : List Glyph := cs.map (⟨·, false⟩)

@[simp] theorem chars_literal (cs : List Char) : chars (literal cs) = cs := by
  simp [chars, literal, Function.comp_def]

@[simp] theorem length_chars (gs : List Glyph) : (chars gs).length = gs.length :=
  length_map ..

/-! ## Reading pieces one after the other -/

@[simp] theorem finish_cons (c : Char) (cs : List Char) :
    finish s (c :: cs) = finish (next s c) cs := rfl

variable (xs ys : List Char)

theorem finish_append :
    finish s (xs ++ ys) = finish (finish s xs) ys := foldl_append

theorem scan_append :
    scan s (xs ++ ys) = scan s xs ++ scan (finish s xs) ys := by
  induction xs generalizing s with
  | nil => rfl
  | cons c cs ih => simp [scan, ih]

/-- A text that closes every quote it opens. -/
def Closed (cs : List Char) : Prop := finish .plain cs = .plain

instance (cs : List Char) : Decidable (Closed cs) :=
  inferInstanceAs (Decidable (finish .plain cs = .plain))

theorem Closed.append {xs ys : List Char} (hx : Closed xs) (hy : Closed ys) :
    Closed (xs ++ ys) := by
  rw [Closed, finish_append, hx, hy]

/-- Closed pieces written side by side are read independently. -/
theorem Closed.scan_append {xs : List Char} (hx : Closed xs) (ys : List Char) :
    scan .plain (xs ++ ys) = scan .plain xs ++ scan .plain ys := by
  rw [Quoting.scan_append, hx]

variable {cs : List Char} {c : Char} {special : Char → Bool}

theorem removeQuotes_of_closed (h : Closed cs) : removeQuotes cs = scan .plain cs := by
  rw [removeQuotes, h]
  exact append_nil _

/-! ## Quote removal never lengthens -/

/-- Characters read and not yet written. -/
def pending : State → Nat
  | .doubleEscape => 1
  | _ => 0

theorem length_emit_add_pending_le (c : Char) :
    (emit s c).length + pending (next s c) ≤ 1 + pending s := by
  cases s <;> simp only [emit, next] <;> split_ifs <;> simp_all [pending]

theorem length_scan_le (cs : List Char) : (scan s cs).length ≤ cs.length + pending s := by
  induction cs generalizing s with
  | nil => exact Nat.zero_le _
  | cons c cs ih =>
    have hStep := length_emit_add_pending_le s c
    have hRest := ih (next s c)
    simp only [scan, length_append, length_cons]
    omega

/-! ## Words without quotes -/

/-- The reader stays in states that satisfy `p`. -/
def confined (p : State → Bool) : State → List Char → Bool
  | s, [] => p s
  | s, c :: cs => p s && confined p (next s c) cs

theorem start_of_confined {p : State → Bool} {s : State}
    (h : confined p s cs = true) : p s = true := by
  cases cs with
  | nil => exact h
  | cons c cs =>
    simp only [confined, Bool.and_eq_true] at h
    exact h.1

def State.isPlain : State → Bool
  | .plain | .plainEscape => true
  | _ => false

def State.isDouble : State → Bool
  | .double | .doubleEscape => true
  | _ => false

/-- A word token: no quote is opened, no backslash is left over. -/
def Bare (cs : List Char) : Prop :=
  confined isPlain .plain cs = true ∧ Closed cs

instance (cs : List Char) : Decidable (Bare cs) :=
  inferInstanceAs (Decidable (confined isPlain .plain cs = true ∧ Closed cs))

/-- In the plain states, a character that is no backslash is kept and stays plain. -/
theorem step_plain (hc : c ≠ backslash) (h : confined isPlain .plain (c :: cs) = true) :
    emit .plain c = [⟨c, true⟩] ∧ next .plain c = .plain ∧
      confined isPlain .plain cs = true := by
  simp only [confined, Bool.and_eq_true] at h
  have hNext := start_of_confined h.2
  -- a quote would lead to a state that is not plain
  have hq : c ≠ singleQuote ∧ c ≠ doubleQuote := by
    refine ⟨?_, ?_⟩ <;> rintro rfl <;> exact absurd hNext (by decide)
  have hState : next .plain c = .plain := by simp [next, hc, hq.1, hq.2]
  refine ⟨by simp [emit, hc, hq.1, hq.2], hState, ?_⟩
  rw [← hState]
  exact h.2

theorem scan_plain_of_no_backslash (h : confined isPlain .plain cs = true)
    (hNone : backslash ∉ cs) :
    scan .plain cs = cs.map (⟨·, true⟩) := by
  induction cs with
  | nil => rfl
  | cons c cs ih =>
    rw [mem_cons, not_or] at hNone
    obtain ⟨hEmit, hState, hRest⟩ := step_plain (Ne.symm hNone.1) h
    rw [scan, hEmit, hState, ih hRest hNone.2, map_cons, singleton_append]

theorem length_scan_plain_lt (h : confined isPlain .plain cs = true)
    (hSome : backslash ∈ cs) :
    (scan .plain cs).length < cs.length := by
  induction cs with
  | nil => exact absurd hSome (not_mem_nil)
  | cons c cs ih =>
    by_cases hc : c = backslash
    · -- the backslash itself is never written
      subst hc
      have hRest := length_scan_le .plainEscape cs
      show (scan .plainEscape cs).length < cs.length + 1
      simp only [pending] at hRest
      omega
    · obtain ⟨hEmit, hState, hRest⟩ := step_plain hc h
      have hMem : backslash ∈ cs := (mem_cons.mp hSome).resolve_left (Ne.symm hc)
      have hLt := ih hRest hMem
      rw [scan, hEmit, hState, length_append, length_singleton, length_cons]
      omega

/-! ## Between double quotes -/

/-- The characters before which a backslash disappears between double quotes. -/
def dropsBackslash (c : Char) : Bool := escapable c || c = '\n'

/-- No backslash of the text stands before a character it would quote. -/
def Unescaped (cs : List Char) : Prop :=
  cs.IsChain fun a c => ¬ (a = backslash ∧ dropsBackslash c = true)

instance (cs : List Char) : Decidable (Unescaped cs) :=
  inferInstanceAs (Decidable (cs.IsChain _))

/-- The text between two double quotes. -/
def DoubleBody (cs : List Char) : Prop :=
  confined isDouble .double cs = true ∧ finish .double cs = .double

instance (cs : List Char) : Decidable (DoubleBody cs) :=
  inferInstanceAs (Decidable (_ ∧ finish .double cs = .double))

theorem unescaped_cons_iff (hc : c ≠ backslash) : Unescaped (c :: cs) ↔ Unescaped cs := by
  cases cs with
  | nil => simp [Unescaped]
  | cons d ds => simp [Unescaped, hc]

theorem unescaped_backslash_iff :
    Unescaped (backslash :: c :: cs) ↔ dropsBackslash c = false ∧ Unescaped cs := by
  have hHead : ¬ (backslash = backslash ∧ dropsBackslash c = true) ↔ dropsBackslash c = false := by
    simp
  refine isChain_cons_cons.trans ((and_congr_left' hHead).trans (and_congr_right fun hDrop => ?_))
  -- the next character is not a backslash: a backslash is dropped before one
  refine unescaped_cons_iff ?_
  rintro rfl
  exact absurd hDrop (by decide)

theorem emit_doubleEscape (c : Char) : emit .doubleEscape c =
      if c = '\n' then [] else if escapable c then literal [c] else literal [backslash, c] :=
  rfl

theorem step_double (hc : c ≠ backslash) (h : confined isDouble .double (c :: cs) = true) :
    emit .double c = literal [c] ∧ next .double c = .double ∧
      confined isDouble .double cs = true := by
  simp only [confined, Bool.and_eq_true] at h
  have hNext := start_of_confined h.2
  have hq : c ≠ doubleQuote := by rintro rfl; exact absurd hNext (by decide)
  have hState : next .double c = .double := by simp [next, hc, hq]
  refine ⟨by simp [emit, literal, hc, hq], hState, ?_⟩
  rw [← hState]
  exact h.2

theorem literal_append : literal xs ++ literal ys = literal (xs ++ ys) :=
  map_append.symm

/-- The two double-quoted states together: the reader of the second one owes a backslash. -/
theorem scan_double_of_unescaped (cs : List Char) :
    (confined isDouble .double cs = true → finish .double cs = .double →
      Unescaped cs → scan .double cs = literal cs) ∧
    (confined isDouble .doubleEscape cs = true → finish .doubleEscape cs = .double →
      Unescaped (backslash :: cs) → scan .doubleEscape cs = literal (backslash :: cs)) := by
  induction cs with
  | nil => exact ⟨fun _ _ _ => rfl, fun _ hEnd _ => by cases hEnd⟩
  | cons c cs ih =>
    refine ⟨fun hIn hEnd hUn => ?_, fun hIn hEnd hUn => ?_⟩
    · by_cases hc : c = backslash
      · subst hc
        simp only [confined, Bool.and_eq_true] at hIn
        exact ih.2 hIn.2 hEnd hUn
      · obtain ⟨hEmit, hState, hRest⟩ := step_double hc hIn
        rw [finish_cons, hState] at hEnd
        rw [scan, hEmit, hState, ih.1 hRest hEnd ((unescaped_cons_iff hc).mp hUn),
          literal_append, singleton_append]
    · obtain ⟨hDrop, hTail⟩ := unescaped_backslash_iff.mp hUn
      simp only [dropsBackslash, Bool.or_eq_false_iff, decide_eq_false_iff_not] at hDrop
      simp only [confined, Bool.and_eq_true] at hIn
      have hRest : scan .double cs = literal cs := ih.1 hIn.2 hEnd hTail
      show emit .doubleEscape c ++ scan .double cs = _
      rw [emit_doubleEscape, if_neg hDrop.2, hDrop.1, hRest]
      exact literal_append [backslash, c] cs

/-- A backslash that is dropped is a character less, in both states. -/
theorem length_scan_double_lt (cs : List Char) : (confined isDouble .double cs = true →
      ¬ Unescaped cs → (scan .double cs).length < cs.length) ∧
    (confined isDouble .doubleEscape cs = true →
      ¬ Unescaped (backslash :: cs) → (scan .doubleEscape cs).length < cs.length + 1) := by
  induction cs with
  | nil => exact ⟨fun _ h => absurd (List.IsChain.nil) h, fun _ h => absurd (List.IsChain.singleton _) h⟩
  | cons c cs ih =>
    refine ⟨fun hIn hUn => ?_, fun hIn hUn => ?_⟩
    · by_cases hc : c = backslash
      · subst hc
        simp only [confined, Bool.and_eq_true] at hIn
        exact ih.2 hIn.2 hUn
      · obtain ⟨hEmit, hState, hRest⟩ := step_double hc hIn
        have hLt := ih.1 hRest (fun h => hUn ((unescaped_cons_iff hc).mpr h))
        rw [scan, hEmit, hState, length_append]
        simp only [literal, map_cons, map_nil, length_cons, length_nil]
        omega
    · simp only [confined, Bool.and_eq_true] at hIn
      have hLe := length_scan_le .double cs
      simp only [pending] at hLe
      show (emit .doubleEscape c ++ scan .double cs).length < (c :: cs).length + 1
      rw [length_append, length_cons]
      by_cases hDrop : dropsBackslash c = true
      · -- at most the escaped character is written
        have hEmit : (emit .doubleEscape c).length ≤ 1 := by
          simp only [dropsBackslash, Bool.or_eq_true, decide_eq_true_eq] at hDrop
          rw [emit_doubleEscape]
          split_ifs with hNewline hEsc
          · exact Nat.zero_le _
          · exact Nat.le_refl _
          · exact absurd (hDrop.resolve_right hNewline) hEsc
        omega
      · have hTail : ¬ Unescaped cs := fun h =>
          hUn (unescaped_backslash_iff.mpr ⟨by simpa using hDrop, h⟩)
        have hLt := ih.1 hIn.2 hTail
        have hEmit : (emit .doubleEscape c).length ≤ 2 := by
          rw [emit_doubleEscape]
          split_ifs <;> simp [literal]
        omega

/-! ## Whole quoted pieces -/

theorem scan_doubleQuoted (h : DoubleBody cs) :
    scan .plain (doubleQuote :: cs ++ [doubleQuote]) = scan .double cs ∧
      Closed (doubleQuote :: cs ++ [doubleQuote]) := by
  constructor
  · show scan .double (cs ++ [doubleQuote]) = scan .double cs
    rw [scan_append, h.2]
    exact append_nil _
  · show finish .double (cs ++ [doubleQuote]) = .plain
    rw [finish_append, h.2]
    rfl

theorem scan_single (h : singleQuote ∉ cs) :
    scan .single cs = literal cs ∧ finish .single cs = .single := by
  induction cs with
  | nil => exact ⟨rfl, rfl⟩
  | cons c cs ih =>
    rw [mem_cons, not_or] at h
    obtain ⟨hScan, hEnd⟩ := ih h.2
    have hState : next .single c = .single := by simp [next, Ne.symm h.1]
    have hEmit : emit .single c = literal [c] := by simp [emit, literal, Ne.symm h.1]
    refine ⟨?_, by rw [finish_cons, hState, hEnd]⟩
    rw [scan, hEmit, hState, hScan]
    exact literal_append [c] cs

theorem scan_singleQuoted (h : singleQuote ∉ cs) :
    scan .plain (singleQuote :: cs ++ [singleQuote]) = literal cs ∧
      Closed (singleQuote :: cs ++ [singleQuote]) := by
  obtain ⟨hScan, hEnd⟩ := scan_single h
  constructor
  · show scan .single (cs ++ [singleQuote]) = literal cs
    rw [scan_append, hEnd, hScan]
    exact append_nil _
  · show finish .single (cs ++ [singleQuote]) = .plain
    rw [finish_append, hEnd]
    rfl

/-! ## Special characters

An expansion of the shell (of patterns, of braces, of a tilde) looks for its own
characters, and only where they are active.
-/

/-- A word as an expansion with the characters `special` sees it. -/
def mark (special : Char → Bool) (gs : List Glyph) : List Glyph :=
  gs.map fun g => ⟨g.char, g.active && special g.char⟩

/-- The expansion finds nothing in the word. -/
def Inert (special : Char → Bool) (gs : List Glyph) : Prop :=
  ∀ g ∈ gs, g.active = true → special g.char = false

instance (special : Char → Bool) (gs : List Glyph) : Decidable (Inert special gs) :=
  inferInstanceAs (Decidable (∀ g ∈ gs, _))

/-- An expansion, which may make any number of arguments of a word, that leaves words alone in
which it finds nothing. -/
def LeavesInert (special : Char → Bool) (expand : List Glyph → List (List Char)) : Prop :=
  ∀ word, Inert special word → expand word = [chars word]

@[simp] theorem chars_mark (special : Char → Bool) (gs : List Glyph) :
    chars (mark special gs) = chars gs := by
  simp [chars, mark]

@[simp] theorem mark_literal (special : Char → Bool) (cs : List Char) :
    mark special (literal cs) = literal cs := by
  simp [mark, literal]

theorem mark_append (special : Char → Bool) (gs hs : List Glyph) :
    mark special (gs ++ hs) = mark special gs ++ mark special hs :=
  map_append

@[simp] theorem length_mark (special : Char → Bool) (gs : List Glyph) :
    (mark special gs).length = gs.length :=
  length_map _

@[simp] theorem length_literal (cs : List Char) : (literal cs).length = cs.length :=
  length_map _

/-- What an expansion finds nothing in is literal for it. -/
theorem mark_eq_literal_of_inert {gs : List Glyph}
    (h : Inert special (mark special gs)) : mark special gs = literal (chars gs) := by
  unfold literal chars
  rw [map_map]
  refine map_congr_left fun g hg => ?_
  have hInert := h _ (mem_map_of_mem hg)
  cases hActive : g.active <;> cases hSpecial : special g.char <;> simp_all

/-- Words in which an expansion finds nothing go through it one by one. -/
theorem LeavesInert.flatMap {expand : List Glyph → List (List Char)}
    (hExpand : LeavesInert special expand) {words : List (List Glyph)}
    (h : ∀ word ∈ words, Inert special word) : words.flatMap expand = words.map chars := by
  rw [← flatMap_singleton' (words.map chars), flatMap_map]
  exact flatMap_congr fun word hWord => hExpand word (h word hWord)

/-- A word spelled with its marks. -/
def spell : List Glyph → List Char
  | [] => []
  | g :: gs => g.char :: (if g.active then '1' else '0') :: spell gs

theorem spell_injective : Function.Injective spell := by
  intro gs
  induction gs with
  | nil =>
    intro hs h
    cases hs with
    | nil => rfl
    | cons _ _ => cases h
  | cons g gs ih =>
    intro hs h
    rcases hs with _ | ⟨k, hs⟩
    · cases h
    simp only [spell, cons.injEq] at h
    obtain ⟨hChar, hActive, hRest⟩ := h
    have hFlag : g.active = k.active := by
      cases hg : g.active <;> cases hk : k.active <;> simp_all
    rw [ih hRest, show g = k from by cases g; cases k; simp_all]

/-- An expansion that makes one argument of each word and tells all patterns apart; the tag keeps
them away from words without patterns. -/
def tagged (special : Char → Bool) (n : Nat) (word : List Glyph) : List Char :=
  if Inert special word then chars word else List.replicate n 'x' ++ spell word

/-- A word that carries only the marks `special` gives it is known by its tagged forms. -/
theorem eq_of_tagged {word word' : List Glyph}
    (hMark : mark special word = word) (hMark' : mark special word' = word')
    (h : ∀ n, tagged special n word = tagged special n word') : word = word' := by
  -- a pattern is tagged to be longer than any given text
  have hApart {gs : List Glyph} {cs : List Char} :
      ¬ cs = replicate (cs.length + 1) 'x' ++ spell gs := by
    intro hEq
    have hLen := congrArg length hEq
    rw [length_append, length_replicate] at hLen
    omega
  by_cases hInert : Inert special word <;> by_cases hInert' : Inert special word'
  · have hChars := h 0
    rw [tagged, tagged, if_pos hInert, if_pos hInert'] at hChars
    rw [← hMark] at hInert
    rw [← hMark'] at hInert'
    rw [← hMark, ← hMark', mark_eq_literal_of_inert hInert, mark_eq_literal_of_inert hInert',
      hChars]
  · have hChars := h ((chars word).length + 1)
    rw [tagged, tagged, if_pos hInert, if_neg hInert'] at hChars
    exact absurd hChars hApart
  · have hChars := h ((chars word').length + 1)
    rw [tagged, tagged, if_neg hInert, if_pos hInert'] at hChars
    exact absurd hChars.symm hApart
  · have hSpell := h 0
    rw [tagged, tagged, if_neg hInert, if_neg hInert'] at hSpell
    exact spell_injective hSpell

/-- **Words that give the same arguments under every expansion are the same words.** -/
theorem eq_of_forall_expand {words words' : List (List Glyph)}
    (hMark : ∀ word ∈ words, mark special word = word)
    (hMark' : ∀ word ∈ words', mark special word = word)
    (h : ∀ expand, LeavesInert special expand → words.flatMap expand = words'.flatMap expand) :
    words = words' := by
  have hTagged (n : Nat) : words.map (tagged special n) = words'.map (tagged special n) := by
    have hEq := h (fun word => [tagged special n word]) fun word hInert => by
      dsimp only
      rw [tagged, if_pos hInert]
    rwa [← map_eq_flatMap, ← map_eq_flatMap] at hEq
  have hLen : words.length = words'.length := by
    simpa using congrArg length (hTagged 0)
  refine ext_getElem hLen fun i hi hi' => ?_
  refine eq_of_tagged (hMark _ (getElem_mem hi)) (hMark' _ (getElem_mem hi')) fun n => ?_
  have hAt := congrArg (fun texts => texts[i]?) (hTagged n)
  simpa [hi, hi'] using hAt

/-- Words are marked alike if they have the same characters, and each time a special one comes it
is quoted in both or in none. -/
theorem mark_eq_mark_iff {gs gs' : List Glyph} : mark special gs = mark special gs' ↔
    chars gs = chars gs' ∧ (gs.filter (special ·.char)).map Glyph.active =
      (gs'.filter (special ·.char)).map Glyph.active := by
  induction gs generalizing gs' with
  | nil => cases gs' <;> simp [mark, chars]
  | cons g gs ih =>
    cases gs' with
    | nil => simp [mark, chars]
    | cons g' gs' =>
      obtain ⟨c, active⟩ := g
      obtain ⟨c', active'⟩ := g'
      have ih := @ih gs'
      simp only [mark, chars] at ih
      by_cases hChar : c = c' <;> by_cases hSpecial : special c' = true <;>
        simp [mark, chars, hChar, hSpecial, ih, and_left_comm]

theorem mark_mark (special : Char → Bool) (gs : List Glyph) :
    mark special (mark special gs) = mark special gs := by
  simp [mark]

/-- **A word token stands for its own text** exactly when it has no backslash and no special
character. -/
theorem mark_scan_bare_iff (h : Bare cs) : mark special (scan .plain cs) = literal cs ↔
      backslash ∉ cs ∧ ∀ c ∈ cs, special c = false := by
  have hActive (hNone : backslash ∉ cs) :
      mark special (scan .plain cs) = literal cs ↔ ∀ c ∈ cs, special c = false := by
    rw [scan_plain_of_no_backslash h.1 hNone]
    simp [mark, literal]
  constructor
  · intro hEq
    have hChars := congrArg chars hEq
    rw [chars_mark, chars_literal] at hChars
    have hNone : backslash ∉ cs := by
      intro hMem
      have hLt := length_scan_plain_lt h.1 hMem
      have hLen := congrArg length hChars
      rw [length_chars] at hLen
      omega
    exact ⟨hNone, (hActive hNone).mp hEq⟩
  · rintro ⟨hNone, hSpecial⟩
    exact (hActive hNone).mpr hSpecial

/-- **A double-quoted text stands for itself** exactly when no backslash of it is dropped. -/
theorem mark_scan_double_iff (h : DoubleBody cs) :
    mark special (scan .double cs) = literal cs ↔ Unescaped cs := by
  constructor
  · intro hEq
    have hChars := congrArg chars hEq
    rw [chars_mark, chars_literal] at hChars
    by_contra hUn
    have hLt := (length_scan_double_lt cs).1 h.1 hUn
    have hLen := congrArg length hChars
    rw [length_chars] at hLen
    omega
  · intro hUn
    rw [(scan_double_of_unescaped cs).1 h.1 h.2 hUn, mark_literal]

end Quoting
