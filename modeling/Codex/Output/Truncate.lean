import Codex.Lib.Budget
import Codex.Std.Usize
import Codex.Protocol.Items

/-!
# Codex — truncated output

`utils/string/src/truncate.rs` cuts a text that is too long in the middle, on character boundaries;
`utils/output-truncation/src/lib.rs` does so under a policy, for one text or for the content items of
a tool output.

* `truncateMiddleChars_cut` — what is kept of a text are the longest prefix and the longest suffix
  that fit the two halves of the budget, and the marker counts the characters between them;
* `itemsPass_run` — what the pass over the items keeps: a leading run of the texts, the next one
  shortened, and everything that is no text.
-/

namespace Codex.Output

open Budget Usize List

/-- `str::len`: the length in bytes. -/
def len (s : Text) : Nat := total Char.utf8Size s

@[simp] theorem len_nil : len [] = 0 := rfl

@[simp] theorem len_cons (ch : Char) (s : Text) : len (ch :: s) = ch.utf8Size + len s := total_cons ch

@[simp] theorem len_append (s t : Text) : len (s ++ t) = len s + len t := total_append

variable {s : Text} {b : Nat}

theorem len_pos (hNe : s ≠ []) : 0 < len s := by
  cases s with
  | nil => exact absurd rfl hNe
  | cons ch s =>
    have hPos := Char.utf8Size_pos ch
    rw [len_cons]
    omega

theorem ne_nil_of_len {n : Nat} (h : n < len s) : s ≠ [] := by
  rintro rfl
  exact Nat.not_lt_zero _ h

/-! ## Cutting a text in the middle -/

def approxBytesPerToken : Nat := 4

def approxTokenCount (text : Text) : Nat :=
  saturatingAdd (len text) (approxBytesPerToken - 1) / approxBytesPerToken

def approxBytesForTokens (tokens : Nat) : Nat := min (tokens * approxBytesPerToken) usizeMax

def approxTokensFromByteCount (bytes : Nat) : Nat :=
  saturatingAdd bytes (approxBytesPerToken - 1) / approxBytesPerToken

/-- `&s[..end]`, for an end on a character boundary. -/
def sliceTo : Nat → Text → Text
  | _, [] => []
  | stop, ch :: rest => if stop = 0 then [] else ch :: sliceTo (stop - ch.utf8Size) rest

/-- `&s[start..]`, for a start on a character boundary. -/
def sliceFrom : Nat → Text → Text
  | _, [] => []
  | start, ch :: rest => if start = 0 then ch :: rest else sliceFrom (start - ch.utf8Size) rest

/-- The variables of the loop in `split_string`. -/
structure Split where
  prefixEnd : Nat
  suffixStart : Nat
  removedChars : Nat
  suffixStarted : Bool
  deriving DecidableEq, Repr

def Split.start (bytes : Nat) : Split :=
  { prefixEnd := 0, suffixStart := bytes, removedChars := 0, suffixStarted := false }

def Split.char (beginningBytes tailStartTarget idx : Nat) (split : Split) (ch : Char) : Split :=
  let charEnd := idx + ch.utf8Size
  if charEnd ≤ beginningBytes then { split with prefixEnd := charEnd }
  else if tailStartTarget ≤ idx then
    if !split.suffixStarted then { split with suffixStart := idx, suffixStarted := true } else split
  else { split with removedChars := split.removedChars + 1 }

/-- The loop over `char_indices`, from the byte index `idx` on. -/
def Split.chars (beginningBytes tailStartTarget : Nat) : Nat → Split → Text → Split
  | _, split, [] => split
  | idx, split, ch :: rest =>
    chars beginningBytes tailStartTarget (idx + ch.utf8Size)
      (split.char beginningBytes tailStartTarget idx ch) rest

def splitString (s : Text) (beginningBytes endBytes : Nat) : Nat × Text × Text :=
  if s = [] then (0, [], [])
  else
    let split := (Split.start (len s)).chars beginningBytes (len s - endBytes) 0 s
    let suffixStart :=
      if split.suffixStart < split.prefixEnd then split.prefixEnd else split.suffixStart
    (split.removedChars, sliceTo split.prefixEnd s, sliceFrom suffixStart s)

def splitBudget (budget : Nat) : Nat × Nat :=
  let left := budget / 2
  (left, budget - left)

def formatTruncationMarker (useTokens : Bool) (removedCount : Nat) : Text :=
  if useTokens then ("…" ++ toString removedCount ++ " tokens truncated…").toList
  else ("…" ++ toString removedCount ++ " chars truncated…").toList

def removedUnits (useTokens : Bool) (removedBytes removedChars : Nat) : Nat :=
  if useTokens then approxTokensFromByteCount removedBytes else removedChars

def assembleTruncatedOutput (before after marker : Text) : Text := before ++ marker ++ after

def truncateWithByteEstimate (s : Text) (maxBytes : Nat) (useTokens : Bool) : Text :=
  if s = [] then []
  else if maxBytes = 0 then
    formatTruncationMarker useTokens (removedUnits useTokens (len s) s.length)
  else if len s ≤ maxBytes then s
  else
    let (leftBudget, rightBudget) := splitBudget maxBytes
    let (removedChars, left, right) := splitString s leftBudget rightBudget
    let marker :=
      formatTruncationMarker useTokens (removedUnits useTokens (len s - maxBytes) removedChars)
    assembleTruncatedOutput left right marker

def truncateMiddleChars (s : Text) (maxBytes : Nat) : Text :=
  truncateWithByteEstimate s maxBytes false

def truncateMiddleWithTokenBudget (s : Text) (maxTokens : Nat) : Text × Option Nat :=
  if s = [] then ([], none)
  else if 0 < maxTokens ∧ len s ≤ approxBytesForTokens maxTokens then (s, none)
  else
    let truncated := truncateWithByteEstimate s (approxBytesForTokens maxTokens) true
    if truncated = s then (truncated, none) else (truncated, some (approxTokenCount s))

/-! ## Truncation under a policy -/

inductive TruncationPolicy where
  | bytes (bytes : Nat)
  | tokens (tokens : Nat)
  deriving DecidableEq, Repr

def truncateText (content : Text) : TruncationPolicy → Text
  | .bytes bytes => truncateMiddleChars content bytes
  | .tokens tokens => (truncateMiddleWithTokenBudget content tokens).1

namespace TruncationPolicy

/-- `byte_budget` of a byte policy, `token_budget` of a token policy. -/
def budget : TruncationPolicy → Nat
  | .bytes amount => amount
  | .tokens amount => amount

/-- What a text costs of the budget. -/
def cost : TruncationPolicy → Text → Nat
  | .bytes _, text => len text
  | .tokens _, text => approxTokenCount text

/-- The policy of the same unit with another budget. -/
def withBudget : TruncationPolicy → Nat → TruncationPolicy
  | .bytes _, budget => .bytes budget
  | .tokens _, budget => .tokens budget

end TruncationPolicy

open TruncationPolicy
/-- The variables of the loop in `truncate_function_output_items_with_policy`. -/
structure ItemsPass where
  out : List FunctionCallOutputContentItem
  remainingBudget : Nat
  omittedTextItems : Nat
  deriving DecidableEq, Repr

open ItemsPass
def ItemsPass.item (policy : TruncationPolicy) (pass : ItemsPass) :
    FunctionCallOutputContentItem → ItemsPass
  | .inputText text =>
    if pass.remainingBudget = 0 then { pass with omittedTextItems := pass.omittedTextItems + 1 }
    else
      let cost := policy.cost text
      if cost ≤ pass.remainingBudget then
        { pass with
          out := pass.out ++ [.inputText text]
          remainingBudget := pass.remainingBudget - cost }
      else
        let snippet := truncateText text (policy.withBudget pass.remainingBudget)
        if snippet = [] then
          { pass with
            omittedTextItems := pass.omittedTextItems + 1
            remainingBudget := 0 }
        else { pass with out := pass.out ++ [.inputText snippet], remainingBudget := 0 }
  | .inputImage imageUrl detail => { pass with out := pass.out ++ [.inputImage imageUrl detail] }
  | .encryptedContent encryptedContent =>
    { pass with out := pass.out ++ [.encryptedContent encryptedContent] }

def omittedNote (omittedTextItems : Nat) : Text :=
  ("[omitted " ++ toString omittedTextItems ++ " text items ...]").toList

def truncateFunctionOutputItemsWithPolicy (items : List FunctionCallOutputContentItem)
    (policy : TruncationPolicy) : List FunctionCallOutputContentItem :=
  let start : ItemsPass := { out := [], remainingBudget := policy.budget, omittedTextItems := 0 }
  let pass := items.foldl (item policy) start
  if 0 < pass.omittedTextItems then pass.out ++ [.inputText (omittedNote pass.omittedTextItems)]
  else pass.out

def truncateFunctionOutputPayload (output : FunctionCallOutputPayload)
    (policy : TruncationPolicy) : FunctionCallOutputPayload :=
  let body :=
    match output.body with
    | .text content => .text (truncateText content policy)
    | .contentItems items => .contentItems (truncateFunctionOutputItemsWithPolicy items policy)
  { output with body }

/-! ## Slices -/

theorem sliceTo_append (before after : Text) : sliceTo (len before) (before ++ after) = before := by
  induction before with
  | nil => cases after <;> simp [sliceTo]
  | cons ch before ih =>
    have hPos := Char.utf8Size_pos ch
    rw [cons_append, sliceTo, len_cons, if_neg (by omega), Nat.add_sub_cancel_left, ih]

theorem sliceFrom_append (before after : Text) :
    sliceFrom (len before) (before ++ after) = after := by
  induction before with
  | nil => cases after <;> simp [sliceFrom]
  | cons ch before ih =>
    have hPos := Char.utf8Size_pos ch
    rw [cons_append, sliceFrom, len_cons, if_neg (by omega), Nat.add_sub_cancel_left, ih]

/-! ## The loop over the characters -/

namespace Split

variable {lead tail : Nat}

theorem chars_append (idx : Nat) (split : Split) (s t : Text) :
    split.chars lead tail idx (s ++ t) =
      (split.chars lead tail idx s).chars lead tail
        (idx + len s) t := by
  induction s generalizing idx split with
  | nil => rfl
  | cons ch s ih =>
    rw [cons_append, chars, chars, ih, len_cons, Nat.add_assoc]

variable {idx : Nat} {s : Text} (split : Split)

/-- Characters within the first budget move the end of the prefix. -/
theorem chars_prefix (hFits : idx + len s ≤ lead) :
    ({ split with prefixEnd := idx } : Split).chars lead tail idx s =
      { split with prefixEnd := idx + len s } := by
  induction s generalizing idx with
  | nil => rfl
  | cons ch s ih =>
    rw [len_cons] at hFits ⊢
    have hChar : ({ split with prefixEnd := idx } : Split).char lead tail idx ch =
        { split with prefixEnd := idx + ch.utf8Size } := by
      rw [char, if_pos (by omega)]
    rw [chars, hChar, ih (by omega), Nat.add_assoc]

/-- Characters that end beyond the first budget and start before the tail are counted. -/
theorem chars_middle {split : Split} (hBetween : ∀ before ch after, s = before ++ ch :: after →
      lead < idx + len before + ch.utf8Size ∧ idx + len before < tail) :
    split.chars lead tail idx s =
      { split with removedChars := split.removedChars + s.length } := by
  induction s generalizing idx split with
  | nil => rfl
  | cons ch s ih =>
    obtain ⟨hEnd, hStart⟩ := hBetween [] ch s rfl
    rw [len_nil] at hEnd hStart
    have hChar : split.char lead tail idx ch =
        { split with removedChars := split.removedChars + 1 } := by
      rw [char, if_neg (by omega), if_neg (by omega)]
    have hRest : ∀ before c after, s = before ++ c :: after →
        lead < idx + ch.utf8Size + len before + c.utf8Size ∧
          idx + ch.utf8Size + len before < tail := by
      intro before c after hEq
      have hNext := hBetween (ch :: before) c after (by rw [hEq, cons_append])
      rw [len_cons] at hNext
      omega
    rw [chars, hChar, ih hRest, length_cons, Nat.add_right_comm, Nat.add_assoc]

theorem chars_started {split : Split} (hStarted : split.suffixStarted = true)
    (hBegin : lead < idx) (hTail : tail ≤ idx) :
    split.chars lead tail idx s = split := by
  induction s generalizing idx with
  | nil => rfl
  | cons ch s ih =>
    have hChar : split.char lead tail idx ch = split := by
      rw [char, if_neg (by omega), if_pos hTail, hStarted]
      rfl
    rw [chars, hChar, ih (by omega) (by omega)]

/-- The first character from the tail's target on starts the suffix. -/
theorem chars_suffix (hStarted : split.suffixStarted = false) (hBegin : lead < idx)
    (hTail : tail ≤ idx) (hEnd : split.suffixStart = idx + len s) :
    ∃ started, split.chars lead tail idx s =
      { split with suffixStart := idx, suffixStarted := started } := by
  rcases s with _ | ⟨ch, s⟩
  · rw [len_nil, Nat.add_zero] at hEnd
    exact ⟨false, by rw [chars, ← hStarted, ← hEnd]⟩
  have hChar : split.char lead tail idx ch =
      { split with suffixStart := idx, suffixStarted := true } := by
    rw [char, if_neg (by omega), if_pos hTail, hStarted]
    rfl
  exact ⟨true, by rw [chars, hChar, chars_started rfl (by omega) (by omega)]⟩

/-- The whole loop: each part of the text moves its own variable. -/
theorem chars_parts {left middle right : Text} {bytes : Nat}
    (hBytes : bytes = len left + len middle + len right) (hLeft : len left ≤ lead)
    (hMiddle : ∀ before ch after, middle = before ++ ch :: after →
      lead < len left + len before + ch.utf8Size ∧ len left + len before < tail)
    (hBegin : lead < len left + len middle) (hTail : tail ≤ len left + len middle) :
    ∃ started, (start bytes).chars lead tail 0 (left ++ middle ++ right) =
      ⟨len left, len left + len middle, middle.length, started⟩ := by
  have hAfterLeft : (start bytes).chars lead tail 0 left =
      { start bytes with prefixEnd := 0 + len left } := chars_prefix (start bytes) (by omega)
  rw [chars_append, chars_append, hAfterLeft, Nat.zero_add, Nat.zero_add, chars_middle hMiddle,
    len_append]
  obtain ⟨started, hSuffix⟩ := chars_suffix { start bytes with
    prefixEnd := len left, removedChars := (start bytes).removedChars + middle.length }
    rfl hBegin hTail hBytes
  exact ⟨started, hSuffix.trans (by simp [start])⟩

end Split

theorem splitString_eq {left middle right : Text} {leftBudget rightBudget : Nat}
    (hLeft : LongestPrefix (fun p => len p ≤ leftBudget) (left ++ middle ++ right) left)
    (hRight : LongestSuffix (fun p => len p ≤ rightBudget) (left ++ middle ++ right) right)
    (hLong : leftBudget + rightBudget < len (left ++ middle ++ right)) :
    splitString (left ++ middle ++ right) leftBudget rightBudget =
      (middle.length, left, right) := by
  have hFitsLeft : len left ≤ leftBudget := hLeft.holds
  have hFitsRight : len right ≤ rightBudget := hRight.holds
  have hLen : len (left ++ middle ++ right) = len left + len middle + len right := by
    rw [len_append, len_append]
  -- a character between the two straddles neither target, by their maximality
  have hBetween : ∀ before ch after, middle = before ++ ch :: after →
      leftBudget < len left + len before + ch.utf8Size ∧
        len left + len before < len (left ++ middle ++ right) - rightBudget := by
    intro before ch after hEq
    have hMoreLeft := hLeft.not_append (q := before ++ [ch])
      ⟨after ++ right, by simp [hEq]⟩ (by simp)
    have hMoreRight := hRight.not_append (q := ch :: after)
      ⟨left ++ before, by simp [hEq]⟩ (by simp)
    have hMiddle : len middle = len before + (ch.utf8Size + len after) := by
      rw [hEq, len_append, len_cons]
    simp only [len_append, len_cons, len_nil] at hMoreLeft hMoreRight
    omega
  obtain ⟨started, hSplit⟩ := Split.chars_parts hLen hFitsLeft hBetween (by omega) (by omega)
  have hNoOverlap : ¬ len left + len middle < len left := by omega
  simp only [splitString, if_neg (ne_nil_of_len hLong), hSplit, if_neg hNoOverlap]
  rw [← len_append, sliceFrom_append, append_assoc, sliceTo_append]

/-- The text `out` is what is left of `s` when it is cut in the middle to `b` bytes. -/
def CutInMiddle (s : Text) (b : Nat) (out : Text) : Prop :=
  ∃ l m r, s = l ++ m ++ r ∧ out = l ++ formatTruncationMarker false m.length ++ r ∧
    LongestPrefix (fun p => len p ≤ b / 2) s l ∧ LongestSuffix (fun p => len p ≤ b - b / 2) s r

theorem truncateMiddleChars_cut (hPos : 0 < b) (hLong : b < len s) :
    CutInMiddle s b (truncateMiddleChars s b) := by
  obtain ⟨l, hl⟩ := exists_longestPrefix (P := fun p => len p ≤ b / 2) (Nat.zero_le _) s
  obtain ⟨r, hr⟩ := exists_longestSuffix (P := fun p => len p ≤ b - b / 2) (Nat.zero_le _) s
  have hSum : b / 2 + (b - b / 2) < len s := by omega
  obtain ⟨m, rfl⟩ := exists_middle hl.isPrefix hr.isSuffix hl.holds hr.holds hSum
  refine ⟨l, m, r, rfl, ?_, hl, hr⟩
  rw [truncateMiddleChars, truncateWithByteEstimate, if_neg (ne_nil_of_len hLong),
    if_neg (by omega), if_neg (by omega)]
  simp only [splitBudget, splitString_eq hl hr hSum]
  rfl

/-! ## The pass over the content items -/

theorem formatTruncationMarker_ne_nil (useTokens : Bool) (removedCount : Nat) :
    formatTruncationMarker useTokens removedCount ≠ [] := by
  cases useTokens <;> simp [formatTruncationMarker]

theorem truncateWithByteEstimate_ne_nil (hNe : s ≠ []) (maxBytes : Nat)
    (useTokens : Bool) : truncateWithByteEstimate s maxBytes useTokens ≠ [] := by
  rw [truncateWithByteEstimate, if_neg hNe]
  split
  · exact formatTruncationMarker_ne_nil _ _
  · split
    · exact hNe
    · simp [assembleTruncatedOutput, formatTruncationMarker_ne_nil]

/-- A shortened text always says so, whatever is left of it. -/
theorem truncateText_ne_nil {text : Text} (hNe : text ≠ []) (policy : TruncationPolicy) :
    truncateText text policy ≠ [] := by
  cases policy with
  | bytes bytes => exact truncateWithByteEstimate_ne_nil hNe bytes false
  | tokens tokens =>
    rw [truncateText, truncateMiddleWithTokenBudget, if_neg hNe]
    split
    · exact hNe
    · simp only []
      split <;> exact truncateWithByteEstimate_ne_nil hNe _ true

def textOf? : FunctionCallOutputContentItem → Option Text
  | .inputText text => some text
  | .inputImage _ _ | .encryptedContent _ => none

def texts (items : List FunctionCallOutputContentItem) : List Text := items.filterMap textOf?

/-- The images and encrypted contents. -/
def attachments (items : List FunctionCallOutputContentItem) : List FunctionCallOutputContentItem :=
  items.filter fun item => (textOf? item).isNone

/-- The items with other texts in the place of theirs, as far as these reach. -/
def fill : List FunctionCallOutputContentItem → List Text → List FunctionCallOutputContentItem
  | [], _ => []
  | .inputText _ :: rest, [] => fill rest []
  | .inputText _ :: rest, text :: others => .inputText text :: fill rest others
  | .inputImage imageUrl detail :: rest, others => .inputImage imageUrl detail :: fill rest others
  | .encryptedContent content :: rest, others => .encryptedContent content :: fill rest others

variable (items : List FunctionCallOutputContentItem)

theorem attachments_fill (others : List Text) :
    attachments (fill items others) = attachments items := by
  induction items generalizing others with
  | nil => rfl
  | cons item rest ih =>
    cases item with
    | inputText text =>
      cases others with
      | nil => exact ih []
      | cons other others => exact ih others
    | inputImage _ _ | encryptedContent _ => exact congrArg (List.cons _) (ih others)

namespace TruncationPolicy

/-- The texts that are kept as they are. -/
def kept (policy : TruncationPolicy) (budget : Nat) (texts : List Text) : List Text :=
  afford policy.cost budget texts

/-- The text after them, cut to what is left, if anything is. -/
def shortened (policy : TruncationPolicy) (budget : Nat) (texts : List Text) : List Text :=
  let spent := total policy.cost (policy.kept budget texts)
  if spent < budget then
    ((texts.drop (policy.kept budget texts).length).take 1).map fun text =>
      truncateText text (policy.withBudget (budget - spent))
  else []

/-- The texts of the output, the note on omitted ones apart. -/
def cutTexts (policy : TruncationPolicy) (budget : Nat) (texts : List Text) : List Text :=
  policy.kept budget texts ++ policy.shortened budget texts

variable {policy : TruncationPolicy} {budget : Nat} {text : Text} {rest : List Text}

theorem cutTexts_zero : policy.cutTexts 0 rest = [] := by
  rw [cutTexts, kept, afford_zero]
  rfl

theorem kept_fits (hPos : 0 < budget) (hFits : policy.cost text ≤ budget) :
    policy.kept budget (text :: rest) = text :: policy.kept (budget - policy.cost text) rest := by
  rw [kept, afford, if_neg (by omega), if_pos hFits]
  rfl

theorem cutTexts_fits (hPos : 0 < budget) (hFits : policy.cost text ≤ budget) :
    policy.cutTexts budget (text :: rest) =
      text :: policy.cutTexts (budget - policy.cost text) rest := by
  have hShort : policy.shortened budget (text :: rest) =
      policy.shortened (budget - policy.cost text) rest := by
    simp only [shortened, kept_fits hPos hFits, total_cons,
      Nat.sub_sub]
    congr 1
    exact propext (by omega)
  rw [cutTexts, cutTexts, hShort, kept_fits hPos hFits, cons_append]

theorem cutTexts_exceeds (hPos : 0 < budget) (hExceeds : budget < policy.cost text) :
    policy.cutTexts budget (text :: rest) = [truncateText text (policy.withBudget budget)] := by
  have hKept : policy.kept budget (text :: rest) = [] := by
    rw [kept, afford, if_neg (by omega), if_neg (by omega)]
  simp [cutTexts, shortened, hKept, hPos]

/-- A text that costs something is not empty. -/
theorem ne_nil_of_cost (hCost : budget < policy.cost text) : text ≠ [] := by
  rintro rfl
  cases policy <;> exact Nat.not_lt_zero _ hCost

end TruncationPolicy

/-- The pass over the items: the texts are cut, everything else goes through, and a text that is not
in the output is counted. -/
theorem itemsPass_run (policy : TruncationPolicy) (pass : ItemsPass)
    (items : List FunctionCallOutputContentItem) : (items.foldl (item policy) pass).out =
        pass.out ++ fill items (policy.cutTexts pass.remainingBudget (texts items)) ∧
      (items.foldl (item policy) pass).omittedTextItems +
          (policy.cutTexts pass.remainingBudget (texts items)).length =
        pass.omittedTextItems + (texts items).length := by
  induction items generalizing pass with
  | nil =>
    have hNone : policy.cutTexts pass.remainingBudget (texts []) = [] := by
      simp [texts, cutTexts, shortened, kept,
        afford]
    rw [hNone]
    exact ⟨(append_nil _).symm, rfl⟩
  | cons item rest ih =>
    rw [foldl_cons]
    obtain ⟨hOut, hOmitted⟩ := ih (pass.item policy item)
    rw [hOut]
    cases item with
    | inputImage _ _ | encryptedContent _ => exact ⟨append_assoc _ _ _, hOmitted⟩
    | inputText text =>
      have hTexts : texts (.inputText text :: rest) = text :: texts rest := rfl
      rw [hTexts, length_cons]
      by_cases hZero : pass.remainingBudget = 0
      · -- nothing is left, so the text is omitted
        have hItem : pass.item policy (.inputText text) =
            { pass with omittedTextItems := pass.omittedTextItems + 1 } := by
          rw [item, if_pos hZero]
        rw [hItem] at hOmitted ⊢
        simp only [hZero, cutTexts_zero] at hOmitted ⊢
        exact ⟨rfl, by omega⟩
      · by_cases hFits : policy.cost text ≤ pass.remainingBudget
        · have hItem : pass.item policy (.inputText text) =
              { pass with
                out := pass.out ++ [.inputText text]
                remainingBudget := pass.remainingBudget - policy.cost text } := by
            simp only [item, if_neg hZero, if_pos hFits]
          rw [hItem] at hOmitted ⊢
          rw [cutTexts_fits (by omega) hFits, length_cons]
          exact ⟨append_assoc _ _ _, by simp only [] at hOmitted; omega⟩
        · have hNe := truncateText_ne_nil
            (ne_nil_of_cost (Nat.lt_of_not_le hFits))
            (policy.withBudget pass.remainingBudget)
          have hItem : pass.item policy (.inputText text) =
              { pass with
                out := pass.out ++
                  [.inputText (truncateText text (policy.withBudget pass.remainingBudget))]
                remainingBudget := 0 } := by
            simp only [item, if_neg hZero, if_neg hFits, if_neg hNe]
          rw [hItem] at hOmitted ⊢
          rw [cutTexts_exceeds (by omega) (Nat.lt_of_not_le hFits)]
          simp only [cutTexts_zero] at hOmitted ⊢
          refine ⟨append_assoc _ _ _, ?_⟩
          rw [length_nil] at hOmitted
          rw [length_singleton]
          omega

/-- What a byte budget leaves of a list of texts: those it pays for as they are, and the next one cut
to what is left of it. -/
structure TextsCut (b : Nat) (all kept short : List Text) : Prop where
  leading : LongestPrefix (Affordable len b) all kept
  next : (short = [] ∧ (kept = all ∨ total len kept = b)) ∨
    ∃ text rest out, all = kept ++ text :: rest ∧ total len kept < b ∧ short = [out] ∧
      CutInMiddle text (b - total len kept) out

theorem textsCut_bytes (b : Nat) (all : List Text) :
    TextsCut b all ((bytes b).kept b all)
      ((bytes b).shortened b all) := by
  have hLeading : LongestPrefix (Affordable len b) all ((bytes b).kept b all) :=
    longestPrefix_afford b all
  refine ⟨hLeading, ?_⟩
  rw [shortened]
  generalize (bytes b).kept b all = kept at hLeading
  obtain ⟨rest, rfl⟩ := hLeading.isPrefix
  have hFits : total len kept ≤ b := hLeading.holds.1
  have hCost : total (bytes b).cost kept = total len kept := rfl
  rw [hCost, drop_left]
  by_cases hSpent : total len kept < b
  · rw [if_pos hSpent]
    rcases rest with _ | ⟨text, rest⟩
    · exact Or.inl ⟨rfl, Or.inl (append_nil _).symm⟩
    refine Or.inr ⟨text, rest, _, rfl, hSpent, rfl, ?_⟩
    -- were it short enough, the run would go on
    have hNotMore : ¬ Affordable len b (kept ++ [text]) :=
      hLeading.not_append ⟨rest, by simp⟩ (cons_ne_nil _ _)
    have hExceeds : b - total len kept < len text := by
      exact Nat.lt_of_not_le fun hLe => hNotMore (affordable_concat hSpent hLe)
    exact truncateMiddleChars_cut (by omega) hExceeds
  · rw [if_neg hSpent]
    exact Or.inl ⟨rfl, Or.inr (by omega)⟩

theorem truncateFunctionOutputItemsWithPolicy_eq (policy : TruncationPolicy) : ∃ omitted,
      truncateFunctionOutputItemsWithPolicy items policy =
          fill items (policy.cutTexts policy.budget (texts items)) ++
            (if 0 < omitted then [.inputText (omittedNote omitted)] else []) ∧
        omitted + (policy.cutTexts policy.budget (texts items)).length = (texts items).length := by
  obtain ⟨hOut, hOmitted⟩ := itemsPass_run policy
    { out := [], remainingBudget := policy.budget, omittedTextItems := 0 } items
  rw [Nat.zero_add] at hOmitted
  refine ⟨_, ?_, hOmitted⟩
  simp only [truncateFunctionOutputItemsWithPolicy, hOut]
  split
  · rfl
  · exact (append_nil _).symm

theorem attachments_append_text (text : Text) :
    attachments (items ++ [.inputText text]) = attachments items := by
  simp [attachments, textOf?]

/-- A text is cut in its middle, on character boundaries, and the marker counts what is gone. Of the
items of an output every attachment stays; the leading texts stay for as long as some of the budget
is left, the one that exceeds it is cut to what is left, and the note counts the others. -/
theorem truncation_keeps_what_fits :
    (∀ (s : Text) (b : Nat), 0 < b → b < len s → CutInMiddle s b (truncateMiddleChars s b)) ∧
    ∀ (items : List FunctionCallOutputContentItem) (b : Nat), ∃ kept short omitted,
      TextsCut b (texts items) kept short ∧
      ((∀ text ∈ texts items, text ≠ []) →
        LongestPrefix (fun run => total len run ≤ b) (texts items) kept) ∧
      truncateFunctionOutputItemsWithPolicy items (.bytes b) =
        fill items (kept ++ short) ++
          (if 0 < omitted then [.inputText (omittedNote omitted)] else []) ∧
      attachments (truncateFunctionOutputItemsWithPolicy items (.bytes b)) = attachments items ∧
      omitted + (kept ++ short).length = (texts items).length := by
  refine ⟨fun s b hPos hLong => truncateMiddleChars_cut hPos hLong, ?_⟩
  intro items b
  have hCut := textsCut_bytes b (texts items)
  obtain ⟨omitted, hOut, hOmitted⟩ := truncateFunctionOutputItemsWithPolicy_eq items (.bytes b)
  refine ⟨_, _, omitted, hCut, fun hNe => ?_, hOut, ?_, hOmitted⟩
  · -- without empty texts, those kept as they are are the longest run that fits
    refine ⟨hCut.leading.isPrefix, hCut.leading.holds.1, ?_⟩
    intro run hRun hFits
    refine hCut.leading.longest run hRun (Affordable.of_pos ?_ hFits)
    intro text hMem
    exact len_pos (hNe text (hRun.subset hMem))
  · rw [hOut]
    split
    · rw [attachments_append_text, attachments_fill]
    · rw [append_nil, attachments_fill]

/-- Five bytes of seven: the accented letter straddles the middle of the budget. -/
theorem accent_cut_out :
    CutInMiddle "abédef".toList 5 "ab…1 chars truncated…def".toList ∧
      ∃ kept short omitted, TextsCut 3 ["ab".toList, "cdef".toList, "g".toList] kept short ∧
        omitted + (kept ++ short).length = 3 := by
  obtain ⟨hText, hItems⟩ := truncation_keeps_what_fits
  have hMiddle := hText "abédef".toList 5 (by decide) (by decide)
  refine ⟨hMiddle, ?_⟩
  obtain ⟨kept, short, omitted, hCut, -, -, -, hCount⟩ :=
    hItems [.inputText "ab".toList, .inputText "cdef".toList, .inputText "g".toList] 3
  exact ⟨kept, short, omitted, hCut, hCount⟩

/-- An empty text after an exact fit is within the budget and yet counted as omitted. -/
theorem empty_text_omitted_after_exact_fit :
    total len ["abc".toList, "".toList] ≤ 3 ∧
      truncateFunctionOutputItemsWithPolicy [.inputText "abc".toList, .inputText "".toList]
          (.bytes 3) =
        [.inputText "abc".toList, .inputText "[omitted 1 text items ...]".toList] := by
  decide

end Codex.Output
