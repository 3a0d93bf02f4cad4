import Codex.Lib.Runs
import Codex.Std.Text

/-!
# Codex — paste bursts

`PasteBurst` in `tui/src/bottom_pane/paste_burst.rs`, and the part of `ChatComposer` that feeds it:
`handle_paste_burst_flush`, `handle_input_basic_with_time` and `handle_non_ascii_char` for plain keys.
A text typed so far can lie in three places: in the textarea, in the burst buffer, and in the one
character that is held back. Texts are lists of characters and the cursor is at the end, so the
byte range of a retro grab is a number of characters to drop. Instants are nanoseconds.

`handle_paste` inserts its text; that it also normalises line endings, hides large pastes behind a
placeholder and looks for image paths is left out. It clears the burst state, which the contract of
`PasteBurst` does not ask for, so both callers are covered (`PasteContract.clearsAfterPaste`).

An Enter is taken into the buffer whenever a burst is on or a character is held. In the second case
the newline gets in front of the held character, which then may be dropped altogether.

* `Ordered.step` — nothing is lost or moved by an event that is no such Enter.
* `keystrokes_kept_unless_enter_on_held` — nor is anything along a run without such an Enter.
-/

namespace Codex.Tui

open List

/-! ## The burst detector -/

def millis (n : Nat) : Nat := n * 1000000

def pasteBurstMinChars : Nat := 3

def pasteEnterSuppressWindow : Nat := millis 120

def pasteBurstCharInterval : Nat := millis 8

/-- What differs between platforms and callers. -/
structure PasteContract where
  /-- `PASTE_BURST_ACTIVE_IDLE_TIMEOUT`: 8 ms, on Windows 60 ms. -/
  activeIdleTimeout : Nat
  /-- The caller calls `clear_after_explicit_paste` when it has inserted a paste. -/
  clearsAfterPaste : Bool

structure PasteBurst where
  lastPlainCharTime : Option Nat
  /-- A `u16`, which saturates. -/
  consecutivePlainCharBurst : Nat
  burstWindowUntil : Option Nat
  buffer : Text
  active : Bool
  pendingFirstChar : Option (Char × Nat)
  deriving DecidableEq, Repr

inductive CharDecision where
  | beginBuffer (retroChars : Nat)
  | bufferAppend
  | retainFirstChar
  | beginBufferFromPending
  deriving DecidableEq, Repr

inductive FlushResult where
  | paste (text : Text)
  | typed (ch : Char)
  | none
  deriving DecidableEq, Repr

/-- `retro_start_index`, in characters. -/
def retroStartIndex (before : Text) (retroChars : Nat) : Nat := before.length - retroChars

namespace PasteBurst

def default : PasteBurst :=
  { lastPlainCharTime := none, consecutivePlainCharBurst := 0, burstWindowUntil := none
    buffer := [], active := false, pendingFirstChar := none }

variable (burst : PasteBurst)

def isActiveInternal : Bool := burst.active || !burst.buffer.isEmpty

def isActive : Bool :=
  burst.isActiveInternal || burst.pendingFirstChar.isSome

def extendWindow (now : Nat) : PasteBurst :=
  { burst with burstWindowUntil := some (now + pasteEnterSuppressWindow) }

def notePlainChar (now : Nat) : PasteBurst :=
  let fast := burst.lastPlainCharTime.any fun prev => now - prev ≤ pasteBurstCharInterval
  { burst with
    consecutivePlainCharBurst :=
      if fast then min (burst.consecutivePlainCharBurst + 1) 65535 else 1
    lastPlainCharTime := some now }

/-- The held character, if the second one comes fast enough after it. -/
def heldFor (now : Nat) : Option Char :=
  match burst.pendingFirstChar with
  | some (held, heldAt) => if now - heldAt ≤ pasteBurstCharInterval then some held else none
  | none => none

def onPlainChar (ch : Char) (now : Nat) : PasteBurst × CharDecision :=
  let burst := burst.notePlainChar now
  if burst.active then (burst.extendWindow now, .bufferAppend)
  else
    match burst.heldFor now with
    | some held =>
      ({ burst with active := true, pendingFirstChar := none
                    buffer := burst.buffer ++ [held] }.extendWindow now, .beginBufferFromPending)
    | none =>
      if pasteBurstMinChars ≤ burst.consecutivePlainCharBurst then
        (burst, .beginBuffer (burst.consecutivePlainCharBurst - 1))
      else ({ burst with pendingFirstChar := some (ch, now) }, .retainFirstChar)

/-- `on_plain_char_no_hold`; `BufferAppend` and `BeginBuffer` are all it returns. -/
def onPlainCharNoHold (now : Nat) : PasteBurst × Option CharDecision :=
  let burst := burst.notePlainChar now
  if burst.active then (burst.extendWindow now, some .bufferAppend)
  else if pasteBurstMinChars ≤ burst.consecutivePlainCharBurst then
    (burst, some (.beginBuffer (burst.consecutivePlainCharBurst - 1)))
  else (burst, none)

def flushIfDue (contract : PasteContract) (burst : PasteBurst) (now : Nat) :
    PasteBurst × FlushResult :=
  let timeout :=
    if burst.isActiveInternal then contract.activeIdleTimeout else pasteBurstCharInterval
  let timedOut := burst.lastPlainCharTime.any fun t => timeout < now - t
  if timedOut && burst.isActiveInternal then
    ({ burst with active := false, buffer := [] }, .paste burst.buffer)
  else if timedOut then
    match burst.pendingFirstChar with
    | some (ch, _) => ({ burst with pendingFirstChar := none }, .typed ch)
    | none => (burst, .none)
  else (burst, .none)

def appendNewlineIfActive (now : Nat) : PasteBurst × Bool :=
  if burst.isActive then
    ({ burst with buffer := burst.buffer ++ ['\n'] }.extendWindow now, true)
  else (burst, false)

def beginWithRetroGrabbed (grabbed : Text) (now : Nat) : PasteBurst :=
  { burst with buffer := burst.buffer ++ grabbed, active := true }.extendWindow now

def appendCharToBuffer (ch : Char) (now : Nat) : PasteBurst :=
  { burst with buffer := burst.buffer ++ [ch] }.extendWindow now

def tryAppendCharIfActive (ch : Char) (now : Nat) : Option PasteBurst :=
  if burst.active || !burst.buffer.isEmpty then some (burst.appendCharToBuffer ch now) else none

/-- `decide_begin_buffer`, with the start of the grabbed text. -/
def decideBeginBuffer (now : Nat) (before : Text) (retroChars : Nat) : Option (PasteBurst × Nat) :=
  let start := retroStartIndex before retroChars
  let grabbed := before.drop start
  if grabbed.any isWhitespace || 16 ≤ grabbed.length then
    some (burst.beginWithRetroGrabbed grabbed now, start)
  else none

def flushBeforeModifiedInput : PasteBurst × Option Text :=
  if burst.isActive then
    ({ burst with active := false, buffer := [], pendingFirstChar := none },
      some (burst.buffer ++ (burst.pendingFirstChar.map Prod.fst).toList))
  else (burst, none)

def clearAfterExplicitPaste (_ : PasteBurst) : PasteBurst := .default

end PasteBurst

open PasteBurst
/-! ## The composer -/

structure Composer where
  /-- The text area, with the cursor at its end. -/
  text : Text
  burst : PasteBurst
  deriving DecidableEq, Repr

namespace Composer

variable (contract : PasteContract)

def handlePaste (composer : Composer) (pasted : Text) : Composer :=
  { text := composer.text ++ pasted
    burst :=
      if contract.clearsAfterPaste then composer.burst.clearAfterExplicitPaste
      else composer.burst }

def handlePasteBurstFlush (composer : Composer) (now : Nat) : Composer :=
  match composer.burst.flushIfDue contract now with
  | (burst, .paste pasted) => handlePaste contract { composer with burst } pasted
  | (burst, .typed ch) => { text := composer.text ++ [ch], burst }
  | (burst, .none) => { composer with burst }

/-- `flush_before_modified_input`, and `handle_paste` for what it returns. -/
def flushModified (composer : Composer) : Composer :=
  match composer.burst.flushBeforeModifiedInput with
  | (burst, some pasted) => handlePaste contract { composer with burst } pasted
  | (burst, none) => { composer with burst }

/-- A key that is inserted as it is. -/
def insertPlain (composer : Composer) (ch : Char) : Composer :=
  let composer := composer.flushModified contract
  { composer with text := composer.text ++ [ch] }

/-- The decision `BeginBuffer`. -/
def beginBuffer (composer : Composer) (ch : Char) (now : Nat) (retroChars : Nat) : Composer :=
  match composer.burst.decideBeginBuffer now composer.text retroChars with
  | some (burst, start) =>
    { text := composer.text.take start, burst := burst.appendCharToBuffer ch now }
  | none => composer.insertPlain contract ch

def handleAsciiChar (composer : Composer) (ch : Char) (now : Nat) : Composer :=
  match composer.burst.onPlainChar ch now with
  | (burst, .bufferAppend) | (burst, .beginBufferFromPending) =>
    { composer with burst := burst.appendCharToBuffer ch now }
  | (burst, .beginBuffer retroChars) =>
    beginBuffer contract { composer with burst } ch now retroChars
  | (burst, .retainFirstChar) => { composer with burst }

def handleNonAsciiChar (composer : Composer) (ch : Char) (now : Nat) : Composer :=
  match composer.burst.tryAppendCharIfActive ch now with
  | some burst => { composer with burst }
  | none =>
    let composer := composer.flushModified contract
    match composer.burst.onPlainCharNoHold now with
    | (burst, some .bufferAppend) => { composer with burst := burst.appendCharToBuffer ch now }
    | (burst, some (.beginBuffer retroChars)) =>
      beginBuffer contract { composer with burst } ch now retroChars
    | (burst, _) => insertPlain contract { composer with burst } ch

def isAscii (ch : Char) : Bool := ch.toNat < 128

def handleChar (composer : Composer) (ch : Char) (now : Nat) : Composer :=
  if isAscii ch then composer.handleAsciiChar contract ch now
  else composer.handleNonAsciiChar contract ch now

/-- All that was typed and is not in the text area, as a flush would return it. -/
def unflushed (composer : Composer) : Text :=
  (composer.burst.flushBeforeModifiedInput).2.getD []

/-- The text that is there, and what the burst state would still flush. -/
def shown (composer : Composer) : Text := composer.text ++ composer.unflushed

end Composer

open Composer
/-! ## Typing -/

inductive KeyInput where
  | char (ch : Char) (now : Nat)
  | enter (now : Nat)
  | tick (now : Nat)
  deriving DecidableEq, Repr

/-- The composer and, beside it, what was typed. An Enter counts if the burst took it. -/
structure Typing where
  composer : Composer
  typed : Text
  deriving DecidableEq, Repr

namespace Typing

variable (contract : PasteContract)

def start : Typing := { composer := { text := [], burst := .default }, typed := [] }

def step (typing : Typing) : KeyInput → Typing
  | .tick now => { typing with composer := typing.composer.handlePasteBurstFlush contract now }
  | .char ch now =>
    { composer := (typing.composer.handlePasteBurstFlush contract now).handleChar contract ch now
      typed := typing.typed ++ [ch] }
  | .enter now =>
    let composer := typing.composer.handlePasteBurstFlush contract now
    match composer.burst.appendNewlineIfActive now with
    | (burst, true) => { composer := { composer with burst }, typed := typing.typed ++ ['\n'] }
    | (burst, false) => { typing with composer := { composer with burst } }

def run (events : List KeyInput) : Typing :=
  events.foldl (step contract) start

/-- The event is an Enter that comes while a character is held back. -/
def EnterOnHeld (typing : Typing) (event : KeyInput) : Prop :=
  ∃ now, event = .enter now ∧
    (typing.composer.handlePasteBurstFlush contract now).burst.pendingFirstChar ≠ none

end Typing

open Typing
/-- Some Enter comes while a character is held back. -/
def SomeEnterOnHeld (contract : PasteContract) (events : List KeyInput) : Prop :=
  ∃ before event after, events = before ++ event :: after ∧
    (run contract before).EnterOnHeld contract event

/-! ## The three places, in order -/

variable {contract : PasteContract} {composer : Composer} {typed text : Text} {now : Nat}
variable {last window : Option Nat} {count : Nat}

/-- What was typed lies in the text area; behind it in the character that is held back since the
last key; or behind it in the buffer of a burst. -/
inductive Ordered : Composer → Text → Prop where
  | idle (text : Text) (last : Option Nat) (count : Nat) (window : Option Nat) :
      Ordered ⟨text, ⟨last, count, window, [], false, none⟩⟩ text
  | holding (text : Text) (held : Char) (heldAt count : Nat) (window : Option Nat) :
      Ordered ⟨text, ⟨some heldAt, count, window, [], false, some (held, heldAt)⟩⟩ (text ++ [held])
  | bursting (text buffer : Text) (last : Option Nat) (count : Nat) (window : Option Nat) :
      Ordered ⟨text, ⟨last, count, window, buffer, true, none⟩⟩ (text ++ buffer)

theorem Ordered.shown_eq (h : Ordered composer typed) : composer.shown = typed := by
  cases h with
  | idle => exact append_nil _
  | holding => rfl
  | bursting text buffer => exact congrArg _ (append_nil _)

/-! ## Flushing -/

/-- A paste leaves nothing but the text area, whether or not the state is cleared. -/
theorem handlePaste_idle (text pasted : Text) : ∃ last' count' window',
    handlePaste contract ⟨text, ⟨last, count, window, [], false, none⟩⟩ pasted =
      ⟨text ++ pasted, ⟨last', count', window', [], false, none⟩⟩ := by
  unfold handlePaste
  split
  · exact ⟨none, 0, none, rfl⟩
  · exact ⟨last, count, window, rfl⟩

variable (contract)

theorem flush_idle (text : Text) (now : Nat) :
    handlePasteBurstFlush contract ⟨text, ⟨last, count, window, [], false, none⟩⟩ now =
      ⟨text, ⟨last, count, window, [], false, none⟩⟩ := by
  simp [handlePasteBurstFlush, flushIfDue, isActiveInternal]

theorem flush_holding (text : Text) (held : Char) (heldAt now : Nat) :
    handlePasteBurstFlush contract
        ⟨text, ⟨some heldAt, count, window, [], false, some (held, heldAt)⟩⟩ now =
      if pasteBurstCharInterval < now - heldAt then
        ⟨text ++ [held], ⟨some heldAt, count, window, [], false, none⟩⟩
      else ⟨text, ⟨some heldAt, count, window, [], false, some (held, heldAt)⟩⟩ := by
  unfold handlePasteBurstFlush flushIfDue isActiveInternal
  by_cases hDue : pasteBurstCharInterval < now - heldAt <;> simp [hDue]

theorem flush_bursting (text buffer : Text) (now : Nat) :
    handlePasteBurstFlush contract ⟨text, ⟨last, count, window, buffer, true, none⟩⟩ now =
      if last.any fun t => contract.activeIdleTimeout < now - t then
        handlePaste contract ⟨text, ⟨last, count, window, [], false, none⟩⟩ buffer
      else ⟨text, ⟨last, count, window, buffer, true, none⟩⟩ := by
  unfold handlePasteBurstFlush flushIfDue isActiveInternal
  cases hDue : last.any fun t => decide (contract.activeIdleTimeout < now - t) <;> simp [hDue]

/-- A flush moves text along. What is held after it came within the interval. -/
theorem Ordered.flush (h : Ordered composer typed) (now : Nat) :
    Ordered (composer.handlePasteBurstFlush contract now) typed ∧
      ∀ held heldAt, (composer.handlePasteBurstFlush contract now).burst.pendingFirstChar =
        some (held, heldAt) → now - heldAt ≤ pasteBurstCharInterval := by
  cases h with
  | idle _ last count window =>
    rw [flush_idle]
    exact ⟨.idle typed last count window, fun _ _ h => nomatch h⟩
  | holding text held heldAt count window =>
    rw [flush_holding]
    split
    · exact ⟨.idle (text ++ [held]) (some heldAt) count window, fun _ _ h => nomatch h⟩
    · rename_i hDue
      refine ⟨.holding text held heldAt count window, fun _ _ h => ?_⟩
      cases h
      exact Nat.le_of_not_lt hDue
  | bursting text buffer last count window =>
    rw [flush_bursting]
    split
    · obtain ⟨last', count', window', hPaste⟩ := handlePaste_idle text buffer
      rw [hPaste]
      exact ⟨.idle (text ++ buffer) last' count' window', fun _ _ h => nomatch h⟩
    · exact ⟨.bursting text buffer last count window, fun _ _ h => nomatch h⟩

/-- After the flush for other input only the text area is left. -/
theorem Ordered.flushModified (h : Ordered composer typed) :
    ∃ last count window, composer.flushModified contract =
      ⟨typed, ⟨last, count, window, [], false, none⟩⟩ := by
  cases h with
  | idle _ last count window => exact ⟨last, count, window, rfl⟩
  | holding text held => exact handlePaste_idle text [held]
  | bursting text buffer =>
    unfold flushModified flushBeforeModifiedInput
    simp only [Option.map_none, Option.toList_none, append_nil]
    exact handlePaste_idle text buffer

/-! ## Keys -/

theorem Ordered.insertPlain (h : Ordered composer typed) (ch : Char) :
    Ordered (composer.insertPlain contract ch) (typed ++ [ch]) := by
  obtain ⟨last, count, window, hFlushed⟩ := h.flushModified contract
  unfold Composer.insertPlain
  rw [hFlushed]
  exact .idle _ last count window

/-- A retro grab takes the end of the text area into the empty buffer. -/
theorem ordered_beginBuffer (text : Text) (ch : Char) (now retroChars : Nat) :
    Ordered (beginBuffer contract ⟨text, ⟨last, count, window, [], false, none⟩⟩ ch now
      retroChars) (text ++ [ch]) := by
  unfold beginBuffer decideBeginBuffer
  dsimp only
  split
  · rename_i burst start hGrab
    split at hGrab
    · cases hGrab
      have hGrabbed : text ++ [ch] = text.take (retroStartIndex text retroChars) ++
          ([] ++ text.drop (retroStartIndex text retroChars) ++ [ch]) := by
        rw [nil_append, ← append_assoc, take_append_drop]
      rw [hGrabbed]
      exact .bursting _ _ last count _
    · cases hGrab
  · exact (Ordered.idle text last count window).insertPlain contract ch

/-- A plain ASCII character after a flush. -/
theorem Ordered.handleAsciiChar (h : Ordered composer typed)
    (hFresh : ∀ held heldAt, composer.burst.pendingFirstChar = some (held, heldAt) →
      now - heldAt ≤ pasteBurstCharInterval) (ch : Char) :
    Ordered (composer.handleAsciiChar contract ch now) (typed ++ [ch]) := by
  unfold Composer.handleAsciiChar
  cases h with
  | idle _ last count window =>
    by_cases hMany : pasteBurstMinChars ≤ (notePlainChar
        ⟨last, count, window, [], false, none⟩ now).consecutivePlainCharBurst
    · have hDecision : onPlainChar ⟨last, count, window, [], false, none⟩ ch now =
          (_, .beginBuffer _) := if_pos hMany
      simp only [hDecision]
      exact ordered_beginBuffer contract typed ch now _
    · have hDecision : onPlainChar ⟨last, count, window, [], false, none⟩ ch now =
          (_, .retainFirstChar) := if_neg hMany
      simp only [hDecision]
      exact .holding typed ch now _ window
  | holding text held heldAt count window =>
    -- the held character opens the buffer, the new one follows it
    have hTake : heldFor
        (.notePlainChar ⟨some heldAt, count, window, [], false, some (held, heldAt)⟩ now) now =
          some held := if_pos (hFresh held heldAt rfl)
    unfold onPlainChar
    simp only [hTake]
    rw [append_assoc]
    exact .bursting text ([] ++ [held] ++ [ch]) (some now) _ _
  | bursting text buffer last count window =>
    rw [append_assoc]
    exact .bursting text (buffer ++ [ch]) (some now) _ _

/-- Any other plain character. -/
theorem Ordered.handleNonAsciiChar (h : Ordered composer typed) (ch : Char) (now : Nat) :
    Ordered (composer.handleNonAsciiChar contract ch now) (typed ++ [ch]) := by
  by_cases hActive : composer.burst.active = true
  · cases h with
    | bursting text buffer last count window =>
      rw [append_assoc]
      exact .bursting text (buffer ++ [ch]) last count _
    | _ => cases hActive
  · have hNone : composer.burst.tryAppendCharIfActive ch now = none := by
      cases h with
      | bursting => exact absurd rfl hActive
      | _ => rfl
    obtain ⟨last, count, window, hFlushed⟩ := h.flushModified contract
    unfold Composer.handleNonAsciiChar
    rw [hNone, hFlushed]
    by_cases hMany : pasteBurstMinChars ≤ (notePlainChar
        ⟨last, count, window, [], false, none⟩ now).consecutivePlainCharBurst
    · have hDecision : onPlainCharNoHold ⟨last, count, window, [], false, none⟩ now =
          (_, some (.beginBuffer _)) := if_pos hMany
      simp only [hDecision]
      exact ordered_beginBuffer contract typed ch now _
    · have hDecision : onPlainCharNoHold ⟨last, count, window, [], false, none⟩ now =
          (_, none) := if_neg hMany
      simp only [hDecision]
      exact (Ordered.idle typed (some now) _ window).insertPlain contract ch

/-! ## Runs -/

variable {contract} {typing : Typing} {events : List KeyInput}

/-- Nothing is lost or moved by an event that is no Enter on a held character. -/
theorem Ordered.step (h : Ordered typing.composer typing.typed)
    (event : KeyInput) (hEvent : ¬ typing.EnterOnHeld contract event) :
    Ordered (typing.step contract event).composer (typing.step contract event).typed := by
  cases event with
  | tick now => exact (h.flush contract now).1
  | char ch now =>
    obtain ⟨hFlushed, hFresh⟩ := h.flush contract now
    show Ordered (handleChar contract _ ch now) _
    unfold handleChar
    split
    · exact hFlushed.handleAsciiChar contract hFresh ch
    · exact hFlushed.handleNonAsciiChar contract ch now
  | enter now =>
    have hFlushed := (h.flush contract now).1
    have hNone : ¬(typing.composer.handlePasteBurstFlush contract now).burst.pendingFirstChar ≠
        none := fun hHeld => hEvent ⟨now, rfl, hHeld⟩
    unfold Typing.step
    dsimp only
    revert hFlushed hNone
    generalize typing.composer.handlePasteBurstFlush contract now = composer
    generalize typing.typed = typed
    rintro (⟨_, last, count, window⟩ | _ | ⟨text, buffer, last, count, window⟩) hNone
    · exact .idle typed last count window
    · exact absurd (Option.some_ne_none _) hNone
    · have hBuffered := Ordered.bursting text (buffer ++ ['\n']) last count
        (some (now + pasteEnterSuppressWindow))
      rw [← append_assoc] at hBuffered
      exact hBuffered

/-- **No keystroke is lost or reordered**, at any point of any sequence of keys and ticks, unless some
Enter comes while a character is held back; and then the two are swapped when it comes. -/
theorem keystrokes_kept_unless_enter_on_held (contract : PasteContract) (events : List KeyInput) :
    (¬ SomeEnterOnHeld contract events →
      ∀ seen, seen <+: events →
        (run contract seen).composer.shown = (run contract seen).typed) ∧
    (SomeEnterOnHeld contract events →
      ∃ seen, seen <+: events ∧ ∃ text held,
        (run contract seen).composer.shown = text ++ ['\n', held] ∧
        (run contract seen).typed = text ++ [held, '\n']) := by
  let inv := fun typing : Typing => Ordered typing.composer typing.typed
  have hStart : inv start := .idle [] none 0 none
  have hStep : ∀ typing event, inv typing → ¬typing.EnterOnHeld contract event →
      inv (typing.step contract event) := fun _ event h hEvent => h.step event hEvent
  refine ⟨fun hNone seen hSeen => ?_, fun hSome => ?_⟩
  · exact (Runs.inv_of_not_meets inv hStart hStep fun h => hNone (h.of_isPrefix hSeen)).shown_eq
  obtain ⟨before, event, hPrefix, hOrdered, hHeld⟩ := Runs.Meets.first inv hStart hStep hSome
  refine ⟨before ++ [event], hPrefix, ?_⟩
  unfold run
  rw [foldl_append]
  -- the newline of an Enter on a held character gets in front of it
  obtain ⟨now, rfl, hNotNone⟩ := hHeld
  have hFlushed := (hOrdered.flush contract now).1
  rw [foldl_cons]
  generalize foldl (Typing.step contract) start before = typing at hFlushed hNotNone ⊢
  unfold Typing.step
  dsimp only
  revert hFlushed hNotNone
  generalize typing.composer.handlePasteBurstFlush contract now = composer
  generalize typing.typed = typed
  rintro (_ | ⟨text, held, heldAt, count, window⟩ | _) hNotNone
  · exact absurd rfl hNotNone
  · exact ⟨text, held, rfl, append_assoc text [held] ['\n']⟩
  · exact absurd rfl hNotNone

/-- The composer on a platform other than Windows. -/
def composerContract : PasteContract :=
  { activeIdleTimeout := millis 8, clearsAfterPaste := true }

/-- A paste of two lines, key by key, and the tick that flushes it. -/
def twoLines : List KeyInput :=
  [.char 'a' 0, .char 'b' (millis 1), .enter (millis 2), .char 'c' (millis 3), .tick (millis 20)]

theorem twoLines_kept :
    (run composerContract twoLines).composer.text = "ab\nc".toList := by
  have hNoEnter : ¬ SomeEnterOnHeld composerContract twoLines := by
    rintro ⟨before, event, after, hEvents, now, rfl, hHeld⟩
    match before with
    | [] | [_] | [_, _, _] | [_, _, _, _] | _ :: _ :: _ :: _ :: _ :: _ => simp [twoLines] at hEvents
    | [_, _] =>
      simp only [twoLines, cons_append, nil_append, List.cons.injEq] at hEvents
      obtain ⟨rfl, rfl, hEnter, -⟩ := hEvents
      cases hEnter
      exact hHeld (by decide)
  have hShown := (keystrokes_kept_unless_enter_on_held composerContract twoLines).1 hNoEnter
    twoLines prefix_rfl
  have hText : (run composerContract twoLines).composer.shown =
      (run composerContract twoLines).composer.text := by decide
  have hTyped : (run composerContract twoLines).typed = "ab\nc".toList := by decide
  rw [← hText, hShown, hTyped]

/-- Enter right after the first character, another character later: the first one is gone, for a
caller that clears the state after a paste and for one that does not. -/
theorem held_char_lost :
    let typing clearsAfterPaste := run { activeIdleTimeout := millis 8, clearsAfterPaste }
      [.char 'a' 0, .enter (millis 1), .char 'b' (millis 20), .tick (millis 40)]
    ((typing true).composer.shown = "\nb".toList ∧ (typing true).typed = "a\nb".toList) ∧
      (typing false).composer.shown = "\nb".toList ∧ (typing false).typed = "a\nb".toList := by
  decide

end Codex.Tui
