import Codex.Std.Utf8
import Codex.Output.HeadTailBuffer

/-!
# Codex — streamed output of a command

`process_chunk` in `core/src/unified_exec/async_watcher.rs`. What is received of a command goes to a
pending buffer, from which `split_valid_utf8_prefix` takes one piece after the other. Each piece is
pushed to the transcript, and the first ten thousand are sent as events.

The splitter returns nothing only for an empty buffer. So the loop of `process_chunk` never leaves
anything pending, and what a chunk has of an unfinished character goes out byte by byte.

* `split_spec`: what one split does.
* **Result.** `deltas_valid_iff`: the pieces are valid exactly when each chunk by itself is.
-/

namespace Codex.Output.DeltaStream

open List

def maxExecOutputDeltasPerCall : Nat := 10000

def unifiedExecOutputDeltaMaxBytes : Nat := 8192

/-- `from_utf8` accepts the bytes. -/
def Valid (bytes : Bytes) : Prop := (fromUtf8 bytes).isOk = true

instance : DecidablePred Valid := fun _ => inferInstanceAs (Decidable (_ = true))

/-- The loop of the splitter, which counts `split` down. -/
def splitLoop (buffer : Bytes) (maxLen : Nat) : Nat → Option Nat
  | 0 => none
  | split + 1 =>
    if Valid (buffer.take (split + 1)) then some (split + 1)
    else if 4 < maxLen - (split + 1) then none
    else splitLoop buffer maxLen split

/-- The piece and what stays in the buffer. -/
def splitValidUtf8PrefixWithMax (buffer : Bytes) (maxBytes : Nat) : Option (Bytes × Bytes) :=
  if buffer = [] then none
  else
    let maxLen := min buffer.length maxBytes
    -- without a valid prefix the first byte goes out
    let split := (splitLoop buffer maxLen maxLen).getD 1
    some (buffer.take split, buffer.drop split)

def splitValidUtf8Prefix (buffer : Bytes) : Option (Bytes × Bytes) :=
  splitValidUtf8PrefixWithMax buffer unifiedExecOutputDeltaMaxBytes

/-- The streaming task: the pieces pushed to the transcript, and the events sent. -/
structure Watcher where
  pending : Bytes
  transcript : List Bytes
  events : List Bytes

namespace Watcher

def new : Watcher := ⟨[], [], []⟩

/-- A piece was split off; `emitted_deltas` is the number of the events. -/
def emit (watcher : Watcher) (front pending : Bytes) : Watcher where
  pending
  transcript := watcher.transcript ++ [front]
  events :=
    if maxExecOutputDeltasPerCall ≤ watcher.events.length then watcher.events
    else watcher.events ++ [front]

/-- The loop of `process_chunk`; `fuel` bounds its rounds. -/
def drain : Nat → Watcher → Watcher
  | 0, watcher => watcher
  | fuel + 1, watcher =>
    match splitValidUtf8Prefix watcher.pending with
    | none => watcher
    | some (front, pending) => drain fuel (watcher.emit front pending)

def processChunk (watcher : Watcher) (chunk : Bytes) : Watcher :=
  let pending := watcher.pending ++ chunk
  drain pending.length { watcher with pending }

def ofChunks (chunks : List Bytes) : Watcher := chunks.foldl processChunk new

end Watcher

/-! ## One split -/

variable {buffer front rest : Bytes} (text : Text)

theorem valid_iff : Valid buffer ↔ ∃ text, buffer = asBytes text := by
  refine Iff.trans ?_ Utf8.utf8.exists_encodeAll_iff.symm
  unfold Valid fromUtf8
  cases h : (Utf8.utf8.decode buffer).2 <;> simp [h, Except.toBool]

theorem valid_asBytes : Valid (asBytes text) := valid_iff.mpr ⟨text, rfl⟩

theorem valid_append_iff (h : Valid front) : Valid (front ++ rest) ↔ Valid rest := by
  have hFront := Utf8.utf8.exists_encodeAll_iff.mp (valid_iff.mp h)
  refine valid_iff.trans (Utf8.utf8.exists_encodeAll_iff.trans ?_)
  rw [Utf8.utf8.decode_append, hFront]
  exact Utf8.utf8.exists_encodeAll_iff.symm.trans valid_iff.symm

theorem valid_flatten {pieces : List Bytes} (h : ∀ piece ∈ pieces, Valid piece) :
    Valid pieces.flatten := by
  induction pieces with
  | nil => decide
  | cons piece pieces ih =>
    rw [forall_mem_cons] at h
    exact (valid_append_iff h.1).mpr (ih h.2)

/-- The loop finds a valid prefix, or there is none that lacks at most four bytes. -/
theorem splitLoop_spec (buffer : Bytes) {maxLen n : Nat} (hn : n ≤ maxLen) :
    (∃ split, splitLoop buffer maxLen n = some split ∧ 0 < split ∧ split ≤ n ∧
      Valid (buffer.take split)) ∨
    (splitLoop buffer maxLen n = none ∧
      ∀ k, 0 < k → k ≤ n → maxLen ≤ k + 4 → ¬Valid (buffer.take k)) := by
  induction n with
  | zero => exact .inr ⟨rfl, by omega⟩
  | succ n ih =>
    unfold splitLoop
    split
    · next hValid => exact .inl ⟨n + 1, rfl, n.succ_pos, le_rfl, hValid⟩
    next hNot =>
    split
    · exact .inr ⟨rfl, fun k _ hk _ hValid => hNot (by rwa [show n + 1 = k by omega])⟩
    obtain ⟨split, hLoop, hPos, hLe, hValid⟩ | ⟨hLoop, hNone⟩ := ih (by omega)
    · exact .inl ⟨split, hLoop, hPos, by omega, hValid⟩
    · refine .inr ⟨hLoop, fun k hPos hk hNear hValid => ?_⟩
      obtain rfl | hk := hk.eq_or_lt
      · exact hNot hValid
      · exact hNone k hPos (by omega) hNear hValid

/-- Cut anywhere, a text has a character end at most three bytes before the cut. -/
theorem exists_valid_take {n : Nat} (hn : n ≤ (asBytes text).length) :
    ∃ k ≤ n, n ≤ k + 3 ∧ Valid ((asBytes text).take k) := by
  induction text generalizing n with
  | nil => exact ⟨0, n.zero_le, hn.trans (Nat.zero_le 3), by decide⟩
  | cons ch text ih =>
    have hFour : (Utf8.utf8.encode ch).length ≤ 4 :=
      String.length_utf8EncodeChar ch ▸ ch.utf8Size_le_four
    rw [asBytes, PrefixCode.Code.encodeAll_cons, length_append] at hn
    by_cases hChar : (Utf8.utf8.encode ch).length ≤ n
    · obtain ⟨k, hk, hNear, hValid⟩ := ih (n := n - (Utf8.utf8.encode ch).length) (by
        show _ ≤ (Utf8.utf8.encodeAll text).length
        omega)
      refine ⟨(Utf8.utf8.encode ch).length + k, by omega, by omega, ?_⟩
      rw [asBytes, PrefixCode.Code.encodeAll_cons, take_length_add_append]
      have hOne : Valid (Utf8.utf8.encode ch) := by simpa [asBytes] using valid_asBytes [ch]
      exact (valid_append_iff hOne).mpr hValid
    · exact ⟨0, n.zero_le, by omega, valid_asBytes []⟩

theorem split_spec (hNe : buffer ≠ []) :
    ∃ front rest, splitValidUtf8Prefix buffer = some (front, rest) ∧ front ++ rest = buffer ∧
      front ≠ [] ∧ front.length ≤ unifiedExecOutputDeltaMaxBytes ∧
      (Valid buffer → Valid front) := by
  have hPos := length_pos_of_ne_nil hNe
  obtain ⟨maxLen, hMax⟩ : ∃ maxLen, min buffer.length unifiedExecOutputDeltaMaxBytes = maxLen :=
    ⟨_, rfl⟩
  have hLimit : min buffer.length 8192 = maxLen := hMax
  obtain ⟨split, hSplit, hFront, hLe, hValid⟩ : ∃ split,
      splitValidUtf8Prefix buffer = some (buffer.take split, buffer.drop split) ∧ 0 < split ∧
        split ≤ maxLen ∧ (Valid buffer → Valid (buffer.take split)) := by
    unfold splitValidUtf8Prefix splitValidUtf8PrefixWithMax
    rw [if_neg hNe, hMax]
    dsimp only
    obtain ⟨split, hLoop, hFront, hLe, hValid⟩ | ⟨hLoop, hNone⟩ :=
      splitLoop_spec buffer (le_refl maxLen)
    · rw [hLoop]
      exact ⟨split, rfl, hFront, hLe, fun _ => hValid⟩
    rw [hLoop]
    refine ⟨1, rfl, Nat.one_pos, by omega, fun hValid => ?_⟩
    -- a character is shorter than the limit, so the loop meets its end
    obtain ⟨text, rfl⟩ := valid_iff.mp hValid
    obtain ⟨k, hk, hNear, hTake⟩ := exists_valid_take text (n := maxLen) (by omega)
    by_cases hZero : k = 0
    · have hWhole : maxLen = (asBytes text).length := by omega
      exact absurd (by rwa [hWhole, take_length]) (hNone maxLen (by omega) le_rfl (by omega))
    · exact absurd hTake (hNone k (by omega) hk (by omega))
  refine ⟨_, _, hSplit, take_append_drop _ _, fun hNil => ?_, ?_, hValid⟩
  · have hLength := congrArg length hNil
    rw [length_take, length_nil] at hLength
    omega
  · exact (length_take_le _ _).trans (hLe.trans (hMax ▸ min_le_right _ _))

/-! ## All of a stream -/

namespace Watcher

variable {good : Prop} {received : Bytes} {watcher : Watcher}

/-- After the bytes `received`; `good` says that no chunk ends inside a character. -/
structure Sound (good : Prop) (received : Bytes) (watcher : Watcher) : Prop where
  joined : watcher.transcript.flatten ++ watcher.pending = received
  sizes : ∀ piece ∈ watcher.transcript, piece.length ≤ unifiedExecOutputDeltaMaxBytes
  events : watcher.events = watcher.transcript.take maxExecOutputDeltasPerCall
  valid : good → (∀ piece ∈ watcher.transcript, Valid piece) ∧ Valid watcher.pending

theorem Sound.emit (h : Sound good received watcher) (hJoin : front ++ rest = watcher.pending)
    (hSize : front.length ≤ unifiedExecOutputDeltaMaxBytes)
    (hValid : Valid watcher.pending → Valid front) :
    Sound good received (watcher.emit front rest) where
  joined := by
    rw [← h.joined, ← hJoin]
    simp [Watcher.emit]
  sizes := forall_mem_append.mpr ⟨h.sizes, forall_mem_singleton.mpr hSize⟩
  events := by
    -- an event is sent as long as all pieces before were
    unfold Watcher.emit
    rw [h.events, length_take]
    split
    · exact (take_append_of_le_length (by omega)).symm
    · next hFew =>
      rw [take_of_length_le (by omega), take_of_length_le (by simp; omega)]
  valid hGood := by
    obtain ⟨hPieces, hPending⟩ := h.valid hGood
    have hHead := hValid hPending
    rw [← hJoin, valid_append_iff hHead] at hPending
    exact ⟨forall_mem_append.mpr ⟨hPieces, forall_mem_singleton.mpr hHead⟩, hPending⟩

/-- The loop ends with nothing pending. -/
theorem Sound.drain (h : Sound good received watcher) {fuel : Nat}
    (hFuel : watcher.pending.length ≤ fuel) :
    Sound good received (watcher.drain fuel) ∧ (watcher.drain fuel).pending = [] ∧
      watcher.transcript <+: (watcher.drain fuel).transcript := by
  induction fuel generalizing watcher with
  | zero => exact ⟨h, length_eq_zero_iff.mp (Nat.le_zero.mp hFuel), prefix_refl _⟩
  | succ fuel ih =>
    unfold Watcher.drain
    by_cases hNil : watcher.pending = []
    · rw [hNil]
      exact ⟨h, hNil, prefix_refl _⟩
    obtain ⟨front, rest, hSplit, hJoin, hFront, hSize, hValid⟩ := split_spec hNil
    have hShort : rest.length ≤ fuel := by
      have hLength := congrArg length hJoin
      have hPos := length_pos_of_ne_nil hFront
      rw [length_append] at hLength
      omega
    rw [hSplit]
    obtain ⟨hSound, hPending, hPrefix⟩ := ih (h.emit hJoin hSize hValid) hShort
    exact ⟨hSound, hPending, (prefix_append _ _).trans hPrefix⟩

theorem sound_ofChunks (chunks : List Bytes) :
    Sound (∀ chunk ∈ chunks, Valid chunk) chunks.flatten (ofChunks chunks) ∧
      (ofChunks chunks).pending = [] ∧
      ((∀ piece ∈ (ofChunks chunks).transcript, Valid piece) → ∀ chunk ∈ chunks, Valid chunk) := by
  induction chunks using reverseRecOn with
  | nil =>
    exact ⟨⟨rfl, forall_mem_nil _, rfl, fun _ => ⟨forall_mem_nil _, by decide⟩⟩, rfl, by simp⟩
  | append_singleton chunks chunk ih =>
    obtain ⟨hSound, hPending, hValid⟩ := ih
    have hChunk : Sound (∀ c ∈ chunks ++ [chunk], Valid c) (chunks ++ [chunk]).flatten
        { ofChunks chunks with pending := (ofChunks chunks).pending ++ chunk } := by
      refine ⟨?_, hSound.sizes, hSound.events, fun hAll => ?_⟩
      · rw [flatten_append, ← hSound.joined]
        simp
      · rw [forall_mem_append, forall_mem_singleton] at hAll
        exact ⟨(hSound.valid hAll.1).1, by rw [hPending]; exact hAll.2⟩
    obtain ⟨hSound', hPending', hPrefix⟩ := hChunk.drain le_rfl
    have hStep : ofChunks (chunks ++ [chunk]) = (ofChunks chunks).processChunk chunk := by
      simp [ofChunks]
    rw [hStep]
    refine ⟨hSound', hPending', fun hPieces => ?_⟩
    have hBefore := hValid fun piece hMem => hPieces piece (hPrefix.subset hMem)
    refine forall_mem_append.mpr ⟨hBefore, forall_mem_singleton.mpr ?_⟩
    -- all received is valid, and so is all received before the chunk
    have hAll := valid_flatten hPieces
    have hJoined := hSound'.joined
    rw [hPending', append_nil, flatten_append, flatten_singleton] at hJoined
    unfold processChunk at hAll
    rwa [hJoined, valid_append_iff (valid_flatten hBefore)] at hAll

/-- The pieces are valid, not too long, and with what is pending make up what was received. -/
def Emits (pieces : List Bytes) (pending received : Bytes) : Prop :=
  (∀ piece ∈ pieces, Valid piece ∧ piece.length ≤ unifiedExecOutputDeltaMaxBytes) ∧
    pieces.flatten ++ pending = received

/-- **Output is cut at characters exactly when it arrives so.** -/
theorem deltas_valid_iff (chunks : List Bytes) :
    let watcher := ofChunks chunks
    (Emits watcher.transcript watcher.pending chunks.flatten ↔ ∀ chunk ∈ chunks, Valid chunk) ∧
      watcher.events = watcher.transcript.take maxExecOutputDeltasPerCall := by
  obtain ⟨hSound, -, hValid⟩ := sound_ofChunks chunks
  refine ⟨⟨fun h => hValid fun piece hMem => (h.1 piece hMem).1, fun h => ?_⟩, hSound.events⟩
  exact ⟨fun piece hMem => ⟨(hSound.valid h).1 piece hMem, hSound.sizes piece hMem⟩, hSound.joined⟩

/-- An `é` that arrives in two chunks goes out in two pieces, of which neither is valid. -/
theorem split_character_emitted :
    Valid [0xC3, 0xA9] ∧ (ofChunks [[0xC3], [0xA9]]).events = [[0xC3], [0xA9]] ∧
      ¬Valid [0xC3] ∧ ¬Valid [0xA9] := by
  decide

end Watcher

end Codex.Output.DeltaStream
