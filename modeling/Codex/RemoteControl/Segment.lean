import Codex.RemoteControl.Protocol
import Codex.Std.Base64
import Codex.Std.Result

/-!
# Codex — splitting server envelopes

`split_server_envelope_for_transport` in `remote_control/segment.rs`. A message that is too
long for one envelope is cut into chunks of equal size. The chunk size is searched for:
fewer chunks are tried first, and the count and the size are worked out from each other in
each round, until every chunk fits into an envelope.

JSON and base64 are a parameter (`Codec`); what is used of them is stated where it is used.
The loop is total: each round has a smaller chunk size (`chunkSizeFor_nextCount_lt`).
`Segmented` says what the chunks are, and `split_cases` when there are any.
-/

namespace Codex.RemoteControl

open List

def segmentTargetBytes : Nat := 100 * 1024
def segmentMaxBytes : Nat := 150 * 1024
def reassembledMaxBytes : Nat := 100 * 1024 * 1024
def segmentCountMax : Nat := 1024

inductive IoError where
  | other
  | invalidData (message : String)
  deriving DecidableEq, Repr

/-- `serde_json` and the standard engine of `base64`, at the types they are used at. The length
of a serialized envelope is what `CountingWriter` counts. -/
structure Codec (Msg Rpc : Type) where
  toVec : Msg → Except IoError (List UInt8)
  fromSlice : List UInt8 → Option Rpc
  serializedLen : ServerEnvelope Msg → Except IoError Nat
  encode : List UInt8 → Text
  decode : Text → Option (List UInt8)
  decodedLenEstimate : Nat → Nat

/-- What the documentation of `base64` says about it. -/
structure Codec.Lawful {Msg Rpc : Type} (codec : Codec Msg Rpc) : Prop where
  decode_encode : ∀ raw, codec.decode (codec.encode raw) = some raw
  encode_ne : ∀ raw, raw ≠ [] → codec.encode raw ≠ []
  estimate : ∀ text decoded, codec.decode text = some decoded →
    decoded.length ≤ codec.decodedLenEstimate text.length

/-! The length of JSON as `serde_json` writes it, for ASCII strings that need no escapes. An object
is as long as its fields, each with a comma, and one brace more. -/

def fieldLen (name : String) (valueLen : Nat) : Nat := name.toList.length + valueLen + 4
def stringLen (value : String) : Nat := value.toList.length + 2
def numberLen (value : Nat) : Nat := (Nat.toDigits 10 value).length

/-- Messages stand for their JSON texts here. -/
def ServerEvent.fieldsLen : ServerEvent (List UInt8) → Nat
  | .serverMessage message =>
    fieldLen "type" (stringLen "server_message") + fieldLen "message" message.length
  | .serverMessageChunk segmentId segmentCount messageSizeBytes messageChunkBase64 =>
    fieldLen "type" (stringLen "server_message_chunk") + fieldLen "segment_id" (numberLen segmentId)
      + fieldLen "segment_count" (numberLen segmentCount)
      + fieldLen "message_size_bytes" (numberLen messageSizeBytes)
      + fieldLen "message_chunk_base64" (messageChunkBase64.length + 2)
  | .ack => fieldLen "type" (stringLen "ack")
  | .pong .active => fieldLen "type" (stringLen "pong") + fieldLen "status" (stringLen "active")
  | .pong .unknown => fieldLen "type" (stringLen "pong") + fieldLen "status" (stringLen "unknown")

def jsonCodec : Codec (List UInt8) (List UInt8) where
  toVec message := .ok message
  fromSlice raw := some raw
  serializedLen envelope :=
    .ok (envelope.event.fieldsLen + fieldLen "client_id" (stringLen envelope.clientId.id)
      + fieldLen "stream_id" (stringLen envelope.streamId.id)
      + fieldLen "seq_id" (numberLen envelope.seqId) + 1)
  encode := Base64.encode
  decode := Base64.decode
  decodedLenEstimate := Base64.decodedLenEstimate

theorem jsonCodec_lawful : jsonCodec.Lawful :=
  ⟨Base64.decode_encode, Base64.encode_ne_nil, Base64.length_decode_le⟩

/-- `usize::div_ceil`. -/
def divCeil (n k : Nat) : Nat := (n + k - 1) / k

/-- `slice::chunks`. -/
def chunks (size : Nat) (raw : List UInt8) : List (List UInt8) :=
  (List.range (divCeil raw.length size)).map fun i => (raw.drop (i * size)).take size

variable {Msg Rpc : Type} (codec : Codec Msg Rpc) {segmentCount : Nat}

def buildChunkEnvelope (envelope : ServerEnvelope Msg)
    (segmentId segmentCount messageSizeBytes : Nat) (chunk : List UInt8) :
    Except IoError (ServerEnvelope Msg) :=
  if segmentCount > segmentCountMax then
    .error (.invalidData "remote-control segment count exceeds maximum")
  else
    .ok
      { event :=
          .serverMessageChunk segmentId segmentCount messageSizeBytes (codec.encode chunk)
        clientId := envelope.clientId
        streamId := envelope.streamId
        seqId := envelope.seqId }

def serializedChunkLen (envelope : ServerEnvelope Msg)
    (segmentId segmentCount messageSizeBytes : Nat) (chunk : List UInt8) : Except IoError Nat := do
  codec.serializedLen
    (← buildChunkEnvelope codec envelope segmentId segmentCount messageSizeBytes chunk)

/-- The chunk size of a round. -/
def chunkSizeFor (messageSizeBytes segmentCount : Nat) : Nat :=
  max 1 (divCeil messageSizeBytes segmentCount)

/-- The test of one chunk: an error counts as not fitting. -/
def segmentFits (envelope : ServerEnvelope Msg) (segmentCount messageSizeBytes : Nat)
    (chunk : Nat × List UInt8) : Bool :=
  match serializedChunkLen codec envelope chunk.1 segmentCount messageSizeBytes chunk.2 with
  | .ok size => size ≤ segmentMaxBytes
  | .error _ => false

/-- `chunks(chunk_size).enumerate()`. -/
def enumeratedChunks (size : Nat) (raw : List UInt8) : List (Nat × List UInt8) :=
  (chunks size raw).mapIdx fun i chunk => (i, chunk)

/-- The count the next round starts from. -/
def nextCount (messageSizeBytes chunkSize segmentCount : Nat) : Nat :=
  if chunkSizeFor messageSizeBytes (segmentCount + 1) = chunkSize then messageSizeBytes
  else segmentCount + 1

theorem divCeil_le_iff {n k m : Nat} (hk : 0 < k) : divCeil n k ≤ m ↔ n ≤ k * m := by
  unfold divCeil
  rw [Nat.div_le_iff_le_mul_add_pred hk]
  omega

theorem le_mul_divCeil {n k : Nat} (hk : 0 < k) : n ≤ k * divCeil n k :=
  (divCeil_le_iff hk).mp (Nat.le_refl _)

/-- Each round of the search has smaller chunks. -/
theorem chunkSizeFor_nextCount_lt {n : Nat} (hOne : chunkSizeFor n segmentCount ≠ 1) :
    chunkSizeFor n (nextCount n (chunkSizeFor n segmentCount)
      (divCeil n (chunkSizeFor n segmentCount))) < chunkSizeFor n segmentCount := by
  generalize hSize : chunkSizeFor n segmentCount = size at hOne ⊢
  have hPos : 0 < size := by
    rw [← hSize]
    unfold chunkSizeFor
    omega
  unfold nextCount
  split
  · -- the jump: one byte in each chunk
    have hOneEach : divCeil n n ≤ 1 := by
      by_cases hn : n = 0
      · subst hn
        decide
      · exact (divCeil_le_iff (by omega)).mpr (by omega)
    have : chunkSizeFor n n = 1 := by
      unfold chunkSizeFor
      omega
    omega
  · rename_i hNext
    -- one more chunk than `size` calls for cannot need a larger size
    have hLe : divCeil n (divCeil n size + 1) ≤ size := by
      refine (divCeil_le_iff (by omega)).mpr ?_
      calc n ≤ size * divCeil n size := le_mul_divCeil hPos
        _ = divCeil n size * size := Nat.mul_comm _ _
        _ ≤ (divCeil n size + 1) * size := Nat.mul_le_mul_right _ (by omega)
    have hLe' : chunkSizeFor n (divCeil n size + 1) ≤ size := by
      unfold chunkSizeFor
      omega
    omega

/-- The loop of the search, from the count a round starts with. -/
def splitLoop (envelope : ServerEnvelope Msg) (raw : List UInt8) (segmentCount : Nat) :
    Except IoError (List (ServerEnvelope Msg)) :=
  let messageSizeBytes := raw.length
  let chunkSize := chunkSizeFor messageSizeBytes segmentCount
  let count := divCeil messageSizeBytes chunkSize
  if (enumeratedChunks chunkSize raw).all (segmentFits codec envelope count messageSizeBytes) then
    (enumeratedChunks chunkSize raw).mapM fun chunk =>
      buildChunkEnvelope codec envelope chunk.1 count messageSizeBytes chunk.2
  else if _hOne : chunkSize = 1 then .ok []
  else splitLoop envelope raw (nextCount messageSizeBytes chunkSize count)
termination_by chunkSizeFor raw.length segmentCount
decreasing_by exact chunkSizeFor_nextCount_lt _hOne

def splitServerEnvelopeForTransport (envelope : ServerEnvelope Msg) :
    Except IoError (List (ServerEnvelope Msg)) :=
  match envelope.event with
  | .serverMessage message => do
    let envelopeSizeBytes ← codec.serializedLen envelope
    if envelopeSizeBytes ≤ segmentMaxBytes then return [envelope]
    let raw ← codec.toVec message
    let messageSizeBytes := raw.length
    if messageSizeBytes > reassembledMaxBytes then return []
    -- the smallest chunk has to fit, with the longest count that may stand in it
    let minimalSegmentCount := min (max messageSizeBytes 1) segmentCountMax
    let minimalChunk := raw.take (min raw.length 1)
    let minimalLen ←
      serializedChunkLen codec envelope 0 minimalSegmentCount messageSizeBytes minimalChunk
    if minimalLen > segmentMaxBytes then return []
    splitLoop codec envelope raw (max 2 (divCeil messageSizeBytes segmentTargetBytes))
  | _ => .ok [envelope]

/-! ## Chunks -/

theorem flatten_windows (size k : Nat) (raw : List UInt8) :
    ((List.range k).map fun i => (raw.drop (i * size)).take size).flatten =
      raw.take (k * size) := by
  induction k with
  | zero => simp
  | succ k ih =>
    rw [range_succ, map_append, flatten_append, ih, map_singleton,
      flatten_singleton, Nat.succ_mul, take_add]

theorem flatten_chunks {size : Nat} (hSize : 0 < size) (raw : List UInt8) :
    (chunks size raw).flatten = raw := by
  unfold chunks
  rw [flatten_windows, take_of_length_le]
  rw [Nat.mul_comm]
  exact le_mul_divCeil hSize

@[simp] theorem length_chunks (size : Nat) (raw : List UInt8) :
    (chunks size raw).length = divCeil raw.length size := by
  simp [chunks]

theorem ne_nil_of_mem_chunks {size : Nat} (hSize : 0 < size) {raw chunk : List UInt8}
    (hMem : chunk ∈ chunks size raw) : chunk ≠ [] := by
  obtain ⟨i, hi, rfl⟩ := mem_map.mp hMem
  rw [mem_range] at hi
  -- the last chunk starts before the end
  have hStart : i * size < raw.length := by
    by_contra hEnd
    have hLe : divCeil raw.length size ≤ i :=
      (divCeil_le_iff hSize).mpr (by rw [Nat.mul_comm]; omega)
    omega
  rw [← length_pos_iff, length_take, length_drop]
  omega

/-! ## What comes out -/

/-- The envelope of one chunk. -/
def chunkEnvelope (envelope : ServerEnvelope Msg) (segmentCount messageSizeBytes segmentId : Nat)
    (chunk : List UInt8) : ServerEnvelope Msg where
  event := .serverMessageChunk segmentId segmentCount messageSizeBytes (codec.encode chunk)
  clientId := envelope.clientId
  streamId := envelope.streamId
  seqId := envelope.seqId

/-- `parts` are the payloads in envelopes, numbered from 0. -/
structure Segmented (envelope : ServerEnvelope Msg) (raw : List UInt8)
    (payloads : List (List UInt8)) (parts : List (ServerEnvelope Msg)) : Prop where
  parts_eq : parts = payloads.mapIdx (chunkEnvelope codec envelope payloads.length raw.length)
  flatten_eq : payloads.flatten = raw
  payload_ne : ∀ payload ∈ payloads, payload ≠ []
  some_payload : payloads ≠ []
  count_le : payloads.length ≤ segmentCountMax
  fits : ∀ part ∈ parts, ∃ size, codec.serializedLen part = .ok size ∧ size ≤ segmentMaxBytes

theorem buildChunkEnvelope_eq_ok {envelope part : ServerEnvelope Msg} {i count size : Nat}
    {chunk : List UInt8} (h : buildChunkEnvelope codec envelope i count size chunk = .ok part) :
    count ≤ segmentCountMax ∧ part = chunkEnvelope codec envelope count size i chunk := by
  unfold buildChunkEnvelope at h
  by_cases hCount : count > segmentCountMax
  · rw [if_pos hCount] at h
    cases h
  · rw [if_neg hCount] at h
    cases h
    exact ⟨by omega, rfl⟩

variable {envelope : ServerEnvelope Msg} {raw : List UInt8} {parts : List (ServerEnvelope Msg)}
variable {size count : Nat}

/-- Chunks that fit are handed out in envelopes that were measured. -/
theorem segmented_of_fits (hSize : 0 < size) (hNe : chunks size raw ≠ [])
    (hFits : (enumeratedChunks size raw).all
      (segmentFits codec envelope (divCeil raw.length size) raw.length) = true)
    (h : (enumeratedChunks size raw).mapM (fun chunk => buildChunkEnvelope codec envelope chunk.1
      (divCeil raw.length size) raw.length chunk.2) = .ok parts) :
    Segmented codec envelope raw (chunks size raw) parts := by
  obtain ⟨hBuilt, hParts⟩ := mapM_ok_cases
    (g := fun chunk : Nat × List UInt8 =>
      chunkEnvelope codec envelope (divCeil raw.length size) raw.length chunk.1 chunk.2)
    (fun _ _ hOk => (buildChunkEnvelope_eq_ok codec hOk).2) h
  refine
    { parts_eq := ?_
      flatten_eq := flatten_chunks hSize raw
      payload_ne := fun _ => ne_nil_of_mem_chunks hSize
      some_payload := hNe
      count_le := ?_
      fits := ?_ }
  · rw [hParts, length_chunks]
    unfold enumeratedChunks
    refine ext_getElem? fun i => ?_
    rw [List.getElem?_map, List.getElem?_mapIdx, List.getElem?_mapIdx, Option.map_map]
    rfl
  · -- the first envelope could not be built with a greater count
    obtain ⟨chunk, rest, hChunks⟩ := exists_cons_of_ne_nil hNe
    have hFirst : (0, chunk) ∈ enumeratedChunks size raw := by
      unfold enumeratedChunks
      rw [hChunks, mapIdx_cons]
      exact mem_cons_self
    rw [length_chunks]
    exact (buildChunkEnvelope_eq_ok codec (hBuilt _ hFirst)).1
  · intro part hPart
    rw [hParts] at hPart
    obtain ⟨chunk, hChunk, rfl⟩ := mem_map.mp hPart
    have hFit := all_eq_true.mp hFits chunk hChunk
    have hLen : serializedChunkLen codec envelope chunk.1 (divCeil raw.length size) raw.length
        chunk.2 = codec.serializedLen (chunkEnvelope codec envelope (divCeil raw.length size)
          raw.length chunk.1 chunk.2) := by
      unfold serializedChunkLen
      rw [hBuilt chunk hChunk]
      rfl
    unfold segmentFits at hFit
    rw [hLen] at hFit
    cases hSer : codec.serializedLen (chunkEnvelope codec envelope (divCeil raw.length size)
        raw.length chunk.1 chunk.2) with
    | error e =>
      rw [hSer] at hFit
      cases hFit
    | ok len =>
      rw [hSer] at hFit
      exact ⟨len, rfl, of_decide_eq_true hFit⟩

theorem splitLoop_cases (h : splitLoop codec envelope raw segmentCount = .ok parts) :
    parts = [] ∨ ∃ payloads, Segmented codec envelope raw payloads parts := by
  fun_induction splitLoop codec envelope raw segmentCount with
  | case1 segmentCount messageSizeBytes chunkSize count hFits =>
    by_cases hNil : chunks chunkSize raw = []
    · left
      unfold enumeratedChunks at h
      rw [hNil] at h
      cases h
      rfl
    · have hPos : 0 < chunkSize := Nat.lt_of_lt_of_le Nat.one_pos (Nat.le_max_left _ _)
      exact .inr ⟨_, segmented_of_fits codec hPos hNil hFits h⟩
  | case2 segmentCount messageSizeBytes chunkSize count hFits hOne =>
    cases h
    exact .inl rfl
  | case3 segmentCount messageSizeBytes chunkSize count hFits hOne ih => exact ih h

/-- **Splitting.** An envelope is passed on as it is, or dropped, or its message is cut into
chunks that fit. -/
theorem split_cases (h : splitServerEnvelopeForTransport codec envelope = .ok parts) :
    parts = [envelope] ∨ parts = [] ∨
      ∃ message raw payloads, envelope.event = .serverMessage message ∧
        codec.toVec message = .ok raw ∧ raw.length ≤ reassembledMaxBytes ∧
        Segmented codec envelope raw payloads parts := by
  unfold splitServerEnvelopeForTransport at h
  cases hEvent : envelope.event with
  | serverMessage message =>
    rw [hEvent] at h
    dsimp only at h
    obtain ⟨len, -, h⟩ := exists_ok_of_bind h
    split at h
    · cases h
      exact .inl rfl
    obtain ⟨raw, hRaw, h⟩ := exists_ok_of_bind h
    split at h
    · cases h
      exact .inr (.inl rfl)
    rename_i hMax
    obtain ⟨minimalLen, -, h⟩ := exists_ok_of_bind h
    split at h
    · cases h
      exact .inr (.inl rfl)
    · rcases splitLoop_cases codec h with hNil | ⟨payloads, hSegmented⟩
      · exact .inr (.inl hNil)
      · exact .inr (.inr ⟨message, raw, payloads, rfl, hRaw, by omega, hSegmented⟩)
  | _ =>
    rw [hEvent] at h
    cases h
    exact .inl rfl

end Codex.RemoteControl
