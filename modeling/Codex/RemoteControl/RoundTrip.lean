import Codex.RemoteControl.Reassembly

/-!
# Codex — a message there and back

What `split_server_envelope_for_transport` cuts into chunks, `ClientSegmentReassembler` puts
together again. The chunks come back from a client, with a stream and a sequence number of its
own choice.

JSON is assumed to read back what it wrote: `asRpc` is a message of the server as clients read
it. `split_reassembles` says what the chunks are and that they are forwarded as one message,
in any state without an assembly of the client on that stream.
-/

namespace Codex.RemoteControl

open List

variable {Msg Rpc : Type} {codec : Codec Msg Rpc}

/-- The client sends the fields of a chunk that the server put out. -/
structure Carries (clientId : ClientId) (streamId : StreamId) (seqId : Nat)
    (part : ServerEnvelope Msg) (envelope : ClientEnvelope Rpc) : Prop where
  event : ∃ segmentId segmentCount messageSizeBytes text,
    part.event = .serverMessageChunk segmentId segmentCount messageSizeBytes text ∧
      envelope.event = .clientMessageChunk segmentId segmentCount messageSizeBytes text
  clientId : envelope.clientId = clientId
  streamId : envelope.streamId = some streamId
  seqId : envelope.seqId = some seqId

namespace Segmented

variable {envelope : ServerEnvelope Msg} {raw : List UInt8} {payloads : List (List UInt8)}
variable {parts : List (ServerEnvelope Msg)}

section

variable (h : Segmented codec envelope raw payloads parts)
include h

theorem length_parts : parts.length = payloads.length := by
  rw [h.parts_eq, length_mapIdx]

theorem getElem?_parts (i : Nat) : parts[i]? =
      payloads[i]?.map (chunkEnvelope codec envelope payloads.length raw.length i) := by
  rw [h.parts_eq, List.getElem?_mapIdx]

theorem raw_pos : 0 < raw.length := by
  obtain ⟨payload, rest, hPayloads⟩ := exists_cons_of_ne_nil h.some_payload
  have hNe := h.payload_ne payload (by rw [hPayloads]; exact mem_cons_self)
  rw [← h.flatten_eq, hPayloads, flatten_cons, length_append]
  have := length_pos_iff.mpr hNe
  omega

end

/-- The chunks as a client sends them. -/
def transfer (h : Segmented codec envelope raw payloads parts) (hLawful : codec.Lawful)
    (hMax : raw.length ≤ reassembledMaxBytes) {message : Rpc}
    (hParses : codec.fromSlice raw = some message) (clientId : ClientId) (streamId : StreamId)
    (seqId : Nat) : Transfer codec where
  clientId := clientId
  streamId := streamId
  seqId := seqId
  texts := payloads.map codec.encode
  payloads := payloads
  message := message
  decodes := by
    rw [forall₂_map_left_iff, forall₂_same]
    exact fun payload _ => hLawful.decode_encode payload
  text_ne := by
    intro text hText
    obtain ⟨payload, hPayload, rfl⟩ := mem_map.mp hText
    exact hLawful.encode_ne payload (h.payload_ne payload hPayload)
  some_text := by
    intro hNil
    exact h.some_payload (map_eq_nil_iff.mp hNil)
  count_le := by
    rw [length_map]
    exact h.count_le
  size_pos := by
    rw [h.flatten_eq]
    exact h.raw_pos
  size_le := by
    rw [h.flatten_eq]
    exact hMax
  parses := by
    rw [h.flatten_eq]
    exact hParses

end Segmented

/-- `parts` are chunks 0, 1, … of the serialized message. -/
structure NumberedChunks (codec : Codec Msg Rpc) (envelope : ServerEnvelope Msg) (raw : List UInt8)
    (parts : List (ServerEnvelope Msg)) : Prop where
  count_le : parts.length ≤ segmentCountMax
  fits : ∀ part ∈ parts, ∃ size, codec.serializedLen part = .ok size ∧ size ≤ segmentMaxBytes
  decoded : ∃ payloads : List (List UInt8), payloads.length = parts.length ∧
    payloads.flatten = raw ∧
    ∀ (i : Nat) (part : ServerEnvelope Msg), parts[i]? = some part → ∃ text payload,
      part =
        { event := .serverMessageChunk i parts.length raw.length text
          clientId := envelope.clientId
          streamId := envelope.streamId
          seqId := envelope.seqId } ∧
      codec.decode text = some payload ∧ payloads[i]? = some payload

theorem Segmented.numbered {envelope : ServerEnvelope Msg} {raw : List UInt8}
    {payloads : List (List UInt8)} {parts : List (ServerEnvelope Msg)}
    (h : Segmented codec envelope raw payloads parts) (hLawful : codec.Lawful) :
    NumberedChunks codec envelope raw parts where
  count_le := by
    rw [h.length_parts]
    exact h.count_le
  fits := h.fits
  decoded := by
    refine ⟨payloads, h.length_parts.symm, h.flatten_eq, ?_⟩
    intro i part hPart
    rw [h.getElem?_parts] at hPart
    obtain ⟨payload, hPayload, rfl⟩ := Option.map_eq_some_iff.mp hPart
    refine ⟨codec.encode payload, payload, ?_, hLawful.decode_encode payload, hPayload⟩
    rw [h.length_parts]
    rfl

/-- **Round trip.** The chunks of a message are numbered from 0, fit, and hold the serialized
message. Sent by a client in order, with repetitions, among the envelopes of fewer than 128 other
clients, they are forwarded once, when the last one comes, as the message they are of. -/
theorem split_reassembles (hLawful : codec.Lawful) (asRpc : Msg → Rpc)
    (hJson : ∀ message raw, codec.toVec message = .ok raw →
      codec.fromSlice raw = some (asRpc message))
    (envelope : ServerEnvelope Msg) (message : Msg) (parts : List (ServerEnvelope Msg))
    (hEvent : envelope.event = .serverMessage message)
    (hSplit : splitServerEnvelopeForTransport codec envelope = .ok parts)
    (hChunks : ∃ part ∈ parts, part.event.segmentId.isSome) :
    (∃ raw, codec.toVec message = .ok raw ∧ NumberedChunks codec envelope raw parts) ∧
    ∀ (clientId : ClientId) (streamId : StreamId) (seqId : Nat) (order : AssemblyOrder)
      (assemblies : Assemblies) (others : List ClientId) (deliveries : List (Delivery Rpc)),
      others.length < 128 →
      (∀ key ∈ assemblies, key = clientId ∨ key ∈ others) →
      (∀ delivery ∈ deliveries, delivery.envelope.clientId = clientId ∨
        delivery.envelope.clientId ∈ others) →
      (∀ assembly, assemblies.lookup clientId = some assembly → assembly.streamId ≠ streamId) →
      Schedule clientId parts.length
        (fun i sent => ∃ part, parts[i]? = some part ∧ Carries clientId streamId seqId part sent)
        True 0 deliveries →
      ForwardsOnce clientId (asRpc message) deliveries
        (observeAll codec order assemblies deliveries).1 := by
  obtain ⟨part, hPart, hSegment⟩ := hChunks
  rcases split_cases codec hSplit with rfl | rfl | ⟨message', raw, payloads, hEvent', hRaw, hMax, h⟩
  · -- the envelope itself is no chunk
    rw [mem_singleton.mp hPart, hEvent] at hSegment
    cases hSegment
  · exact absurd hPart not_mem_nil
  · obtain rfl := ServerEvent.serverMessage.inj (hEvent.symm.trans hEvent')
    refine ⟨⟨raw, hRaw, h.numbered hLawful⟩, ?_⟩
    intro clientId streamId seqId order assemblies others deliveries hFew hKeys hSenders hFree
      hSchedule
    have hParses := hJson message raw hRaw
    let t := h.transfer hLawful hMax hParses clientId streamId seqId
    have hCount : parts.length = t.count := by
      rw [h.length_parts]
      exact (length_map _).symm
    rw [hCount] at hSchedule
    have hOwn : Schedule t.clientId t.count t.IsChunk True 0 deliveries := by
      refine hSchedule.mono ?_
      intro i sent ⟨part, hPart, hCarries⟩
      rw [h.getElem?_parts] at hPart
      obtain ⟨payload, hPayload, rfl⟩ := Option.map_eq_some_iff.mp hPart
      obtain ⟨segmentId, segmentCount, size, text, hEvent, hSent⟩ := hCarries.event
      obtain ⟨rfl, rfl, rfl, rfl⟩ := ServerEvent.serverMessageChunk.inj hEvent
      refine ⟨⟨codec.encode payload, ?_, ?_⟩, hCarries.clientId, hCarries.streamId, hCarries.seqId⟩
      · show (payloads.map codec.encode)[i]? = _
        rw [List.getElem?_map, hPayload, Option.map_some]
      · show sent.event = .clientMessageChunk i (payloads.map codec.encode).length
          payloads.flatten.length (codec.encode payload)
        rw [hSent, length_map, h.flatten_eq]
    have hRoom : NoEviction codec order assemblies deliveries := by
      refine noEviction_of_few codec (clientId :: others) hFew order ?_ ?_
      · exact fun key hKey => mem_cons.mpr (hKeys key hKey)
      · exact fun delivery hDelivery => mem_cons.mpr (hSenders delivery hDelivery)
    have hProgress : t.Progress 0 assemblies := by
      exact hFree
    exact Transfer.forwards_once hLawful hOwn hProgress hRoom

/-- An envelope for a client. -/
def toClient (event : ServerEvent (List UInt8)) : ServerEnvelope (List UInt8) where
  event := event
  clientId := ⟨"client"⟩
  streamId := ⟨"stream"⟩
  seqId := 1

/-- The two halves of a message of 200000 bytes. -/
def longParts (message : List UInt8) : List (ServerEnvelope (List UInt8)) :=
  [toClient (.serverMessageChunk 0 2 200000 (Base64.encode (message.take 100000))),
    toClient (.serverMessageChunk 1 2 200000 (Base64.encode (message.drop 100000)))]

theorem serializedLen_message (message : List UInt8) :
    jsonCodec.serializedLen (toClient (.serverMessage message)) = .ok (message.length + 89) := by
  have hSeqId : numberLen 1 = 1 := rfl
  simp only [jsonCodec, toClient, ServerEvent.fieldsLen, fieldLen, stringLen, hSeqId]
  simp
  omega

theorem serializedChunkLen_toClient {segmentCount : Nat} (hCount : segmentCount ≤ segmentCountMax)
    (event : ServerEvent (List UInt8)) (segmentId messageSizeBytes : Nat) (chunk : List UInt8) :
    serializedChunkLen jsonCodec (toClient event) segmentId segmentCount messageSizeBytes chunk =
      .ok (4 * ((chunk.length + 2) / 3) + numberLen segmentId + numberLen segmentCount +
        numberLen messageSizeBytes + 163) := by
  have hSeqId : numberLen 1 = 1 := rfl
  unfold serializedChunkLen buildChunkEnvelope
  rw [if_neg (Nat.not_lt.mpr hCount)]
  show Except.ok _ = _
  simp only [ServerEvent.fieldsLen, fieldLen, stringLen, toClient, hSeqId]
  simp [jsonCodec, Base64.length_encode]
  omega

/-- A message of 200000 bytes is cut into halves. -/
theorem split_long {message : List UInt8} (hLength : message.length = 200000) :
    splitServerEnvelopeForTransport jsonCodec (toClient (.serverMessage message)) =
      .ok (longParts message) := by
  have hEvent : (toClient (.serverMessage message)).event = .serverMessage message := rfl
  have hRaw : jsonCodec.toVec message = .ok message := rfl
  have hDigits : numberLen 200000 = 6 := by decide
  have hSize : chunkSizeFor 200000 2 = 100000 := by decide
  have hCount : divCeil 200000 100000 = 2 := by decide
  have hFirst : (message.take 100000).length = 100000 := by simp [hLength]
  have hSecond : (message.drop 100000).length = 100000 := by simp [hLength]
  have hChunks : enumeratedChunks 100000 message =
      [(0, message.take 100000), (1, message.drop 100000)] := by
    simp [enumeratedChunks, chunks, hLength, hCount, range_succ, take_of_length_le hSecond.le]
  have hFits (i : Nat) (hi : numberLen i = 1) (chunk : List UInt8) (hChunk : chunk.length = 100000) :
      segmentFits jsonCodec (toClient (.serverMessage message)) 2 200000 (i, chunk) = true := by
    rw [segmentFits, serializedChunkLen_toClient (by decide), hChunk, hi, hDigits]
    decide
  have hLoop : splitLoop jsonCodec (toClient (.serverMessage message)) message 2 =
      .ok (longParts message) := by
    rw [splitLoop]
    simp only [hLength, hSize, hCount, hChunks]
    have hBoth : [(0, message.take 100000), (1, message.drop 100000)].all
        (segmentFits jsonCodec (toClient (.serverMessage message)) 2 200000) = true := by
      simp only [all_cons, all_nil, hFits 0 rfl _ hFirst, hFits 1 rfl _ hSecond, Bool.and_true]
    rw [if_pos hBoth]
    rfl
  have hMinimal : serializedChunkLen jsonCodec (toClient (.serverMessage message)) 0
      (min (max 200000 1) segmentCountMax) 200000 (message.take (min 200000 1)) = .ok 178 := by
    rw [serializedChunkLen_toClient (by decide), hDigits]
    simp [hLength]
    decide
  unfold splitServerEnvelopeForTransport
  simp only [hEvent, serializedLen_message, hRaw, hLength]
  simp only [bind, Except.bind]
  rw [if_neg (by decide), hLength, if_neg (by decide), hMinimal]
  exact hLoop

/-- A notification with a name of `n` letters. -/
def notification (n : Nat) : List UInt8 :=
  "\x7b\"method\":\"".toList.map Char.toUInt8 ++ replicate n 97 ++
    "\"\x7d".toList.map Char.toUInt8

theorem length_notification (n : Nat) : (notification n).length = n + 13 := by
  unfold notification
  rw [length_append, length_append, length_replicate, length_map, length_map]
  show 11 + n + 2 = n + 13
  omega

/-- A client sends a chunk of the message back. -/
def sentBack (i : Nat) (chunk : List UInt8) : Delivery (List UInt8) where
  now := i
  envelope :=
    { event := .clientMessageChunk i 2 200000 (Base64.encode chunk)
      clientId := ⟨"client"⟩
      streamId := some ⟨"stream"⟩
      seqId := some 5
      cursor := none }

/-- Another client says that it is there. -/
def otherPing : Delivery (List UInt8) where
  now := 0
  envelope :=
    { event := .ping, clientId := ⟨"other"⟩, streamId := none, seqId := none, cursor := none }

/-- The first half comes twice, and another client sends in between. -/
def sentHalves (message : List UInt8) : List (Delivery (List UInt8)) :=
  [sentBack 0 (message.take 100000), otherPing, sentBack 0 (message.take 100000),
    sentBack 1 (message.drop 100000)]

/-- A message of 200000 bytes is sent in halves and put together again. -/
theorem halves_reassembled :
    ForwardsOnce ⟨"client"⟩ (notification 199987) (sentHalves (notification 199987))
      (observeAll jsonCodec entryOrder ∅ (sentHalves (notification 199987))).1 := by
  have hLength : (notification 199987).length = 200000 := length_notification 199987
  generalize notification 199987 = message at hLength ⊢
  have hFirst : ∃ part, (longParts message)[0]? = some part ∧
      Carries ⟨"client"⟩ ⟨"stream"⟩ 5 part (sentBack 0 (message.take 100000)).envelope :=
    ⟨_, rfl, ⟨_, _, _, _, rfl, rfl⟩, rfl, rfl, rfl⟩
  have hSecond : ∃ part, (longParts message)[1]? = some part ∧
      Carries ⟨"client"⟩ ⟨"stream"⟩ 5 part (sentBack 1 (message.drop 100000)).envelope :=
    ⟨_, rfl, ⟨_, _, _, _, rfl, rfl⟩, rfl, rfl, rfl⟩
  refine (split_reassembles jsonCodec_lawful id ?_ (toClient (.serverMessage message)) message
    (longParts message) rfl (split_long hLength) ⟨_, mem_cons_self, rfl⟩).2 ⟨"client"⟩ ⟨"stream"⟩ 5
    entryOrder ∅ [⟨"other"⟩] (sentHalves message) (by decide) ?_ ?_ ?_ ?_
  · intro message raw hRaw
    obtain rfl := Except.ok.inj hRaw
    rfl
  · exact fun _ hKey => absurd hKey (AList.notMem_empty _)
  · simp [sentHalves, sentBack, otherPing]
  · intro assembly hLookup
    cases hLookup
  · exact .next Nat.one_lt_two hFirst
      (.other (by decide) (.again trivial Nat.one_pos hFirst (.last rfl hSecond)))

end Codex.RemoteControl
