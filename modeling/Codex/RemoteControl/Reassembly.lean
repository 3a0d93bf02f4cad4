import Codex.RemoteControl.Segment
import Codex.Std.HashMap
import Mathlib.Data.List.MinMax

/-!
# Codex — putting client messages together

`ClientSegmentReassembler` in `remote_control/segment.rs`. The chunks of a message arrive in
order, but some may be delivered again and other clients send in between. There is one
assembly for each client; when there are too many, the oldest ones are thrown out.

Time is a number handed to each call. The order in which the map of assemblies is iterated
over is a parameter.

* `observe_frame`: what a client sends touches the assembly of that client alone, unless
  something is thrown out.
* `Transfer` is a message in valid chunks. From a state without an assembly on its stream
  every delivery of the chunks in order, with repetitions, forwards it exactly once
  (`forwards_once`).
* An assembly that was left unfinished on the same stream loses the next message
  (`forwarded_iff`).
-/

namespace Codex.RemoteControl

open List AList

def segmentAssemblyMaxCount : Nat := 128

structure ClientSegmentMetadata where
  seqId : Nat
  segmentCount : Nat
  messageSizeBytes : Nat
  deriving DecidableEq, Repr

structure ClientSegmentAssembly where
  streamId : StreamId
  metadata : ClientSegmentMetadata
  raw : List UInt8
  nextSegmentId : Nat
  lastChunkSeenAt : Nat
  deriving DecidableEq, Repr

/-- The state of a `ClientSegmentReassembler`. -/
abbrev Assemblies := HashMap ClientId ClientSegmentAssembly

inductive ClientSegmentObservation (Rpc : Type) where
  | forward (envelope : ClientEnvelope Rpc)
  | pending
  | dropped
  deriving DecidableEq, Repr

inductive AssemblyUpdate (Rpc : Type) where
  | pending
  | ignore
  | drop
  | complete (message : Rpc)

/-- The order in which each map is iterated over. -/
abbrev AssemblyOrder := ∀ assemblies : Assemblies, assemblies.Iteration

def shouldIgnoreChunk (assemblies : Assemblies) (clientId : ClientId) (streamId : StreamId)
    (seqId segmentId : Nat) : Bool :=
  match assemblies.lookup clientId with
  | some assembly =>
    assembly.streamId = streamId &&
      (seqId < assembly.metadata.seqId ||
        (seqId = assembly.metadata.seqId && segmentId < assembly.nextSegmentId))
  | none => false

def removeAssembly (assemblies : Assemblies) (clientId : ClientId) (streamId : StreamId) :
    Assemblies :=
  match assemblies.lookup clientId with
  | some assembly => if assembly.streamId = streamId then assemblies.erase clientId else assemblies
  | none => assemblies

/-- The `while` loop; each round removes an entry, so there are no more rounds than entries. -/
def evictLoop (order : AssemblyOrder) : Nat → Assemblies → Assemblies
  | 0, assemblies => assemblies
  | fuel + 1, assemblies =>
    if assemblies.entries.length ≥ segmentAssemblyMaxCount then
      match (order assemblies).pairs.argmin fun entry => entry.2.lastChunkSeenAt with
      | some (clientId, _) => evictLoop order fuel (assemblies.erase clientId)
      | none => assemblies
    else assemblies

def evictAssembliesIfFull (order : AssemblyOrder) (assemblies : Assemblies) : Assemblies :=
  evictLoop order assemblies.entries.length assemblies

def freshAssembly (now : Nat) (streamId : StreamId) (metadata : ClientSegmentMetadata) :
    ClientSegmentAssembly where
  streamId := streamId
  metadata := metadata
  raw := []
  nextSegmentId := 0
  lastChunkSeenAt := now

/-- A chunk on another stream, or of a client without an assembly, starts one. -/
def startAssembly (order : AssemblyOrder) (now : Nat) (assemblies : Assemblies)
    (clientId : ClientId) (streamId : StreamId) (metadata : ClientSegmentMetadata) : Assemblies :=
  match assemblies.lookup clientId with
  | some assembly =>
    if assembly.streamId ≠ streamId then
      assemblies.insert clientId (freshAssembly now streamId metadata)
    else assemblies
  | none =>
    (evictAssembliesIfFull order assemblies).insert clientId (freshAssembly now streamId metadata)

variable {Msg Rpc : Type} (codec : Codec Msg Rpc)

/-- `decode_slice` into `room` bytes. Both kinds of error drop the assembly. -/
def decodeSlice (text : Text) (room : Nat) : Option (List UInt8) :=
  match codec.decode text with
  | some decoded => if decoded.length ≤ room then some decoded else none
  | none => none

/-- The block that computes `result`, with the assembly it leaves behind. One that is dropped
is left as it was: it is removed right after. -/
def updateAssembly (now : Nat) (assembly : ClientSegmentAssembly)
    (metadata : ClientSegmentMetadata) (segmentId : Nat) (text : Text) :
    AssemblyUpdate Rpc × ClientSegmentAssembly :=
  if metadata.seqId < assembly.metadata.seqId then (.ignore, assembly)
  else if assembly.metadata ≠ metadata then (.drop, assembly)
  else if segmentId < assembly.nextSegmentId then (.pending, assembly)
  else if segmentId ≠ assembly.nextSegmentId then (.drop, assembly)
  else
    let chunkStart := assembly.raw.length
    let chunkEnd :=
      min metadata.messageSizeBytes (chunkStart + codec.decodedLenEstimate text.length)
    match decodeSlice codec text (chunkEnd - chunkStart) with
    | some decoded =>
      let assembly :=
        { assembly with
          raw := assembly.raw ++ decoded
          nextSegmentId := assembly.nextSegmentId + 1
          lastChunkSeenAt := now }
      if assembly.nextSegmentId < metadata.segmentCount then (.pending, assembly)
      else if assembly.raw.length ≠ metadata.messageSizeBytes then (.drop, assembly)
      else
        match codec.fromSlice assembly.raw with
        | some message => (.complete message, assembly)
        | none => (.drop, assembly)
    | none => (.drop, assembly)

/-- What the checks before the assembly is looked up come to. -/
inductive EnvelopeCheck (Rpc : Type) where
  | done (observation : ClientSegmentObservation Rpc) (assemblies : Assemblies)
  | chunk (streamId : StreamId) (metadata : ClientSegmentMetadata) (segmentId : Nat) (text : Text)

def checkEnvelope (assemblies : Assemblies) (envelope : ClientEnvelope Rpc) : EnvelopeCheck Rpc :=
  match envelope.event with
  | .clientMessageChunk segmentId segmentCount messageSizeBytes text =>
    match envelope.seqId, envelope.streamId with
    | some seqId, some streamId =>
      if shouldIgnoreChunk assemblies envelope.clientId streamId seqId segmentId then
        .done .dropped assemblies
      else if segmentCount = 0 ∨ segmentCount > segmentCountMax ∨ segmentId ≥ segmentCount ∨
          messageSizeBytes = 0 ∨ messageSizeBytes > reassembledMaxBytes ∨ text = [] then
        .done .dropped (removeAssembly assemblies envelope.clientId streamId)
      else .chunk streamId { seqId, segmentCount, messageSizeBytes } segmentId text
    -- without a `seq_id` or a `stream_id`
    | _, _ => .done .dropped assemblies
  | _ => .done (.forward envelope) assemblies

def observe (order : AssemblyOrder) (now : Nat) (assemblies : Assemblies)
    (envelope : ClientEnvelope Rpc) : ClientSegmentObservation Rpc × Assemblies :=
  match checkEnvelope assemblies envelope with
  | .done observation assemblies => (observation, assemblies)
  | .chunk streamId metadata segmentId text =>
    let assemblies := startAssembly order now assemblies envelope.clientId streamId metadata
    match assemblies.lookup envelope.clientId with
    | none => (.dropped, assemblies)
    | some assembly =>
      let (update, assembly) := updateAssembly codec now assembly metadata segmentId text
      let assemblies := assemblies.insert envelope.clientId assembly
      match update with
      | .pending => (.pending, assemblies)
      | .ignore => (.dropped, assemblies)
      | .drop => (.dropped, removeAssembly assemblies envelope.clientId streamId)
      | .complete message =>
        (.forward { envelope with event := .clientMessage message },
          removeAssembly assemblies envelope.clientId streamId)

/-- `invalidate_stream`. -/
def invalidateStream (assemblies : Assemblies) (clientId : ClientId) (streamId : StreamId) :
    Assemblies :=
  removeAssembly assemblies clientId streamId

/-- `invalidate_client`. -/
def invalidateClient (assemblies : Assemblies) (clientId : ClientId) : Assemblies :=
  assemblies.erase clientId

/-- The states of a reassembler. -/
inductive Reachable (order : AssemblyOrder) : Assemblies → Prop where
  | empty : Reachable order ∅
  | observe {assemblies : Assemblies} (now : Nat) (envelope : ClientEnvelope Rpc) :
      Reachable order assemblies →
      Reachable order (observe codec order now assemblies envelope).2
  | invalidateStream {assemblies : Assemblies} (clientId : ClientId) (streamId : StreamId) :
      Reachable order assemblies → Reachable order (invalidateStream assemblies clientId streamId)
  | invalidateClient {assemblies : Assemblies} (clientId : ClientId) :
      Reachable order assemblies → Reachable order (invalidateClient assemblies clientId)

/-! ## What a step touches -/

/-- The step throws assemblies out to make room. -/
def Evicts (assemblies : Assemblies) (envelope : ClientEnvelope Rpc) : Prop :=
  (∃ streamId metadata segmentId text,
      checkEnvelope assemblies envelope = .chunk streamId metadata segmentId text) ∧
    assemblies.lookup envelope.clientId = none ∧
    segmentAssemblyMaxCount ≤ assemblies.entries.length

/-- Nothing changes but the entry of one client. -/
def OnlyTouches (clientId : ClientId) (before after : Assemblies) : Prop :=
  ∀ other, other ≠ clientId → after.lookup other = before.lookup other

section Frame

variable {assemblies : Assemblies} {clientId : ClientId} {streamId : StreamId}
variable {metadata : ClientSegmentMetadata} {order : AssemblyOrder} {now : Nat}

theorem OnlyTouches.trans {first second third : Assemblies}
    (h : OnlyTouches clientId first second) (h' : OnlyTouches clientId second third) :
    OnlyTouches clientId first third := by
  intro other hOther
  rw [h' other hOther, h other hOther]

theorem onlyTouches_insert (assembly : ClientSegmentAssembly) :
    OnlyTouches clientId assemblies (assemblies.insert clientId assembly) :=
  fun _ hOther => lookup_insert_ne hOther

theorem onlyTouches_removeAssembly :
    OnlyTouches clientId assemblies (removeAssembly assemblies clientId streamId) := by
  intro other hOther
  unfold removeAssembly
  split
  · split
    · exact lookup_erase_ne hOther
    · rfl
  · rfl

theorem lookup_removeAssembly_insert {assembly : ClientSegmentAssembly}
    (h : assembly.streamId = streamId) :
    (removeAssembly (assemblies.insert clientId assembly) clientId streamId).lookup clientId =
      none := by
  unfold removeAssembly
  rw [lookup_insert]
  dsimp only
  rw [if_pos h, lookup_erase]

theorem evictAssembliesIfFull_of_lt (h : assemblies.entries.length < segmentAssemblyMaxCount) :
    evictAssembliesIfFull order assemblies = assemblies := by
  unfold evictAssembliesIfFull
  cases hFuel : assemblies.entries.length with
  | zero => rfl
  | succ fuel => rw [evictLoop, if_neg (by omega)]

/-- What the checks come to: anything but a chunk is passed on, a chunk is dropped, with the
assembly of the sender if it is invalid, or goes on. -/
theorem checkEnvelope_cases (assemblies : Assemblies) (envelope : ClientEnvelope Rpc) :
    checkEnvelope assemblies envelope = .done (.forward envelope) assemblies ∨
    checkEnvelope assemblies envelope = .done .dropped assemblies ∨
    (∃ streamId, checkEnvelope assemblies envelope =
      .done .dropped (removeAssembly assemblies envelope.clientId streamId)) ∨
    ∃ segmentId segmentCount messageSizeBytes text streamId metadata,
      envelope.event = .clientMessageChunk segmentId segmentCount messageSizeBytes text ∧
      checkEnvelope assemblies envelope = .chunk streamId metadata segmentId text := by
  unfold checkEnvelope
  split
  · next hEvent =>
    split
    · split
      · exact .inr (.inl rfl)
      · split
        · exact .inr (.inr (.inl ⟨_, rfl⟩))
        · exact .inr (.inr (.inr ⟨_, _, _, _, _, _, hEvent, rfl⟩))
    · exact .inr (.inl rfl)
  · exact .inl rfl

/-- Whatever a client sends, the assemblies of the others stay. -/
theorem observe_frame (order : AssemblyOrder) (now : Nat) {envelope : ClientEnvelope Rpc}
    (h : ¬Evicts assemblies envelope) :
    OnlyTouches envelope.clientId assemblies (observe codec order now assemblies envelope).2 := by
  unfold observe
  rcases checkEnvelope_cases assemblies envelope with hCheck | hCheck | ⟨_, hCheck⟩ |
    ⟨_, _, _, _, streamId, metadata, -, hCheck⟩
  · rw [hCheck]
    exact fun _ _ => rfl
  · rw [hCheck]
    exact fun _ _ => rfl
  · rw [hCheck]
    exact onlyTouches_removeAssembly
  · have hStart : OnlyTouches envelope.clientId assemblies
        (startAssembly order now assemblies envelope.clientId streamId metadata) := by
      unfold startAssembly
      split
      · split
        · exact onlyTouches_insert _
        · exact fun _ _ => rfl
      next hNone =>
      have hRoom : assemblies.entries.length < segmentAssemblyMaxCount := by
        by_contra hFull
        exact h ⟨⟨streamId, metadata, _, _, hCheck⟩, hNone, by omega⟩
      rw [evictAssembliesIfFull_of_lt hRoom]
      exact onlyTouches_insert _
    rw [hCheck]
    dsimp only
    split
    · exact hStart
    have hInsert : ∀ assembly, OnlyTouches envelope.clientId assemblies
        ((startAssembly order now assemblies envelope.clientId streamId metadata).insert
          envelope.clientId assembly) :=
      fun assembly => hStart.trans (onlyTouches_insert assembly)
    split
    · exact hInsert _
    · exact hInsert _
    · exact (hInsert _).trans onlyTouches_removeAssembly
    · exact (hInsert _).trans onlyTouches_removeAssembly

/-- What is forwarded is the envelope itself, or the message that its chunk completes. -/
theorem observe_forward_cases {envelope forwarded : ClientEnvelope Rpc}
    (h : (observe codec order now assemblies envelope).1 = .forward forwarded) :
    forwarded = envelope ∨
      (∃ segmentId segmentCount messageSizeBytes text,
        envelope.event = .clientMessageChunk segmentId segmentCount messageSizeBytes text) ∧
        ∃ message, forwarded = { envelope with event := .clientMessage message } := by
  unfold observe at h
  rcases checkEnvelope_cases assemblies envelope with hCheck | hCheck | ⟨_, hCheck⟩ |
    ⟨_, _, _, _, _, _, hEvent, hCheck⟩
  · rw [hCheck] at h
    cases h
    exact .inl rfl
  · rw [hCheck] at h
    cases h
  · rw [hCheck] at h
    cases h
  · rw [hCheck] at h
    dsimp only at h
    refine .inr ⟨⟨_, _, _, _, hEvent⟩, ?_⟩
    split at h
    · cases h
    split at h
    · cases h
    · cases h
    · cases h
    · cases h
      exact ⟨_, rfl⟩

end Frame

/-! ## A message in chunks -/

/-- A message that a client sends in valid chunks. -/
structure Transfer where
  clientId : ClientId
  streamId : StreamId
  seqId : Nat
  texts : List Text
  payloads : List (List UInt8)
  message : Rpc
  decodes : List.Forall₂ (fun text payload => codec.decode text = some payload) texts payloads
  text_ne : ∀ text ∈ texts, text ≠ []
  some_text : texts ≠ []
  count_le : texts.length ≤ segmentCountMax
  size_pos : 0 < payloads.flatten.length
  size_le : payloads.flatten.length ≤ reassembledMaxBytes
  parses : codec.fromSlice payloads.flatten = some message

namespace Transfer

variable {codec} (t : Transfer codec)

def count : Nat := t.texts.length

def metadata : ClientSegmentMetadata where
  seqId := t.seqId
  segmentCount := t.count
  messageSizeBytes := t.payloads.flatten.length

/-- The envelope holds chunk `i`. -/
structure IsChunk (i : Nat) (envelope : ClientEnvelope Rpc) : Prop where
  event : ∃ text, t.texts[i]? = some text ∧
    envelope.event = .clientMessageChunk i t.count t.payloads.flatten.length text
  clientId : envelope.clientId = t.clientId
  streamId : envelope.streamId = some t.streamId
  seqId : envelope.seqId = some t.seqId

/-- The client has no assembly on the stream. -/
def Unstarted (assemblies : Assemblies) : Prop :=
  ∀ assembly, assemblies.lookup t.clientId = some assembly → assembly.streamId ≠ t.streamId

/-- The first `k` chunks are in the assembly. -/
def Holds (k : Nat) (assemblies : Assemblies) : Prop :=
  ∃ assembly, assemblies.lookup t.clientId = some assembly ∧ assembly.streamId = t.streamId ∧
    assembly.metadata = t.metadata ∧ assembly.nextSegmentId = k ∧
    assembly.raw = (t.payloads.take k).flatten

/-- The first `k` chunks have arrived. -/
def Progress (k : Nat) (assemblies : Assemblies) : Prop :=
  if k = 0 then t.Unstarted assemblies else t.Holds k assemblies

variable {t} {i k : Nat} {envelope : ClientEnvelope Rpc} {assemblies : Assemblies} {text : Text}

theorem IsChunk.lt (h : t.IsChunk i envelope) : i < t.count := by
  obtain ⟨text, hText, -⟩ := h.event
  exact (List.getElem?_eq_some_iff.mp hText).1

/-- A chunk that is not to be ignored passes the checks. -/
theorem IsChunk.check_eq (h : t.IsChunk i envelope) (hText : t.texts[i]? = some text)
    (hNew : shouldIgnoreChunk assemblies t.clientId t.streamId t.seqId i = false) :
    checkEnvelope assemblies envelope = .chunk t.streamId t.metadata i text := by
  obtain ⟨text', hText', hEvent⟩ := h.event
  obtain rfl := Option.some.inj (hText.symm.trans hText')
  have hNe := t.text_ne text (mem_of_getElem? hText)
  have hLt := h.lt
  have hCount := t.count_le
  have hPos := t.size_pos
  have hMax := t.size_le
  unfold checkEnvelope
  rw [hEvent, h.seqId, h.streamId, h.clientId]
  dsimp only
  rw [hNew, if_neg (by simp), if_neg]
  · rfl
  · unfold count at *
    simp only [not_or]
    exact ⟨by omega, by omega, by omega, by omega, by omega, hNe⟩

/-- A chunk that has been seen is ignored. -/
theorem observe_again (order : AssemblyOrder) (now : Nat) (h : t.IsChunk i envelope)
    (hHolds : t.Holds k assemblies) (hLt : i < k) :
    observe codec order now assemblies envelope = (.dropped, assemblies) := by
  obtain ⟨assembly, hLookup, hStream, hMeta, hNext, -⟩ := hHolds
  obtain ⟨text, -, hEvent⟩ := h.event
  have hIgnore : shouldIgnoreChunk assemblies t.clientId t.streamId t.seqId i = true := by
    unfold shouldIgnoreChunk
    rw [hLookup]
    simp [hStream, hMeta, metadata, hNext, hLt]
  have hCheck : checkEnvelope assemblies envelope = .done .dropped assemblies := by
    unfold checkEnvelope
    rw [hEvent, h.seqId, h.streamId, h.clientId]
    dsimp only
    rw [hIgnore, if_pos rfl]
  unfold observe
  rw [hCheck]

variable {payload : List UInt8}

theorem take_succ_payloads (h : t.payloads[k]? = some payload) :
    (t.payloads.take (k + 1)).flatten = (t.payloads.take k).flatten ++ payload := by
  rw [take_add_one, h]
  simp

theorem length_payloads : t.payloads.length = t.count := t.decodes.length_eq.symm

/-- The assembly holds the first `k` chunks. -/
structure HoldsIn (t : Transfer codec) (k : Nat) (assembly : ClientSegmentAssembly) : Prop where
  streamId : assembly.streamId = t.streamId
  metadata : assembly.metadata = t.metadata
  next : assembly.nextSegmentId = k
  raw : assembly.raw = (t.payloads.take k).flatten

/-- Before chunk `k` is looked at, the assembly is there. -/
theorem lookup_startAssembly (order : AssemblyOrder) (now : Nat) (h : t.Progress k assemblies) :
    ∃ assembly,
      (startAssembly order now assemblies t.clientId t.streamId t.metadata).lookup t.clientId =
        some assembly ∧ t.HoldsIn k assembly := by
  cases k with
  | zero =>
    refine ⟨freshAssembly now t.streamId t.metadata, ?_, ⟨rfl, rfl, rfl, rfl⟩⟩
    unfold startAssembly
    cases hLookup : assemblies.lookup t.clientId with
    | none => exact lookup_insert _
    | some assembly =>
      dsimp only
      rw [if_pos (h assembly hLookup)]
      exact lookup_insert _
  | succ k =>
    obtain ⟨assembly, hLookup, hStream, hMeta, hNext, hRaw⟩ := h
    refine ⟨assembly, ?_, ⟨hStream, hMeta, hNext, hRaw⟩⟩
    unfold startAssembly
    rw [hLookup]
    dsimp only
    rw [if_neg (by simpa using hStream), hLookup]

theorem shouldIgnore_of_progress (h : t.Progress k assemblies) :
    shouldIgnoreChunk assemblies t.clientId t.streamId t.seqId k = false := by
  unfold shouldIgnoreChunk
  rcases hLookup : assemblies.lookup t.clientId with _ | assembly
  · rfl
  cases k with
  | zero => simp [h assembly hLookup]
  | succ k =>
    obtain ⟨assembly', hLookup', hStream, hMeta, hNext, -⟩ := h
    obtain rfl := Option.some.inj (hLookup.symm.trans hLookup')
    simp [hMeta, metadata, hNext]

variable (hLawful : codec.Lawful)

include hLawful in
/-- The next chunk is added to the assembly. -/
theorem updateAssembly_next (now : Nat) {assembly : ClientSegmentAssembly}
    (h : t.HoldsIn k assembly) (hPayload : t.payloads[k]? = some payload)
    (hDecode : codec.decode text = some payload) : ∃ after, t.HoldsIn (k + 1) after ∧
      updateAssembly codec now assembly t.metadata k text =
        (if k + 1 < t.count then .pending else .complete t.message, after) := by
  have hRaw := take_succ_payloads hPayload
  have hFits : (t.payloads.take k).flatten.length + payload.length ≤ t.payloads.flatten.length := by
    have hSplit := congrArg (fun l => l.flatten.length) (take_append_drop (k + 1) t.payloads)
    simp only [flatten_append, length_append, hRaw] at hSplit
    omega
  have hEstimate := hLawful.estimate text payload hDecode
  have hRoom : payload.length ≤ min t.metadata.messageSizeBytes
      (assembly.raw.length + codec.decodedLenEstimate text.length) - assembly.raw.length := by
    rw [h.raw]
    show _ ≤ min t.payloads.flatten.length _ - _
    omega
  refine ⟨{ assembly with
      raw := assembly.raw ++ payload
      nextSegmentId := assembly.nextSegmentId + 1
      lastChunkSeenAt := now }, ⟨h.streamId, h.metadata, ?_, ?_⟩, ?_⟩
  · show assembly.nextSegmentId + 1 = k + 1
    rw [h.next]
  · show assembly.raw ++ payload = _
    rw [h.raw, hRaw]
  · unfold updateAssembly
    rw [if_neg (by rw [h.metadata]; omega), if_neg (by simp [h.metadata]),
      if_neg (by rw [h.next]; omega), if_neg (by simp [h.next])]
    dsimp only
    rw [decodeSlice, hDecode]
    dsimp only
    rw [if_pos hRoom]
    dsimp only
    rw [h.next]
    by_cases hMore : k + 1 < t.count
    · rw [if_pos hMore, if_pos (show k + 1 < t.metadata.segmentCount from hMore)]
    -- the last chunk: the assembly is the message
    have hAll : assembly.raw ++ payload = t.payloads.flatten := by
      have hCount : t.payloads.length = t.count := length_payloads
      rw [h.raw, ← hRaw, take_of_length_le (by omega)]
    rw [if_neg hMore, if_neg (show ¬k + 1 < t.metadata.segmentCount from hMore), hAll,
      if_neg (by simp [metadata]), t.parses]

include hLawful in
/-- **The next chunk** moves the transfer on; the last one forwards the message. -/
theorem observe_next (order : AssemblyOrder) (now : Nat) (h : t.IsChunk k envelope)
    (hProgress : t.Progress k assemblies) :
    (k + 1 < t.count ∧ (observe codec order now assemblies envelope).1 = .pending ∧
        t.Holds (k + 1) (observe codec order now assemblies envelope).2) ∨
      (k + 1 = t.count ∧ (observe codec order now assemblies envelope).1 =
          .forward { envelope with event := .clientMessage t.message } ∧
        (observe codec order now assemblies envelope).2.lookup t.clientId = none) := by
  have hLt := h.lt
  have hLength : t.payloads.length = t.count := length_payloads
  have hText : k < t.texts.length := hLt
  have hPayload : k < t.payloads.length := by omega
  obtain ⟨assembly, hLookup, hHolds⟩ := lookup_startAssembly order now hProgress
  have hDecode : codec.decode t.texts[k] = some t.payloads[k] :=
    (forall₂_iff_get.mp t.decodes).2 k hText hPayload
  obtain ⟨after, hAfter, hUpdate⟩ := updateAssembly_next hLawful now hHolds
    (getElem?_eq_getElem hPayload) hDecode
  unfold observe
  rw [h.check_eq (getElem?_eq_getElem hText) (shouldIgnore_of_progress hProgress), h.clientId]
  dsimp only
  rw [hLookup]
  dsimp only
  rw [hUpdate]
  by_cases hMore : k + 1 < t.count
  · left
    rw [if_pos hMore]
    exact ⟨hMore, rfl, after, lookup_insert _, hAfter.streamId, hAfter.metadata, hAfter.next,
      hAfter.raw⟩
  · right
    rw [if_neg hMore]
    exact ⟨by omega, rfl, lookup_removeAssembly_insert hAfter.streamId⟩

end Transfer

/-! ## Deliveries -/

/-- An envelope, and the time it arrives at. -/
structure Delivery (Rpc : Type) where
  now : Nat
  envelope : ClientEnvelope Rpc

/-- The observations of a sequence of deliveries, and the state after it. -/
def observeAll (order : AssemblyOrder) :
    Assemblies → List (Delivery Rpc) → List (ClientSegmentObservation Rpc) × Assemblies
  | assemblies, [] => ([], assemblies)
  | assemblies, delivery :: deliveries =>
    let (observation, assemblies) := observe codec order delivery.now assemblies delivery.envelope
    let (observations, assemblies) := observeAll order assemblies deliveries
    (observation :: observations, assemblies)

theorem observeAll_cons (order : AssemblyOrder) (assemblies : Assemblies)
    (delivery : Delivery Rpc) (deliveries : List (Delivery Rpc)) :
    (observeAll codec order assemblies (delivery :: deliveries)).1 =
      (observe codec order delivery.now assemblies delivery.envelope).1 ::
        (observeAll codec order
          (observe codec order delivery.now assemblies delivery.envelope).2 deliveries).1 := rfl

theorem length_observeAll (order : AssemblyOrder) (assemblies : Assemblies)
    (deliveries : List (Delivery Rpc)) :
    (observeAll codec order assemblies deliveries).1.length = deliveries.length := by
  induction deliveries generalizing assemblies with
  | nil => rfl
  | cons delivery deliveries ih => rw [observeAll_cons, length_cons, ih, length_cons]

/-- Nothing is thrown out along the way. -/
def NoEviction (order : AssemblyOrder) : Assemblies → List (Delivery Rpc) → Prop
  | _, [] => True
  | assemblies, delivery :: deliveries =>
    ¬Evicts assemblies delivery.envelope ∧
      NoEviction order (observe codec order delivery.now assemblies delivery.envelope).2 deliveries

variable {deliveries : List (Delivery Rpc)} {clientId : ClientId} {message : Rpc}
variable {observations : List (ClientSegmentObservation Rpc)} {repeats : Prop}
variable {observation : ClientSegmentObservation Rpc} {count : Nat} {delivery : Delivery Rpc}

/-- With no more than 128 clients nothing is thrown out. -/
theorem noEviction_of_few (senders : List ClientId)
    (hFew : senders.length ≤ segmentAssemblyMaxCount) (order : AssemblyOrder)
    {assemblies : Assemblies} (hKeys : ∀ key ∈ assemblies, key ∈ senders)
    (hSenders : ∀ delivery ∈ deliveries, delivery.envelope.clientId ∈ senders) :
    NoEviction codec order assemblies deliveries := by
  induction deliveries generalizing assemblies with
  | nil => trivial
  | cons delivery deliveries ih =>
    obtain ⟨hSender, hRest⟩ := forall_mem_cons.mp hSenders
    have hStep : ¬Evicts assemblies delivery.envelope := by
      intro ⟨_, hNone, hFull⟩
      have hNew : delivery.envelope.clientId ∉ assemblies.keys := fun hMem =>
        lookup_eq_none.mp hNone (mem_keys.mpr hMem)
      have hSubset : delivery.envelope.clientId :: assemblies.keys ⊆ senders :=
        forall_mem_cons.mpr ⟨hSender, fun key hKey => hKeys key (mem_keys.mpr hKey)⟩
      have hLength := (subperm_of_subset
        (nodup_cons.mpr ⟨hNew, assemblies.keys_nodup⟩) hSubset).length_le
      have hEntries : assemblies.keys.length = assemblies.entries.length := length_map _
      rw [length_cons] at hLength
      omega
    refine ⟨hStep, ih ?_ hRest⟩
    intro key hKey
    by_cases hOwn : key = delivery.envelope.clientId
    · rw [hOwn]
      exact hSender
    · have hSame := observe_frame codec order delivery.now hStep key hOwn
      rw [← lookup_isSome, hSame, lookup_isSome] at hKey
      exact hKeys key hKey

/-- The deliveries up to the last of `count` chunks, when `k` have arrived: new chunks come in
order, those that came may come again if `repeats` holds, and other clients send what they
like. -/
inductive Schedule (clientId : ClientId) (count : Nat)
    (isChunk : Nat → ClientEnvelope Rpc → Prop) (repeats : Prop) :
    Nat → List (Delivery Rpc) → Prop where
  | other {k : Nat} {delivery : Delivery Rpc} {deliveries : List (Delivery Rpc)} :
      delivery.envelope.clientId ≠ clientId →
      Schedule clientId count isChunk repeats k deliveries →
      Schedule clientId count isChunk repeats k (delivery :: deliveries)
  | again {i k : Nat} {delivery : Delivery Rpc} {deliveries : List (Delivery Rpc)} :
      repeats → i < k → isChunk i delivery.envelope →
      Schedule clientId count isChunk repeats k deliveries →
      Schedule clientId count isChunk repeats k (delivery :: deliveries)
  | next {k : Nat} {delivery : Delivery Rpc} {deliveries : List (Delivery Rpc)} :
      k + 1 < count → isChunk k delivery.envelope →
      Schedule clientId count isChunk repeats (k + 1) deliveries →
      Schedule clientId count isChunk repeats k (delivery :: deliveries)
  | last {k : Nat} {delivery : Delivery Rpc} :
      k + 1 = count → isChunk k delivery.envelope →
      Schedule clientId count isChunk repeats k [delivery]

theorem Schedule.ne_nil {isChunk : Nat → ClientEnvelope Rpc → Prop}
    {k : Nat} (h : Schedule clientId count isChunk repeats k deliveries) : deliveries ≠ [] := by
  cases h <;> exact cons_ne_nil _ _

theorem Schedule.mono {isChunk isChunk' : Nat → ClientEnvelope Rpc → Prop}
    {k : Nat} (h : Schedule clientId count isChunk repeats k deliveries)
    (hChunk : ∀ i envelope, isChunk i envelope → isChunk' i envelope) :
    Schedule clientId count isChunk' repeats k deliveries := by
  induction h with
  | other hClient _ ih => exact .other hClient ih
  | again hRepeats hLt hSeen _ ih => exact .again hRepeats hLt (hChunk _ _ hSeen) ih
  | next hMore hNew _ ih => exact .next hMore (hChunk _ _ hNew) ih
  | last hEnd hNew => exact .last hEnd (hChunk _ _ hNew)

/-- The last delivery forwards the message. -/
def ForwardsAtLast (message : Rpc) (deliveries : List (Delivery Rpc))
    (observations : List (ClientSegmentObservation Rpc)) : Prop :=
  ∃ last, deliveries.getLast? = some last ∧
    observations.getLast? =
      some (.forward { last.envelope with event := .clientMessage message })

/-- The last delivery forwards the message, and no earlier one of this client forwards any. -/
structure ForwardsOnce (clientId : ClientId) (message : Rpc) (deliveries : List (Delivery Rpc))
    (observations : List (ClientSegmentObservation Rpc)) : Prop where
  at_last : ForwardsAtLast message deliveries observations
  not_before : List.Forall₂ (fun delivery observation => delivery.envelope.clientId = clientId →
    ∀ envelope, observation ≠ .forward envelope) deliveries.dropLast observations.dropLast

theorem ForwardsAtLast.ne_nil (h : ForwardsAtLast message deliveries observations) :
    deliveries ≠ [] ∧ observations ≠ [] := by
  obtain ⟨last, hLast, hForward⟩ := h
  constructor
  · rintro rfl
    cases hLast
  · rintro rfl
    cases hForward

theorem ForwardsAtLast.tail
    (h : ForwardsAtLast message (delivery :: deliveries) (observation :: observations))
    (hLength : observations.length = deliveries.length) (hNe : deliveries ≠ []) :
    ForwardsAtLast message deliveries observations := by
  obtain ⟨last, hLast, hForward⟩ := h
  have hNe' : observations ≠ [] := by
    rw [← length_pos_iff] at hNe ⊢
    omega
  rw [getLast?_cons_of_ne_nil hNe] at hLast
  rw [getLast?_cons_of_ne_nil hNe'] at hForward
  exact ⟨last, hLast, hForward⟩

theorem ForwardsOnce.cons (h : ForwardsOnce clientId message deliveries observations)
    (hHead : delivery.envelope.clientId = clientId →
      ∀ envelope, observation ≠ .forward envelope) :
    ForwardsOnce clientId message (delivery :: deliveries) (observation :: observations) := by
  obtain ⟨hNe, hNe'⟩ := h.at_last.ne_nil
  obtain ⟨last, hLast, hForward⟩ := h.at_last
  constructor
  · refine ⟨last, ?_, ?_⟩
    · rw [getLast?_cons_of_ne_nil hNe, hLast]
    · rw [getLast?_cons_of_ne_nil hNe', hForward]
  · rw [dropLast_cons_of_ne_nil hNe, dropLast_cons_of_ne_nil hNe']
    exact .cons hHead h.not_before

namespace Transfer

variable {codec} {t : Transfer codec}

variable {k : Nat} {order : AssemblyOrder} {assemblies : Assemblies} {envelope : ClientEnvelope Rpc}
variable {assembly : ClientSegmentAssembly}

/-- **Reassembly.** From the arrival of `k` chunks on, the message is forwarded exactly once. -/
theorem forwards_once (hLawful : codec.Lawful)
    (hSchedule : Schedule t.clientId t.count t.IsChunk repeats k deliveries)
    (hProgress : t.Progress k assemblies) (hRoom : NoEviction codec order assemblies deliveries) :
    ForwardsOnce t.clientId t.message deliveries
      (observeAll codec order assemblies deliveries).1 := by
  induction hSchedule generalizing assemblies with
  | @other k delivery deliveries hClient _ ih =>
    obtain ⟨hStep, hRest⟩ := hRoom
    have hFrame := observe_frame codec order delivery.now hStep
    have hSame := hFrame t.clientId (Ne.symm hClient)
    unfold Progress Unstarted Holds at ih hProgress
    rw [← hSame] at hProgress
    exact (ih hProgress hRest).cons fun hOwn => absurd hOwn hClient
  | @again i k delivery deliveries _ hLt hChunk _ ih =>
    have hHolds : t.Holds k assemblies := by
      simpa [Progress, show k ≠ 0 by omega] using hProgress
    have hSeen := observe_again order delivery.now hChunk hHolds hLt
    obtain ⟨-, hRest⟩ := hRoom
    rw [hSeen] at hRest
    rw [observeAll_cons, hSeen]
    exact (ih hProgress hRest).cons fun _ _ => nofun
  | @next k delivery deliveries hMore hChunk _ ih =>
    obtain ⟨-, hRest⟩ := hRoom
    rcases observe_next hLawful order delivery.now hChunk hProgress with
      ⟨-, hPending, hHolds⟩ | ⟨hEnd, -⟩
    · rw [observeAll_cons, hPending]
      exact (ih hHolds hRest).cons fun _ _ => nofun
    · omega
  | @last k delivery hEnd hChunk =>
    rcases observe_next hLawful order delivery.now hChunk hProgress with
      ⟨hMore, -⟩ | ⟨-, hForward, -⟩
    · omega
    · rw [observeAll_cons, hForward]
      exact ⟨⟨delivery, rfl, rfl⟩, .nil⟩

/-! ## An assembly left unfinished -/

/-- A chunk that the assembly is dropped for leaves the client without one. -/
theorem observe_of_drop {now : Nat} (h : t.IsChunk k envelope)
    (hNew : shouldIgnoreChunk assemblies t.clientId t.streamId t.seqId k = false)
    (hStart : (startAssembly order now assemblies t.clientId t.streamId t.metadata).lookup
      t.clientId = some assembly)
    (hStream : assembly.streamId = t.streamId)
    (hDrop : ∀ text, updateAssembly codec now assembly t.metadata k text = (.drop, assembly)) :
    (observe codec order now assemblies envelope).1 = .dropped ∧
      (observe codec order now assemblies envelope).2.lookup t.clientId = none := by
  obtain ⟨text, hText, -⟩ := h.event
  unfold observe
  rw [h.check_eq hText hNew, h.clientId]
  dsimp only
  rw [hStart]
  dsimp only
  rw [hDrop]
  exact ⟨rfl, lookup_removeAssembly_insert hStream⟩

/-- The next chunk, number `k`, will be dropped: an older message is left on the stream, or the
chunks before it were dropped. -/
def Doomed (t : Transfer codec) (k : Nat) (assemblies : Assemblies) : Prop :=
  if k = 0 then
    ∃ assembly, assemblies.lookup t.clientId = some assembly ∧ assembly.streamId = t.streamId ∧
      assembly.metadata.seqId < t.seqId
  else assemblies.lookup t.clientId = none

theorem observe_doomed (order : AssemblyOrder) (now : Nat) (h : t.IsChunk k envelope)
    (hDoomed : t.Doomed k assemblies) : (observe codec order now assemblies envelope).1 = .dropped ∧
      t.Doomed (k + 1) (observe codec order now assemblies envelope).2 := by
  cases k with
  | zero =>
    -- the chunk is dropped with the older message
    obtain ⟨assembly, hLookup, hStream, hSeq⟩ := hDoomed
    have hNew : shouldIgnoreChunk assemblies t.clientId t.streamId t.seqId 0 = false := by
      unfold shouldIgnoreChunk
      rw [hLookup]
      simp only [Bool.or_eq_false_iff, Bool.and_eq_false_iff,
        decide_eq_false_iff_not]
      omega
    have hStart : (startAssembly order now assemblies t.clientId t.streamId t.metadata).lookup
        t.clientId = some assembly := by
      unfold startAssembly
      rw [hLookup]
      dsimp only
      rw [if_neg (by simpa using hStream), hLookup]
    have hMeta : assembly.metadata ≠ t.metadata := by
      intro hEq
      rw [hEq] at hSeq
      exact Nat.lt_irrefl _ hSeq
    refine observe_of_drop h hNew hStart hStream fun text => ?_
    unfold updateAssembly
    rw [if_neg (show ¬t.metadata.seqId < assembly.metadata.seqId from Nat.not_lt_of_gt hSeq),
      if_pos hMeta]
  | succ k =>
    -- there is no assembly, and the chunk is not the first
    have hNone : assemblies.lookup t.clientId = none := hDoomed
    have hNew : shouldIgnoreChunk assemblies t.clientId t.streamId t.seqId (k + 1) = false := by
      unfold shouldIgnoreChunk
      rw [hNone]
    have hStart : (startAssembly order now assemblies t.clientId t.streamId t.metadata).lookup
        t.clientId = some (freshAssembly now t.streamId t.metadata) := by
      unfold startAssembly
      rw [hNone]
      exact lookup_insert _
    refine observe_of_drop h hNew hStart rfl fun text => ?_
    unfold updateAssembly freshAssembly
    rw [if_neg (by simp), if_neg (by simp), if_neg (by simp), if_pos (Nat.succ_ne_zero k)]

/-- What is left of an older message on the stream takes the new one with it. -/
theorem not_forwards_of_doomed
    (hSchedule : Schedule t.clientId t.count t.IsChunk False k deliveries)
    (hDoomed : t.Doomed k assemblies) (hRoom : NoEviction codec order assemblies deliveries) :
    ¬ForwardsAtLast t.message deliveries (observeAll codec order assemblies deliveries).1 := by
  induction hSchedule generalizing assemblies with
  | @other k delivery deliveries hClient hRest ih =>
    obtain ⟨hStep, hRoom⟩ := hRoom
    have hSame := observe_frame codec order delivery.now hStep t.clientId (Ne.symm hClient)
    have hStill : t.Doomed k (observe codec order delivery.now assemblies delivery.envelope).2 := by
      unfold Doomed at hDoomed ⊢
      rw [hSame]
      exact hDoomed
    exact fun h => ih hStill hRoom (h.tail (length_observeAll codec order _ _) hRest.ne_nil)
  | again hRepeats => exact hRepeats.elim
  | @next k delivery deliveries hMore hChunk hRest ih =>
    obtain ⟨-, hRoom⟩ := hRoom
    obtain ⟨-, hStill⟩ := observe_doomed order delivery.now hChunk hDoomed
    exact fun h => ih hStill hRoom (h.tail (length_observeAll codec order _ _) hRest.ne_nil)
  | @last k delivery hEnd hChunk =>
    obtain ⟨hDropped, -⟩ := observe_doomed order delivery.now hChunk hDoomed
    rw [observeAll_cons, hDropped]
    exact fun ⟨_, _, hForward⟩ => nomatch hForward

/-- **A message after another one.** It is forwarded when its last chunk is observed exactly if
nothing was left of an older message on its stream. -/
theorem forwarded_iff (hLawful : codec.Lawful) (t : Transfer codec) (order : AssemblyOrder)
    (assemblies : Assemblies) (deliveries : List (Delivery Rpc))
    (hOlder : ∀ assembly, assemblies.lookup t.clientId = some assembly →
      assembly.streamId = t.streamId → assembly.metadata.seqId < t.seqId)
    (hSchedule : Schedule t.clientId t.count t.IsChunk False 0 deliveries)
    (hRoom : NoEviction codec order assemblies deliveries) :
    ForwardsAtLast t.message deliveries (observeAll codec order assemblies deliveries).1 ↔
      t.Unstarted assemblies := by
  constructor
  · intro hForwards assembly hLookup hStream
    have hDoomed : t.Doomed 0 assemblies :=
      ⟨assembly, hLookup, hStream, hOlder assembly hLookup hStream⟩
    exact not_forwards_of_doomed hSchedule hDoomed hRoom hForwards
  · intro hUnstarted
    exact (forwards_once hLawful hSchedule hUnstarted hRoom).at_last

end Transfer

/-- Chunk `i` of two of a message of 14 bytes, which a client sends with a number. -/
def half (stream : String) (seqId i : Nat) (text : String) : Delivery (List UInt8) where
  now := 0
  envelope :=
    { event := .clientMessageChunk i 2 14 text.toList
      clientId := ⟨"client"⟩
      streamId := some ⟨stream⟩
      seqId := some seqId
      cursor := none }

def jsonMessage : List UInt8 := "\x7b\"method\":\"a\"\x7d".toList.map Char.toUInt8

/-- The message, sent as number 8. -/
def messageEight : Transfer jsonCodec where
  clientId := ⟨"client"⟩
  streamId := ⟨"stream"⟩
  seqId := 8
  texts := ["eyJtZXRobw==".toList, "ZCI6ImEifQ==".toList]
  payloads := [jsonMessage.take 7, jsonMessage.drop 7]
  message := jsonMessage
  decodes := .cons (by decide +kernel) (.cons (by decide +kernel) .nil)
  text_ne := by decide
  some_text := by decide
  count_le := by decide
  size_pos := by decide
  size_le := by decide
  parses := rfl

/-- The two chunks of message 8. -/
def halves : List (Delivery (List UInt8)) :=
  [half "stream" 8 0 "eyJtZXRobw==", half "stream" 8 1 "ZCI6ImEifQ=="]

theorem messageEight_schedule : Schedule messageEight.clientId messageEight.count
    messageEight.IsChunk False 0 halves :=
  .next (by decide) ⟨⟨_, rfl, rfl⟩, rfl, rfl, rfl⟩
    (.last (by decide) ⟨⟨_, rfl, rfl⟩, rfl, rfl, rfl⟩)

/-- A map is gone through in the order of its entries. -/
def entryOrder : AssemblyOrder := fun assemblies => ⟨assemblies.toPairs, .refl _⟩

/-- The first chunk of message 7 was all that came of it, on one stream or another. -/
def afterSeven (stream : String) : Assemblies :=
  (observe jsonCodec entryOrder 0 ∅ (half stream 7 0 "eyJtZXRobw==").envelope).2

theorem lookup_afterSeven {stream : String} {assembly : ClientSegmentAssembly}
    (h : (afterSeven stream).lookup ⟨"client"⟩ = some assembly) : assembly.streamId = ⟨stream⟩ := by
  cases h
  rfl

theorem afterSeven_noEviction (stream : String) :
    NoEviction jsonCodec entryOrder (afterSeven stream) halves := by
  refine noEviction_of_few _ [⟨"client"⟩] (by decide) _ ?_ (by decide)
  intro key hKey
  exact mem_keys.mp hKey

/-- What is left on another stream does not stop the message. -/
theorem messageEight_forwarded :
    ((afterSeven "other").lookup ⟨"client"⟩).isSome ∧ ForwardsAtLast jsonMessage halves
      (observeAll jsonCodec entryOrder (afterSeven "other") halves).1 := by
  have hOther : (⟨"other"⟩ : StreamId) ≠ ⟨"stream"⟩ := by decide
  refine ⟨rfl, (Transfer.forwarded_iff jsonCodec_lawful messageEight entryOrder
    (afterSeven "other") halves ?_ messageEight_schedule (afterSeven_noEviction "other")).mpr ?_⟩
  · intro assembly hLookup hStream
    exact absurd ((lookup_afterSeven hLookup).symm.trans hStream) hOther
  · intro assembly hLookup hStream
    exact absurd ((lookup_afterSeven hLookup).symm.trans hStream) hOther

/-- On its own stream message 8 is lost: both of its chunks are dropped. -/
theorem messageEight_lost :
    Reachable jsonCodec entryOrder (afterSeven "stream") ∧
    ((afterSeven "stream").lookup messageEight.clientId).map
        (fun assembly => (assembly.streamId, assembly.metadata.seqId)) =
      some (messageEight.streamId, 7) ∧
    Schedule messageEight.clientId messageEight.count messageEight.IsChunk False 0 halves ∧
    NoEviction jsonCodec entryOrder (afterSeven "stream") halves ∧
    (observeAll jsonCodec entryOrder (afterSeven "stream") halves).1 = [.dropped, .dropped] :=
  ⟨.observe 0 _ .empty, by decide +kernel, messageEight_schedule, afterSeven_noEviction "stream",
    by decide +kernel⟩

end Codex.RemoteControl
