import Codex.RemoteControl.Segment
import Codex.Std.HashMap
import Mathlib.Data.Prod.Lex

/-!
# Codex — envelopes waiting for an acknowledgement

`BoundedOutboundBuffer` in `remote_control/websocket.rs`. Every envelope that is sent stays in
the queue of its stream until it is acknowledged; a counter is kept of all of them.

The counter is a `usize`: `ack` counts down envelope by envelope and returns nothing where that
would go below zero. `ack_spec` says that it does not, as long as the counter is right.
-/

namespace Codex.RemoteControl

open List MultiMap

def usizeMax : Nat := 2 ^ 64 - 1

/-- A place in a stream: the sequence number, then the segment. -/
abbrev WireCursor := Nat ×ₗ Nat

variable {Msg : Type}

def ServerEnvelope.streamKey (envelope : ServerEnvelope Msg) : StreamKey :=
  (envelope.clientId, envelope.streamId)

def ServerEnvelope.wireCursor (envelope : ServerEnvelope Msg) : WireCursor :=
  toLex (envelope.seqId, envelope.event.segmentId.getD 0)

/-- Without a segment the whole sequence number is acknowledged. -/
def ackedCursor (ackedSeqId : Nat) (ackedSegmentId : Option Nat) : WireCursor :=
  toLex (ackedSeqId, ackedSegmentId.getD usizeMax)

structure BoundedOutboundBuffer (Msg : Type) where
  bufferByStream : MultiMap StreamKey (ServerEnvelope Msg)
  used : Nat

namespace BoundedOutboundBuffer

def new : BoundedOutboundBuffer Msg where
  bufferByStream := ∅
  used := 0

def insert (buffer : BoundedOutboundBuffer Msg) (serverEnvelope : ServerEnvelope Msg) :
    BoundedOutboundBuffer Msg where
  bufferByStream := buffer.bufferByStream.insert serverEnvelope.streamKey serverEnvelope
  used := buffer.used + 1

/-- `retain` with the closure that counts down; nothing where the counter would underflow. -/
def retainUnacked (acked : WireCursor) :
    List (ServerEnvelope Msg) → Nat → Option (List (ServerEnvelope Msg) × Nat)
  | [], used => some ([], used)
  | serverEnvelope :: rest, used =>
    if serverEnvelope.wireCursor ≤ acked then
      if used = 0 then none else retainUnacked acked rest (used - 1)
    else do
      let (kept, used) ← retainUnacked acked rest used
      some (serverEnvelope :: kept, used)

/-- The queue of a stream after `retain`: an empty one is removed. -/
def setQueue (buffer : BoundedOutboundBuffer Msg) (key : StreamKey)
    (kept : List (ServerEnvelope Msg)) (used : Nat) : BoundedOutboundBuffer Msg where
  bufferByStream :=
    if kept = [] then buffer.bufferByStream.erase key
    else AList.insert key kept buffer.bufferByStream
  used := used

def ack (buffer : BoundedOutboundBuffer Msg) (clientId : ClientId) (streamId : StreamId)
    (ackedSeqId : Nat) (ackedSegmentId : Option Nat) : Option (BoundedOutboundBuffer Msg) :=
  let key := (clientId, streamId)
  match buffer.bufferByStream.lookup key with
  | none => some buffer
  | some queue => do
    let (kept, used) ← retainUnacked (ackedCursor ackedSeqId ackedSegmentId) queue buffer.used
    some (buffer.setQueue key kept used)

/-- `server_envelopes`, for an order in which the map is iterated over. -/
def serverEnvelopes (buffer : BoundedOutboundBuffer Msg)
    (order : HashMap.Iteration buffer.bufferByStream) : List (ServerEnvelope Msg) :=
  order.pairs.flatMap Prod.snd

/-- The queue of a stream. -/
def queue (buffer : BoundedOutboundBuffer Msg) (key : StreamKey) : List (ServerEnvelope Msg) :=
  buffer.bufferByStream.values key

/-- The counter is the number of envelopes in all queues. -/
def Counted (buffer : BoundedOutboundBuffer Msg) : Prop :=
  buffer.used = buffer.bufferByStream.count

variable {buffer : BoundedOutboundBuffer Msg}

theorem mem_serverEnvelopes (order : HashMap.Iteration buffer.bufferByStream) {key : StreamKey}
    {envelope : ServerEnvelope Msg} (h : envelope ∈ buffer.queue key) :
    envelope ∈ buffer.serverEnvelopes order := by
  unfold queue values getVec at h
  cases hLookup : buffer.bufferByStream.lookup key with
  | none =>
    rw [hLookup] at h
    exact absurd h not_mem_nil
  | some queue =>
    rw [hLookup] at h
    have hPair := order.property.mem_iff.mpr (HashMap.mem_toPairs.mpr hLookup)
    exact mem_flatMap.mpr ⟨(key, queue), hPair, h⟩

theorem queue_insert (buffer : BoundedOutboundBuffer Msg) (envelope : ServerEnvelope Msg)
    (key : StreamKey) : (buffer.insert envelope).queue key =
      buffer.queue key ++ [envelope].filter fun sent => sent.streamKey = key := by
  unfold queue insert
  rw [values_insert]
  by_cases hKey : key = envelope.streamKey
  · subst hKey
    simp
  · have hOther : envelope.streamKey ≠ key := Ne.symm hKey
    simp [hKey, hOther]

theorem Counted.insert (h : buffer.Counted)
    (envelope : ServerEnvelope Msg) : (buffer.insert envelope).Counted := by
  show buffer.used + 1 = (buffer.bufferByStream.insert _ _).count
  rw [MultiMap.count_insert, h]

/-- Inserting one envelope after the other. -/
theorem foldl_insert_spec (h : buffer.Counted) (envelopes : List (ServerEnvelope Msg)) :
    (envelopes.foldl insert buffer).Counted ∧
      (envelopes.foldl insert buffer).used = buffer.used + envelopes.length ∧
      ∀ key, (envelopes.foldl insert buffer).queue key =
        buffer.queue key ++ envelopes.filter fun sent => sent.streamKey = key := by
  induction envelopes generalizing buffer with
  | nil => exact ⟨h, rfl, fun key => (append_nil _).symm⟩
  | cons envelope rest ih =>
    obtain ⟨hCounted, hUsed, hQueue⟩ := ih (h.insert envelope)
    refine ⟨hCounted, ?_, ?_⟩
    · rw [foldl_cons, hUsed, length_cons]
      show buffer.used + 1 + rest.length = _
      omega
    · intro key
      rw [foldl_cons, hQueue, queue_insert, append_assoc, ← filter_append, singleton_append]

/-- The envelopes past a cursor. -/
def unacked (acked : WireCursor) (queue : List (ServerEnvelope Msg)) : List (ServerEnvelope Msg) :=
  queue.filter fun envelope => !(envelope.wireCursor ≤ acked : Bool)

/-- Counting down goes through if the counter is no less than what is acknowledged. -/
theorem retainUnacked_eq (acked : WireCursor) (queue : List (ServerEnvelope Msg)) (left : Nat) :
    retainUnacked acked queue
        (left + (queue.filter fun envelope => envelope.wireCursor ≤ acked).length) =
      some (unacked acked queue, left) := by
  induction queue with
  | nil => rfl
  | cons envelope rest ih =>
    unfold unacked at ih ⊢
    rw [retainUnacked]
    by_cases hAcked : envelope.wireCursor ≤ acked
    · rw [if_pos hAcked, filter_cons_of_pos (by simpa using hAcked),
        filter_cons_of_neg (by simpa using hAcked), length_cons]
      exact ih
    · rw [if_neg hAcked, filter_cons_of_neg (by simpa using hAcked),
        filter_cons_of_pos (by simpa using hAcked), ih]
      rfl

theorem queue_setQueue (buffer : BoundedOutboundBuffer Msg) (key key' : StreamKey)
    (kept : List (ServerEnvelope Msg)) (used : Nat) :
    (buffer.setQueue key kept used).queue key' = if key' = key then kept else buffer.queue key' := by
  unfold queue setQueue values getVec
  by_cases hKey : key' = key
  · subst hKey
    rw [if_pos rfl]
    by_cases hNil : kept = []
    · rw [if_pos hNil, AList.lookup_erase, hNil]
      rfl
    · rw [if_neg hNil, AList.lookup_insert]
      rfl
  · rw [if_neg hKey]
    by_cases hNil : kept = []
    · rw [if_pos hNil, AList.lookup_erase_ne hKey]
    · rw [if_neg hNil, AList.lookup_insert_ne hKey]

/-- The counter, as what is left of a stream, what the other streams hold, and what is
acknowledged. -/
theorem Counted.used_eq (h : buffer.Counted) (key : StreamKey) (acked : WireCursor) : buffer.used =
      (unacked acked (buffer.queue key)).length +
        count (buffer.bufferByStream.erase key) +
        ((buffer.queue key).filter fun envelope => envelope.wireCursor ≤ acked).length := by
  have hCount : buffer.used =
      (buffer.queue key).length + count (buffer.bufferByStream.erase key) :=
    h.trans (buffer.bufferByStream.count_erase key)
  have hSplit := length_eq_length_filter_add (l := buffer.queue key)
    fun envelope => (envelope.wireCursor ≤ acked : Bool)
  unfold unacked
  omega

/-- **Acknowledging.** The counter does not underflow and stays right; what is acknowledged
leaves the queue of the stream, and nothing else does. -/
theorem ack_spec (h : buffer.Counted) (clientId : ClientId)
    (streamId : StreamId) (ackedSeqId : Nat) (ackedSegmentId : Option Nat) :
    ∃ after, buffer.ack clientId streamId ackedSeqId ackedSegmentId = some after ∧
      after.Counted ∧
      after.used + ((buffer.queue (clientId, streamId)).filter fun envelope =>
        envelope.wireCursor ≤ ackedCursor ackedSeqId ackedSegmentId).length = buffer.used ∧
      ∀ key, after.queue key =
        if key = (clientId, streamId) then
          unacked (ackedCursor ackedSeqId ackedSegmentId) (buffer.queue key)
        else buffer.queue key := by
  unfold ack
  dsimp only
  cases hLookup : buffer.bufferByStream.lookup (clientId, streamId) with
  | none =>
    have hNil : buffer.queue (clientId, streamId) = [] := by
      unfold queue values getVec
      rw [hLookup]
      rfl
    refine ⟨buffer, rfl, h, ?_, ?_⟩
    · rw [hNil]
      rfl
    · intro key
      by_cases hKey : key = (clientId, streamId)
      · rw [if_pos hKey, hKey, hNil]
        rfl
      · rw [if_neg hKey]
  | some queue =>
    have hQueue : buffer.queue (clientId, streamId) = queue := by
      unfold BoundedOutboundBuffer.queue values getVec
      rw [hLookup]
      rfl
    have hRetain := retainUnacked_eq (ackedCursor ackedSeqId ackedSegmentId)
      (buffer.queue (clientId, streamId))
      ((unacked (ackedCursor ackedSeqId ackedSegmentId) (buffer.queue (clientId, streamId))).length +
        count (buffer.bufferByStream.erase (clientId, streamId)))
    rw [← h.used_eq] at hRetain
    dsimp only
    rw [← hQueue, hRetain]
    refine ⟨_, rfl, ?_, ?_, ?_⟩
    · unfold Counted setQueue
      dsimp only
      split
      · next hNil => rw [hNil, length_nil, Nat.zero_add]
      · rw [MultiMap.count_replace]
    · exact (h.used_eq (clientId, streamId) _).symm
    · intro key
      rw [queue_setQueue]
      by_cases hKey : key = (clientId, streamId)
      · rw [if_pos hKey, if_pos hKey, hKey]
      · rw [if_neg hKey, if_neg hKey]

end BoundedOutboundBuffer

end Codex.RemoteControl
