import Codex.RemoteControl.Websocket

/-!
# Codex — no envelope is lost before it is acknowledged

Along every run of the websocket state the buffer is what the log leaves outstanding, the
counter is the number of buffered envelopes, and it never underflows (`Tracks`).

Sequence numbers saturate at `u64::MAX`. The order in a stream is kept as long as there are no
more messages on it than numbers (`Numbered`); after that two messages share the last number.

* `step_cases` is all that a step does to the buffer and the numbers.
* `Tracks.step`, `Numbered.step` carry the two invariants through one step, `run_tracks` and
  `run_numbered` through a run.
* `buffered_iff_unacknowledged` is the result: an envelope is in the buffer, and sent again on a
  new connection, exactly until it is acknowledged.
-/

namespace Codex.RemoteControl

open AckLog List BoundedOutboundBuffer AList

/-! ## The envelopes of one message -/

section Split

variable {Msg Rpc : Type} {codec : Codec Msg Rpc} {envelope : ServerEnvelope Msg}
variable {parts : List (ServerEnvelope Msg)}

section

variable (h : splitServerEnvelopeForTransport codec envelope = .ok parts)
include h

theorem length_split_le : parts.length ≤ segmentCountMax := by
  rcases split_cases codec h with rfl | rfl | ⟨_, raw, payloads, -, -, -, hSegmented⟩
  · show 1 ≤ segmentCountMax
    decide
  · exact Nat.zero_le _
  · rw [hSegmented.parts_eq, length_mapIdx]
    exact hSegmented.count_le

/-- They come in the order of their segments. -/
theorem pairwise_split : parts.Pairwise fun a b => a.wireCursor < b.wireCursor := by
  rcases split_cases codec h with rfl | rfl | ⟨_, raw, payloads, -, -, -, hSegmented⟩
  · exact pairwise_singleton _ _
  · exact .nil
  · rw [hSegmented.parts_eq, pairwise_iff_getElem]
    intro i j hi hj hLt
    rw [getElem_mapIdx, getElem_mapIdx]
    exact Prod.Lex.toLex_lt_toLex.mpr (.inr ⟨rfl, hLt⟩)

end

end Split

namespace WebsocketState

variable {Msg Rpc : Type} {codec : Codec Msg Rpc} {serialize : ServerEnvelope Msg → Option Text}
variable {order : AssemblyOrder} {state : WebsocketState Msg}

/-! ## What a step does -/

theorem insertAll_eq (buffer : BoundedOutboundBuffer Msg) (envelopes : List (ServerEnvelope Msg)) :
    (insertAll serialize buffer envelopes).2 =
      (envelopes.filter fun envelope => (serialize envelope).isSome).foldl
        insert buffer := by
  induction envelopes generalizing buffer with
  | nil => rfl
  | cons envelope rest ih =>
    rw [insertAll, filter_cons]
    cases hPayload : serialize envelope with
    | none => exact ih buffer
    | some payload => exact ih (buffer.insert envelope)

variable (codec serialize state) in
/-- The numbers after a message: the one of its stream goes up unless splitting fails. -/
theorem enqueue_eq (queued : QueuedServerEnvelope Msg) :
    (state.enqueue codec serialize queued).2.outboundBuffer =
        (state.inserted codec serialize queued).foldl insert
          state.outboundBuffer ∧
      (∀ key, key ≠ (queued.clientId, queued.streamId) →
        (state.enqueue codec serialize queued).2.nextSeqId key = state.nextSeqId key) ∧
      ((state.inserted codec serialize queued = [] ∧
          (state.enqueue codec serialize queued).2.nextSeqId (queued.clientId, queued.streamId) =
            state.nextSeqId (queued.clientId, queued.streamId)) ∨
        (state.enqueue codec serialize queued).2.nextSeqId (queued.clientId, queued.streamId) =
          saturatingAdd (state.nextSeqId (queued.clientId, queued.streamId)) 1) := by
  unfold enqueue inserted
  dsimp only
  cases hSplit : splitServerEnvelopeForTransport codec (state.numbered queued) with
  | error e =>
    refine ⟨rfl, ?_, .inl ⟨rfl, ?_⟩⟩
    · intro key hKey
      show ((insert _ _ _).lookup key).getD 1 = _
      rw [lookup_insert_ne hKey]
      rfl
    · show ((insert _ _ _).lookup _).getD 1 = _
      rw [lookup_insert]
      rfl
  | ok envelopes =>
    refine ⟨insertAll_eq _ envelopes, ?_, .inr ?_⟩
    · intro key hKey
      show ((insert _ _ (insert _ _ _)).lookup key).getD 1 = _
      rw [lookup_insert_ne hKey, lookup_insert_ne hKey]
      rfl
    · show ((insert _ _ _).lookup _).getD 1 = _
      rw [lookup_insert]
      rfl

/-- A chunk that is forwarded has become a message. An acknowledgement is no chunk, and forwarded as
it is. -/
theorem acknowledged_of_observe {now wireSizeBytes : Nat} {envelope : ClientEnvelope Rpc}
    {observation : ClientSegmentObservation Rpc}
    (h : (state.observeClientMessage codec order now envelope wireSizeBytes).1 = observation) :
    match observation with
    | .forward delivered => acknowledged delivered = acknowledged envelope
    | .pending | .dropped => acknowledged envelope = none := by
  cases observation with
  | forward delivered =>
    unfold observeClientMessage at h
    split at h
    · cases h
    split at h
    · cases h
    split at h
    · split at h
      · cases h
      · cases h
    · rcases observe_forward_cases codec h with rfl | ⟨⟨_, _, _, _, hEvent⟩, message, rfl⟩
      · rfl
      · unfold acknowledged
        rw [hEvent]
  | pending | dropped =>
    obtain ⟨event, clientId, streamId, seqId, cursor⟩ := envelope
    dsimp only [acknowledged]
    split
    · cases h
    · rfl

variable (codec order state) in
theorem observeClientMessage_frame (now : Nat) (envelope : ClientEnvelope Rpc)
    (wireSizeBytes : Nat) :
    (state.observeClientMessage codec order now envelope wireSizeBytes).2.outboundBuffer =
        state.outboundBuffer ∧
      (state.observeClientMessage codec order now envelope wireSizeBytes).2.nextSeqIdByStream =
        state.nextSeqIdByStream := by
  unfold observeClientMessage
  repeat' split
  all_goals exact ⟨rfl, rfl⟩

theorem forgetClosed_frame (delivered : ClientEnvelope Rpc) :
    (state.forgetClosed delivered).outboundBuffer = state.outboundBuffer ∧
      (state.forgetClosed delivered).nextSeqIdByStream = state.nextSeqIdByStream := by
  unfold forgetClosed
  split <;> exact ⟨rfl, rfl⟩

/-- What one action does to the buffer and the numbers, with what it adds to the log: a message
is put in, an acknowledgement is applied, or nothing changes. -/
inductive Effect (codec : Codec Msg Rpc) (serialize : ServerEnvelope Msg → Option Text)
    (state : WebsocketState Msg) (action : WebsocketAction Msg Rpc) (after : WebsocketState Msg) :
    Prop where
  | enqueued (queued : QueuedServerEnvelope Msg) :
      action = .enqueue queued → state.outboundBuffer.used < channelCapacity →
      state.entries codec serialize action = (state.inserted codec serialize queued).map .sent →
      after = (state.enqueue codec serialize queued).2 → Effect codec serialize state action after
  | acked (clientId : ClientId) (streamId : StreamId) (seqId : Nat) (segmentId : Option Nat) :
      state.entries codec serialize action =
        [.acked ⟨(clientId, streamId), ackedCursor seqId segmentId⟩] →
      state.outboundBuffer.ack clientId streamId seqId segmentId = some after.outboundBuffer →
      after.nextSeqIdByStream = state.nextSeqIdByStream → Effect codec serialize state action after
  | none :
      state.entries codec serialize action = [] →
      after.outboundBuffer = state.outboundBuffer →
      after.nextSeqIdByStream = state.nextSeqIdByStream → Effect codec serialize state action after

/-- What the reader does with an envelope. -/
theorem receive_effect (hCounted : state.outboundBuffer.Counted) (now : Nat)
    (envelope : ClientEnvelope Rpc) (wireSizeBytes : Nat) (handled : Bool) :
    ∃ after, state.receive codec order now envelope wireSizeBytes handled = some after ∧
      Effect codec serialize state (.receive now envelope wireSizeBytes handled) after := by
  obtain ⟨hBuffer, hNumbers⟩ :=
    observeClientMessage_frame codec order state now envelope wireSizeBytes
  unfold receive
  dsimp only
  split
  · next delivered hForward =>
    split
    · next hHandled =>
      rw [← hBuffer] at hCounted
      -- recording a delivery applies the acknowledgement, if it is one
      unfold recordClientMessageDelivery
      rw [show acknowledged delivered = _ from acknowledged_of_observe hForward]
      rcases hAck : acknowledged envelope with _ | about
      · obtain ⟨hClosed, hClosed'⟩ := forgetClosed_frame delivered
        exact ⟨_, rfl, .none (by rw [entries, hAck]) (hClosed.trans hBuffer)
          (hClosed'.trans hNumbers)⟩
      obtain ⟨clientId, streamId, seqId, segmentId⟩ := about
      obtain ⟨buffer, hAcked, -⟩ := ack_spec hCounted clientId streamId seqId segmentId
      obtain ⟨hClosed, hClosed'⟩ := forgetClosed_frame delivered
      dsimp only
      rw [hAcked]
      refine ⟨_, rfl, .acked clientId streamId seqId segmentId ?_ ?_ (hClosed'.trans hNumbers)⟩
      · rw [entries, hAck]
        exact if_pos hHandled
      · rw [hClosed, ← hBuffer]
        exact hAcked
    · next hHandled =>
      refine ⟨_, rfl, .none ?_ hBuffer hNumbers⟩
      rw [entries]
      split
      · exact if_neg hHandled
      · rfl
  all_goals
    next hDropped =>
    have hNone : acknowledged envelope = none := acknowledged_of_observe hDropped
    exact ⟨_, rfl, .none (by rw [entries, hNone]) hBuffer hNumbers⟩

variable (codec serialize order) in
/-- **One step.** It goes through if the counter is right. -/
theorem step_cases (hCounted : state.outboundBuffer.Counted) (action : WebsocketAction Msg Rpc) :
    ∃ after, state.step codec serialize order action = some after ∧
      Effect codec serialize state action after := by
  match action with
  | .enqueue queued =>
    by_cases hRoom : state.outboundBuffer.used < channelCapacity
    · refine ⟨(state.enqueue codec serialize queued).2, ?_, .enqueued queued rfl hRoom ?_ rfl⟩
      · rw [step, if_pos hRoom]
      · rw [entries, if_pos hRoom]
    · refine ⟨state, ?_, .none ?_ rfl rfl⟩
      · rw [step, if_neg hRoom]
      · rw [entries, if_neg hRoom]
  | .receive now envelope wireSizeBytes handled =>
    exact receive_effect hCounted now envelope wireSizeBytes handled
  | .closed clientId streamId => exact ⟨_, rfl, .none rfl rfl rfl⟩

/-! ## The buffer and the log -/

variable (codec serialize state) in
theorem length_inserted_le (queued : QueuedServerEnvelope Msg) :
    (state.inserted codec serialize queued).length ≤ segmentCountMax := by
  unfold inserted
  cases hSplit : splitServerEnvelopeForTransport codec (state.numbered queued) with
  | error e => exact Nat.zero_le _
  | ok envelopes =>
    exact (length_filter_le _ _).trans (length_split_le hSplit)

/-- The buffer is what the log leaves outstanding. -/
structure Tracks (state : WebsocketState Msg) (log : WebsocketLog Msg) : Prop where
  counted : state.outboundBuffer.Counted
  used_lt : state.outboundBuffer.used < channelCapacity + segmentCountMax
  queue_eq : ∀ key, state.outboundBuffer.queue key =
    (outstanding ProcessedAck.covers log).filter fun envelope => envelope.streamKey = key

theorem tracks_new : Tracks (new : WebsocketState Msg) [] where
  counted := rfl
  used_lt := show 0 < channelCapacity + segmentCountMax by decide
  queue_eq := fun _ => rfl

variable (codec serialize order) in
theorem Tracks.step {log : WebsocketLog Msg} (h : Tracks state log)
    (action : WebsocketAction Msg Rpc) :
    ∃ after, state.step codec serialize order action = some after ∧
      Effect codec serialize state action after ∧
      Tracks after (log ++ state.entries codec serialize action) := by
  obtain ⟨after, hStep, hEffect⟩ := step_cases codec serialize order h.counted action
  refine ⟨after, hStep, hEffect, ?_⟩
  cases hEffect with
  | enqueued queued _ hRoom hEntries hAfter =>
    obtain ⟨hBuffer, -⟩ := enqueue_eq codec serialize state queued
    obtain ⟨hCounted, hUsed, hQueue⟩ := foldl_insert_spec h.counted
      (state.inserted codec serialize queued)
    have hLength := length_inserted_le codec serialize state queued
    rw [hEntries]
    subst hAfter
    refine ⟨?_, ?_, ?_⟩
    · rw [hBuffer]
      exact hCounted
    · rw [hBuffer]
      omega
    · intro key
      rw [hBuffer, hQueue, h.queue_eq, outstanding_append_sent, filter_append]
  | acked clientId streamId seqId segmentId hEntries hAcked hNumbers =>
    obtain ⟨buffer, hBuffer, hCounted, hUsed, hQueue⟩ :=
      ack_spec h.counted clientId streamId seqId segmentId
    obtain rfl := Option.some.inj (hAcked.symm.trans hBuffer)
    rw [hEntries]
    have hLt := h.used_lt
    refine ⟨hCounted, by omega, ?_⟩
    intro key
    rw [hQueue, h.queue_eq, outstanding_append_acked, filter_filter]
    by_cases hKey : key = (clientId, streamId)
    on_goal 1 => rw [if_pos hKey, unacked, filter_filter]
    on_goal 2 => rw [if_neg hKey]
    all_goals
      refine filter_congr fun envelope _ => ?_
      by_cases hOwn : envelope.streamKey = key
      · simp [ProcessedAck.covers, hOwn, hKey]
      · simp [hOwn]
  | none hEntries hBuffer hNumbers =>
    rw [hEntries, append_nil]
    refine ⟨?_, ?_, ?_⟩
    · rw [hBuffer]
      exact h.counted
    · rw [hBuffer]
      exact h.used_lt
    · rw [hBuffer]
      exact h.queue_eq

/-! ## The numbers -/

theorem mem_inserted {queued : QueuedServerEnvelope Msg} {envelope : ServerEnvelope Msg}
    (h : envelope ∈ state.inserted codec serialize queued) :
    envelope.streamKey = (queued.clientId, queued.streamId) ∧
      envelope.seqId = state.nextSeqId (queued.clientId, queued.streamId) ∧
      (serialize envelope).isSome := by
  unfold inserted at h
  rcases hSplit : splitServerEnvelopeForTransport codec (state.numbered queued) with e | envelopes
  · rw [hSplit] at h
    exact absurd h not_mem_nil
  rw [hSplit] at h
  obtain ⟨hMem, hSome⟩ := mem_filter.mp h
  -- the parts have the stream and the number of the message
  rcases split_cases codec hSplit with rfl | rfl | ⟨_, raw, payloads, -, -, -, hSegmented⟩
  · rw [mem_singleton.mp hMem] at hSome ⊢
    exact ⟨rfl, rfl, hSome⟩
  · exact absurd hMem not_mem_nil
  · rw [hSegmented.parts_eq] at hMem
    obtain ⟨i, hi, rfl⟩ := mem_mapIdx.mp hMem
    exact ⟨rfl, rfl, hSome⟩

end WebsocketState

/-- The action puts a message on the stream. -/
def WebsocketAction.enqueuesOn {Msg Rpc : Type} (key : StreamKey) : WebsocketAction Msg Rpc → Bool
  | .enqueue queued => (queued.clientId, queued.streamId) = key
  | _ => false

namespace WebsocketState

variable {Msg Rpc : Type} {codec : Codec Msg Rpc} {serialize : ServerEnvelope Msg → Option Text}
variable {order : AssemblyOrder} {state : WebsocketState Msg}

/-- The envelopes of a stream were sent in order, and the next message on it comes after them.
`queued` is how many messages there were on each stream. -/
structure Numbered (serialize : ServerEnvelope Msg → Option Text) (state : WebsocketState Msg)
    (log : WebsocketLog Msg) (queued : StreamKey → Nat) : Prop where
  issued : ∀ key, ∃ n ≤ queued key, state.nextSeqId key = min (n + 1) u64Max ∧
    ∀ envelope ∈ sent log, envelope.streamKey = key → envelope.seqId ≤ n
  ordered : (sent log).Pairwise fun a b =>
    a.streamKey = b.streamKey → a.wireCursor < b.wireCursor
  serialized : ∀ envelope ∈ sent log, (serialize envelope).isSome

theorem numbered_new : Numbered serialize (new : WebsocketState Msg) [] fun _ => 0 where
  issued := fun _ => ⟨0, Nat.le_refl _, rfl, forall_mem_nil _⟩
  ordered := .nil
  serialized := forall_mem_nil _

variable {log : WebsocketLog Msg} {queued : StreamKey → Nat} {after : WebsocketState Msg}
variable {action : WebsocketAction Msg Rpc} {next : StreamKey → Nat}

section

variable (h : Numbered serialize state log queued)
include h

/-- One more message on a stream that has numbers left. -/
theorem Numbered.enqueue (codec : Codec Msg Rpc)
    (message : QueuedServerEnvelope Msg) (hLe : ∀ key, queued key ≤ next key)
    (hMore : queued (message.clientId, message.streamId) <
      next (message.clientId, message.streamId))
    (hMax : next (message.clientId, message.streamId) ≤ u64Max) :
    Numbered serialize (state.enqueue codec serialize message).2
      (log ++ (state.inserted codec serialize message).map .sent) next := by
  obtain ⟨-, hOther, hOwn⟩ := enqueue_eq codec serialize state message
  obtain ⟨n, hn, hNext, hBelow⟩ := h.issued (message.clientId, message.streamId)
  have hSeq : state.nextSeqId (message.clientId, message.streamId) = n + 1 := by omega
  have hSent : sent (log ++ (state.inserted codec serialize message).map .sent) =
      sent log ++ state.inserted codec serialize message := by
    rw [sent_append, sent_map_sent]
  refine ⟨?_, ?_, ?_⟩
  · intro key
    rw [hSent]
    by_cases hKey : key = (message.clientId, message.streamId)
    · subst hKey
      rcases hOwn with ⟨hNil, hSame⟩ | hAdd
      · rw [hNil, append_nil]
        exact ⟨n, by omega, hSame.trans hNext, hBelow⟩
      refine ⟨n + 1, by omega, ?_, ?_⟩
      · rw [hAdd, hSeq]
        rfl
      · intro envelope hMem hOwnKey
        rcases mem_append.mp hMem with hOld | hNew
        · exact Nat.le_succ_of_le (hBelow envelope hOld hOwnKey)
        · rw [(mem_inserted hNew).2.1, hSeq]
    · obtain ⟨m, hm, hNext', hBelow'⟩ := h.issued key
      refine ⟨m, Nat.le_trans hm (hLe key), (hOther key hKey).trans hNext', ?_⟩
      intro envelope hMem hOwnKey
      rcases mem_append.mp hMem with hOld | hNew
      · exact hBelow' envelope hOld hOwnKey
      · exact absurd (hOwnKey.symm.trans (mem_inserted hNew).1) hKey
  · rw [hSent, pairwise_append]
    refine ⟨h.ordered, ?_, ?_⟩
    · unfold inserted
      cases hSplit : splitServerEnvelopeForTransport codec (state.numbered message) with
      | error e => exact .nil
      | ok envelopes =>
        refine ((pairwise_split hSplit).filter _).imp ?_
        intro a b hLt _
        exact hLt
    · -- a later message has a greater number
      intro a ha b hb hSame
      obtain ⟨hKey, hNumber, -⟩ := mem_inserted hb
      have hOld := hBelow a ha (hSame.trans hKey)
      refine Prod.Lex.toLex_lt_toLex.mpr (.inl ?_)
      show a.seqId < b.seqId
      omega
  · rw [hSent]
    exact forall_mem_append.mpr ⟨h.serialized, fun _ hNew => (mem_inserted hNew).2.2⟩

theorem Numbered.step (hEffect : Effect codec serialize state action after)
    (hMax : ∀ key, queued key + (action.enqueuesOn key).toNat ≤ u64Max) :
    Numbered serialize after (log ++ state.entries codec serialize action)
      fun key => queued key + (action.enqueuesOn key).toNat := by
  have hLe : ∀ key, queued key ≤ queued key + (action.enqueuesOn key).toNat :=
    fun key => Nat.le_add_right _ _
  cases hEffect with
  | enqueued message hAction _ hEntries hAfter =>
    have hOn : (action.enqueuesOn (message.clientId, message.streamId)).toNat = 1 := by
      rw [hAction]
      simp [WebsocketAction.enqueuesOn]
    rw [hEntries, hAfter]
    exact h.enqueue codec message hLe (by omega) (hMax _)
  | acked _ _ _ _ hEntries _ hNumbers | none hEntries _ hNumbers =>
    have hSame : sent (log ++ state.entries codec serialize action) = sent log := by
      rw [sent_append, hEntries]
      exact append_nil _
    refine ⟨?_, ?_, ?_⟩
    · intro key
      obtain ⟨n, hn, hNext, hBelow⟩ := h.issued key
      refine ⟨n, Nat.le_trans hn (hLe key), ?_, ?_⟩
      · unfold nextSeqId at hNext ⊢
        rw [hNumbers]
        exact hNext
      · rw [hSame]
        exact hBelow
    · rw [hSame]
      exact h.ordered
    · rw [hSame]
      exact h.serialized

end

/-! ## Runs -/

theorem run_cons (hStep : state.step codec serialize order action = some after)
    (actions : List (WebsocketAction Msg Rpc)) :
    state.run codec serialize order (action :: actions) =
      (after.run codec serialize order actions).map fun final =>
        (final.1, state.entries codec serialize action ++ final.2) := by
  rw [run, hStep, Option.bind_eq_bind, Option.bind_some]
  cases after.run codec serialize order actions with
  | none | some _ => rfl

variable (codec serialize order) in
/-- **A run** never stops at the counter, and ends with the invariant. -/
theorem run_tracks (h : Tracks state log) (actions : List (WebsocketAction Msg Rpc)) :
    ∃ final added, state.run codec serialize order actions = some (final, added) ∧
      Tracks final (log ++ added) := by
  induction actions generalizing state log with
  | nil => exact ⟨state, [], rfl, by rwa [append_nil]⟩
  | cons action actions ih =>
    obtain ⟨after, hStep, -, hAfter⟩ := h.step codec serialize order action
    obtain ⟨final, added, hRun, hFinal⟩ := ih hAfter
    refine ⟨final, state.entries codec serialize action ++ added, ?_, ?_⟩
    · rw [run_cons hStep, hRun, Option.map_some]
    · rwa [← append_assoc]

/-- The numbers along a run. -/
theorem run_numbered {added : WebsocketLog Msg}
    {actions : List (WebsocketAction Msg Rpc)} {final : WebsocketState Msg}
    (hRun : state.run codec serialize order actions = some (final, added))
    (hTracks : Tracks state log) (h : Numbered serialize state log queued)
    (hMax : ∀ key, queued key + actions.countP (·.enqueuesOn key) ≤ u64Max) :
    Numbered serialize final (log ++ added)
      fun key => queued key + actions.countP (·.enqueuesOn key) := by
  induction actions generalizing state log added queued with
  | nil =>
    cases hRun
    rw [append_nil]
    exact h
  | cons action actions ih =>
    obtain ⟨after, hStep, hEffect, hAfter⟩ := hTracks.step codec serialize order action
    have hCount : ∀ key, (action :: actions).countP (·.enqueuesOn key) =
        (action.enqueuesOn key).toNat + actions.countP (·.enqueuesOn key) := by
      intro key
      rw [countP_cons, Nat.add_comm]
      cases action.enqueuesOn key <;> rfl
    rw [run_cons hStep] at hRun
    obtain ⟨⟨final', rest⟩, hRest, hEq⟩ := Option.map_eq_some_iff.mp hRun
    cases hEq
    have hNext := h.step hEffect fun key => by
      have := hMax key
      rw [hCount] at this
      omega
    have hFinal := ih hRest hAfter hNext fun key => by
      have := hMax key
      rw [hCount] at this
      omega
    rw [← append_assoc]
    simpa only [hCount, Nat.add_assoc] using hFinal

/-- Envelopes in order are distinct. -/
theorem Numbered.nodup (h : Numbered serialize state log queued) : (sent log).Nodup := by
  refine h.ordered.imp ?_
  intro a b hLt hEq
  subst hEq
  exact lt_irrefl _ (hLt rfl)

/-- **No envelope is lost before it is acknowledged.** In every run the counter is the number of
buffered envelopes and does not underflow. If there are no more messages on a stream than sequence
numbers, the queues are in order, an envelope is in the buffer exactly as long as no
acknowledgement covers it, and what is in the buffer is sent again on a new connection. -/
theorem buffered_iff_unacknowledged (codec : Codec Msg Rpc)
    (serialize : ServerEnvelope Msg → Option Text) (order : AssemblyOrder)
    (actions : List (WebsocketAction Msg Rpc)) :
    ∃ (state : WebsocketState Msg) (log : WebsocketLog Msg),
      new.run codec serialize order actions = some (state, log) ∧
      state.outboundBuffer.used = state.outboundBuffer.bufferByStream.count ∧
      state.outboundBuffer.used < channelCapacity + segmentCountMax ∧
      ((∀ key, actions.countP (·.enqueuesOn key) ≤ u64Max) →
        (∀ key, (state.outboundBuffer.queue key).Pairwise fun a b => a.wireCursor < b.wireCursor) ∧
        ∀ before envelope after, log = before ++ .sent envelope :: after →
          (envelope ∈ state.outboundBuffer.queue envelope.streamKey ↔
            ∀ ack ∈ acks after,
              ¬(envelope.streamKey = ack.key ∧ envelope.wireCursor ≤ ack.cursor)) ∧
          (envelope ∈ state.outboundBuffer.queue envelope.streamKey →
            ∀ iteration, ∃ payload, serialize envelope = some payload ∧
              payload ∈ state.resend serialize iteration)) := by
  obtain ⟨state, log, hRun, hTracks⟩ :=
    run_tracks codec serialize order (tracks_new : Tracks (new : WebsocketState Msg) []) actions
  rw [nil_append] at hTracks
  refine ⟨state, log, hRun, hTracks.counted, hTracks.used_lt, ?_⟩
  intro hMax
  have hNumbered := run_numbered hRun tracks_new numbered_new
    (fun key => (Nat.zero_add _).symm ▸ hMax key)
  rw [nil_append] at hNumbered
  constructor
  · intro key
    rw [hTracks.queue_eq]
    have hOutstanding := hNumbered.ordered.sublist
      (outstanding_sublist_sent ProcessedAck.covers log)
    refine (hOutstanding.filter _).imp_of_mem ?_
    intro a b ha hb hLt
    have ha := (mem_filter.mp ha).2
    have hb := (mem_filter.mp hb).2
    simp only [decide_eq_true_eq] at ha hb
    exact hLt (ha.trans hb.symm)
  · intro before envelope after hLog
    subst hLog
    constructor
    · rw [hTracks.queue_eq, mem_filter, decide_eq_true_eq,
        mem_outstanding_iff _ hNumbered.nodup]
      simp [ProcessedAck.covers]
    intro hMem iteration
    have hSome := hNumbered.serialized envelope
      (by rw [sent_append]; exact mem_append_right _ mem_cons_self)
    obtain ⟨payload, hPayload⟩ := Option.isSome_iff_exists.mp hSome
    exact ⟨payload, hPayload, mem_filterMap.mpr
      ⟨envelope, mem_serverEnvelopes iteration hMem, hPayload⟩⟩

end WebsocketState

/-! ## One stream with pongs -/

def pongKey : StreamKey := (⟨"client"⟩, ⟨"stream"⟩)

def queuedPong : QueuedServerEnvelope (List UInt8) where
  event := .pong .active
  clientId := pongKey.1
  streamId := pongKey.2

def sentPong (seqId : Nat) : ServerEnvelope (List UInt8) where
  event := .pong .active
  clientId := pongKey.1
  streamId := pongKey.2
  seqId := seqId

/-- All of a stream is acknowledged up to a number. -/
def ackUpTo (seqId : Nat) : WebsocketAction (List UInt8) (List UInt8) :=
  .receive 0
    { event := .ack none
      clientId := pongKey.1
      streamId := some pongKey.2
      seqId := some seqId
      cursor := none } 0 true

def emptyPayload (_ : ServerEnvelope (List UInt8)) : Option Text := some []

namespace WebsocketState

/-- Two messages, and the first one is acknowledged. -/
theorem second_pong_in_order :
    ∃ (state : WebsocketState (List UInt8)) (log : WebsocketLog (List UInt8)),
      new.run jsonCodec emptyPayload entryOrder
        [.enqueue queuedPong, .enqueue queuedPong, ackUpTo 1] = some (state, log) ∧
      ∀ key, (state.outboundBuffer.queue key).Pairwise fun a b => a.wireCursor < b.wireCursor := by
  obtain ⟨state, log, hRun, -, -, hOrder⟩ := buffered_iff_unacknowledged jsonCodec emptyPayload
    entryOrder [.enqueue queuedPong, .enqueue queuedPong, ackUpTo 1]
  have hFew := hOrder fun key => countP_le_length.trans (by decide)
  exact ⟨state, log, hRun, hFew.1⟩

/-- The state between rounds on the one stream, with `n` as the next number. -/
def pongState (n : Nat) (queues : MultiMap StreamKey (ServerEnvelope (List UInt8))) (used : Nat) :
    WebsocketState (List UInt8) :=
  { (new : WebsocketState (List UInt8)) with
    outboundBuffer := ⟨queues, used⟩
    nextSeqIdByStream := singleton pongKey n }

theorem step_pong (n : Nat) :
    (pongState n ∅ 0).step jsonCodec emptyPayload entryOrder (.enqueue queuedPong) =
      some (pongState (saturatingAdd n 1) (singleton pongKey [sentPong n]) 1) := rfl

theorem step_ackUpTo {n : Nat} (hn : n ≤ u64Max) (next : Nat) :
    (pongState next (singleton pongKey [sentPong n]) 1).step jsonCodec emptyPayload
      entryOrder (ackUpTo u64Max) = some (pongState next ∅ 0) := by
  have hCovered : (sentPong n).wireCursor ≤ ackedCursor u64Max none :=
    Prod.Lex.toLex_le_toLex.mpr ((Nat.lt_or_eq_of_le hn).imp_right fun h => ⟨h, Nat.zero_le _⟩)
  show Option.bind (Option.bind (Option.bind (if _ ≤ ackedCursor u64Max none then _ else _) _) _) _ = _
  rw [if_pos hCovered]
  rfl

/-- A message and its acknowledgement, again and again. -/
def pongRounds (k : Nat) : List (WebsocketAction (List UInt8) (List UInt8)) :=
  (List.replicate k [.enqueue queuedPong, ackUpTo u64Max]).flatten

theorem pongRounds_succ (k : Nat) (rest : List (WebsocketAction (List UInt8) (List UInt8))) :
    pongRounds (k + 1) ++ rest =
      .enqueue queuedPong :: ackUpTo u64Max :: (pongRounds k ++ rest) := by
  unfold pongRounds
  rfl

/-- After `k` rounds the numbers have gone up by `k`, or to the end. -/
theorem run_pongRounds (k : Nat) {n : Nat} (hn : n ≤ u64Max) : ∃ log, ∀ rest,
      (pongState n ∅ 0).run jsonCodec emptyPayload entryOrder (pongRounds k ++ rest) =
        ((pongState (min (n + k) u64Max) ∅ 0).run jsonCodec emptyPayload entryOrder rest).map
          fun final => (final.1, log ++ final.2) := by
  induction k generalizing n with
  | zero =>
    refine ⟨[], fun rest => ?_⟩
    rw [Nat.add_zero, Nat.min_eq_left hn]
    simp [pongRounds]
  | succ k ih =>
    obtain ⟨log, hRun⟩ := ih (Nat.min_le_right (n + 1) u64Max)
    refine ⟨.sent (sentPong n) :: .acked ⟨pongKey, ackedCursor u64Max none⟩ :: log, fun rest => ?_⟩
    have hSum : min (saturatingAdd n 1 + k) u64Max = min (n + (k + 1)) u64Max := by
      unfold saturatingAdd
      omega
    rw [pongRounds_succ, run_cons (step_pong n), run_cons (step_ackUpTo hn _), ← hSum]
    show ((run _ _ _ (pongState (min (n + 1) u64Max) ∅ 0) _).map _).map _ = _
    rw [hRun, Option.map_map, Option.map_map]
    rfl

/-- When the numbers of a stream have run out, two messages in its queue have the same one. -/
theorem last_number_twice :
    ∃ (state : WebsocketState (List UInt8)) (log : WebsocketLog (List UInt8)),
      new.run jsonCodec emptyPayload entryOrder
        (pongRounds (u64Max - 1) ++ [.enqueue queuedPong, .enqueue queuedPong]) =
          some (state, log) ∧
      state.outboundBuffer.queue pongKey = [sentPong u64Max, sentPong u64Max] ∧
      ¬(state.outboundBuffer.queue pongKey).Pairwise fun a b => a.wireCursor < b.wireCursor := by
  obtain ⟨log, hRun⟩ := run_pongRounds (u64Max - 1) (n := 1) (by decide)
  have hTwo := hRun [.enqueue queuedPong, .enqueue queuedPong]
  refine ⟨pongState u64Max (singleton pongKey [sentPong u64Max, sentPong u64Max]) 2,
    log ++ [.sent (sentPong u64Max), .sent (sentPong u64Max)], ?_, rfl, ?_⟩
  · -- the first number is 1 without being stored
    exact hTwo
  · intro hOrdered
    have hPair : [sentPong u64Max, sentPong u64Max].Pairwise
        fun a b => a.wireCursor < b.wireCursor := hOrdered
    rw [pairwise_pair] at hPair
    exact lt_irrefl _ hPair

end WebsocketState

end Codex.RemoteControl
