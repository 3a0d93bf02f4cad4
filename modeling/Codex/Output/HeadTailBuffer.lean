import Codex.Std.Usize
import Mathlib.Data.List.DropRight

/-!
# Codex — the two ends of a stream

`HeadTailBuffer` in `core/src/unified_exec/head_tail_buffer.rs`. Output of a process comes in chunks;
the buffer keeps its first bytes in `head` and its last ones in `tail`, as chunks, with the number of
bytes counted beside them. Counters are `usize` and saturate.

`Holds` says what a buffer keeps of the bytes pushed so far. Every push keeps it, whichever way the
chunk is cut (`Holds.pushChunk`), so the chunks do not matter (`pushChunks_keep_ends`).
-/

namespace Codex.Output

open Usize List

abbrev Bytes := List UInt8

/-! ## Definitions -/

structure HeadTailBuffer where
  maxBytes : Nat
  headBudget : Nat
  tailBudget : Nat
  head : List Bytes
  tail : List Bytes
  headBytes : Nat
  tailBytes : Nat
  omittedBytes : Nat
  deriving DecidableEq, Repr

namespace HeadTailBuffer

def new (maxBytes : Nat) : HeadTailBuffer :=
  let headBudget := maxBytes / 2
  { maxBytes, headBudget, tailBudget := maxBytes - headBudget, head := [], tail := []
    headBytes := 0, tailBytes := 0, omittedBytes := 0 }

variable (buffer : HeadTailBuffer)

/-- The loop of `trim_tail_to_budget`, on the tail, its byte count and the omitted bytes. -/
def trimLoop : Nat → List Bytes → Nat → Nat → List Bytes × Nat × Nat
  | _, [], tailBytes, omittedBytes => ([], tailBytes, omittedBytes)
  | excess, front :: rest, tailBytes, omittedBytes =>
    if excess = 0 then (front :: rest, tailBytes, omittedBytes)
    else if front.length ≤ excess then
      trimLoop (excess - front.length) rest (tailBytes - front.length)
        (saturatingAdd omittedBytes front.length)
    else (front.drop excess :: rest, tailBytes - excess, saturatingAdd omittedBytes excess)

def trimTailToBudget : HeadTailBuffer :=
  let excess := buffer.tailBytes - buffer.tailBudget
  let (tail, tailBytes, omittedBytes) :=
    trimLoop excess buffer.tail buffer.tailBytes buffer.omittedBytes
  { buffer with tail, tailBytes, omittedBytes }

def pushToTail (chunk : Bytes) : HeadTailBuffer :=
  if buffer.tailBudget = 0 then
    { buffer with omittedBytes := saturatingAdd buffer.omittedBytes chunk.length }
  else if buffer.tailBudget ≤ chunk.length then
    let kept := chunk.drop (chunk.length - buffer.tailBudget)
    let dropped := chunk.length - kept.length
    { buffer with
      omittedBytes := saturatingAdd (saturatingAdd buffer.omittedBytes buffer.tailBytes) dropped
      tail := [kept], tailBytes := kept.length }
  else
    trimTailToBudget
      { buffer with
        tailBytes := saturatingAdd buffer.tailBytes chunk.length
        tail := buffer.tail ++ [chunk] }

def pushChunk (chunk : Bytes) : HeadTailBuffer :=
  if buffer.maxBytes = 0 then
    { buffer with omittedBytes := saturatingAdd buffer.omittedBytes chunk.length }
  else if buffer.headBytes < buffer.headBudget then
    let remainingHead := buffer.headBudget - buffer.headBytes
    if chunk.length ≤ remainingHead then
      { buffer with
        headBytes := saturatingAdd buffer.headBytes chunk.length
        head := buffer.head ++ [chunk] }
    else
      let headPart := chunk.take remainingHead
      let buffer :=
        if headPart.isEmpty then buffer
        else
          { buffer with
            headBytes := saturatingAdd buffer.headBytes headPart.length
            head := buffer.head ++ [headPart] }
      buffer.pushToTail (chunk.drop remainingHead)
  else buffer.pushToTail chunk

def toBytes : Bytes := buffer.head.flatten ++ buffer.tail.flatten

def drainChunks : List Bytes × HeadTailBuffer :=
  (buffer.head ++ buffer.tail,
    { buffer with head := [], tail := [], headBytes := 0, tailBytes := 0, omittedBytes := 0 })

end HeadTailBuffer

/-! ## The end of a list -/

section Rtake

variable {α : Type} {n : Nat}

theorem length_rtake (xs : List α) (n : Nat) : (xs.rtake n).length = min n xs.length := by
  unfold rtake
  rw [length_drop]
  omega

theorem rtake_of_length_le {xs : List α} (h : xs.length ≤ n) : xs.rtake n = xs := by
  unfold rtake
  rw [Nat.sub_eq_zero_of_le h, drop_zero]

/-- The end of a list is in its second part, if that is long enough. -/
theorem rtake_append_of_le {xs ys : List α} (h : n ≤ ys.length) :
    (xs ++ ys).rtake n = ys.rtake n := by
  have hSkip : (xs ++ ys).length - n = xs.length + (ys.length - n) := by
    rw [length_append]
    omega
  unfold rtake
  rw [hSkip, drop_length_add_append]

/-- Only the end of the first part matters for the end of a list. -/
theorem rtake_rtake_append (xs ys : List α) (n : Nat) :
    (xs.rtake n ++ ys).rtake n = (xs ++ ys).rtake n := by
  by_cases hLong : n ≤ xs.length
  · have hSplit : xs ++ ys = xs.take (xs.length - n) ++ (xs.rtake n ++ ys) := by
      unfold rtake
      rw [← append_assoc, take_append_drop]
    have hLength : n ≤ (xs.rtake n ++ ys).length := by
      rw [length_append, length_rtake]
      omega
    rw [hSplit, rtake_append_of_le hLength]
  · have hAll : xs.rtake n = xs := rtake_of_length_le (by omega)
    rw [hAll]

end Rtake

/-! ## The tail -/

namespace HeadTailBuffer

/-- Trimming drops `excess` bytes from the front. -/
theorem trimLoop_spec {excess omittedBytes : Nat} {tail : List Bytes}
    (hExcess : excess ≤ tail.flatten.length) (hOmitted : omittedBytes + excess ≤ usizeMax) :
    ∃ left, trimLoop excess tail tail.flatten.length omittedBytes =
        (left, tail.flatten.length - excess, omittedBytes + excess) ∧
      left.flatten = tail.flatten.drop excess := by
  induction tail generalizing excess omittedBytes with
  | nil =>
    have hZero : excess = 0 := Nat.le_zero.mp hExcess
    subst hZero
    exact ⟨[], rfl, rfl⟩
  | cons front rest ih =>
    rw [flatten_cons, length_append] at hExcess
    rw [trimLoop, flatten_cons, length_append]
    split_ifs with hZero hFront
    · subst hZero
      exact ⟨front :: rest, rfl, rfl⟩
    · -- the whole chunk goes
      obtain ⟨left, hLoop, hLeft⟩ := ih
        (by omega : excess - front.length ≤ rest.flatten.length)
        (by omega : omittedBytes + front.length + (excess - front.length) ≤ usizeMax)
      have hBytes : front.length + rest.flatten.length - front.length = rest.flatten.length := by
        omega
      rw [saturatingAdd_of_le (by omega), hBytes, hLoop]
      refine ⟨left, ?_, ?_⟩
      · congr 2 <;> omega
      · rw [hLeft, drop_append, drop_eq_nil_of_le hFront, nil_append]
    · rw [saturatingAdd_of_le hOmitted]
      refine ⟨front.drop excess :: rest, rfl, ?_⟩
      rw [flatten_cons, drop_append_of_le_length (by omega)]

/-- What a push to the tail leaves alone. -/
structure SameHead (buffer after : HeadTailBuffer) : Prop where
  maxBytes : after.maxBytes = buffer.maxBytes
  headBudget : after.headBudget = buffer.headBudget
  tailBudget : after.tailBudget = buffer.tailBudget
  head : after.head = buffer.head
  headBytes : after.headBytes = buffer.headBytes

/-- A push to the tail keeps the end of the tail with the chunk, and counts what goes. -/
structure TailPushed (buffer : HeadTailBuffer) (chunk : Bytes) (after : HeadTailBuffer) : Prop
    extends SameHead buffer after where
  tail : after.tail.flatten = (buffer.tail.flatten ++ chunk).rtake buffer.tailBudget
  tailBytes : after.tailBytes = after.tail.flatten.length
  omitted : after.omittedBytes + after.tailBytes =
    buffer.omittedBytes + buffer.tailBytes + chunk.length

variable {buffer : HeadTailBuffer} {maxBytes : Nat} {pushed chunk : Bytes}

theorem pushToTail_spec (chunk : Bytes) (hBytes : buffer.tailBytes = buffer.tail.flatten.length)
    (hBudget : buffer.tailBytes ≤ buffer.tailBudget)
    (hSize : buffer.omittedBytes + buffer.tailBytes + chunk.length ≤ usizeMax) :
    TailPushed buffer chunk (buffer.pushToTail chunk) := by
  unfold pushToTail
  by_cases hNone : buffer.tailBudget = 0
  · rw [if_pos hNone, saturatingAdd_of_le (by omega)]
    have hEmpty : buffer.tail.flatten = [] := eq_nil_of_length_eq_zero (by omega)
    refine ⟨⟨rfl, rfl, rfl, rfl, rfl⟩, ?_, hBytes, ?_⟩
    · rw [hNone, hEmpty, rtake_zero]
    · dsimp only
      omega
  · rw [if_neg hNone]
    by_cases hLarge : buffer.tailBudget ≤ chunk.length
    · -- the chunk alone fills the budget
      rw [if_pos hLarge]
      have hKept : chunk.drop (chunk.length - buffer.tailBudget) = chunk.rtake buffer.tailBudget := rfl
      have hLength : (chunk.rtake buffer.tailBudget).length = buffer.tailBudget := by
        rw [length_rtake]
        omega
      refine ⟨⟨rfl, rfl, rfl, rfl, rfl⟩, ?_, ?_, ?_⟩
      · show [chunk.rtake buffer.tailBudget].flatten = _
        rw [flatten_singleton, rtake_append_of_le hLarge]
      · show (chunk.rtake buffer.tailBudget).length = [chunk.rtake buffer.tailBudget].flatten.length
        rw [flatten_singleton]
      · have hBefore : saturatingAdd buffer.omittedBytes buffer.tailBytes =
            buffer.omittedBytes + buffer.tailBytes := saturatingAdd_of_le (by omega)
        dsimp only
        rw [hKept, saturatingAdd_of_le (by omega)]
        omega
    · rw [if_neg hLarge, saturatingAdd_of_le (by omega)]
      have hFlat : (buffer.tail ++ [chunk]).flatten = buffer.tail.flatten ++ chunk := by simp
      have hLength : (buffer.tail ++ [chunk]).flatten.length = buffer.tailBytes + chunk.length := by
        rw [hFlat, length_append, hBytes]
      have hExcess : buffer.tailBytes + chunk.length - buffer.tailBudget ≤
          (buffer.tail ++ [chunk]).flatten.length := by omega
      obtain ⟨left, hLoop, hLeft⟩ := trimLoop_spec hExcess
        (by omega : buffer.omittedBytes + (buffer.tailBytes + chunk.length - buffer.tailBudget) ≤
          usizeMax)
      rw [hLength] at hLoop
      unfold trimTailToBudget
      dsimp only
      rw [hLoop]
      have hRtake : left.flatten = (buffer.tail.flatten ++ chunk).rtake buffer.tailBudget := by
        unfold rtake
        rw [hLeft, ← hFlat, hLength]
      refine ⟨⟨rfl, rfl, rfl, rfl, rfl⟩, hRtake, ?_, ?_⟩
      · rw [hLeft, length_drop, hLength]
      · dsimp only
        omega

/-! ## Pushes -/

/-- The buffer keeps the first half of its capacity of the bytes pushed so far, and of the rest the
last bytes that fit; every byte is counted once. -/
structure Holds (maxBytes : Nat) (buffer : HeadTailBuffer) (pushed : Bytes) : Prop where
  max : buffer.maxBytes = maxBytes
  headBudget : buffer.headBudget = maxBytes / 2
  tailBudget : buffer.tailBudget = maxBytes - maxBytes / 2
  head : buffer.head.flatten = pushed.take (maxBytes / 2)
  tail : buffer.tail.flatten = (pushed.drop (maxBytes / 2)).rtake (maxBytes - maxBytes / 2)
  headBytes : buffer.headBytes = buffer.head.flatten.length
  tailBytes : buffer.tailBytes = buffer.tail.flatten.length
  omitted : buffer.omittedBytes + buffer.tailBytes + buffer.headBytes = pushed.length

theorem holds_new (maxBytes : Nat) : Holds maxBytes (new maxBytes) [] where
  max := rfl
  headBudget := rfl
  tailBudget := rfl
  head := by rw [take_nil]; rfl
  tail := by rw [drop_nil, rtake_of_length_le (Nat.zero_le _)]; rfl
  headBytes := rfl
  tailBytes := rfl
  omitted := rfl

section

variable (h : Holds maxBytes buffer pushed)
include h

theorem Holds.length_head : buffer.headBytes = min (maxBytes / 2) pushed.length := by
  rw [h.headBytes, h.head, length_take]

theorem Holds.length_tail :
    buffer.tailBytes = min (maxBytes - maxBytes / 2) (pushed.length - maxBytes / 2) := by
  rw [h.tailBytes, h.tail, length_rtake, length_drop]

/-- A push to the tail, when the head is full with the bytes before the chunk. -/
theorem Holds.pushToTail (hFull : maxBytes / 2 ≤ pushed.length)
    (hSize : pushed.length + chunk.length ≤ usizeMax) :
    Holds maxBytes (buffer.pushToTail chunk) (pushed ++ chunk) := by
  have hTailLength := h.length_tail
  have hCounted := h.omitted
  have hPush : TailPushed buffer chunk (buffer.pushToTail chunk) := by
    refine pushToTail_spec chunk h.tailBytes ?_ (by omega)
    rw [h.tailBudget]
    omega
  have hOmitted := hPush.omitted
  refine ⟨?_, ?_, ?_, ?_, ?_, ?_, hPush.tailBytes, ?_⟩
  · rw [hPush.maxBytes, h.max]
  · rw [hPush.headBudget, h.headBudget]
  · rw [hPush.tailBudget, h.tailBudget]
  · rw [hPush.head, h.head, take_append_of_le_length hFull]
  · rw [hPush.tail, h.tail, h.tailBudget, drop_append_of_le_length hFull, rtake_rtake_append]
  · rw [hPush.headBytes, hPush.head, h.headBytes]
  · rw [hPush.headBytes, length_append]
    omega

/-- A chunk that fits into the head. -/
theorem Holds.pushToHead (hFits : pushed.length + chunk.length ≤ maxBytes / 2)
    (hSize : pushed.length + chunk.length ≤ usizeMax) : Holds maxBytes
      { buffer with
        headBytes := saturatingAdd buffer.headBytes chunk.length
        head := buffer.head ++ [chunk] } (pushed ++ chunk) := by
  have hCounted := h.omitted
  have hFlat : (buffer.head ++ [chunk]).flatten = buffer.head.flatten ++ chunk := by simp
  have hSum : saturatingAdd buffer.headBytes chunk.length = buffer.headBytes + chunk.length :=
    saturatingAdd_of_le (by omega)
  have hAll : (pushed ++ chunk).length ≤ maxBytes / 2 := by
    rw [length_append]
    exact hFits
  refine ⟨h.max, h.headBudget, h.tailBudget, ?_, ?_, ?_, h.tailBytes, ?_⟩
  · show (buffer.head ++ [chunk]).flatten = _
    rw [hFlat, h.head, take_of_length_le (by omega), take_of_length_le hAll]
  · show buffer.tail.flatten = _
    rw [h.tail, drop_eq_nil_of_le (by omega), drop_eq_nil_of_le hAll]
  · show saturatingAdd buffer.headBytes chunk.length = (buffer.head ++ [chunk]).flatten.length
    rw [hSum, hFlat, length_append, h.headBytes]
  · show buffer.omittedBytes + buffer.tailBytes + saturatingAdd buffer.headBytes chunk.length = _
    rw [length_append]
    omega

/-- **One push.** -/
theorem Holds.pushChunk (hSize : pushed.length + chunk.length ≤ usizeMax) :
    Holds maxBytes (buffer.pushChunk chunk) (pushed ++ chunk) := by
  have hHeadLength := h.length_head
  have hBudget := h.headBudget
  unfold HeadTailBuffer.pushChunk
  by_cases hZero : buffer.maxBytes = 0
  · -- a buffer without capacity counts only, as a tail without budget does
    have hNone : buffer.tailBudget = 0 := by
      rw [h.tailBudget, ← h.max, hZero]
    have hTail : buffer.pushToTail chunk =
        { buffer with omittedBytes := saturatingAdd buffer.omittedBytes chunk.length } := by
      unfold HeadTailBuffer.pushToTail
      rw [if_pos hNone]
    rw [if_pos hZero, ← hTail]
    refine h.pushToTail ?_ hSize
    rw [← h.max, hZero]
    exact Nat.zero_le _
  · rw [if_neg hZero]
    by_cases hRoom : buffer.headBytes < buffer.headBudget
    · rw [if_pos hRoom]
      dsimp only
      generalize hRemaining : buffer.headBudget - buffer.headBytes = remaining
      by_cases hFits : chunk.length ≤ remaining
      · rw [if_pos hFits]
        exact h.pushToHead (by omega) hSize
      -- the chunk is cut where the head is full
      have hPart : (chunk.take remaining).length = remaining := by
        rw [length_take]
        omega
      have hSome : ¬ (chunk.take remaining).isEmpty = true := by
        rw [isEmpty_iff_length_eq_zero]
        omega
      have hRest : (chunk.drop remaining).length = chunk.length - remaining := length_drop
      have hHead := h.pushToHead
        (by omega : pushed.length + (chunk.take remaining).length ≤ maxBytes / 2) (by omega)
      have hLength : (pushed ++ chunk.take remaining).length = maxBytes / 2 := by
        rw [length_append]
        omega
      have hWhole := hHead.pushToTail (le_of_eq hLength.symm)
        (by omega : (pushed ++ chunk.take remaining).length + (chunk.drop remaining).length ≤
          usizeMax)
      rw [append_assoc, take_append_drop] at hWhole
      rw [if_neg hFits, if_neg hSome]
      exact hWhole
    · rw [if_neg hRoom]
      exact h.pushToTail (by omega) hSize

/-- Every push. -/
theorem Holds.pushChunks (chunks : List Bytes)
    (hSize : pushed.length + chunks.flatten.length ≤ usizeMax) :
    Holds maxBytes (chunks.foldl HeadTailBuffer.pushChunk buffer) (pushed ++ chunks.flatten) := by
  induction chunks generalizing buffer pushed with
  | nil => rwa [flatten_nil, append_nil]
  | cons chunk chunks ih =>
    rw [flatten_cons, length_append] at hSize
    rw [flatten_cons, ← append_assoc]
    refine ih (h.pushChunk (by omega)) ?_
    rw [length_append]
    omega

/-- Draining starts over. -/
theorem drainChunks_eq_new :
    buffer.drainChunks.1.flatten = buffer.toBytes ∧ buffer.drainChunks.2 = new maxBytes := by
  refine ⟨flatten_append, ?_⟩
  unfold drainChunks new
  rw [h.max, h.headBudget, h.tailBudget]

end

/-- **The two ends of the stream.** However the bytes are cut into chunks, the buffer has the first
`maxBytes / 2` of them and as many of the last ones as fit into the other half, and its counters are
exact. -/
theorem pushChunks_keep_ends (maxBytes : Nat) (chunks : List Bytes)
    (hSize : chunks.flatten.length ≤ usizeMax) :
    let s := chunks.flatten
    let h := maxBytes / 2
    let t := maxBytes - h
    let buffer := chunks.foldl HeadTailBuffer.pushChunk (new maxBytes)
    buffer.toBytes = s.take (min s.length h) ++
        (s.drop (min s.length h)).rtake (min t (s.length - min s.length h)) ∧
      buffer.omittedBytes = s.length - buffer.toBytes.length ∧
      buffer.headBytes = buffer.head.flatten.length ∧
      buffer.tailBytes = buffer.tail.flatten.length := by
  intro s h t buffer
  have hHolds : Holds maxBytes buffer s :=
    (holds_new maxBytes).pushChunks chunks (by rw [length_nil, Nat.zero_add]; exact hSize)
  have hHead : s.take (min s.length h) = s.take h := by
    rw [take_eq_take_iff]
    omega
  have hDrop : s.drop (min s.length h) = s.drop h := by
    rcases Nat.le_total h s.length with hLe | hLe
    · rw [Nat.min_eq_right hLe]
    · rw [Nat.min_eq_left hLe, drop_length, drop_eq_nil_of_le hLe]
  have hTail : (s.drop h).rtake (min t (s.length - min s.length h)) = (s.drop h).rtake t := by
    unfold rtake
    rw [length_drop]
    congr 1
    omega
  have hBytes : buffer.toBytes = s.take h ++ (s.drop h).rtake t := by
    unfold toBytes
    rw [hHolds.head, hHolds.tail]
  refine ⟨?_, ?_, hHolds.headBytes, hHolds.tailBytes⟩
  · rw [hHead, hDrop, hTail, hBytes]
  · have hCounted := hHolds.omitted
    have hLength : buffer.toBytes.length = buffer.headBytes + buffer.tailBytes := by
      unfold toBytes
      rw [length_append, hHolds.headBytes, hHolds.tailBytes]
    omega

/-- Eight bytes in four chunks, the second one empty, into a buffer of five. -/
theorem eight_bytes_into_five :
    ([[1, 2, 3], [], [4, 5, 6, 7], [8]].foldl HeadTailBuffer.pushChunk (new 5)).toBytes =
      [1, 2, 6, 7, 8] :=
  (pushChunks_keep_ends 5 [[1, 2, 3], [], [4, 5, 6, 7], [8]] (by decide)).1

/-- What comes out if the buffer is drained after each group of chunks. -/
def drainEach : HeadTailBuffer → List (List Bytes) → List Bytes
  | _, [] => []
  | buffer, chunks :: later =>
    let drained := (chunks.foldl pushChunk buffer).drainChunks
    drained.1.flatten :: drained.2.drainEach later

/-- **Draining** gives the two ends of what was pushed since the last time. -/
theorem drainEach_keeps_ends (maxBytes : Nat) (groups : List (List Bytes))
    (hSize : ∀ chunks ∈ groups, chunks.flatten.length ≤ usizeMax) :
    (new maxBytes).drainEach groups = groups.map fun chunks =>
      chunks.flatten.take (maxBytes / 2) ++
        (chunks.flatten.drop (maxBytes / 2)).rtake (maxBytes - maxBytes / 2) := by
  induction groups with
  | nil => rfl
  | cons chunks later ih =>
    obtain ⟨hFirst, hLater⟩ := forall_mem_cons.mp hSize
    have hHolds := (holds_new maxBytes).pushChunks chunks (by simpa using hFirst)
    obtain ⟨hDrained, hNew⟩ := drainChunks_eq_new hHolds
    rw [drainEach, hDrained, hNew, ih hLater, map_cons, toBytes, hHolds.head, hHolds.tail,
      nil_append]

theorem drained_twice :
    (new 4).drainEach [[[1, 2], [3, 4, 5, 6]], [[7], [8]]] = [[1, 2, 5, 6], [7, 8]] :=
  drainEach_keeps_ends 4 [[[1, 2], [3, 4, 5, 6]], [[7], [8]]] (by decide)

end HeadTailBuffer

end Codex.Output
