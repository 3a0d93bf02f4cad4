import Codex.StreamParser.HiddenTags
import Mathlib.Data.Set.Finite.Lemmas

/-!
# Codex — hidden tags and chunk boundaries

`drain` is what a parser puts out when the whole text is pending. Pushing the text in
chunks gives the same, unless a chunk ends where a short opener is complete and a longer
one around it is not: the short one then wins, although the longer one starts no later.

* Without such openers (`NoInnerOpener`), a push settles part of what `drain` says of the
  text so far and any rest (`foretells_drain`), so chunks do not matter
  (`collectChunks_eq_drain`).
* With one, a text that shows it is the outer opener itself, cut before its last
  character (`exists_sensitive`).

Result: `chunking_insensitive_iff`.
-/

namespace Codex.StreamParser

open Search Transducer List StreamTextParser InlineHiddenTagParser

variable {T : Type} {specs : List (InlineTagSpec T)}
variable {active active' : Option (ActiveTag T)} {text pending pending' rest : Text}
variable {out : StreamTextChunk (ExtractedInlineTag T)}

/-- No opener lies inside another one, short of its last character. -/
def NoInnerOpener (specs : List (InlineTagSpec T)) : Prop :=
  ∀ outer ∈ specs, ∀ inner ∈ specs, ¬inner.openText <:+: outer.openText.dropLast

/-- Everything a parser puts out whose whole text is pending. -/
def drain (specs : List (InlineTagSpec T)) (active : Option (ActiveTag T)) (text : Text) :
    StreamTextChunk (ExtractedInlineTag T) :=
  let (out, active, pending) := pushLoop specs (loopFuel text) active text
  out + flush active pending

/-! ## The loop runs to its end -/

/-- A bound on the rounds that are left. -/
def rounds (active : Option (ActiveTag T)) (text : Text) : Nat :=
  2 * text.length + (if active.isSome then 1 else 0)

theorem rounds_none : rounds (none : Option (ActiveTag T)) text = 2 * text.length := rfl

theorem rounds_some (tag : ActiveTag T) : rounds (some tag) text = 2 * text.length + 1 := rfl

theorem rounds_lt_loopFuel : rounds active text < loopFuel text := by
  unfold rounds loopFuel
  split <;> omega

variable {tag : ActiveTag T} {i k n : Nat} {spec : InlineTagSpec T}

theorem loopBody_active (h : find tag.close text = some i) : loopBody specs (some tag) text =
      .next (.payload { tag := tag.tag, content := tag.content ++ text.take i }) none
        (text.drop (i + tag.close.length)) := by
  simp only [loopBody, h]

theorem loopBody_unclosed (specs : List (InlineTagSpec T)) (h : find tag.close text = none) :
    loopBody specs (some tag) text = .stop 0
      (some { tag with
        content := tag.content ++ text.take (text.length - longestSuffixPrefixLen text tag.close) })
      (text.drop (text.length - longestSuffixPrefixLen text tag.close)) := by
  simp only [loopBody, h]

theorem loopBody_opens (h : OpensAt specs text i k spec) : loopBody specs none text =
      .next (.visible (text.take i))
        (some { tag := spec.tag, close := spec.closeText, content := [] })
        (text.drop (i + spec.openText.length)) := by
  simp only [loopBody, findNextOpen_eq_some_iff.mpr ⟨spec, h⟩, h.get]

/-- What a round does: it closes the active tag or opens the next one and goes on, or it finds no
delimiter and holds back what may become one. -/
inductive Round (specs : List (InlineTagSpec T)) (text : Text) :
    Option (ActiveTag T) → LoopStep T → Prop
  | closes {tag : ActiveTag T} {i : Nat} (hFind : find tag.close text = some i) :
      Round specs text (some tag)
        (.next (.payload { tag := tag.tag, content := tag.content ++ text.take i }) none
          (text.drop (i + tag.close.length)))
  | opens {i k : Nat} {spec : InlineTagSpec T} (hOpens : OpensAt specs text i k spec) :
      Round specs text none
        (.next (.visible (text.take i))
          (some { tag := spec.tag, close := spec.closeText, content := [] })
          (text.drop (i + spec.openText.length)))
  | unclosed {tag : ActiveTag T} (hFind : find tag.close text = none) : Round specs text (some tag)
      (.stop 0 (some { tag with
        content := tag.content ++ text.take (text.length - longestSuffixPrefixLen text tag.close) })
        (text.drop (text.length - longestSuffixPrefixLen text tag.close)))
  | unopened (hFind : findNextOpen specs text = none) : Round specs text none
      (.stop (.visible (text.take (text.length - maxOpenPrefixSuffixLen specs text))) none
        (text.drop (text.length - maxOpenPrefixSuffixLen specs text)))

theorem round_loopBody (specs : List (InlineTagSpec T)) (active : Option (ActiveTag T))
    (text : Text) : Round specs text active (loopBody specs active text) := by
  cases active with
  | some tag =>
    cases hFind : find tag.close text with
    | some i => exact loopBody_active hFind ▸ .closes hFind
    | none => exact loopBody_unclosed specs hFind ▸ .unclosed hFind
  | none =>
    cases hFind : findNextOpen specs text with
    | some found =>
      obtain ⟨spec, hOpens⟩ := findNextOpen_eq_some_iff.mp hFind
      exact loopBody_opens hOpens ▸ .opens hOpens
    | none =>
      simp only [loopBody, hFind]
      exact .unopened hFind

section

variable (hAccepted : Accepted specs) {front : Text}
include hAccepted

theorem rounds_lt_of_next (h : loopBody specs active text = .next out active' rest) :
    rounds active' rest < rounds active text := by
  cases h ▸ round_loopBody specs active text with
  | closes hFind =>
    rw [rounds_none, rounds_some, length_drop]
    omega
  | @opens i k spec hOpens =>
    have hNe := hAccepted.open_ne spec (mem_of_getElem? hOpens.get)
    have hPos := length_pos_of_ne_nil hNe
    have hLen := hOpens.occurs.length_le hNe
    rw [rounds_none, rounds_some, length_drop]
    omega

/-- Enough fuel is enough. -/
theorem pushLoop_of_fuel (active : Option (ActiveTag T))
    (text : Text) {m : Nat} (hn : rounds active text < n) (hm : rounds active text < m) :
    pushLoop specs n active text = pushLoop specs m active text := by
  induction n generalizing active text m with
  | zero => omega
  | succ n ih =>
    rcases m with _ | m
    · omega
    unfold pushLoop
    cases hStep : loopBody specs active text with
    | stop out active' rest => rfl
    | next out active' rest =>
      have hLt := rounds_lt_of_next hAccepted hStep
      simp only [ih active' rest (m := m) (by omega) (by omega)]

theorem pushLoop_next (h : loopBody specs active text = .next out active' rest)
    (hn : rounds active text < n) :
    pushLoop specs n active text =
      (out + (pushLoop specs (loopFuel rest) active' rest).1,
        (pushLoop specs (loopFuel rest) active' rest).2) := by
  cases n with
  | zero => omega
  | succ n =>
    have hLt := rounds_lt_of_next hAccepted h
    have hFuel := pushLoop_of_fuel hAccepted active' rest (n := n) (by omega) rounds_lt_loopFuel
    simp only [pushLoop, h, hFuel]

omit hAccepted in
theorem pushLoop_stop (h : loopBody specs active text = .stop out active' rest)
    (hn : rounds active text < n) : pushLoop specs n active text = (out, active', rest) := by
  cases n with
  | zero => omega
  | succ n => simp only [pushLoop, h]

/-! ## What is put out in the end -/

theorem drain_next (h : loopBody specs active text = .next out active' rest) :
    drain specs active text = out + drain specs active' rest := by
  unfold drain
  rw [pushLoop_next hAccepted h rounds_lt_loopFuel]
  exact add_assoc _ _ _

theorem drain_close (h : find tag.close text = some i) :
    drain specs (some tag) text =
      .payload { tag := tag.tag, content := tag.content ++ text.take i } +
        drain specs none (text.drop (i + tag.close.length)) :=
  drain_next hAccepted (loopBody_active h)

theorem drain_open (h : OpensAt specs text i k spec) :
    drain specs none text =
      .visible (text.take i) +
        drain specs (some { tag := spec.tag, close := spec.closeText, content := [] })
          (text.drop (i + spec.openText.length)) :=
  drain_next hAccepted (loopBody_opens h)

omit hAccepted in
/-- A tag that is not closed takes all the text. -/
theorem drain_unclosed (h : find tag.close text = none) : drain specs (some tag) text =
      .payload { tag := tag.tag, content := tag.content ++ text } := by
  unfold drain
  rw [pushLoop_stop (loopBody_unclosed specs h) rounds_lt_loopFuel]
  simp [flush]

omit hAccepted in
/-- Without an opener all the text is visible. -/
theorem drain_unopened (h : findNextOpen specs text = none) :
    drain specs none text = .visible text := by
  have hStop : loopBody specs none text = .stop
      (.visible (text.take (text.length - maxOpenPrefixSuffixLen specs text))) none
      (text.drop (text.length - maxOpenPrefixSuffixLen specs text)) := by
    simp only [loopBody, h]
  unfold drain
  rw [pushLoop_stop hStop rounds_lt_loopFuel]
  simp only [flush]
  rw [← StreamTextChunk.visible_append, take_append_drop]

/-- The front of a tag's content can be moved into it. -/
theorem drain_active_append (h : ∀ i, i < front.length → ¬OccursAt tag.close (front ++ text) i) :
    drain specs (some tag) (front ++ text) =
      drain specs (some { tag with content := tag.content ++ front }) text := by
  have hShift := find_append_left h
  cases hFind : find ({ tag with content := tag.content ++ front } : ActiveTag T).close text with
  | none =>
    rw [hFind] at hShift
    rw [drain_unclosed hShift, drain_unclosed hFind, append_assoc]
  | some i =>
    rw [hFind] at hShift
    rw [drain_close hAccepted hShift, drain_close hAccepted hFind, Nat.add_assoc,
      take_length_add_append, drop_length_add_append, append_assoc]

/-- The front of the text before any opener can be shown first. -/
theorem drain_visible_append
    (h : ∀ spec ∈ specs, ∀ i, i < front.length → ¬OccursAt spec.openText (front ++ text) i) :
    drain specs none (front ++ text) = .visible front + drain specs none text := by
  have hShift := findNextOpen_append_left h
  rcases hFind : findNextOpen specs text with _ | found
  · rw [hFind] at hShift
    rw [drain_unopened hShift, drain_unopened hFind, StreamTextChunk.visible_append]
  rw [hFind] at hShift
  obtain ⟨spec, hOpens⟩ := findNextOpen_eq_some_iff.mp hFind
  obtain ⟨spec', hOpens'⟩ := findNextOpen_eq_some_iff.mp hShift
  obtain rfl : spec = spec' := Option.some.inj (hOpens.get.symm.trans hOpens'.get)
  rw [drain_open hAccepted hOpens', drain_open hAccepted hOpens, Nat.add_assoc,
    take_length_add_append, drop_length_add_append, StreamTextChunk.visible_append, add_assoc]

/-! ## More text after a push -/

/-- With more text the same opener comes next. -/
theorem OpensAt.append (hInner : NoInnerOpener specs) (h : OpensAt specs text i k spec) (more : Text) :
    OpensAt specs (text ++ more) i k spec := by
  refine ⟨h.get, h.occurs.append more, fun k' spec' j hGet hOccurs => ?_⟩
  have hMem := mem_of_getElem? h.get
  have hMem' := mem_of_getElem? hGet
  have hLen := h.occurs.length_le (hAccepted.open_ne spec hMem)
  rcases occursAt_append_cases hOccurs with hOld | hOver
  · exact h.first k' spec' j hGet hOld
  · -- an opener that starts no later and is complete only now would lie around this one
    by_contra hNot
    exact hInner spec' hMem' spec hMem
      (infix_dropLast_of_occursAt (h.occurs.append more) hOccurs (by omega) (by omega))

theorem loopBody_next_append (hInner : NoInnerOpener specs)
    (h : loopBody specs active text = .next out active' rest) (more : Text) :
    loopBody specs active (text ++ more) = .next out active' (rest ++ more) := by
  cases h ▸ round_loopBody specs active text with
  | closes hFind =>
    have hLen := find_length_le hFind
    rw [loopBody_active (find_append hFind more), take_append_of_le_length (by omega),
      drop_append_of_le_length hLen]
  | @opens i k spec hOpens =>
    have hLen := hOpens.occurs.length_le (hAccepted.open_ne spec (mem_of_getElem? hOpens.get))
    rw [loopBody_opens (hOpens.append hAccepted hInner more),
      take_append_of_le_length (by omega), drop_append_of_le_length hLen]

/-- Stopping early loses nothing: what is held back decides. -/
theorem drain_append_of_stop (h : loopBody specs active text = .stop out active' rest)
    (more : Text) :
    drain specs active (text ++ more) = out + drain specs active' (rest ++ more) := by
  have hCut : ∀ n, text ++ more = text.take n ++ (text.drop n ++ more) := by
    intro n
    rw [← append_assoc, take_append_drop]
  cases h ▸ round_loopBody specs active text with
  | @unclosed tag hFind =>
    rw [hCut (text.length - longestSuffixPrefixLen text tag.close), drain_active_append hAccepted,
      zero_add]
    intro i hi
    rw [← hCut]
    refine not_occursAt_of_kept (find_eq_none_iff.mp hFind) (le_refl _) ?_
    rw [length_take] at hi
    omega
  | unopened hFind =>
    rw [hCut (text.length - maxOpenPrefixSuffixLen specs text), drain_visible_append hAccepted]
    intro spec hSpec i hi
    rw [← hCut]
    have hLe : longestSuffixPrefixLen text spec.openText ≤ maxOpenPrefixSuffixLen specs text :=
      List.le_max?_getD_of_mem (mem_map_of_mem hSpec)
    refine not_occursAt_of_kept (findNextOpen_eq_none_iff.mp hFind spec hSpec) hLe ?_
    rw [length_take] at hi
    omega

/-- **A push settles part of what the whole text will give.** -/
theorem drain_append (hInner : NoInnerOpener specs)
    (active : Option (ActiveTag T)) (text more : Text) (hn : rounds active text < n) :
    drain specs active (text ++ more) =
      (pushLoop specs n active text).1 +
        drain specs (pushLoop specs n active text).2.1
          ((pushLoop specs n active text).2.2 ++ more) := by
  induction n generalizing active text with
  | zero => omega
  | succ n ih =>
    unfold pushLoop
    cases hStep : loopBody specs active text with
    | stop out active' rest => exact drain_append_of_stop hAccepted hStep more
    | next out active' rest =>
      have hLt := rounds_lt_of_next hAccepted hStep
      rw [drain_next hAccepted (loopBody_next_append hAccepted hInner hStep more),
        ih active' rest (by omega)]
      exact (add_assoc _ _ _).symm

/-! ## Settled states -/

/-- No delimiter that the parser waits for is complete. -/
def Settled (specs : List (InlineTagSpec T)) (active : Option (ActiveTag T)) (pending : Text) :
    Prop :=
  match active with
  | some tag => ∀ i, ¬OccursAt tag.close pending i
  | none => ∀ spec ∈ specs, ∀ i, ¬OccursAt spec.openText pending i

omit hAccepted in
theorem drain_of_settled (h : Settled specs active pending) :
    drain specs active pending = flush active pending := by
  cases active with
  | some tag => exact drain_unclosed (find_eq_none_iff.mpr h)
  | none => exact drain_unopened (findNextOpen_eq_none_iff.mpr h)

omit hAccepted in
theorem settled_of_stop (h : loopBody specs active text = .stop out active' rest) :
    Settled specs active' rest := by
  have hDrop : ∀ (needle : Text) n i, OccursAt needle (text.drop n) i → OccursAt needle text (n + i) := by
    intro needle n i hOccurs
    unfold OccursAt at hOccurs ⊢
    rwa [drop_drop] at hOccurs
  cases h ▸ round_loopBody specs active text with
  | unclosed hFind =>
    intro i hOccurs
    exact find_eq_none_iff.mp hFind _ (hDrop _ _ _ hOccurs)
  | unopened hFind =>
    intro spec hSpec i hOccurs
    exact findNextOpen_eq_none_iff.mp hFind spec hSpec _ (hDrop _ _ _ hOccurs)

theorem settled_pushLoop (active : Option (ActiveTag T))
    (text : Text) (hn : rounds active text < n) :
    Settled specs (pushLoop specs n active text).2.1 (pushLoop specs n active text).2.2 := by
  induction n generalizing active text with
  | zero => omega
  | succ n ih =>
    unfold pushLoop
    cases hStep : loopBody specs active text with
    | stop out active' rest => exact settled_of_stop hStep
    | next out active' rest =>
      have hLt := rounds_lt_of_next hAccepted hStep
      exact ih active' rest (by omega)

/-! ## Without inner openers chunks do not matter -/

omit hAccepted in
theorem foretells_drain (hInner : NoInnerOpener specs) :
    Foretells (machine (InlineHiddenTagParser T))
      (fun parser => parser.specs = specs ∧ Settled specs parser.active parser.pending)
      (fun parser rest => drain specs parser.active (parser.pending ++ rest)) where
  keeps parser chunk h := by
    obtain ⟨rfl, -⟩ := h
    exact ⟨rfl, settled_pushLoop parser.accepted _ _ rounds_lt_loopFuel⟩
  push parser chunk rest h := by
    obtain ⟨rfl, -⟩ := h
    rw [← append_assoc, drain_append parser.accepted hInner parser.active _ rest rounds_lt_loopFuel]
    rfl
  finish parser h := by
    obtain ⟨rfl, hSettled⟩ := h
    rw [append_nil, drain_of_settled hSettled]
    rfl

theorem settled_new : Settled specs none [] := by
  intro spec hSpec i
  exact not_occursAt_nil (hAccepted.open_ne spec hSpec)

theorem collectChunks_eq_drain (hInner : NoInnerOpener specs)
    (chunks : List Text) :
    collectChunks (new specs hAccepted) chunks =
      drain specs none chunks.flatten :=
  (foretells_drain hInner).collect_eq ⟨rfl, settled_new hAccepted⟩ chunks

end

/-! ## With an inner opener they do -/

section Sensitive

variable (hAccepted : Accepted specs)

/-- What a parser in a given state puts out for the chunks that still come. -/
def runFrom (active : Option (ActiveTag T)) (pending : Text) (chunks : List Text) :
    StreamTextChunk (ExtractedInlineTag T) :=
  collectChunks
    ({ specs, pending, active, accepted := hAccepted } : InlineHiddenTagParser T) chunks

variable {chunk : Text} {chunks : List Text}

theorem runFrom_cons : runFrom hAccepted active pending (chunk :: chunks) =
      (pushLoop specs (loopFuel (pending ++ chunk)) active (pending ++ chunk)).1 +
        runFrom hAccepted (pushLoop specs (loopFuel (pending ++ chunk)) active (pending ++ chunk)).2.1
          (pushLoop specs (loopFuel (pending ++ chunk)) active (pending ++ chunk)).2.2 chunks :=
  add_assoc _ _ _

/-- A single chunk is drained. -/
theorem runFrom_singleton (active : Option (ActiveTag T)) (text : Text) :
    runFrom hAccepted active [] [text] = drain specs active text := by
  rw [runFrom_cons]
  rfl

/-- A round of the loop can be taken off a push; the rest of it pushes nothing new. -/
theorem runFrom_cons_next (h : loopBody specs active (pending ++ chunk) = .next out active' rest) :
    runFrom hAccepted active pending (chunk :: chunks) =
      out + runFrom hAccepted active' rest ([] :: chunks) := by
  rw [runFrom_cons, runFrom_cons, pushLoop_next hAccepted h rounds_lt_loopFuel, append_nil]
  exact add_assoc _ _ _

/-- The content of the first tag that is put out. -/
def firstContent (out : StreamTextChunk (ExtractedInlineTag T)) : Option Text :=
  out.extracted.head?.map ExtractedInlineTag.content

/-- A text up to its first closer, or all of it. -/
def upTo (close text : Text) : Text :=
  match find close text with
  | some i => text.take i
  | none => text

theorem upTo_append_left {close front : Text}
    (h : ∀ i, i < front.length → ¬OccursAt close (front ++ text) i) :
    upTo close (front ++ text) = front ++ upTo close text := by
  unfold upTo
  rw [find_append_left h]
  cases find close text with
  | none => rfl
  | some i => exact take_length_add_append i

theorem upTo_eq_nil_iff {close : Text} (hNe : text ≠ []) :
    upTo close text = [] ↔ close <+: text := by
  unfold upTo
  constructor
  · intro hNil
    cases hFind : find close text with
    | none =>
      rw [hFind] at hNil
      exact absurd hNil hNe
    | some i =>
      rw [hFind, take_eq_nil_iff] at hNil
      rw [hNil.resolve_right hNe] at hFind
      exact (find_eq_some_iff.mp hFind).1
  · intro hPrefix
    have hAt : OccursAt close text 0 := hPrefix
    rw [find_eq_some_iff.mpr ⟨hAt, fun j hj => absurd hj (Nat.not_lt_zero j)⟩]
    rfl

/-- In an open tag chunks do not matter: it ends at the first closer of what still
comes. -/
theorem firstContent_runFrom (tag : ActiveTag T) (pending : Text) (chunks : List Text)
    (hSettled : chunks = [] → find tag.close pending = none) :
    firstContent (runFrom hAccepted (some tag) pending chunks) =
      some (tag.content ++ upTo tag.close (pending ++ chunks.flatten)) := by
  induction chunks generalizing tag pending with
  | nil =>
    unfold upTo
    rw [flatten_nil, append_nil, hSettled rfl]
    rfl
  | cons chunk chunks ih =>
    rw [flatten_cons, ← append_assoc]
    cases hFind : find tag.close (pending ++ chunk) with
    | some i =>
      have hLen := find_length_le hFind
      have hTake : (pending ++ chunk ++ chunks.flatten).take i = (pending ++ chunk).take i :=
        take_append_of_le_length (by omega)
      rw [runFrom_cons_next hAccepted (loopBody_active hFind)]
      unfold upTo
      rw [find_append hFind]
      dsimp only
      rw [hTake]
      rfl
    | none =>
      -- the push moves a front part into the content and holds the rest back
      have hStop := loopBody_unclosed specs hFind
      have hKept := find_eq_none_iff.mpr (settled_of_stop hStop)
      rw [runFrom_cons, pushLoop_stop hStop rounds_lt_loopFuel, zero_add, ih _ _ fun _ => hKept]
      dsimp only
      rw [append_assoc, ← upTo_append_left, ← append_assoc, take_append_drop]
      intro i hi
      rw [← append_assoc, take_append_drop]
      refine not_occursAt_of_kept (find_eq_none_iff.mp hFind) (le_refl _) ?_
      rw [length_take] at hi
      omega

/-- Where an opener lies in a text, some tag is opened. -/
theorem exists_opensAt_of_infix {inner : InlineTagSpec T} (hInner : inner ∈ specs)
    (hInfix : inner.openText <:+: text) : ∃ i k spec, OpensAt specs text i k spec := by
  obtain ⟨⟨i, k⟩, hFind⟩ : ∃ found, findNextOpen specs text = some found := by
    refine Option.ne_none_iff_exists'.mp fun hNone => ?_
    obtain ⟨front, back, hEq⟩ := hInfix
    refine findNextOpen_eq_none_iff.mp hNone inner hInner front.length ?_
    unfold OccursAt
    rw [← hEq, append_assoc, drop_left]
    exact prefix_append _ _
  obtain ⟨spec, hOpens⟩ := findNextOpen_eq_some_iff.mp hFind
  exact ⟨i, k, spec, hOpens⟩

/-- An opener that is not outdone at its own front wins there, whatever follows: it, or the one
with the same text that is listed first. -/
theorem exists_opensAt_front {longest : InlineTagSpec T} (hLongest : longest ∈ specs)
    (hNoLonger : ∀ spec ∈ specs, ∀ more, OccursAt spec.openText (longest.openText ++ more) 0 →
      spec.openText.length ≤ longest.openText.length) :
    ∃ outer k, outer.openText = longest.openText ∧
      ∀ more, OpensAt specs (outer.openText ++ more) 0 k outer := by
  have hAt : OccursAt longest.openText longest.openText 0 := prefix_refl _
  obtain ⟨i, k, outer, hOpens⟩ := exists_opensAt_of_infix hLongest (infix_refl _)
  obtain ⟨kLongest, hGet⟩ := mem_iff_getElem?.mp hLongest
  have hOrder := hOpens.first kLongest longest 0 hGet hAt
  have hi : i = 0 := by omega
  subst hi
  have hLe := hNoLonger outer (mem_of_getElem? hOpens.get) [] (hOpens.occurs.append [])
  have hSame : outer.openText = longest.openText :=
    List.IsPrefix.eq_of_length hOpens.occurs (by omega)
  refine ⟨outer, k, hSame, fun more => ?_⟩
  rw [hSame]
  refine ⟨hOpens.get, hSame ▸ prefix_append _ _, fun k' spec' j hGet' hOccurs => ?_⟩
  rcases Nat.eq_zero_or_pos j with rfl | hPos
  · have hLe' := hNoLonger spec' (mem_of_getElem? hGet') more hOccurs
    rcases Nat.lt_or_ge spec'.openText.length outer.openText.length with hLt | hGe
    · exact Or.inr ⟨rfl, Or.inl hLt⟩
    -- as long as the longest one, so complete without more text
    have hNow := hOpens.first k' spec' 0 hGet' (by
      rcases occursAt_append_cases hOccurs with hOld | hOver
      · exact hOld
      · omega)
    omega
  · exact Or.inl hPos

/-- The longest opener with another one inside wins at the front of every text. -/
theorem exists_longest_outer (hBad : ¬NoInnerOpener specs) :
    ∃ outer k, ∃ inner ∈ specs, inner.openText <:+: outer.openText.dropLast ∧
      ∀ more, OpensAt specs (outer.openText ++ more) 0 k outer := by
  unfold NoInnerOpener at hBad
  simp only [not_forall, not_not] at hBad
  obtain ⟨outer, hOuter, inner, hInner, hInfix⟩ := hBad
  -- the longest opener with this one inside
  obtain ⟨longest, ⟨hLongest, hAround⟩, hMax⟩ := Set.exists_max_image
    {outer | outer ∈ specs ∧ inner.openText <:+: outer.openText.dropLast}
    (fun outer => outer.openText.length) (specs.finite_toSet.subset fun _ h => h.1)
    ⟨outer, hOuter, hInfix⟩
  -- an opener at the front that is longer has the same one inside
  have hNoLonger : ∀ spec ∈ specs, ∀ more, OccursAt spec.openText (longest.openText ++ more) 0 →
      spec.openText.length ≤ longest.openText.length := by
    intro spec hSpec more hOccurs
    by_contra hLt
    have hPre : longest.openText <+: spec.openText :=
      prefix_of_prefix_length_le (prefix_append _ _) hOccurs (by omega)
    have hShort : longest.openText.dropLast <+: spec.openText.dropLast := by
      rw [dropLast_eq_take, dropLast_eq_take]
      exact (take_prefix_take_left (by omega)).trans (hPre.take _)
    have hLe := hMax spec ⟨hSpec, hAround.trans hShort.isInfix⟩
    omega
  obtain ⟨outer, k, hSame, hOpens⟩ := exists_opensAt_front hLongest hNoLonger
  exact ⟨outer, k, inner, hInner, hSame ▸ hAround, hOpens⟩

/-- **With an inner opener** some text is read differently when it is cut. -/
theorem exists_sensitive (hBad : ¬NoInnerOpener specs) :
    ∃ chunks, collectChunks (new specs hAccepted) chunks ≠
      collectChunks (new specs hAccepted)
        [chunks.flatten] := by
  by_contra hNot
  simp only [not_exists, not_not] at hNot
  obtain ⟨outer, k, inner, hInner, hInfix, hOuter⟩ := exists_longest_outer hBad
  have hOuterMem := mem_of_getElem? (hOuter []).get
  have hOuterNe := hAccepted.open_ne outer hOuterMem
  obtain ⟨i, k', early, hEarly⟩ := exists_opensAt_of_infix hInner hInfix
  -- the outer opener, cut before its last character; `more` follows
  let last := outer.openText.getLast hOuterNe
  let kept := outer.openText.dropLast.drop (i + early.openText.length)
  have hContent : ∀ more, upTo outer.closeText more = upTo early.closeText (kept ++ last :: more) := by
    intro more
    have hWhole : [outer.openText.dropLast, last :: more].flatten = outer.openText ++ more := by
      rw [flatten_cons, flatten_singleton, ← singleton_append, ← append_assoc,
        dropLast_append_getLast]
    have hSame : runFrom hAccepted none [] [outer.openText.dropLast, last :: more] =
        runFrom hAccepted none [] [outer.openText ++ more] := hWhole ▸ hNot _
    -- in one piece the outer tag is opened, cut the first push opens some tag already
    rw [runFrom_singleton, drain_open hAccepted (hOuter more), Nat.zero_add, drop_left,
      ← runFrom_singleton hAccepted, runFrom_cons_next hAccepted (loopBody_opens hEarly)] at hSame
    have hFirst := congrArg firstContent hSame
    have hCut := firstContent_runFrom hAccepted
      ⟨early.tag, early.closeText, []⟩ kept [[], last :: more] (fun h => nomatch h)
    have hOne := firstContent_runFrom hAccepted
      ⟨outer.tag, outer.closeText, []⟩ [] [more] (fun h => nomatch h)
    rw [flatten_singleton] at hOne
    rw [flatten_cons, flatten_singleton] at hCut
    exact Option.some.inj (hOne.symm.trans (hFirst.symm.trans hCut))
  have hRest : ∀ more, kept ++ last :: more ≠ [] := fun more => by simp
  -- with nothing after it the outer tag is empty, so the early closer comes at once
  have hClose : early.closeText <+: kept ++ [last] := by
    rw [← upTo_eq_nil_iff (hRest []), ← hContent []]
    unfold upTo
    cases find outer.closeText [] <;> simp
  -- and it comes at once whatever follows, but the outer tag need not be empty
  obtain ⟨first, close, hFirst⟩ :=
    exists_cons_of_ne_nil (hAccepted.close_ne outer hOuterMem)
  have hEmpty : ∀ ch, outer.closeText <+: [ch] := by
    intro ch
    rw [← upTo_eq_nil_iff (cons_ne_nil _ _), hContent, upTo_eq_nil_iff (hRest _)]
    exact hClose.trans ⟨[ch], by simp⟩
  have hHead : ∀ ch, first = ch := by
    intro ch
    have hPrefix := hEmpty ch
    rw [hFirst] at hPrefix
    exact (cons_prefix_cons.mp hPrefix).1
  exact absurd ((hHead 'a').symm.trans (hHead 'b')) (by decide)

end Sensitive

/-- **Hidden tags and chunks.** A parser reads every text the same way however it is cut
exactly when no opener lies inside another one, short of its last character. -/
theorem chunking_insensitive_iff (hAccepted : Accepted specs) :
    (∀ text chunks, chunks.flatten = text →
      collectChunks (new specs hAccepted) chunks =
        collectChunks (new specs hAccepted) [text]) ↔
      NoInnerOpener specs := by
  constructor
  · intro hAll
    by_contra hBad
    obtain ⟨chunks, hNe⟩ := exists_sensitive hAccepted hBad
    exact hNe (hAll _ chunks rfl)
  · intro hInner text chunks hFlatten
    rw [collectChunks_eq_drain hAccepted hInner, collectChunks_eq_drain hAccepted hInner, hFlatten,
      flatten_singleton]

/-- One tag has no other one inside. -/
theorem noInnerOpener_singleton (hNe : spec.openText ≠ []) : NoInnerOpener [spec] := by
  intro outer hOuter inner hInner hInfix
  rw [mem_singleton.mp hOuter, mem_singleton.mp hInner] at hInfix
  have hLen := hInfix.length_le
  have hPos := length_pos_of_ne_nil hNe
  rw [length_dropLast] at hLen
  omega

/-- `<a>x</a>`, cut inside the opener, with `<a>` and `<b>` as openers. -/
theorem two_tags_insensitive :
    collectChunks
        (new
          [⟨true, "<a>".toList, "</a>".toList⟩, ⟨false, "<b>".toList, "</b>".toList⟩]
          ⟨by decide, by decide, by decide⟩) ["<a".toList, ">x</a>".toList] =
      collectChunks
        (new
          [⟨true, "<a>".toList, "</a>".toList⟩, ⟨false, "<b>".toList, "</b>".toList⟩]
          ⟨by decide, by decide, by decide⟩) ["<a>x</a>".toList] :=
  (chunking_insensitive_iff ⟨by decide, by decide, by decide⟩).mpr (by
    unfold NoInnerOpener
    decide) _ _ (by decide)

/-- `<ab>x</ab>`, cut after `<a`: the opener `<a` wins over the longer `<ab>`, which starts
at the same place. -/
theorem short_opener_wins_at_cut :
    collectChunks
        (new
          [⟨true, "<a".toList, ">".toList⟩, ⟨false, "<ab>".toList, "</ab>".toList⟩]
          ⟨by decide, by decide, by decide⟩) ["<a".toList, "b>x</ab>".toList] =
      { visibleText := "x</ab>".toList, extracted := [⟨true, "b".toList⟩] } ∧
    collectChunks
        (new
          [⟨true, "<a".toList, ">".toList⟩, ⟨false, "<ab>".toList, "</ab>".toList⟩]
          ⟨by decide, by decide, by decide⟩) ["<ab>x</ab>".toList] =
      { visibleText := [], extracted := [⟨false, "x".toList⟩] } := by
  decide

end Codex.StreamParser
