import Codex.History.Definitions

/-!
# Codex — rolling back a history

`drop_last_n_user_turns` in closed form. Cutting a history before its `n`-th
newest user message `u` leaves what stood before `u`, with one twist: context
updates directly above the cut go too, unless that would reach above the first
user message of the history (`trimContextUpdates`). Trimming hides no user message,
so a second rollback finds the cuts of the first history (`CutBefore.trim`).

* `dropLastNUserTurns_eq` — the whole state after a rollback to a cut.
* `rollbacks_compose`     — two rollbacks against one.
-/

namespace Codex

open List ContextManager

variable {env : HistoryEnv}

/-- What a rollback leaves of the items above its cut. -/
def trimContextUpdates (env : HistoryEnv) (items : List ResponseItem) : List ResponseItem :=
  if items.any (isUserTurnBoundary env) then items.rdropWhile (isContextUpdate env) else items

/-! ## Positions of user messages -/

theorem userMessagePositions_append (older newer : List ResponseItem) :
    userMessagePositions env (older ++ newer) =
      userMessagePositions env older ++
        (userMessagePositions env newer).map (· + older.length) := by
  unfold userMessagePositions
  rw [zipIdx_append, filterMap_append]
  congr 1
  rw [zipIdx_eq_map_add, filterMap_map, map_filterMap]
  apply filterMap_congr
  intro pair _
  split
  simp [Nat.add_comm]

variable (items : List ResponseItem)

theorem length_userMessagePositions :
    (userMessagePositions env items).length = items.countP (isUserTurnBoundary env) := by
  induction items using reverseRecOn with
  | nil => rfl
  | append_singleton items item ih =>
    rw [userMessagePositions_append, length_append, ih]
    cases hItem : isUserTurnBoundary env item <;> simp [userMessagePositions, hItem]

variable {u : ResponseItem} {items older newer : List ResponseItem} {n : Nat}
variable {history : ContextManager} {first : Nat} {rest : List Nat}

/-- The positions of a history cut at one of its user messages. -/
theorem userMessagePositions_split (hu : isUserTurnBoundary env u = true)
    (older newer : List ResponseItem) : userMessagePositions env (older ++ u :: newer) =
      userMessagePositions env older ++
        older.length :: (userMessagePositions env newer).map (· + (older.length + 1)) := by
  have hCons : u :: newer = [u] ++ newer := rfl
  have hHead : userMessagePositions env [u] = [0] := by
    simp [userMessagePositions, hu]
  rw [userMessagePositions_append, hCons, userMessagePositions_append, hHead]
  simp only [singleton_append, length_singleton, map_cons, map_map]
  congr 2
  · omega
  · apply map_congr_left
    intro i _
    simp only [Function.comp_apply]
    omega

/-- The `n`-th element with a property, counted from the end. -/
theorem exists_nth_last {α : Type} {p : α → Bool} {xs : List α} (h : n < xs.countP p) :
    ∃ before x after, xs = before ++ x :: after ∧ p x = true ∧ after.countP p = n := by
  induction xs with
  | nil => cases h
  | cons x xs ih =>
    by_cases hRest : n < xs.countP p
    · obtain ⟨before, y, after, rfl, hy, hCount⟩ := ih hRest
      exact ⟨x :: before, y, after, rfl, hy, hCount⟩
    · have hx : p x = true := by
        by_contra hx
        exact hRest (by rwa [countP_cons_of_neg hx] at h)
      rw [countP_cons_of_pos hx] at h
      exact ⟨[], x, xs, rfl, hx, by omega⟩

theorem userMessagePositions_none (hNone : items.any (isUserTurnBoundary env) = false) :
    userMessagePositions env items = [] := by
  rw [← length_eq_zero_iff, length_userMessagePositions, countP_eq_zero]
  rwa [any_eq_false] at hNone

/-- The oldest user message. -/
theorem exists_oldest (hAny : items.any (isUserTurnBoundary env) = true) :
    ∃ older u newer, items = older ++ u :: newer ∧ isUserTurnBoundary env u = true ∧
      older.any (isUserTurnBoundary env) = false := by
  have hPos : 0 < items.countP (isUserTurnBoundary env) := countP_pos_iff.mpr (any_eq_true.mp hAny)
  obtain ⟨older, u, newer, rfl, hu, hCount⟩ := exists_nth_last (Nat.sub_lt hPos Nat.one_pos)
  rw [countP_append, countP_cons_of_pos hu] at hCount
  refine ⟨older, u, newer, rfl, hu, ?_⟩
  rw [any_eq_false, ← countP_eq_zero]
  omega

/-! ## Trimming above the cut -/

/-- A user message is never mistaken for a context update. -/
theorem not_isContextUpdate_of_boundary {item : ResponseItem}
    (h : isUserTurnBoundary env item = true) : isContextUpdate env item = false := by
  cases item with
  | message id role content phase =>
    simp only [isUserTurnBoundary, Bool.or_eq_true, Bool.and_eq_true, beq_iff_eq] at h
    rcases h with ⟨rfl, hContent⟩ | ⟨rfl, -⟩
    · simp only [Bool.not_eq_true'] at hContent
      simp [isContextUpdate, hContent]
    · simp [isContextUpdate]
  | _ => rfl

/-- The loop stops at once when nothing but the first user message is left. -/
theorem trimPreTurn_at_first (snapshot : List ResponseItem) (first : Nat) (cleared : Bool) :
    trimPreTurnContextUpdates env snapshot first first cleared = (first, cleared) := by
  cases first with
  | zero => rfl
  | succ first => simp [trimPreTurnContextUpdates]

/-- Below a user message the loop drops exactly the trailing context updates, and looks at
each of them for one that voids the reference context. -/
theorem trimPreTurn_eq (hu : isUserTurnBoundary env u = true)
    (older middle newer : List ResponseItem) (cleared : Bool) :
    trimPreTurnContextUpdates env (older ++ u :: middle ++ newer) older.length
        (older ++ u :: middle).length cleared =
      (((older ++ u :: middle).rdropWhile (isContextUpdate env)).length,
        cleared || ((older ++ u :: middle).rtakeWhile (isContextUpdate env)).any
          clearsReferenceContext) := by
  induction middle using reverseRecOn generalizing newer cleared with
  | nil =>
    have hKeep := not_isContextUpdate_of_boundary hu
    simp [trimPreTurnContextUpdates, hKeep]
  | append_singleton middle item ih =>
    have hConcat : older ++ u :: (middle ++ [item]) = (older ++ u :: middle) ++ [item] := by simp
    have hLen : (older ++ u :: (middle ++ [item])).length =
        (older ++ u :: middle).length + 1 := by rw [hConcat, length_append]; rfl
    have hShift : older ++ u :: (middle ++ [item]) ++ newer =
        older ++ u :: middle ++ (item :: newer) := by simp
    have hGet : (older ++ u :: (middle ++ [item]) ++ newer)[(older ++ u :: middle).length]? =
        some item := by
      simp
    have hFirst : older.length < (older ++ u :: middle).length + 1 := by
      rw [length_append]
      omega
    rw [hLen, trimPreTurnContextUpdates, if_pos hFirst, hGet]
    dsimp only
    cases hItem : isContextUpdate env item with
    | true =>
      rw [if_pos rfl, hShift, ih, hConcat, rdropWhile_concat_pos _ _ _ hItem,
        rtakeWhile_concat_pos _ _ _ hItem, any_append, any_cons, any_nil]
      rw [Bool.or_false, Bool.or_assoc, Bool.or_comm (clearsReferenceContext item)]
    | false =>
      rw [← hLen, hConcat, rdropWhile_concat_neg _ _ _ (by simp [hItem]),
        rtakeWhile_concat_neg _ _ _ (by simp [hItem])]
      simp

/-- Trimming stops at the newest user message. -/
theorem trimContextUpdates_split (hu : isUserTurnBoundary env u = true)
    (older newer : List ResponseItem) : trimContextUpdates env (older ++ u :: newer) =
      older ++ u :: newer.rdropWhile (isContextUpdate env) := by
  have hAny : (older ++ u :: newer).any (isUserTurnBoundary env) = true := by simp [hu]
  have hKeep := not_isContextUpdate_of_boundary hu
  unfold trimContextUpdates rdropWhile
  rw [if_pos hAny, reverse_append, reverse_cons, append_assoc, dropWhile_append]
  split
  · next hAll => simp [hKeep, isEmpty_iff.mp hAll]
  · simp

/-- Trimming takes away no user message. -/
theorem filter_rdropWhile_isContextUpdate :
    (items.rdropWhile (isContextUpdate env)).filter (isUserTurnBoundary env) =
      items.filter (isUserTurnBoundary env) := by
  induction items using reverseRecOn with
  | nil => rw [rdropWhile_nil]
  | append_singleton items item ih =>
    by_cases hItem : isContextUpdate env item = true
    · have hPlain : ¬ isUserTurnBoundary env item = true := by
        intro hBoundary
        rw [not_isContextUpdate_of_boundary hBoundary] at hItem
        cases hItem
      rw [rdropWhile_concat_pos _ _ _ hItem, ih, filter_append,
        filter_cons_of_neg hPlain, filter_nil, append_nil]
    · rw [rdropWhile_concat_neg _ _ _ hItem]

theorem countP_rdropWhile_isContextUpdate :
    (items.rdropWhile (isContextUpdate env)).countP (isUserTurnBoundary env) =
      items.countP (isUserTurnBoundary env) := by
  rw [countP_eq_length_filter, filter_rdropWhile_isContextUpdate, countP_eq_length_filter]

/-! ## Cuts -/

/-- `older` stands before the `n`-th newest user message, or before the first one if there are
fewer than `n`. -/
def CutBefore (env : HistoryEnv) (n : Nat) (items older : List ResponseItem) : Prop :=
  ∃ u newer, items = older ++ u :: newer ∧ isUserTurnBoundary env u = true ∧
    (newer.countP (isUserTurnBoundary env) + 1 = n ∨
      older.any (isUserTurnBoundary env) = false ∧
        newer.countP (isUserTurnBoundary env) + 1 ≤ n)

theorem exists_cutBefore (hn : n ≠ 0) (hAny : items.any (isUserTurnBoundary env) = true) :
    ∃ older, CutBefore env n items older := by
  by_cases hReach : n - 1 < items.countP (isUserTurnBoundary env)
  · obtain ⟨older, u, newer, hItems, hu, hCount⟩ := exists_nth_last hReach
    exact ⟨older, u, newer, hItems, hu, .inl (by omega)⟩
  · obtain ⟨older, u, newer, hItems, hu, hNone⟩ := exists_oldest hAny
    rw [hItems, countP_append, countP_cons_of_pos hu] at hReach
    exact ⟨older, u, newer, hItems, hu, .inr ⟨hNone, by omega⟩⟩

/-- A cut in what an earlier cut left. -/
theorem CutBefore.add {a b : Nat} {oldest : List ResponseItem}
    (hFirst : CutBefore env a items older) (hSecond : CutBefore env b older oldest) :
    CutBefore env (a + b) items oldest := by
  obtain ⟨u, newer, rfl, hu, hCount⟩ := hFirst
  obtain ⟨v, middle, rfl, hv, hRest⟩ := hSecond
  have hExact : newer.countP (isUserTurnBoundary env) + 1 = a := by
    rcases hCount with hCount | ⟨hNone, -⟩
    · exact hCount
    · rw [any_append, any_cons, hv, Bool.true_or, Bool.or_true] at hNone
      cases hNone
  refine ⟨v, middle ++ u :: newer, by simp, hv, ?_⟩
  rw [countP_append, countP_cons_of_pos hu]
  rcases hRest with hRest | ⟨hNone, hRest⟩
  · exact .inl (by omega)
  · exact .inr ⟨hNone, by omega⟩

/-- Before the first user message any larger number cuts at the same place. -/
theorem CutBefore.mono {a b : Nat} (h : CutBefore env a items older)
    (hNone : older.any (isUserTurnBoundary env) = false) (hab : a ≤ b) :
    CutBefore env b items older := by
  obtain ⟨u, newer, hItems, hu, hCount⟩ := h
  refine ⟨u, newer, hItems, hu, .inr ⟨hNone, ?_⟩⟩
  rcases hCount with hCount | ⟨-, hCount⟩ <;> omega

theorem CutBefore.trim (h : CutBefore env n items older) :
    CutBefore env n (trimContextUpdates env items) older := by
  obtain ⟨u, newer, rfl, hu, hCount⟩ := h
  refine ⟨u, newer.rdropWhile (isContextUpdate env), trimContextUpdates_split hu older newer, hu, ?_⟩
  rwa [countP_rdropWhile_isContextUpdate]

/-! ## The rollback -/

/-- A context update that goes with the cut voids the reference context. -/
def voidsReferenceContext (env : HistoryEnv) (items : List ResponseItem) : Bool :=
  items.any (isUserTurnBoundary env) &&
    (items.rtakeWhile (isContextUpdate env)).any clearsReferenceContext

/-- The history that a rollback to a cut leaves. -/
def ContextManager.cutTo (env : HistoryEnv) (history : ContextManager) (older : List ResponseItem) :
    ContextManager where
  items := trimContextUpdates env older
  historyVersion := history.historyVersion + 1
  referenceContextItem :=
    if voidsReferenceContext env older then none else history.referenceContextItem

theorem trimContextUpdates_none (hNone : items.any (isUserTurnBoundary env) = false) :
    trimContextUpdates env items = items := by
  unfold trimContextUpdates
  rw [hNone]
  rfl

/-- The cut index of the source, as a cut. -/
theorem CutBefore.cutIdx_eq (h : CutBefore env n items older)
    (hPositions : userMessagePositions env items = first :: rest) :
    (if n ≥ (first :: rest).length then first
      else (first :: rest).getD ((first :: rest).length - n) 0) = older.length := by
  obtain ⟨u, newer, rfl, hu, hCount⟩ := h
  have hSplit := userMessagePositions_split hu older newer
  rw [hPositions] at hSplit
  have hLen : (first :: rest).length =
      (userMessagePositions env older).length + (newer.countP (isUserTurnBoundary env) + 1) := by
    rw [hSplit, length_append, length_cons, length_map, ← length_userMessagePositions]
  by_cases hOlder : userMessagePositions env older = []
  · -- nothing older: the first user message is meant
    rw [hOlder] at hSplit
    rw [hOlder, length_nil] at hLen
    have hGe : n ≥ (first :: rest).length := by
      rcases hCount with hCount | ⟨-, hCount⟩ <;> omega
    rw [if_pos hGe]
    exact (cons.inj hSplit).1
  · have hPos : 0 < (userMessagePositions env older).length := length_pos_iff.mpr hOlder
    have hExact : newer.countP (isUserTurnBoundary env) + 1 = n := by
      rcases hCount with hCount | ⟨hNone, -⟩
      · exact hCount
      · exact absurd (userMessagePositions_none hNone) hOlder
    rw [if_neg (by omega), hLen, hExact, Nat.add_sub_cancel, hSplit, getD_eq_getElem?_getD]
    simp

/-- **Rolling back to a cut.** What stands above the cut stays, trimmed. -/
theorem dropLastNUserTurns_eq (h : CutBefore env n history.items older) :
    history.dropLastNUserTurns env n = history.cutTo env older := by
  have hn : n ≠ 0 := by
    obtain ⟨u, newer, -, -, hCount | ⟨-, hCount⟩⟩ := h <;> omega
  rcases hPositions : userMessagePositions env history.items with _ | ⟨first, rest⟩
  · obtain ⟨u, newer, hItems, hu, -⟩ := h
    rw [hItems, userMessagePositions_split hu] at hPositions
    exact absurd hPositions (by simp)
  have hCut := h.cutIdx_eq hPositions
  obtain ⟨u, newer, hSplit, hu, -⟩ := h
  unfold dropLastNUserTurns
  rw [if_neg hn, hPositions]
  dsimp only
  rw [hCut]
  by_cases hAny : older.any (isUserTurnBoundary env) = true
  · -- the first user message stays above the cut
    obtain ⟨start, v, middle, hOlder, hv, hFree⟩ := exists_oldest hAny
    have hStart : start.length = first := by
      rw [hSplit, hOlder, append_assoc, cons_append, userMessagePositions_split hv,
        userMessagePositions_none hFree] at hPositions
      exact (cons.inj hPositions).1
    have hTrim := trimPreTurn_eq hv start middle (u :: newer) false
    rw [← hOlder, ← hSplit, hStart, Bool.false_or] at hTrim
    have hTake : history.items.take (older.rdropWhile (isContextUpdate env)).length =
        older.rdropWhile (isContextUpdate env) := by
      have hPrefix : older.rdropWhile (isContextUpdate env) <+: history.items :=
        (List.rdropWhile_prefix _ _).trans ⟨u :: newer, hSplit.symm⟩
      exact (prefix_iff_eq_take.mp hPrefix).symm
    rw [hTrim]
    unfold cutTo trimContextUpdates voidsReferenceContext
    rw [if_pos hAny, hAny, Bool.true_and]
    split <;> simp only [ContextManager.replace, hTake]
  · -- the cut is at the first user message
    have hNone : older.any (isUserTurnBoundary env) = false := eq_false_of_ne_true hAny
    have hFirst : first = older.length := by
      have hHead := userMessagePositions_split hu older newer
      rw [← hSplit, hPositions, userMessagePositions_none hNone] at hHead
      exact (List.cons.inj hHead).1
    have hTake : history.items.take older.length = older := by
      rw [hSplit, take_left]
    rw [hFirst, trimPreTurn_at_first]
    unfold cutTo voidsReferenceContext
    rw [trimContextUpdates_none hNone, hNone]
    simp only [ContextManager.replace, hTake, Bool.false_and, Bool.false_eq_true, if_false]

/-- Without user messages a rollback changes nothing but the version. -/
theorem dropLastNUserTurns_none (n : Nat)
    (hNone : history.items.any (isUserTurnBoundary env) = false) :
    (history.dropLastNUserTurns env n).items = history.items ∧
      (history.dropLastNUserTurns env n).referenceContextItem = history.referenceContextItem := by
  unfold dropLastNUserTurns
  rw [userMessagePositions_none hNone]
  split <;> exact ⟨rfl, rfl⟩

variable (history : ContextManager)

theorem dropLastNUserTurns_zero :
    history.dropLastNUserTurns env 0 = history := rfl

/-! ## Two rollbacks -/

/-- A rollback leaves a prefix, and all that stood before the first user message. -/
theorem dropLastNUserTurns_bounds (n : Nat) :
    (history.dropLastNUserTurns env n).items <+: history.items ∧
      history.items.takeWhile (fun item => !isUserTurnBoundary env item) <+:
        (history.dropLastNUserTurns env n).items := by
  by_cases hAny : n ≠ 0 ∧ history.items.any (isUserTurnBoundary env) = true
  · obtain ⟨older, hCut⟩ := exists_cutBefore hAny.1 hAny.2
    rw [dropLastNUserTurns_eq hCut]
    obtain ⟨u, newer, hItems, hu, -⟩ := hCut
    have hTrim : trimContextUpdates env older <+: older := by
      unfold trimContextUpdates
      split
      · exact rdropWhile_prefix _ _
      · exact prefix_rfl
    refine ⟨hTrim.trans ⟨u :: newer, hItems.symm⟩, ?_⟩
    show _ <+: trimContextUpdates env older
    by_cases hOlder : older.any (isUserTurnBoundary env) = true
    · -- the first user message is above the cut, and trimming stops below it
      obtain ⟨v, hv, hBoundary⟩ := any_eq_true.mp hOlder
      obtain ⟨start, middle, rfl⟩ := append_of_mem hv
      rw [hItems, trimContextUpdates_split hBoundary, append_assoc, cons_append, takeWhile_append]
      split
      · rw [takeWhile_cons_of_neg (by simp [hBoundary]), append_nil]
        exact prefix_append _ _
      · exact (List.takeWhile_prefix _).trans (prefix_append _ _)
    · have hNone : older.any (isUserTurnBoundary env) = false := eq_false_of_ne_true hOlder
      rw [trimContextUpdates_none hNone, hItems, takeWhile_append]
      split
      · rw [takeWhile_cons_of_neg (by simp [hu]), append_nil]
      · exact takeWhile_prefix _
  · have hSame : (history.dropLastNUserTurns env n).items = history.items := by
      by_cases hn : n = 0
      · rw [hn, dropLastNUserTurns_zero]
      · exact (dropLastNUserTurns_none n (eq_false_of_ne_true fun h => hAny ⟨hn, h⟩)).1
    rw [hSame]
    exact ⟨prefix_rfl, takeWhile_prefix _⟩

theorem dropLastNUserTurns_add (a b : Nat) :
    ((history.dropLastNUserTurns env a).dropLastNUserTurns env b).items =
        (history.dropLastNUserTurns env (a + b)).items ∧
      ((history.dropLastNUserTurns env (a + b)).referenceContextItem = none →
        ((history.dropLastNUserTurns env a).dropLastNUserTurns env b).referenceContextItem =
          none) := by
  by_cases ha : a = 0
  · rw [ha, Nat.zero_add]
    exact ⟨rfl, id⟩
  by_cases hb : b = 0
  · rw [hb]
    exact ⟨rfl, id⟩
  by_cases hAny : history.items.any (isUserTurnBoundary env) = true
  · obtain ⟨older, hCut⟩ := exists_cutBefore ha hAny
    by_cases hOlder : older.any (isUserTurnBoundary env) = true
    · -- both cut at the same user message, and trim the same items above it
      obtain ⟨oldest, hSecond⟩ := exists_cutBefore hb hOlder
      have hTrimmed : CutBefore env b (history.cutTo env older).items oldest := hSecond.trim
      rw [dropLastNUserTurns_eq (hCut.add hSecond), dropLastNUserTurns_eq hCut,
        dropLastNUserTurns_eq hTrimmed]
      refine ⟨rfl, fun hNone => ?_⟩
      unfold cutTo at hNone ⊢
      by_cases hVoid : voidsReferenceContext env oldest = true
      · exact if_pos hVoid
      · simp only [hVoid, if_false, Bool.false_eq_true] at hNone ⊢
        rw [hNone]
        exact ite_self none
    · -- the first rollback took every turn
      have hNone : older.any (isUserTurnBoundary env) = false := eq_false_of_ne_true hOlder
      rw [dropLastNUserTurns_eq (hCut.mono hNone (Nat.le_add_right a b)), dropLastNUserTurns_eq hCut]
      have hLeft : (history.cutTo env older).items.any (isUserTurnBoundary env) = false := by
        show (trimContextUpdates env older).any (isUserTurnBoundary env) = false
        rw [trimContextUpdates_none hNone, hNone]
      obtain ⟨hItems, hReference⟩ := dropLastNUserTurns_none b hLeft
      rw [hItems, hReference]
      exact ⟨rfl, id⟩
  · have hNone : history.items.any (isUserTurnBoundary env) = false := eq_false_of_ne_true hAny
    obtain ⟨hItems, hReference⟩ := dropLastNUserTurns_none a hNone
    obtain ⟨hItems', hReference'⟩ := dropLastNUserTurns_none b (hItems ▸ hNone)
    obtain ⟨hSum, hSumReference⟩ := dropLastNUserTurns_none (a + b) hNone
    rw [hItems', hReference', hSum, hSumReference, hItems, hReference]
    exact ⟨rfl, id⟩

/-- **Rollbacks compose.** Two rollbacks leave the items of one rollback by the sum, which are a
prefix of the history with everything before the first user message; and they void the reference
context whenever the one rollback does. -/
theorem rollbacks_compose (env : HistoryEnv) (history : ContextManager) (a b : Nat) :
    let single := history.dropLastNUserTurns env (a + b)
    let composed := (history.dropLastNUserTurns env a).dropLastNUserTurns env b
    composed.items = single.items ∧ single.items <+: history.items ∧
      history.items.takeWhile (fun item => !isUserTurnBoundary env item) <+: single.items ∧
      (single.referenceContextItem = none → composed.referenceContextItem = none) := by
  intro single composed
  obtain ⟨hItems, hReference⟩ := dropLastNUserTurns_add history a b
  obtain ⟨hPrefix, hStart⟩ := dropLastNUserTurns_bounds history (a + b)
  exact ⟨hItems, hPrefix, hStart, hReference⟩

end Codex
