import Codex.Std.Text

/-!
# Codex — trimming texts and cutting them into lines

How `trim`, `strip_suffix('\r')` and `lines` of `Codex.Std.Text` act on texts that are
put together from pieces.
-/

namespace Codex

open List Text

variable {c : Char} {t text rest line : Text} {front : List Text}

/-! ## Trimming -/

theorem trim_cons_ne_nil (hc : isWhitespace c = false) : trim (c :: t) ≠ [] := by
  unfold trim trimStart trimEnd
  rw [dropWhile_cons_of_neg (by simp [hc])]
  intro h
  rw [rdropWhile_eq_nil_iff] at h
  exact absurd (h c mem_cons_self) (by simp [hc])

/-- A text that ends in no blank can be put after anything. -/
theorem trimEnd_append (front : Text) (hNe : t ≠ []) (hTrim : trimEnd t = t) :
    trimEnd (front ++ t) = front ++ t := by
  unfold trimEnd at hTrim ⊢
  rw [rdropWhile_eq_self_iff] at hTrim ⊢
  intro h
  rw [getLast_append_of_ne_nil _ hNe]
  exact hTrim hNe

theorem trimEnd_append_blank {blank : Text} (hBlank : ∀ ch ∈ blank, isWhitespace ch = true) :
    trimEnd (t ++ blank) = trimEnd t := by
  unfold trimEnd rdropWhile
  rw [reverse_append, dropWhile_append_of_pos fun ch hCh => hBlank ch (mem_reverse.mp hCh)]

theorem trimStart_cons (hc : isWhitespace c = false) : trimStart (c :: t) = c :: t :=
  dropWhile_cons_of_neg (by simp [hc])

theorem trim_cons (hc : isWhitespace c = false) : trim (c :: t) = trimEnd (c :: t) := by
  unfold trim
  rw [trimStart_cons hc]

theorem trimEnd_of_trim (h : trim t = t) : trimEnd t = t := by
  rw [← h]
  exact rdropWhile_idempotent isWhitespace _

theorem trimEnd_isPrefix (t : Text) : trimEnd t <+: t := rdropWhile_prefix _ _

/-- What `trimEnd` cuts off. -/
theorem exists_trimEnd_append (t : Text) :
    ∃ blank, t = trimEnd t ++ blank ∧ ∀ ch ∈ blank, isWhitespace ch = true :=
  ⟨t.rtakeWhile isWhitespace, rdropWhile_append_rtakeWhile.symm,
    fun _ hMem => mem_rtakeWhile_imp hMem⟩

theorem blank_of_trim (h : trim t = []) : ∀ ch ∈ t, isWhitespace ch = true := by
  have hStart : ∀ ch ∈ t.dropWhile isWhitespace, isWhitespace ch = true :=
    rdropWhile_eq_nil_iff.mp h
  intro ch hMem
  rw [← takeWhile_append_dropWhile (p := isWhitespace) (l := t), mem_append] at hMem
  exact hMem.elim mem_takeWhile_imp (hStart ch)

theorem trimEnd_of_blank (h : ∀ ch ∈ t, isWhitespace ch = true) : trimEnd t = [] :=
  rdropWhile_eq_nil_iff.mpr h

/-- `trimEnd` keeps what does not end in a blank. -/
theorem isPrefix_trimEnd {front : Text} (hTrim : trimEnd front = front) (h : front <+: t) :
    front <+: trimEnd t := by
  obtain ⟨rest, rfl⟩ := h
  obtain ⟨blank, hRest, hBlank⟩ := exists_trimEnd_append rest
  rw [hRest, ← append_assoc, trimEnd_append_blank hBlank]
  rcases hNil : trimEnd rest with _ | ⟨ch, kept⟩
  · rw [append_nil, hTrim]
  have hKept : trimEnd (ch :: kept) = ch :: kept := by
    rw [← hNil]
    exact rdropWhile_idempotent isWhitespace _
  rw [trimEnd_append front (by simp) hKept]
  exact prefix_append _ _

theorem trim_isPrefix {front : Text} (h : front <+: t) : trim front <+: trim t := by
  obtain ⟨rest, rfl⟩ := h
  by_cases hBlank : ∀ ch ∈ front, isWhitespace ch = true
  · have hNil : trim front = [] := by
      unfold trim trimStart
      rw [dropWhile_eq_nil_iff.mpr hBlank]
      rfl
    rw [hNil]
    exact nil_prefix
  · have hStart : trimStart (front ++ rest) = trimStart front ++ rest := by
      unfold trimStart
      rw [dropWhile_append, if_neg]
      rw [List.isEmpty_iff, List.dropWhile_eq_nil_iff]
      exact hBlank
    unfold trim
    rw [hStart]
    exact isPrefix_trimEnd (rdropWhile_idempotent isWhitespace _)
      ((trimEnd_isPrefix _).trans (prefix_append _ _))

/-! ## Carriage returns -/

theorem stripCr_append_cr : stripCr (t ++ ['\r']) = t := by
  unfold stripCr
  rw [stripSuffix?_eq_some.mpr rfl, Option.getD_some]

theorem stripCr_of_not_suffix (h : ¬['\r'] <:+ t) : stripCr t = t := by
  unfold stripCr
  cases hStrip : stripSuffix? ['\r'] t with
  | none => rfl
  | some front => exact absurd ⟨front, (stripSuffix?_eq_some.mp hStrip).symm⟩ h

theorem stripCr_cases (t : Text) : (∃ front, t = front ++ ['\r'] ∧ stripCr t = front) ∨
      (¬['\r'] <:+ t ∧ stripCr t = t) := by
  by_cases h : ['\r'] <:+ t
  · obtain ⟨front, rfl⟩ := h
    exact .inl ⟨front, rfl, stripCr_append_cr⟩
  · exact .inr ⟨h, stripCr_of_not_suffix h⟩

theorem mem_of_mem_stripCr (h : c ∈ stripCr t) : c ∈ t := by
  rcases stripCr_cases t with ⟨front, rfl, hEq⟩ | ⟨-, hEq⟩
  · rw [hEq] at h
    exact mem_append_left _ h
  · rwa [hEq] at h

theorem stripCr_of_trimEnd (h : trimEnd t = t) : stripCr t = t := by
  refine stripCr_of_not_suffix ?_
  rintro ⟨front, rfl⟩
  unfold trimEnd at h
  rw [rdropWhile_concat_pos _ _ _ (by decide)] at h
  have hLen := (List.rdropWhile_prefix isWhitespace (l := front)).length_le
  rw [h, length_append, length_singleton] at hLen
  omega

/-- Only the end of a line is stripped. -/
theorem stripCr_append (front : Text) (h : ¬['\r'] <:+ front) :
    stripCr (front ++ t) = front ++ stripCr t := by
  rcases stripCr_cases t with ⟨start, rfl, hEq⟩ | ⟨hNot, hEq⟩
  · rw [hEq, ← append_assoc, stripCr_append_cr]
  rw [hEq]
  refine stripCr_of_not_suffix fun hSuffix => ?_
  cases t using reverseRecOn with
  | nil => exact h (by simpa using hSuffix)
  | append_singleton start last =>
    rw [← append_assoc, suffix_concat_iff] at hSuffix
    rcases hSuffix with hNil | ⟨u, hu, hPre⟩
    · cases hNil
    have hLast : last = '\r' := by
      have hEnds := congrArg getLast? hu
      rw [getLast?_concat] at hEnds
      exact (Option.some.inj hEnds).symm
    rw [hLast] at hNot
    exact hNot (suffix_append _ _)

/-! ## Lines -/

theorem join_append_singleton (sep last : Text) (front : List Text) :
    ∃ start, join sep (front ++ [last]) = start ++ last := by
  unfold join
  induction front with
  | nil => exact ⟨[], by simp [intercalate_singleton]⟩
  | cons first front ih =>
    obtain ⟨start, hStart⟩ := ih
    have hNe : front ++ [last] ≠ [] := by simp
    refine ⟨first ++ sep ++ start, ?_⟩
    rw [cons_append, intercalate_cons_of_ne_nil hNe, hStart]
    simp

theorem lines_join {last : Text} (hFront : ∀ l ∈ front, '\n' ∉ l)
    (hLast : '\n' ∉ last) (hNe : last ≠ []) :
    lines (join ['\n'] (front ++ [last])) = front.map stripCr ++ [last] := by
  unfold lines split join
  have hAll : ∀ l ∈ front ++ [last], '\n' ∉ l := by
    exact forall_mem_append.mpr ⟨hFront, forall_mem_singleton.mpr hLast⟩
  rw [splitOn_intercalate _ hAll (by simp)]
  simp [hNe]

theorem join_concat (sep last : Text) (h : front ≠ []) :
    join sep (front ++ [last]) = join sep front ++ (sep ++ last) := by
  unfold join
  induction front with
  | nil => exact absurd rfl h
  | cons first front ih =>
    rcases front with _ | ⟨second, front⟩
    · rw [singleton_append, intercalate_cons_of_ne_nil (by simp),
        intercalate_singleton, intercalate_singleton, append_assoc]
    have hFirst : sep.intercalate (first :: second :: front) =
        first ++ sep ++ sep.intercalate (second :: front) :=
      intercalate_cons_of_ne_nil (by simp)
    rw [cons_append, intercalate_cons_of_ne_nil (by simp), ih (by simp)]
    simp

theorem not_mem_split (h : line ∈ split c t) : c ∉ line := by
  unfold split at h
  induction t generalizing line with
  | nil =>
    rw [splitOn_nil, mem_singleton] at h
    rw [h]
    exact not_mem_nil
  | cons ch t ih =>
    rw [splitOn_cons_eq_if_modifyHead] at h
    split at h
    · rcases mem_cons.mp h with rfl | h
      · exact not_mem_nil
      · exact ih h
    rename_i hNe
    obtain ⟨first, rest, hSplit⟩ := exists_cons_of_ne_nil (splitOn_ne_nil c t)
    rw [hSplit] at h
    rw [hSplit] at ih
    rcases mem_cons.mp h with rfl | h
    · rw [mem_cons, not_or]
      exact ⟨fun hEq => hNe (by simp [hEq]), ih mem_cons_self⟩
    · exact ih (mem_cons_of_mem _ h)

/-- A text without a separator goes to the last part. -/
theorem split_append (hRest : c ∉ rest) (t : Text) :
    ∃ front last, split c t = front ++ [last] ∧
      split c (t ++ rest) = front ++ [last ++ rest] := by
  unfold split
  induction t with
  | nil => exact ⟨[], [], rfl, splitOn_eq_singleton hRest⟩
  | cons ch t ih =>
    obtain ⟨front, last, hSplit, hAppend⟩ := ih
    rw [cons_append, splitOn_cons_eq_if_modifyHead, splitOn_cons_eq_if_modifyHead, hSplit, hAppend]
    split
    · exact ⟨[] :: front, last, rfl, rfl⟩
    · cases front with
      | nil => exact ⟨[], ch :: last, rfl, rfl⟩
      | cons part front => exact ⟨(ch :: part) :: front, last, rfl, rfl⟩

/-- A text is its blank ends around what `trim` leaves. -/
theorem exists_trim_append (t : Text) : ∃ before after, t = before ++ (trim t ++ after) ∧
      (∀ ch ∈ before, isWhitespace ch = true) ∧ ∀ ch ∈ after, isWhitespace ch = true := by
  obtain ⟨after, hAfter, hBlank⟩ := exists_trimEnd_append (trimStart t)
  refine ⟨t.takeWhile isWhitespace, after, ?_, fun _ hMem => mem_takeWhile_imp hMem, hBlank⟩
  show t = _ ++ (trimEnd (trimStart t) ++ after)
  rw [← hAfter]
  exact takeWhile_append_dropWhile.symm

theorem trim_append {before after : Text} (hBefore : ∀ ch ∈ before, isWhitespace ch = true)
    (hAfter : ∀ ch ∈ after, isWhitespace ch = true) (t : Text) :
    trim (before ++ (t ++ after)) = trim t := by
  unfold trim trimStart
  rw [dropWhile_append_of_pos hBefore]
  by_cases hBlank : ∀ ch ∈ t, isWhitespace ch = true
  · rw [dropWhile_append_of_pos hBlank, dropWhile_eq_nil_iff.mpr hAfter,
      dropWhile_eq_nil_iff.mpr hBlank]
  · rw [dropWhile_append, if_neg]
    · exact trimEnd_append_blank hAfter
    · rw [List.isEmpty_iff, List.dropWhile_eq_nil_iff]
      exact hBlank

theorem trim_stripCr (t : Text) : trim (stripCr t) = trim t := by
  rcases stripCr_cases t with ⟨front, rfl, hEq⟩ | ⟨-, hEq⟩
  · have hNone : ∀ ch ∈ ([] : Text), isWhitespace ch = true := by simp
    have hCr : ∀ ch ∈ ['\r'], isWhitespace ch = true := forall_mem_singleton.mpr rfl
    rw [hEq, ← trim_append hNone hCr front, nil_append]
  · rw [hEq]

end Codex
