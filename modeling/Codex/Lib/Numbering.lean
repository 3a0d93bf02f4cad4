import Mathlib.Data.List.Nodup
import Mathlib.Algebra.Ring.Nat

/-!
# Numbers for the entries of a table

A table is a list of rows, and some of its entries are numbers, written by an injective `name`; the
others come from outside. The next number is not kept above the largest one: when the table is cut
after some row, counting goes on from the number of entries that are left. Entries may be added to
any row. `Ok.extend` and `Ok.take` say that numbers stay unique all the same. What carries it is
`Ok.bounded`: a number is at most the count of the entries up to the end of its row.
-/

namespace Numbering

open List

variable {ι : Type*} [DecidableEq ι] {name : Nat → ι} {rows older newer : List (List ι)}
variable {row : List ι} {x : ι} {next next' : Nat}

/-- No row has an entry twice, no number is there twice, and the next number is new. -/
structure Ok (name : Nat → ι) (rows : List (List ι)) (next : Nat) : Prop where
  nodup : ∀ row ∈ rows, row.Nodup
  unique : ∀ n, rows.flatten.count (name n) ≤ 1
  bounded : ∀ k n, name n ∈ (rows.take k).flatten → n ≤ (rows.take k).flatten.length
  fresh : ∀ n, name n ∈ rows.flatten → n < next
  counted : next ≤ rows.flatten.length + 1

omit [DecidableEq ι] in
theorem mem_flatten_extend {y : ι} : y ∈ (older ++ (row ++ [x]) :: newer).flatten ↔
    y ∈ (older ++ row :: newer).flatten ∨ y = x := by
  simp only [flatten_append, flatten_cons, mem_append, mem_singleton]
  tauto

omit [DecidableEq ι] in
theorem length_flatten_extend : (older ++ (row ++ [x]) :: newer).flatten.length =
    (older ++ row :: newer).flatten.length + 1 := by
  simp only [flatten_append, flatten_cons, length_append, length_singleton]
  omega

/-- An entry that is new to its row and, if it is a number, to the table. -/
theorem Ok.extend (h : Ok name (older ++ row :: newer) next) (hRow : x ∉ row)
    (hNext : next ≤ next' ∧ next' ≤ next + 1)
    (hx : ∀ n, name n = x → x ∉ (older ++ row :: newer).flatten ∧ n < next' ∧
      n ≤ older.flatten.length + row.length + 1) :
    Ok name (older ++ (row ++ [x]) :: newer) next' := by
  refine ⟨?_, fun n => ?_, fun k n hn => ?_, fun n hn => ?_, ?_⟩
  · intro other hOther
    rcases mem_append.mp hOther with hOlder | hRest
    · exact h.nodup other (mem_append_left _ hOlder)
    · rcases mem_cons.mp hRest with rfl | hNewer
      · have hOld := h.nodup row (by simp)
        exact hOld.append (nodup_singleton x) (by simpa using hRow)
      · exact h.nodup other (by simp [hNewer])
  · have hCount : (older ++ (row ++ [x]) :: newer).flatten.count (name n) =
        (older ++ row :: newer).flatten.count (name n) + [x].count (name n) := by
      simp only [flatten_append, flatten_cons, count_append]
      omega
    rw [hCount]
    by_cases hn : name n = x
    · rw [hn, count_eq_zero_of_not_mem (hx n hn).1, count_singleton_self]
    · rw [count_singleton, if_neg (by simpa using Ne.symm hn)]
      exact h.unique n
  · -- the cut is before the row, or the row is there in full
    have hOld := h.bounded k n
    rcases Nat.le_total k older.length with hBefore | hAfter
    · rw [take_append_of_le_length hBefore] at hn hOld ⊢
      exact hOld hn
    obtain ⟨j, rfl⟩ := Nat.exists_eq_add_of_le hAfter
    rcases j with _ | j
    · rw [Nat.add_zero, take_left] at hn hOld ⊢
      exact hOld hn
    rw [take_length_add_append, take_succ_cons] at hn hOld ⊢
    rw [length_flatten_extend]
    rcases mem_flatten_extend.mp hn with hMem | hNew
    · exact Nat.le_succ_of_le (hOld hMem)
    · have hLe := (hx n hNew).2.2
      simp only [flatten_append, flatten_cons, length_append]
      omega
  · rcases mem_flatten_extend.mp hn with hOld | hNew
    · exact lt_of_lt_of_le (h.fresh n hOld) hNext.1
    · exact (hx n hNew).2.1
  · have hOld := h.counted
    rw [length_flatten_extend]
    omega

/-- The next number goes to the last row. -/
theorem Ok.number (h : Ok name (older ++ [row]) next) (hName : Function.Injective name) :
    Ok name (older ++ [row ++ [name next]]) (next + 1) := by
  have hFresh : name next ∉ (older ++ [row]).flatten := fun hMem => lt_irrefl _ (h.fresh _ hMem)
  refine h.extend (fun hMem => hFresh (by simp [hMem])) (by omega) fun n hn => ?_
  have hCounted := h.counted
  simp only [flatten_append, flatten_singleton, length_append] at hCounted
  rw [hName hn]
  exact ⟨hFresh, by omega, by omega⟩

/-- Rows are cut off at the end, and counting goes on from what is left. -/
theorem Ok.take (h : Ok name rows next) (k : Nat) :
    Ok name (rows.take k) ((rows.take k).flatten.length + 1) where
  nodup row hRow := h.nodup row (mem_of_mem_take hRow)
  unique n := by
    have hAll := h.unique n
    rw [← take_append_drop k rows, flatten_append, count_append] at hAll
    omega
  bounded j n := by
    rw [take_take]
    exact h.bounded _ n
  fresh n hn := Nat.lt_succ_of_le (h.bounded k n hn)
  counted := le_refl _

/-- A new row is empty. -/
theorem Ok.concat_nil (h : Ok name rows next) : Ok name (rows ++ [[]]) next where
  nodup := forall_mem_append.mpr ⟨h.nodup, forall_mem_singleton.mpr nodup_nil⟩
  unique := by simpa using h.unique
  bounded k n := by
    have hSame : ((rows ++ [[]]).take k).flatten = (rows.take k).flatten := by
      cases hk : k - rows.length <;> simp [take_append, hk]
    rw [hSame]
    exact h.bounded k n
  fresh := by simpa using h.fresh
  counted := by simpa using h.counted

end Numbering
