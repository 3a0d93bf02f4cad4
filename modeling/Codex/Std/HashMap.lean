import Mathlib.Algebra.Ring.Nat
import Mathlib.Data.List.AList
import Mathlib.Data.List.Induction

/-!
# Codex — hash maps

`HashMap` is a list of entries with distinct keys. The order of the list means nothing:
what iterates over a map takes an `Iteration`, the entries in any order.

A `MultiMap` holds a vector of values for each key, in the order they were inserted; `count`
is the number of all of them.
-/

namespace Codex

open List AList

abbrev HashMap (κ ν : Type) := AList fun _ : κ => ν

namespace HashMap

variable {κ ν : Type}

variable (m : HashMap κ ν)

def toPairs : List (κ × ν) := m.entries.map fun entry => (entry.1, entry.2)

/-- One of the orders in which a map can be iterated over. -/
def Iteration : Type := { pairs : List (κ × ν) // pairs.Perm m.toPairs }

def Iteration.pairs {m : HashMap κ ν} (order : m.Iteration) : List (κ × ν) := order.val

def Iteration.keys {m : HashMap κ ν} (order : m.Iteration) : List κ := order.pairs.map Prod.fst

/-- `HashMap::retain`, with a test of the key. -/
def retain (keep : κ → Bool) : HashMap κ ν where
  entries := m.entries.filter fun entry => keep entry.1
  nodupKeys := m.nodupKeys.sublist filter_sublist

variable [DecidableEq κ]

/-- `Iterator::collect`: a later pair replaces an earlier one of the same key. -/
def collect (pairs : List (κ × ν)) : HashMap κ ν :=
  pairs.foldl (fun m pair => m.insert pair.1 pair.2) ∅

variable {k : κ} {pairs : List (κ × ν)} {v : ν}

theorem lookup_insert (k k' : κ) (v : ν) :
    (m.insert k v).lookup k' = if k' = k then some v else m.lookup k' := by
  split_ifs with hKey
  · rw [hKey, AList.lookup_insert]
  · rw [lookup_insert_ne hKey]

theorem lookup_erase (k k' : κ) : (m.erase k).lookup k' = if k' = k then none else m.lookup k' := by
  split_ifs with hKey
  · rw [hKey, AList.lookup_erase]
  · rw [lookup_erase_ne hKey]

theorem mem_toPairs {m : HashMap κ ν} : (k, v) ∈ m.toPairs ↔ m.lookup k = some v := by
  have hLookup : m.lookup k = some v ↔ (⟨k, v⟩ : Sigma fun _ : κ => ν) ∈ m.entries :=
    mem_lookup_iff
  rw [hLookup]
  unfold toPairs
  rw [mem_map]
  constructor
  · rintro ⟨entry, hMem, hEq⟩
    cases hEq
    exact hMem
  · intro hMem
    exact ⟨_, hMem, rfl⟩

theorem Iteration.mem_keys {m : HashMap κ ν} (order : m.Iteration) :
    k ∈ order.keys ↔ ∃ v, m.lookup k = some v := by
  have hMem : ∀ pair, pair ∈ order.pairs ↔ pair ∈ m.toPairs := fun _ => order.property.mem_iff
  simp [Iteration.keys, hMem, mem_toPairs]

theorem collect_concat (pairs : List (κ × ν)) (pair : κ × ν) :
    collect (pairs ++ [pair]) = (collect pairs).insert pair.1 pair.2 := by
  unfold collect
  rw [foldl_append]
  rfl

theorem mem_of_lookup_collect (h : (collect pairs).lookup k = some v) : (k, v) ∈ pairs := by
  induction pairs using List.reverseRecOn with
  | nil => cases h
  | append_singleton pairs pair ih =>
    rw [collect_concat] at h
    by_cases hKey : k = pair.1
    · subst hKey
      rw [AList.lookup_insert] at h
      cases h
      exact mem_append_right _ mem_cons_self
    · rw [lookup_insert_ne hKey] at h
      exact mem_append_left _ (ih h)

/-- The last pair of a key is what a map is asked for. -/
theorem lookup_collect_append (older newer : List (κ × ν)) (k : κ) :
    (collect (older ++ newer)).lookup k =
      ((collect newer).lookup k).or ((collect older).lookup k) := by
  induction newer using List.reverseRecOn with
  | nil => rw [append_nil]; rfl
  | append_singleton newer pair ih =>
    rw [← append_assoc, collect_concat, collect_concat]
    by_cases hKey : k = pair.1
    · subst hKey
      rw [AList.lookup_insert, AList.lookup_insert]
      rfl
    · rw [lookup_insert_ne hKey, lookup_insert_ne hKey, ih]

theorem lookup_collect_eq_none (h : ∀ pair ∈ pairs, pair.1 ≠ k) :
    (collect pairs).lookup k = none := by
  cases hLookup : (collect pairs).lookup k with
  | none => rfl
  | some v => exact absurd rfl (h (k, v) (mem_of_lookup_collect hLookup))

theorem exists_lookup_collect {pair : κ × ν} (h : pair ∈ pairs) :
    ∃ v, (collect pairs).lookup pair.1 = some v := by
  obtain ⟨older, newer, rfl⟩ := append_of_mem h
  have hSplit : older ++ pair :: newer = (older ++ [pair]) ++ newer := by simp
  have hLast : (collect (older ++ [pair])).lookup pair.1 = some pair.2 := by
    rw [collect_concat, AList.lookup_insert]
  rw [hSplit, lookup_collect_append, hLast]
  cases (collect newer).lookup pair.1 with
  | none => exact ⟨pair.2, rfl⟩
  | some v => exact ⟨v, rfl⟩

end HashMap

/-! ## Several values for one key -/

abbrev MultiMap (κ ν : Type) := HashMap κ (List ν)

namespace MultiMap

variable {κ ν : Type} [DecidableEq κ]

def getVec (m : MultiMap κ ν) (k : κ) : Option (List ν) := m.lookup k

/-- The values of a key; none for one that was never inserted. -/
def values (m : MultiMap κ ν) (k : κ) : List ν := (m.getVec k).getD []

/-- `MultiMap::insert`: behind the values the key has. -/
def insert (m : MultiMap κ ν) (k : κ) (v : ν) : MultiMap κ ν :=
  AList.insert k (m.values k ++ [v]) m

/-- Inserts every value of every key of another map, key by key. -/
def insertAll (m : MultiMap κ ν) (pairs : List (κ × List ν)) : MultiMap κ ν :=
  pairs.foldl (fun m pair => pair.2.foldl (fun m v => m.insert pair.1 v) m) m

variable (m : MultiMap κ ν)

theorem values_insert (k k' : κ) (v : ν) :
    (m.insert k v).values k' = if k' = k then m.values k ++ [v] else m.values k' := by
  unfold values getVec insert
  rw [HashMap.lookup_insert]
  split_ifs <;> rfl

theorem mem_values_insert {m : MultiMap κ ν} {k k' : κ} {v v' : ν} :
    v' ∈ (m.insert k v).values k' ↔ v' ∈ m.values k' ∨ k' = k ∧ v' = v := by
  rw [values_insert]
  split_ifs with hKey
  · subst hKey
    simp
  · simp [hKey]

theorem values_foldl_insert (k k' : κ) (vs : List ν) :
    (vs.foldl (fun m v => m.insert k v) m).values k' =
      m.values k' ++ if k' = k then vs else [] := by
  induction vs generalizing m with
  | nil => simp
  | cons v vs ih =>
    rw [foldl_cons, ih, values_insert]
    split_ifs with hKey
    · subst hKey
      rw [append_assoc, singleton_append]
    · rfl

theorem values_insertAll (pairs : List (κ × List ν)) (k : κ) : (m.insertAll pairs).values k =
      m.values k ++ (pairs.filter fun pair => k = pair.1).flatMap Prod.snd := by
  unfold insertAll
  induction pairs generalizing m with
  | nil => simp
  | cons pair pairs ih =>
    rw [foldl_cons, ih, values_foldl_insert]
    by_cases hKey : k = pair.1
    · simp [hKey]
    · simp [hKey]

/-- The keys of a map are distinct, so the order in which they come does not matter. -/
theorem mem_values_insertAll {m n : MultiMap κ ν} (order : HashMap.Iteration n) {k : κ} {v : ν} :
    v ∈ (m.insertAll order.pairs).values k ↔ v ∈ m.values k ∨ v ∈ n.values k := by
  rw [values_insertAll, mem_append, mem_flatMap]
  refine or_congr_right ⟨?_, fun hMem => ?_⟩
  · rintro ⟨⟨k', vs⟩, hPair, hMem⟩
    rw [mem_filter, decide_eq_true_eq] at hPair
    obtain ⟨hPair, rfl⟩ := hPair
    have hLookup := HashMap.mem_toPairs.mp (order.property.mem_iff.mp hPair)
    unfold values getVec
    rw [hLookup]
    exact hMem
  · unfold values getVec at hMem
    cases hLookup : n.lookup k with
    | none =>
      rw [hLookup] at hMem
      cases hMem
    | some vs =>
      rw [hLookup] at hMem
      have hPair := order.property.mem_iff.mpr (HashMap.mem_toPairs.mpr hLookup)
      exact ⟨(k, vs), mem_filter.mpr ⟨hPair, by simp⟩, hMem⟩

/-- How many values there are. -/
def count : Nat := (m.entries.map fun entry => entry.2.length).sum

theorem count_erase (k : κ) : m.count = (m.values k).length + count (erase k m) := by
  by_cases hKey : k ∈ m.entries.keys
  · obtain ⟨vs, before, after, -, hEntries, hErase⟩ := exists_of_kerase hKey
    have hLookup : m.lookup k = some vs := by
      refine mem_lookup_iff.mpr ?_
      rw [hEntries]
      exact mem_append_right _ mem_cons_self
    unfold count values getVec
    rw [hLookup, Option.getD_some]
    show _ = _ + ((List.kerase k m.entries).map _).sum
    rw [hErase, hEntries, map_append, map_cons, map_append, sum_append, sum_cons, sum_append]
    dsimp only
    omega
  · have hLookup : m.lookup k = none := lookup_eq_none.mpr hKey
    unfold count values getVec
    rw [hLookup]
    show _ = 0 + ((List.kerase k m.entries).map _).sum
    rw [kerase_of_notMem_keys hKey, Nat.zero_add]

theorem count_replace (k : κ) (vs : List ν) :
    count (AList.insert k vs m) = vs.length + count (erase k m) := by
  show ((List.kinsert k vs m.entries).map _).sum = _
  rfl

theorem count_insert (k : κ) (v : ν) : (m.insert k v).count = m.count + 1 := by
  have hErase := m.count_erase k
  unfold insert
  rw [count_replace, length_append, length_singleton]
  omega

end MultiMap

end Codex
