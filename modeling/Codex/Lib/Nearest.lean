import Mathlib.Data.List.MinMax
import Mathlib.Data.List.Infix
import Mathlib.Data.Prod.Lex

/-!
# Nearest-ancestor resolution

A rule attaches a value to a node of a tree, and a node is resolved by the
*nearest* rule at or above it. Nodes are lists (the names from the root), so
"at or above" is list prefix; among rules at the same node the greatest value
wins. Nothing here says what the values mean: they form a linear order.

`Wins rules p r` says that `r` decides `p`, in the form proofs use: every rule
that covers `p` sits strictly above `r`, or at the same node with a value that
is no greater. `resolve_eq_some_iff` connects it to the executable `resolve`.
-/

namespace Nearest

open List

/-- Types whose values attach a value to a node. -/
class Rule (ρ : Type*) (α β : outParam Type*) where
  node : ρ → List α
  value : ρ → β

export Rule (node value)

variable {ρ α β : Type*} [Rule ρ α β] [LinearOrder β]
variable {rules rules' : List ρ} {p q : List α} {r r' : ρ}

/-- Deeper nodes first, greater values second. -/
def precedence (r : ρ) : ℕ ×ₗ β := toLex ((node r).length, value r)

/-- The value of the nearest rule at or above `p`. -/
def resolve [DecidableEq α] (rules : List ρ) (p : List α) : Option β :=
  ((rules.filter fun r => (node r).isPrefixOf p).argmax precedence).map value

/-- `r` decides `p`. -/
def Wins (rules : List ρ) (p : List α) (r : ρ) : Prop :=
  r ∈ rules ∧ node r <+: p ∧
    ∀ r' ∈ rules, node r' <+: p →
      (node r').length < (node r).length ∨ (node r' = node r ∧ value r' ≤ value r)

/-! ## Winners -/

/-- Two nodes above the same node are comparable. -/
theorem prefix_or_prefix {a b : List α} (ha : a <+: p) (hb : b <+: p) :
    a <+: b ∨ (b <+: a ∧ b.length < a.length) := by
  rcases Nat.lt_or_ge b.length a.length with hlt | hge
  · exact Or.inr ⟨prefix_of_prefix_length_le hb ha (by omega), hlt⟩
  · exact Or.inl (prefix_of_prefix_length_le ha hb hge)

section

variable (h : Wins rules p r)
include h

/-- Every rule that covers a node sits at or above the winner. -/
theorem Wins.above (hm : r' ∈ rules) (hp : node r' <+: p) :
    node r' <+: node r := by
  rcases h.2.2 r' hm hp with hlt | ⟨heq, -⟩
  · exact prefix_of_prefix_length_le hp h.2.1 hlt.le
  · rw [heq]

/-- One that does not sit above it is at its node, and has no greater value. -/
theorem Wins.beside (hm : r' ∈ rules) (hp : node r' <+: p)
    (hBelow : node r <+: node r') : node r' = node r ∧ value r' ≤ value r := by
  refine (h.2.2 r' hm hp).resolve_left fun hlt => ?_
  have hle := hBelow.length_le
  omega

theorem Wins.value_unique (h' : Wins rules p r') : value r = value r' :=
  le_antisymm (h'.beside h.1 h.2.1 (h.above h'.1 h'.2.1)).2
    (h.beside h'.1 h'.2.1 (h'.above h.1 h.2.1)).2

theorem Wins.node_unique (h' : Wins rules p r') : node r = node r' :=
  (h'.beside h.1 h.2.1 (h.above h'.1 h'.2.1)).1

/-- The winner at `p` also wins at every node between itself and `p`. -/
theorem Wins.of_between (hr : node r <+: q) (hq : q <+: p) : Wins rules q r :=
  ⟨h.1, hr, fun r' hm' hp' => h.2.2 r' hm' (hp'.trans hq)⟩

end

/-- Removing rules keeps a winner that stays. -/
theorem Wins.of_subset (h : Wins rules' p r) (hsub : rules ⊆ rules') (hr : r ∈ rules) :
    Wins rules p r :=
  ⟨hr, h.2.1, fun r' hm' hp' => h.2.2 r' (hsub hm') hp'⟩

/-- More rules leave the value in place, or one of them decides. -/
theorem Wins.of_superset (h : Wins rules p r) (hsub : rules ⊆ rules') (h' : Wins rules' p r') :
    value r' = value r ∨ r' ∉ rules := by
  by_cases hr' : r' ∈ rules
  · exact Or.inl ((h'.of_subset hsub hr').value_unique h)
  · exact Or.inr hr'

/-- The order of the rules does not matter. -/
theorem Wins.perm (h : Wins rules p r) (hPerm : rules.Perm rules') : Wins rules' p r :=
  ⟨hPerm.mem_iff.mp h.1, h.2.1, fun r' hm' hp' => h.2.2 r' (hPerm.mem_iff.mpr hm') hp'⟩

/-- One more rule takes over from the winner, or leaves it in place. -/
theorem Wins.concat (h : Wins rules p r) (r' : ρ) : Wins (rules ++ [r']) p r ∨
      (node r <+: node r' ∧ node r' <+: p ∧ Wins (rules ++ [r']) p r') := by
  have hKeep : (node r' <+: p → (node r').length < (node r).length ∨
      (node r' = node r ∧ value r' ≤ value r)) → Wins (rules ++ [r']) p r := by
    intro hNew
    refine ⟨mem_append_left _ h.1, h.2.1, fun x hx hxp => ?_⟩
    rcases mem_append.mp hx with hx | hx
    · exact h.2.2 x hx hxp
    · rw [mem_singleton.mp hx] at hxp ⊢
      exact hNew hxp
  by_cases hCovers : node r' <+: p
  · rcases prefix_or_prefix h.2.1 hCovers with hBelow | ⟨-, hLt⟩
    · by_cases hTie : node r' = node r ∧ value r' ≤ value r
      · exact Or.inl (hKeep fun _ => Or.inr hTie)
      refine Or.inr ⟨hBelow, hCovers, mem_append_right _ mem_cons_self, hCovers, ?_⟩
      intro x hx hxp
      rcases mem_append.mp hx with hx | hx
      · rcases Nat.lt_or_ge (node r).length (node r').length with hDeep | hShallow
        · rcases h.2.2 x hx hxp with hLt | ⟨hNode, -⟩
          · exact Or.inl (by omega)
          · exact Or.inl (by rw [hNode]; exact hDeep)
        -- the two sit at one node, and the new one has the greater value
        have hNode : node r' = node r := (hBelow.eq_of_length_le hShallow).symm
        have hGreater : value r < value r' := lt_of_not_ge fun hLe => hTie ⟨hNode, hLe⟩
        rcases h.2.2 x hx hxp with hLt | ⟨hSame, hLe⟩
        · exact Or.inl (by rw [hNode]; exact hLt)
        · exact Or.inr ⟨hSame.trans hNode.symm, hLe.trans hGreater.le⟩
      · rw [mem_singleton.mp hx]
        exact Or.inr ⟨rfl, le_rfl⟩
    · exact Or.inl (hKeep fun _ => Or.inl hLt)
  · exact Or.inl (hKeep fun hp => absurd hp hCovers)

variable [DecidableEq α]

/-- A rule that does not cover a node does not matter there. -/
theorem resolve_concat_of_not_covers (h : ¬ node r <+: p) :
    resolve (rules ++ [r]) p = resolve rules p := by
  have hNone : [r].filter (fun r => (node r).isPrefixOf p) = [] := by
    rw [filter_eq_nil_iff]
    intro x hx hPrefix
    rw [mem_singleton.mp hx] at hPrefix
    exact h (List.isPrefixOf_iff_prefix.mp hPrefix)
  unfold resolve
  rw [filter_append, hNone, append_nil]

theorem argmax_wins (h : r ∈ (rules.filter fun r => (node r).isPrefixOf p).argmax precedence) :
    Wins rules p r := by
  have hmem := argmax_mem h
  rw [mem_filter, isPrefixOf_iff_prefix] at hmem
  refine ⟨hmem.1, hmem.2, fun r' hm' hp' => ?_⟩
  have hle := le_of_mem_argmax
    (mem_filter.mpr ⟨hm', isPrefixOf_iff_prefix.mpr hp'⟩) h
  rcases Prod.Lex.le_iff.mp hle with hlt | ⟨hlen, hval⟩
  · exact Or.inl hlt
  · -- equal depth below the same node means the same node
    exact Or.inr ⟨(prefix_of_prefix_length_le hp' hmem.2 (le_of_eq hlen)).eq_of_length hlen,
      hval⟩

theorem exists_wins (hr : r ∈ rules) (hp : node r <+: p) : ∃ w, Wins rules p w := by
  have hmem : r ∈ rules.filter fun r => (node r).isPrefixOf p :=
    mem_filter.mpr ⟨hr, isPrefixOf_iff_prefix.mpr hp⟩
  cases hmax : (rules.filter fun r => (node r).isPrefixOf p).argmax precedence with
  | none =>
    rw [argmax_eq_none] at hmax
    rw [hmax] at hmem
    cases hmem
  | some w => exact ⟨w, argmax_wins (Option.mem_def.mpr hmax)⟩

/-- `resolve` returns the value of the winner. -/
theorem resolve_eq_some_iff {v : β} :
    resolve rules p = some v ↔ ∃ w, Wins rules p w ∧ value w = v := by
  unfold resolve
  rw [Option.map_eq_some_iff]
  constructor
  · rintro ⟨w, hw, hv⟩
    exact ⟨w, argmax_wins (Option.mem_def.mpr hw), hv⟩
  rintro ⟨w, hw, rfl⟩
  cases hmax : (rules.filter fun r => (node r).isPrefixOf p).argmax precedence with
  | none =>
    rw [argmax_eq_none, filter_eq_nil_iff] at hmax
    exact absurd (List.isPrefixOf_iff_prefix.mpr hw.2.1) (hmax w hw.1)
  | some m => exact ⟨m, rfl, (argmax_wins (Option.mem_def.mpr hmax)).value_unique hw⟩

theorem Wins.resolve_eq (h : Wins rules p r) : resolve rules p = some (value r) :=
  resolve_eq_some_iff.mpr ⟨r, h, rfl⟩

theorem resolve_perm (hPerm : rules.Perm rules') : resolve rules p = resolve rules' p := by
  ext v
  rw [resolve_eq_some_iff, resolve_eq_some_iff]
  exact exists_congr fun w => and_congr_left fun _ =>
    ⟨fun hWins => hWins.perm hPerm, fun hWins => hWins.perm hPerm.symm⟩

end Nearest
