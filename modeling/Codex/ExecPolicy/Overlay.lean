import Codex.ExecPolicy.Verdict

/-!
# Codex — overlays and strictness

`Policy::merge_overlay` lays the requirements of an administrator over the policy of a
user. Both tiers of the merged policy hold the rules of both, so as long as the same tier
decides, the decision can only become stricter. It is not the same tier that decides when
the policy matched a command under its basename only and the overlay has a rule for the
program as it is written: exact matches come first, as the crate documents, and the
decision is then the overlay's alone.
-/

namespace Codex.ExecPolicy

open Tiers Policy List

namespace Policy

variable {env : PathEnv} {policy overlay : Policy} {cmd : List Text} {options : MatchOptions}
  {order : HashMap.Iteration overlay.rulesByProgram}

theorem mem_rulesOn_mergeOverlay {rule : PrefixRule} :
    rule ∈ (policy.mergeOverlay overlay order).rulesOn cmd ↔
      rule ∈ policy.rulesOn cmd ∨ rule ∈ overlay.rulesOn cmd := by
  simp only [mem_rulesOn, mergeOverlay, MultiMap.mem_values_insertAll, or_and_right, and_or_left,
    exists_or]

/-- Every host executable of the overlay is one of the policy. -/
def AddsNoHostExecutable (policy overlay : Policy) : Prop :=
  ∀ name paths, overlay.hostExecutablesByName.lookup name = some paths →
    policy.hostExecutablesByName.lookup name = some paths

theorem lookup_mergeOverlay (hHosts : AddsNoHostExecutable policy overlay) (name : Text) :
    (policy.mergeOverlay overlay order).hostExecutablesByName.lookup name =
      policy.hostExecutablesByName.lookup name := by
  unfold mergeOverlay
  cases hLookup : overlay.hostExecutablesByName.lookup name with
  | none => exact AList.lookup_union_right (AList.lookup_eq_none.mp hLookup)
  | some paths =>
    have hMem : name ∈ overlay.hostExecutablesByName :=
      AList.lookup_isSome.mp (Option.isSome_iff_exists.mpr ⟨paths, hLookup⟩)
    rw [AList.lookup_union_left hMem, hLookup, hHosts name paths hLookup]

theorem rulesOn_mergeOverlay_of_not_matchesExactly (hOurs : ¬policy.MatchesExactly cmd)
    (hTheirs : ¬overlay.MatchesExactly cmd) :
    (policy.mergeOverlay overlay order).rulesOn cmd = [] := by
  unfold MatchesExactly at hOurs hTheirs
  rw [not_not] at hOurs hTheirs
  refine eq_nil_iff_forall_not_mem.mpr fun rule hRule => ?_
  rw [mem_rulesOn_mergeOverlay, hOurs, hTheirs] at hRule
  simp at hRule

end Policy

/-- Laying an overlay without host executables of its own over a policy never weakens the
decision on a command that the policy matches, except where the command is matched under its
basename only and the overlay has rules for the program as written: those decide alone. -/
theorem mergeOverlay_strictness (env : PathEnv) (policy overlay : Policy)
    (order : HashMap.Iteration overlay.rulesByProgram) (options : MatchOptions) (cmd : List Text)
    (fallback : List Text → Decision) (hHosts : policy.AddsNoHostExecutable overlay)
    (hMatch : policy.matchesForCommandWithOptions env cmd none options ≠ []) :
    ∃ before after own,
      policy.checkWithOptions env cmd fallback options = some before ∧
      (policy.mergeOverlay overlay order).checkWithOptions env cmd fallback options = some after ∧
      overlay.checkWithOptions env cmd fallback options = some own ∧
      (policy.MatchesExactly cmd ∨ ¬overlay.MatchesExactly cmd →
        before.decision ≤ after.decision) ∧
      (¬policy.MatchesExactly cmd → overlay.MatchesExactly cmd →
        options.resolveHostExecutables = true ∧ after.decision = own.decision) := by
  refine ⟨_, _, _, policy.checkWithOptions_eq env cmd fallback options,
    checkWithOptions_eq env _ cmd fallback options,
    overlay.checkWithOptions_eq env cmd fallback options, fun hTier => ?_,
    fun hOurs hTheirs => ⟨?_, ?_⟩⟩
  · -- while the same tier decides, the merged policy is at least as strict
    show verdict _ (policy.tiers env cmd options) ≤
      verdict _ ((policy.mergeOverlay overlay order).tiers env cmd options)
    unfold tiers
    by_cases hOurs : policy.MatchesExactly cmd
    · exact verdict_le_of_subset hOurs.decisions_ne_nil <|
        map_subset _ fun _ hRule => mem_rulesOn_mergeOverlay.mpr (.inl hRule)
    have hTheirs := hTier.resolve_left hOurs
    obtain ⟨hResolve, hHost⟩ := (tiers_of_matches hMatch).resolve_left hOurs
    -- the exact tier is silent in both policies
    rw [rulesOn_mergeOverlay_of_not_matchesExactly hOurs hTheirs, not_not.mp hOurs,
      if_pos hResolve, if_pos hResolve]
    simp only [map_nil, verdict_silent]
    refine verdict_le_of_subset (by simpa using hHost) (map_subset _ fun rule hRule => ?_)
    obtain ⟨renamed, hRenamed, hOn⟩ := mem_hostRulesOn.mp hRule
    rw [mem_hostRulesOn, basenameCommand_congr (lookup_mergeOverlay hHosts)]
    exact ⟨renamed, hRenamed, mem_rulesOn_mergeOverlay.mpr (Or.inl hOn)⟩
  · exact ((tiers_of_matches hMatch).resolve_left hOurs).1
  · have hMem (rule : PrefixRule) : rule ∈ (policy.mergeOverlay overlay order).rulesOn cmd ↔
        rule ∈ overlay.rulesOn cmd := by
      rw [mem_rulesOn_mergeOverlay, not_not.mp hOurs]
      simp
    have hExact := hTheirs.decisions_ne_nil
    have hSub := map_subset PrefixRule.decision fun rule => (hMem rule).mpr
    have hSub' := map_subset PrefixRule.decision fun rule => (hMem rule).mp
    have hMerged := ne_nil_of_mem (hSub (head_mem hExact))
    exact le_antisymm (verdict_le_of_subset hMerged hSub') (verdict_le_of_subset hExact hSub)

/-- A policy with one prefix rule. -/
def Policy.ofRule (first : Text) (rest : List Text) (decision : Decision) : Policy :=
  { empty with
    rulesByProgram := MultiMap.insert ∅ first (prefixRuleOf first rest decision) }

/-- `git status` allowed over `git` forbidden: the path is matched under its basename. -/
theorem mergeOverlay_strictness_bareGit :
    let policy := ofRule "git".toList [] .forbidden
    let overlay := ofRule "git".toList ["status".toList] .allow
    let cmd := ["/usr/bin/git".toList, "status".toList]
    ∃ before after own,
      policy.checkWithOptions ⟨none, none⟩ cmd (fun _ => .prompt) ⟨true⟩ = some before ∧
      (policy.mergeOverlay overlay ⟨overlay.rulesByProgram.toPairs, .refl _⟩).checkWithOptions
        ⟨none, none⟩ cmd (fun _ => .prompt) ⟨true⟩ = some after ∧
      overlay.checkWithOptions ⟨none, none⟩ cmd (fun _ => .prompt) ⟨true⟩ = some own ∧
      (policy.MatchesExactly cmd ∨ ¬overlay.MatchesExactly cmd →
        before.decision ≤ after.decision) ∧
      (¬policy.MatchesExactly cmd → overlay.MatchesExactly cmd →
        (⟨true⟩ : MatchOptions).resolveHostExecutables = true ∧ after.decision = own.decision) :=
  mergeOverlay_strictness ⟨none, none⟩ _ _ _ ⟨true⟩ _ _ (fun _ _ h => nomatch h) (by decide)

/-- `git` is forbidden, and `/usr/bin/git` with it; a rule that allows the path wins. -/
theorem path_rule_overrides_basename_rule :
    let policy := ofRule "git".toList [] .forbidden
    let overlay := ofRule "/usr/bin/git".toList [] .allow
    let cmd := ["/usr/bin/git".toList, "push".toList]
    policy.AddsNoHostExecutable overlay ∧
      policy.matchesForCommandWithOptions ⟨none, none⟩ cmd none ⟨true⟩ ≠ [] ∧
      (policy.checkWithOptions ⟨none, none⟩ cmd (fun _ => .prompt) ⟨true⟩).map
        Evaluation.decision = some .forbidden ∧
      ((policy.mergeOverlay overlay ⟨overlay.rulesByProgram.toPairs, .refl _⟩).checkWithOptions
        ⟨none, none⟩ cmd (fun _ => .prompt) ⟨true⟩).map Evaluation.decision = some .allow :=
  ⟨(fun _ _ h => nomatch h), by decide, by decide, by decide⟩

end Codex.ExecPolicy
