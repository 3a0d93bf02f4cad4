import Codex.ExecPolicy.Policy
import Codex.Lib.Tiers

/-!
# Codex — what decides a command

The evaluation of a command as a tiered verdict. The first tier holds the decisions of
the rules that match the command by its own first token; the second, where host
executables are resolved, those of the rules that match it under the basename of its
program. `checkWithOptions_eq` says that an evaluation is the verdict of the two tiers
over what the heuristics say, and never panics.

Which basename a command is matched under (`basenameCommand`) depends on the host
executables and not on the rules, so two policies that agree on the former are compared
rule by rule.
-/

namespace Codex.ExecPolicy

open Tiers RuleMatch

namespace Policy

/-- The rules filed under the first token of a command that match it. -/
def rulesOn (policy : Policy) (cmd : List Text) : List PrefixRule :=
  match cmd with
  | [] => []
  | first :: _ =>
      (policy.rulesByProgram.values first).filter fun rule =>
        (rule.pattern.matchesPrefix cmd).isSome

/-- Some rule matches the command by its own first token. -/
def MatchesExactly (policy : Policy) (cmd : List Text) : Prop := policy.rulesOn cmd ≠ []

/-- The command with its program replaced by the basename under which rules may match it. -/
def basenameCommand (env : PathEnv) (policy : Policy) (cmd : List Text) : Option (List Text) :=
  match cmd with
  | [] => none
  | first :: args => do
      let program ← AbsolutePathBuf.fromAbsolutePath env (.ofText first)
      let basename ← executablePathLookupKey program
      if (policy.hostExecutablesByName.lookup basename).any fun paths =>
          !paths.any (· == program) then none
      else some (basename :: args)

/-- The rules that match a command under its basename. -/
def hostRulesOn (env : PathEnv) (policy : Policy) (cmd : List Text) : List PrefixRule :=
  (policy.basenameCommand env cmd).elim [] policy.rulesOn

/-- The decisions that bear on a command, by precedence. -/
def tiers (env : PathEnv) (policy : Policy) (cmd : List Text) (options : MatchOptions) :
    List (List Decision) :=
  [(policy.rulesOn cmd).map PrefixRule.decision,
    if options.resolveHostExecutables then
      (policy.hostRulesOn env cmd).map PrefixRule.decision else []]

instance (policy : Policy) (cmd : List Text) : Decidable (policy.MatchesExactly cmd) :=
  inferInstanceAs (Decidable (policy.rulesOn cmd ≠ []))

variable {env : PathEnv} {policy policy' : Policy} {cmd : List Text} {options : MatchOptions}
  {fallback : List Text → Decision} {rule : PrefixRule}

/-! ## The matches of the source are the rules of the two tiers -/

theorem decisions_filterMap_ruleMatch (rules : List PrefixRule) (cmd : List Text) :
    (rules.filterMap (·.ruleMatch cmd)).map decision =
      (rules.filter fun rule => (rule.pattern.matchesPrefix cmd).isSome).map
        PrefixRule.decision := by
  induction rules with
  | nil => rfl
  | cons rule rules ih =>
    rw [List.filterMap_cons, List.filter_cons]
    unfold PrefixRule.ruleMatch at ih ⊢
    cases rule.pattern.matchesPrefix cmd with
    | none => simpa using ih
    | some matched => simpa [decision] using ih

theorem decisions_matchExactRules (policy : Policy) (cmd : List Text) :
    ((policy.matchExactRules cmd).getD []).map decision =
      (policy.rulesOn cmd).map PrefixRule.decision := by
  unfold matchExactRules rulesOn MultiMap.values
  rcases cmd with _ | ⟨first, args⟩
  · rfl
  dsimp only
  cases policy.rulesByProgram.getVec first with
  | none => rfl
  | some rules => exact decisions_filterMap_ruleMatch rules (first :: args)

theorem decisions_matchHostExecutableRules (env : PathEnv) (policy : Policy) (cmd : List Text) :
    (policy.matchHostExecutableRules env cmd).map decision =
      (policy.hostRulesOn env cmd).map PrefixRule.decision := by
  unfold matchHostExecutableRules hostRulesOn basenameCommand
  rcases cmd with _ | ⟨first, args⟩
  · rfl
  dsimp only [Option.bind_eq_bind]
  rcases AbsolutePathBuf.fromAbsolutePath env (.ofText first) with _ | program
  · rfl
  dsimp only [Option.bind_some]
  rcases executablePathLookupKey program with _ | basename
  · rfl
  dsimp only [Option.bind_some]
  -- the source looks the rules up before it checks the path
  rcases hRules : policy.rulesByProgram.getVec basename with _ | rules
  · split_ifs
    · rfl
    · simp [rulesOn, MultiMap.values, hRules]
  split_ifs
  · rfl
  rw [List.map_map, show decision ∘ (·.withResolvedProgram program) =
    decision from funext fun found => by cases found <;> rfl,
    decisions_filterMap_ruleMatch]
  simp [rulesOn, MultiMap.values, hRules]

/-- The matches before the heuristics: the first of the two families that has any. -/
def matchedRules (env : PathEnv) (policy : Policy) (cmd : List Text) (options : MatchOptions) :
    List RuleMatch :=
  let exact := (policy.matchExactRules cmd).getD []
  if exact ≠ [] then exact
  else if options.resolveHostExecutables then policy.matchHostExecutableRules env cmd
  else []

theorem matchesForCommandWithOptions_eq (heuristics : Option (List Text → Decision)) :
    policy.matchesForCommandWithOptions env cmd heuristics options =
      match policy.matchedRules env cmd options, heuristics with
      | [], some fallback => [.heuristicsRuleMatch cmd (fallback cmd)]
      | matched, _ => matched := by
  have hFound : (((policy.matchExactRules cmd).filter fun matched => !matched.isEmpty).or
      ((if options.resolveHostExecutables then
          some (policy.matchHostExecutableRules env cmd) else none).filter
        fun matched => !matched.isEmpty)).getD [] = policy.matchedRules env cmd options := by
    unfold matchedRules
    rcases policy.matchExactRules cmd with _ | _ | _ <;>
      cases options.resolveHostExecutables <;>
      cases policy.matchHostExecutableRules env cmd <;> simp [Option.filter]
  unfold matchesForCommandWithOptions
  rw [hFound]
  cases policy.matchedRules env cmd options <;> cases heuristics <;> rfl

theorem verdict_tiers (env : PathEnv) (policy : Policy) (cmd : List Text)
    (options : MatchOptions) (fallback : Decision) :
    verdict fallback (policy.tiers env cmd options) =
      verdict fallback [(policy.matchedRules env cmd options).map decision] := by
  unfold tiers matchedRules
  rw [← decisions_matchExactRules, ← decisions_matchHostExecutableRules]
  cases (policy.matchExactRules cmd).getD [] with
  | nil => cases options.resolveHostExecutables <;> rfl
  | cons found rest =>
    have hFound : (found :: rest).map decision ≠ [] := List.cons_ne_nil _ _
    obtain ⟨v, hMem, hMax⟩ := exists_greatest hFound
    rw [verdict_eq_of_greatest hMem hMax, if_pos (by simp), verdict_eq_of_greatest hMem hMax]

/-- The decision of an evaluation is the verdict of its tiers over the heuristics. -/
theorem checkWithOptions_eq (env : PathEnv) (policy : Policy) (cmd : List Text)
    (fallback : List Text → Decision) (options : MatchOptions) :
    policy.checkWithOptions env cmd fallback options = some
      { decision := verdict (fallback cmd) (policy.tiers env cmd options)
        matchedRules :=
          policy.matchesForCommandWithOptions env cmd (some fallback) options } := by
  rw [verdict_tiers, checkWithOptions, matchesForCommandWithOptions_eq]
  cases policy.matchedRules env cmd options with
  | nil | cons _ _ => rfl

theorem MatchesExactly.decisions_ne_nil (h : policy.MatchesExactly cmd) :
    (policy.rulesOn cmd).map PrefixRule.decision ≠ [] :=
  fun hNil => h (List.map_eq_nil_iff.mp hNil)

theorem tiers_of_matches (h : policy.matchesForCommandWithOptions env cmd none options ≠ []) :
    policy.MatchesExactly cmd ∨
      options.resolveHostExecutables = true ∧ policy.hostRulesOn env cmd ≠ [] := by
  by_contra hNeither
  rw [not_or, not_and, not_not] at hNeither
  obtain ⟨hExact, hHost⟩ := hNeither
  have hExactNil : (policy.matchExactRules cmd).getD [] = [] := by
    rw [← List.map_eq_nil_iff, decisions_matchExactRules, not_not.mp hExact]
    rfl
  apply h
  rw [matchesForCommandWithOptions_eq, matchedRules, hExactNil]
  rcases hResolve : options.resolveHostExecutables with _ | _
  · rfl
  have hHostNil : policy.matchHostExecutableRules env cmd = [] := by
    rw [← List.map_eq_nil_iff, decisions_matchHostExecutableRules, hHost hResolve]
    rfl
  rw [hHostNil]
  rfl

/-! ## Comparing policies -/

theorem mem_rulesOn :
    rule ∈ policy.rulesOn cmd ↔ ∃ first, cmd.head? = some first ∧
      rule ∈ policy.rulesByProgram.values first ∧
      (rule.pattern.matchesPrefix cmd).isSome = true := by
  cases cmd with
  | nil | cons _ _ => simp [rulesOn]

theorem basenameCommand_congr (hHosts : ∀ name, policy'.hostExecutablesByName.lookup name =
      policy.hostExecutablesByName.lookup name) :
    policy'.basenameCommand env cmd = policy.basenameCommand env cmd := by
  unfold basenameCommand
  simp only [hHosts]

theorem mem_hostRulesOn : rule ∈ policy.hostRulesOn env cmd ↔
      ∃ renamed, policy.basenameCommand env cmd = some renamed ∧ rule ∈ policy.rulesOn renamed := by
  unfold hostRulesOn
  cases policy.basenameCommand env cmd with
  | none | some _ => simp

end Policy

end Codex.ExecPolicy
