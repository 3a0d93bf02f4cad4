import Codex.ExecPolicy.Overlay

/-!
# Codex — one more allow rule

`Gains rule before after` says that `after` is `before` with one rule more, wherever it was
inserted. The decision on a command depends on which rules there are and not on their order,
so two policies that gain the same rule decide alike (`Gains.verdict_eq`).

A rule that allows is the mildest there is, so beside a rule of the same tier it says
nothing. It still sways the decision on a command in two ways (`SwayedBy`): it matches the
command exactly where only basename rules did, one of them stricter; or it matches where
nothing did and the heuristics are stricter. `Gains.verdict_eq_iff` says that there is no
third.
-/

namespace Codex.ExecPolicy

open Tiers List PrefixRule

namespace Policy

/-- One policy is the other with one rule more. -/
structure Gains (rule : PrefixRule) (before after : Policy) : Prop where
  rules : ∀ program r, r ∈ after.rulesByProgram.values program ↔
    r ∈ before.rulesByProgram.values program ∨ program = rule.program ∧ r = rule
  hosts : after.hostExecutablesByName = before.hostExecutablesByName

/-- The rule that allows `tokens` changes the decision on a command. -/
def SwayedBy (env : PathEnv) (policy : Policy) (tokens cmd : List Text)
    (fallback : List Text → Decision) : Prop :=
  ¬policy.MatchesExactly cmd ∧
    (tokens <+: cmd ∧ (∃ rule ∈ policy.hostRulesOn env cmd, rule.decision ≠ .allow) ∨
      (tokens <+: cmd ∨ ∃ renamed, policy.basenameCommand env cmd = some renamed ∧
        tokens <+: renamed) ∧ policy.hostRulesOn env cmd = [] ∧ fallback cmd ≠ .allow)

variable {env : PathEnv} {policy policy' before after : Policy} {rule : PrefixRule}
  {cmd : List Text} {options : MatchOptions} {fallback : List Text → Decision} {r : PrefixRule}

/-! ## Gaining a rule -/

theorem gains_insert (policy : Policy) (rule : PrefixRule) : Gains rule policy { policy with
      rulesByProgram := policy.rulesByProgram.insert rule.program rule } where
  rules _ _ := MultiMap.mem_values_insert
  hosts := rfl

section

variable (h : Gains rule before after)
include h

theorem Gains.mergeOverlay (overlay : Policy)
    (order : HashMap.Iteration overlay.rulesByProgram) :
    Gains rule (before.mergeOverlay overlay order) (after.mergeOverlay overlay order) where
  rules program r := by
    simp only [Policy.mergeOverlay, MultiMap.mem_values_insertAll, h.rules]
    exact or_right_comm
  hosts := by
    unfold Policy.mergeOverlay
    rw [h.hosts]

theorem Gains.mem_rulesOn :
    r ∈ after.rulesOn cmd ↔ r ∈ before.rulesOn cmd ∨
      r = rule ∧ (rule.pattern.matchesPrefix cmd).isSome = true := by
  simp only [Policy.mem_rulesOn, h.rules]
  constructor
  · rintro ⟨first, hFirst, hOld | ⟨rfl, rfl⟩, hMatch⟩
    · exact Or.inl ⟨first, hFirst, hOld, hMatch⟩
    · exact Or.inr ⟨rfl, hMatch⟩
  rintro (⟨first, hFirst, hOld, hMatch⟩ | ⟨rfl, hMatch⟩)
  · exact ⟨first, hFirst, Or.inl hOld, hMatch⟩
  refine ⟨r.program, ?_, Or.inr ⟨rfl, rfl⟩, hMatch⟩
  -- a rule only matches commands that start with its own program
  unfold PrefixPattern.matchesPrefix at hMatch
  dsimp only at hMatch
  split_ifs at hMatch with hShort
  · cases hMatch
  · rw [not_or, not_not] at hShort
    exact hShort.2
  · cases hMatch

theorem Gains.basenameCommand :
    after.basenameCommand env cmd = before.basenameCommand env cmd :=
  basenameCommand_congr fun name => by rw [h.hosts]

theorem Gains.mem_hostRulesOn :
    r ∈ after.hostRulesOn env cmd ↔ r ∈ before.hostRulesOn env cmd ∨
      r = rule ∧ ∃ renamed, before.basenameCommand env cmd = some renamed ∧
        (rule.pattern.matchesPrefix renamed).isSome = true := by
  simp [Policy.mem_hostRulesOn, h.basenameCommand, h.mem_rulesOn, and_or_left, exists_or,
    and_left_comm]

end

/-- Where a rule was inserted does not matter. -/
theorem Gains.verdict_eq (h : Gains rule before policy) (h' : Gains rule before policy')
    (fallback : Decision) : verdict fallback (policy.tiers env cmd options) =
      verdict fallback (policy'.tiers env cmd options) := by
  refine verdict_congr (.cons (fun d => ?_) (.cons (fun d => ?_) .nil))
  · simp [h.mem_rulesOn, h'.mem_rulesOn]
  · split_ifs
    · simp [h.mem_hostRulesOn, h'.mem_hostRulesOn]
    · exact Iff.rfl

/-! ## The rule of a token list -/

theorem all_zip_single (rest args : List Text) (hLength : rest.length ≤ args.length) :
    ((rest.map PatternToken.single).zip (args.take rest.length)).all
      (fun pair => pair.1.accepts pair.2) = true ↔ rest <+: args := by
  induction rest generalizing args with
  | nil => simp
  | cons token rest ih =>
    cases args with
    | nil => cases hLength
    | cons arg args =>
      have hRest := ih args (Nat.le_of_succ_le_succ hLength)
      rw [cons_prefix_cons, ← hRest]
      simp [PatternToken.accepts]

/-- The rule of a token list matches the commands that start with it. -/
theorem matchesPrefix_prefixRuleOf (first : Text) (rest : List Text) (decision : Decision)
    (cmd : List Text) :
    ((prefixRuleOf first rest decision).pattern.matchesPrefix cmd).isSome = true ↔
      first :: rest <+: cmd := by
  unfold prefixRuleOf PrefixPattern.matchesPrefix
  rcases cmd with _ | ⟨program, args⟩
  · simp
  simp only [length_map, length_cons, List.head?_cons]
  rw [cons_prefix_cons]
  split_ifs with hShort hAll
  · simp only [Option.isSome_none, Bool.false_eq_true, false_iff]
    rintro ⟨rfl, hPrefix⟩
    have hLength := hPrefix.length_le
    rcases hShort with hShort | hFirst
    · omega
    · exact hFirst rfl
  · rw [not_or, not_not, Option.some_inj] at hShort
    simp [hShort.2, (all_zip_single rest args (by omega)).mp hAll]
  · have hNot := mt (all_zip_single rest args (by omega)).mpr hAll
    simp [hNot]

/-! ## What an allow rule changes -/

theorem forall_decision_eq_bot_iff {rules : List PrefixRule} :
    (∀ d ∈ rules.map decision, d = ⊥) ↔ ∀ r ∈ rules, r.decision = .allow :=
  forall_mem_map

variable {old new : List PrefixRule} {p : Prop}

section

variable (hAllow : rule.decision = .allow) (h : ∀ r, r ∈ new ↔ r ∈ old ∨ r = rule ∧ p)
include hAllow h

/-- A list of rules that gains an allow rule, by the decisions it holds. -/
theorem decisions_gain :
    old.map decision ⊆ new.map decision ∧
      ∀ d ∈ new.map decision, d ∈ old.map decision ∨ d = ⊥ := by
  refine ⟨map_subset _ fun r hOld => (h r).mpr (Or.inl hOld), fun d hd => ?_⟩
  obtain ⟨r, hNew, rfl⟩ := mem_map.mp hd
  rcases (h r).mp hNew with hOld | ⟨rfl, -⟩
  · exact Or.inl (mem_map_of_mem hOld)
  · exact Or.inr hAllow

/-- A silent tier that gains an allow rule holds nothing else. -/
theorem decisions_gain_silent (hOld : old = []) (hp : p) (fallback : Decision)
    (rest : List (List Decision)) :
    verdict fallback (new.map decision :: rest) = ⊥ := by
  subst hOld
  have hMem : rule.decision ∈ new.map decision :=
    mem_map_of_mem ((h rule).mpr (Or.inr ⟨rfl, hp⟩))
  refine (verdict_eq_bot_iff (ne_nil_of_mem hMem)).mpr fun d hd => ?_
  exact ((decisions_gain hAllow h).2 d hd).resolve_left not_mem_nil

end

theorem gain_nil (h : ∀ r, r ∈ new ↔ r ∈ old ∨ r = rule ∧ p) (hOld : old = []) (hp : ¬p) :
    new = [] := by
  refine eq_nil_iff_forall_not_mem.mpr fun r hNew => ?_
  rw [h, hOld] at hNew
  simp [hp] at hNew

theorem verdict_tiers_of_silent (hSilent : policy.rulesOn cmd = []) (fallback : Decision) :
    verdict fallback (policy.tiers env cmd ⟨true⟩) =
      verdict fallback [(policy.hostRulesOn env cmd).map decision] := by
  unfold tiers
  rw [hSilent]
  rfl

/-- An allow rule changes the decision on the commands it sways, and on no others. -/
theorem Gains.verdict_eq_iff {first : Text} {rest : List Text}
    (h : Gains (prefixRuleOf first rest .allow) before after) :
    verdict (fallback cmd) (after.tiers env cmd ⟨true⟩) =
        verdict (fallback cmd) (before.tiers env cmd ⟨true⟩) ↔
      ¬before.SwayedBy env (first :: rest) cmd fallback := by
  have hOn (r : PrefixRule) : r ∈ after.rulesOn cmd ↔ _ := h.mem_rulesOn
  have hHostOn (r : PrefixRule) : r ∈ after.hostRulesOn env cmd ↔ _ := h.mem_hostRulesOn
  simp only [matchesPrefix_prefixRuleOf] at hOn hHostOn
  by_cases hExact : before.MatchesExactly cmd
  · obtain ⟨hSub, hNew⟩ := decisions_gain rfl hOn
    refine iff_of_true (verdict_eq_of_gain_bot hExact.decisions_ne_nil hSub hNew) ?_
    exact fun hSway => hSway.1 hExact
  have hSilent : before.rulesOn cmd = [] := not_not.mp hExact
  rw [verdict_tiers_of_silent hSilent]
  by_cases hStarts : first :: rest <+: cmd
  · -- the new rule alone is exact, so it takes over from the basename rules
    have hAfter : verdict (fallback cmd) (after.tiers env cmd ⟨true⟩) = ⊥ :=
      decisions_gain_silent rfl hOn hSilent hStarts _ _
    rw [hAfter, eq_comm, verdict_singleton_eq_bot_iff]
    unfold SwayedBy
    rw [forall_decision_eq_bot_iff, map_eq_nil_iff, Decision.bot_eq]
    simp only [not_exists, hExact, hStarts, not_false_eq_true, true_and, true_or, not_or, not_and, not_not]
  -- the exact tier stays silent, so the basename rules are compared
  rw [verdict_tiers_of_silent (gain_nil hOn hSilent hStarts)]
  by_cases hHost : before.hostRulesOn env cmd = []
  · by_cases hRenamed : ∃ renamed, before.basenameCommand env cmd = some renamed ∧
        first :: rest <+: renamed
    · rw [decisions_gain_silent rfl hHostOn hHost hRenamed]
      unfold SwayedBy
      rw [Decision.bot_eq, eq_comm]
      simp [hExact, hRenamed, hHost, verdict]
    · rw [gain_nil hHostOn hHost hRenamed, hHost]
      refine iff_of_true rfl ?_
      rintro ⟨-, ⟨hSway, -⟩ | ⟨hSway | hSway, -⟩⟩
      · exact hStarts hSway
      · exact hStarts hSway
      · exact hRenamed hSway
  · obtain ⟨hSub, hNew⟩ := decisions_gain rfl hHostOn
    have hDecides : (before.hostRulesOn env cmd).map decision ≠ [] :=
      fun hNil => hHost (map_eq_nil_iff.mp hNil)
    refine iff_of_true (verdict_eq_of_gain_bot hDecides hSub hNew) ?_
    rintro ⟨-, ⟨hSway, -⟩ | ⟨-, hNil, -⟩⟩
    · exact hStarts hSway
    · exact hHost hNil

end Policy

end Codex.ExecPolicy
