import Codex.ExecPolicy.Amend
import Codex.ExecPolicy.Gains

/-!
# Codex — memory and disk after an amendment

`append_amendment_and_update` changes the policy twice: in memory, and in the rules file
that the next session loads. This module compares the two.

The load is a run of builder calls. A rules file that makes one call more, to the rule of
the amendment, loads whenever the shorter one does, and every file after it has the same
effect; the policy that is loaded gains the rule (`loadExecPolicy_gains`). So memory and
disk decide alike when both gain the rule or neither does.

They do not always: the file gains the rule unless it has that very line, memory unless it
allows the tokens already. When the tokens are allowed under their basename only, the file
gains an exact rule that memory has not, and `appendAmendment_agrees_iff` says on which
commands this shows.
-/

namespace Codex.ExecPolicy

open Tiers List PolicyBuilder Text Policy

variable {env : PathEnv} {starlark : Starlark} {rule : PrefixRule}
  {builder builder' result : PolicyBuilder} {tokens : List Text}

/-! ## A load as a run of builder calls -/

/-- The examples that a call leaves to be checked. -/
def BuilderCall.validations : BuilderCall → List PendingExampleValidation
  | .addRules validation => [validation]
  | .addNetworkRule _ => []
  | .addHostExecutable _ _ => []

namespace PolicyBuilder

theorem foldl_apply_pending (calls : List BuilderCall) (builder : PolicyBuilder) :
    (calls.foldl apply builder).pendingExampleValidations =
      builder.pendingExampleValidations ++ calls.flatMap BuilderCall.validations := by
  induction calls generalizing builder with
  | nil => simp
  | cons call calls ih =>
    rw [foldl_cons, ih, flatMap_cons, ← append_assoc]
    congr 1
    cases call with
    | addRules validation =>
      exact foldlRecOn (motive := (pendingExampleValidations · = _)) _ addRule rfl fun _ h _ _ => h
    | addNetworkRule _ | addHostExecutable _ _ => exact (append_nil _).symm

theorem run_eq_ok_iff {directive : Directive} : builder.run env starlark directive = .ok result ↔
      ∃ call, directive.call env starlark = .ok call ∧ result = builder.apply call := by
  unfold run
  cases directive.call env starlark with
  | error e =>
    constructor
    · intro h
      cases h
    · rintro ⟨_, hCall, -⟩
      cases hCall
  | ok call =>
    constructor
    · intro h
      exact ⟨call, rfl, (Except.ok.inj h).symm⟩
    · rintro ⟨_, hCall, rfl⟩
      cases hCall
      rfl

/-- The calls that a list of directives makes, one for each. -/
abbrev Makes (env : PathEnv) (starlark : Starlark) (directives : List Directive)
    (calls : List BuilderCall) : Prop :=
  List.Forall₂ (fun directive call => Directive.call env starlark directive = .ok call)
    directives calls

/-- A run applies the calls of its directives, which do not depend on the builder. -/
theorem foldlM_run_eq_ok_iff {directives : List Directive} :
    directives.foldlM (run env starlark) builder = .ok result ↔
      ∃ calls, Makes env starlark directives calls ∧ result = calls.foldl apply builder := by
  induction directives generalizing builder with
  | nil =>
    constructor
    · intro h
      cases h
      exact ⟨[], .nil, rfl⟩
    · rintro ⟨_, hMakes, rfl⟩
      cases hMakes
      rfl
  | cons directive directives ih =>
    rw [foldlM_cons]
    constructor
    · intro h
      obtain ⟨middle, hRun, hRest⟩ := exists_ok_of_bind h
      obtain ⟨call, hCall, rfl⟩ := run_eq_ok_iff.mp hRun
      obtain ⟨calls, hMakes, rfl⟩ := ih.mp hRest
      exact ⟨call :: calls, .cons hCall hMakes, rfl⟩
    · rintro ⟨_, hMakes, rfl⟩
      cases hMakes with
      | @cons _ call _ calls hCall hMakes =>
        rw [run_eq_ok_iff.mpr ⟨call, hCall, rfl⟩]
        exact ih.mpr ⟨calls, hMakes, rfl⟩

variable {contents : Text}

/-- A file is read when its calls succeed and their own examples check. -/
theorem parse_eq_ok_iff : builder.parse env starlark contents = .ok result ↔
      ∃ directives calls, starlark.eval contents = .ok directives ∧
        Makes env starlark directives calls ∧ result = calls.foldl apply builder ∧
        (calls.flatMap BuilderCall.validations).forM
          (validateExamples env result.hostExecutablesByName) = .ok () := by
  have hChecked (calls : List BuilderCall) :
      (calls.foldl apply builder).validatePendingExamplesFrom env
          builder.pendingExampleValidations.length =
        (calls.flatMap BuilderCall.validations).forM
          (validateExamples env (calls.foldl apply builder).hostExecutablesByName) := by
    unfold validatePendingExamplesFrom
    rw [foldl_apply_pending, drop_left]
  constructor
  · intro h
    obtain ⟨directives, hEval, h⟩ := exists_ok_of_bind h
    obtain ⟨middle, hRun, h⟩ := exists_ok_of_bind h
    obtain ⟨_, hValid, h⟩ := exists_ok_of_bind h
    cases h
    obtain ⟨calls, hMakes, rfl⟩ := foldlM_run_eq_ok_iff.mp hRun
    rw [hChecked] at hValid
    refine ⟨directives, calls, ?_, hMakes, rfl, hValid⟩
    cases hModule : starlark.eval contents with
    | error e =>
      rw [hModule] at hEval
      cases hEval
    | ok found =>
      rw [hModule] at hEval
      cases hEval
      rfl
  · rintro ⟨directives, calls, hEval, hMakes, rfl, hValid⟩
    unfold parse
    rw [hEval]
    show (directives.foldlM (run env starlark) builder >>= _) = _
    rw [foldlM_run_eq_ok_iff.mpr ⟨calls, hMakes, rfl⟩]
    show ((calls.foldl apply builder).validatePendingExamplesFrom env _ >>= _) = _
    rw [hChecked, hValid]
    rfl

/-! ## The builder that gained a rule -/

/-- One builder has one rule more than the other. -/
abbrev Gains (rule : PrefixRule) (before after : PolicyBuilder) : Prop :=
  Policy.Gains rule before.build after.build

section

variable (h : Gains rule builder builder')
include h

theorem Gains.addRule (other : PrefixRule) :
    Gains rule (builder.addRule other) (builder'.addRule other) where
  rules program r := by
    have hRules := h.rules program r
    simp only [PolicyBuilder.addRule, build, MultiMap.mem_values_insert] at hRules ⊢
    rw [hRules]
    exact or_right_comm
  hosts := h.hosts

theorem Gains.apply (call : BuilderCall) :
    Gains rule (builder.apply call) (builder'.apply call) := by
  cases call with
  | addRules validation => exact foldl_rel ⟨h.rules, h.hosts⟩ fun other _ _ _ h => h.addRule other
  | addNetworkRule rule => exact ⟨h.rules, h.hosts⟩
  | addHostExecutable name paths =>
    have hHosts : builder'.hostExecutablesByName = builder.hostExecutablesByName := h.hosts
    refine ⟨h.rules, ?_⟩
    show builder'.hostExecutablesByName.insert name paths = _
    rw [hHosts]
    rfl

/-- A file that loads goes on loading, with the same effect. -/
theorem Gains.parse (hParse : builder.parse env starlark contents = .ok result) :
    ∃ result', builder'.parse env starlark contents = .ok result' ∧ Gains rule result result' := by
  obtain ⟨directives, calls, hEval, hMakes, rfl, hValid⟩ := parse_eq_ok_iff.mp hParse
  have hGains : Gains rule (calls.foldl PolicyBuilder.apply builder)
      (calls.foldl PolicyBuilder.apply builder') := foldl_rel h fun call _ _ _ h => h.apply call
  have hHosts : (calls.foldl PolicyBuilder.apply builder').hostExecutablesByName =
    (calls.foldl PolicyBuilder.apply builder).hostExecutablesByName := hGains.hosts
  rw [← hHosts] at hValid
  exact ⟨_, parse_eq_ok_iff.mpr ⟨directives, calls, hEval, hMakes, rfl, hValid⟩, hGains⟩

theorem Gains.foldlM_parse {files : List Text}
    (hParse : files.foldlM (PolicyBuilder.parse env starlark) builder = .ok result) :
    ∃ result', files.foldlM (PolicyBuilder.parse env starlark) builder' = .ok result' ∧
      Gains rule result result' := by
  induction files generalizing builder builder' with
  | nil =>
    cases hParse
    exact ⟨builder', rfl, h⟩
  | cons contents files ih =>
    obtain ⟨middle, hHead, hRest⟩ := exists_ok_of_bind hParse
    obtain ⟨middle', hHead', hMiddle⟩ := h.parse hHead
    obtain ⟨result', hRest', hResult⟩ := ih hMiddle hRest
    refine ⟨result', ?_, hResult⟩
    rw [foldlM_cons, hHead']
    exact hRest'

end

end PolicyBuilder

/-! ## The line that was appended -/

/-- The call that the line of an amendment makes. -/
def allowDirective (tokens : List Text) : Directive :=
  .prefixRule (tokens.map .str) (some "allow".toList) none none none

/-- The directives of a file; one that does not exist has none. -/
def Starlark.evalFile (starlark : Starlark) (file : Option Text) : Except Text (List Directive) :=
  match file with
  | none => .ok []
  | some contents => starlark.eval contents

/-- The line of an amendment, where it is appended, is read as the call to allow exactly its
tokens, after whatever the file said before. -/
def ReadsBack (starlark : Starlark) (file : Option Text) (tokens : List Text) : Prop :=
  allowLine tokens ∉ lines (file.getD []) →
    ∀ directives, starlark.evalFile file = .ok directives →
      starlark.eval (appendLockedLine (file.getD []) (allowLine tokens)) =
        .ok (directives ++ [allowDirective tokens])

theorem mapM_parsePatternToken_str (tokens : List Text) :
    (tokens.map Value.str).mapM parsePatternToken = .ok (tokens.map .single) := by
  induction tokens with
  | nil => rfl
  | cons token tokens ih =>
    rw [map_cons, mapM_cons, ih]
    rfl

theorem call_allowDirective (first : Text) (rest : List Text) :
    (allowDirective (first :: rest)).call env starlark =
      .ok (.addRules ⟨[prefixRuleOf first rest .allow], [], []⟩) := by
  have hTokens := mapM_parsePatternToken_str (first :: rest)
  unfold allowDirective Directive.call prefixRule parsePattern
  dsimp only
  rw [hTokens]
  rfl

variable {file : Option Text} {first : Text} {rest : List Text}
variable {requirements : Option ((overlay : Policy) × HashMap.Iteration overlay.rulesByProgram)}

section

variable (h : file.toList.foldlM (PolicyBuilder.parse env starlark) builder = .ok result)
include h

/-- Reading the rules file, whether it exists or not, is running its calls. -/
theorem exists_calls_of_file :
    ∃ directives calls, starlark.evalFile file = .ok directives ∧
      PolicyBuilder.Makes env starlark directives calls ∧
      result = calls.foldl apply builder ∧
      (calls.flatMap BuilderCall.validations).forM
        (validateExamples env result.hostExecutablesByName) = .ok () := by
  cases file with
  | none =>
    cases h
    exact ⟨[], [], rfl, .nil, rfl, rfl⟩
  | some contents =>
    obtain ⟨middle, hParse, hNil⟩ := exists_ok_of_bind h
    cases hNil
    exact parse_eq_ok_iff.mp hParse

/-- Reading the file with the appended line gives one rule more. -/
theorem parse_appended {contents : Text}
    (hRead : ∀ directives, starlark.evalFile file = .ok directives →
      starlark.eval contents = .ok (directives ++ [allowDirective (first :: rest)])) :
    ∃ result', builder.parse env starlark contents = .ok result' ∧
      PolicyBuilder.Gains (prefixRuleOf first rest .allow) result result' := by
  obtain ⟨directives, calls, hEval, hMakes, rfl, hValid⟩ := exists_calls_of_file h
  let allowed : PendingExampleValidation := ⟨[prefixRuleOf first rest .allow], [], []⟩
  refine ⟨(calls.foldl apply builder).apply (.addRules allowed), ?_, ?_⟩
  · refine parse_eq_ok_iff.mpr ⟨_, calls ++ [.addRules allowed],
      hRead directives hEval, ?_, ?_, ?_⟩
    · exact rel_append hMakes (.cons (call_allowDirective first rest) .nil)
    · rw [foldl_append]
      rfl
    -- the new rule has no examples, and the host executables are the same
    rw [flatMap_append, forM_eq_forM, forM_append]
    show ((calls.flatMap BuilderCall.validations).forM (validateExamples env
      (calls.foldl apply builder).hostExecutablesByName) >>= _) = _
    rw [hValid]
    rfl
  · exact gains_insert _ _

end

/-- A reload after the line was appended gives the policy with the rule. -/
theorem loadExecPolicy_gains {before after : List Text}

    {policy : Policy} {contents : Text}
    (h : loadExecPolicy env starlark (before ++ file.toList ++ after) requirements = .ok policy)
    (hRead : ∀ directives, starlark.evalFile file = .ok directives →
      starlark.eval contents = .ok (directives ++ [allowDirective (first :: rest)])) :
    ∃ disk, loadExecPolicy env starlark (before ++ [contents] ++ after) requirements = .ok disk ∧
      Policy.Gains (prefixRuleOf first rest .allow) policy disk := by
  obtain ⟨built, hFiles, hBuilt⟩ := exists_ok_of_bind h
  rw [foldlM_append, foldlM_append] at hFiles
  obtain ⟨atFile, hFiles, hAfter⟩ := exists_ok_of_bind hFiles
  obtain ⟨atStart, hBefore, hFile⟩ := exists_ok_of_bind hFiles
  obtain ⟨atFile', hParse, hGains⟩ := parse_appended hFile hRead
  obtain ⟨built', hAfter', hResult⟩ := hGains.foldlM_parse hAfter
  have hFiles' : (before ++ [contents] ++ after).foldlM (parse env starlark) .new =
      .ok built' := by
    rw [foldlM_append, foldlM_append, hBefore]
    show ((List.foldlM _ atStart [contents]) >>= _) = _
    rw [foldlM_cons, hParse]
    exact hAfter'
  unfold loadExecPolicy
  rw [hFiles']
  cases requirements with
  | none =>
    cases hBuilt
    exact ⟨built'.build, rfl, hResult⟩
  | some requirement =>
    cases hBuilt
    exact ⟨_, rfl, Policy.Gains.mergeOverlay hResult _ _⟩

/-! ## What is allowed already -/

/-- The rules that decide on the tokens all allow them. -/
def Policy.AllowsAlready (env : PathEnv) (policy : Policy) (tokens : List Text) : Prop :=
  if policy.MatchesExactly tokens then ∀ rule ∈ policy.rulesOn tokens, rule.decision = .allow
  else policy.hostRulesOn env tokens ≠ [] ∧
    ∀ rule ∈ policy.hostRulesOn env tokens, rule.decision = .allow

variable {policy : Policy} {found : RuleMatch} {cmd : List Text}

theorem verdict_eq_allow_iff : verdict .forbidden (policy.tiers env tokens ⟨true⟩) = .allow ↔
      policy.AllowsAlready env tokens := by
  unfold AllowsAlready
  rw [← Decision.bot_eq]
  split_ifs with hExact
  · exact (verdict_eq_bot_iff hExact.decisions_ne_nil).trans forall_decision_eq_bot_iff
  rw [verdict_tiers_of_silent (not_not.mp hExact), verdict_singleton_eq_bot_iff,
    forall_decision_eq_bot_iff, map_eq_nil_iff, and_comm]
  refine and_congr_left fun _ => ⟨fun h hNil => ?_, fun h hNil => absurd hNil h⟩
  cases h hNil

theorem isPolicyMatch_of_mem_filterMap {rules : List PrefixRule}
    (h : found ∈ rules.filterMap (·.ruleMatch cmd)) :
    isPolicyMatch found = true := by
  obtain ⟨rule, -, hMatch⟩ := mem_filterMap.mp h
  obtain ⟨matched, -, rfl⟩ := Option.map_eq_some_iff.mp hMatch
  rfl

theorem isPolicyMatch_of_mem_matchedRules {options : MatchOptions}
    (h : found ∈ policy.matchedRules env cmd options) :
    isPolicyMatch found = true := by
  unfold matchedRules at h
  dsimp only at h
  split_ifs at h with hExact hResolve
  · unfold matchExactRules at h
    rcases cmd with _ | ⟨program, args⟩
    · cases h
    dsimp only [Option.getD_some] at h
    cases hRules : policy.rulesByProgram.getVec program with
    | none =>
      rw [hRules] at h
      cases h
    | some rules =>
      rw [hRules] at h
      exact isPolicyMatch_of_mem_filterMap h
  · unfold matchHostExecutableRules at h
    split at h
    · cases h
    split at h
    · cases h
    split at h
    · cases h
    split at h
    · cases h
    split_ifs at h
    · cases h
    obtain ⟨bare, hBare, rfl⟩ := mem_map.mp h
    have hPolicy := isPolicyMatch_of_mem_filterMap hBare
    cases bare with
    | prefixRuleMatch => rfl
    | heuristicsRuleMatch => cases hPolicy
  · cases h

/-- The check of the source: a decision to allow that is not the heuristics' comes from
rules that all allow. -/
theorem alreadyAllowed_iff :
    alreadyAllowed env policy tokens = true ↔ policy.AllowsAlready env tokens := by
  rw [← verdict_eq_allow_iff]
  have hCheck : policy.checkMultipleWithOptions env [tokens] (fun _ => .forbidden) ⟨true⟩ =
      policy.checkWithOptions env tokens (fun _ => .forbidden) ⟨true⟩ := by
    unfold checkMultipleWithOptions checkWithOptions
    rw [flatMap_singleton]
  unfold alreadyAllowed
  rw [hCheck, checkWithOptions_eq, Option.any_some, Bool.and_eq_true, beq_iff_eq]
  refine and_iff_left_of_imp fun hAllow => ?_
  rw [verdict_tiers] at hAllow
  rw [matchesForCommandWithOptions_eq]
  rcases hMatched : policy.matchedRules env tokens ⟨true⟩ with _ | ⟨found, rest⟩
  · rw [hMatched] at hAllow
    cases hAllow
  rw [hMatched, ← Decision.bot_eq, verdict_eq_bot_iff (by simp)] at hAllow
  have hFound : isPolicyMatch found = true :=
    isPolicyMatch_of_mem_matchedRules (hMatched ▸ mem_cons_self)
  have hDecision : found.decision = .allow := hAllow found.decision (by simp)
  simp [hFound, hDecision]

/-! ## Memory and disk -/

/-- Memory gains the rule unless the tokens are allowed already. -/
theorem memory_after_update (env : PathEnv) (file : Option Text) (policy : Policy)
    (first : Text) (rest : List Text) :
    ∃ memory, appendAmendmentAndUpdate env file policy (first :: rest) =
        .ok (appendLockedLine (file.getD []) (allowLine (first :: rest)), memory) ∧
      (policy.AllowsAlready env (first :: rest) ∧ memory = policy ∨
        ¬policy.AllowsAlready env (first :: rest) ∧
          Policy.Gains (prefixRuleOf first rest .allow) policy memory) := by
  unfold appendAmendmentAndUpdate
  by_cases hAllowed : policy.AllowsAlready env (first :: rest)
  · refine ⟨policy, ?_, Or.inl ⟨hAllowed, rfl⟩⟩
    rw [alreadyAllowed_iff.mpr hAllowed]
    rfl
  · refine ⟨_, ?_, Or.inr ⟨hAllowed, gains_insert policy _⟩⟩
    rw [Bool.eq_false_iff.mpr (mt alreadyAllowed_iff.mp hAllowed)]
    rfl

/-- Disk gains the rule unless the file has its line. -/
theorem disk_after_update {before after : List Text}

    (hLoad : loadExecPolicy env starlark (before ++ file.toList ++ after) requirements =
      .ok policy)
    (hReadBack : ReadsBack starlark file (first :: rest)) :
    ∃ disk, loadExecPolicy env starlark (before ++
        [appendLockedLine (file.getD []) (allowLine (first :: rest))] ++ after) requirements =
        .ok disk ∧
      (allowLine (first :: rest) ∈ lines (file.getD []) ∧ disk = policy ∨
        allowLine (first :: rest) ∉ lines (file.getD []) ∧
          Policy.Gains (prefixRuleOf first rest .allow) policy disk) := by
  by_cases hLine : allowLine (first :: rest) ∈ lines (file.getD [])
  · refine ⟨policy, ?_, Or.inl ⟨hLine, rfl⟩⟩
    rcases file with _ | contents
    · cases hLine
    have hKept : appendLockedLine contents (allowLine (first :: rest)) = contents :=
      if_pos (by simpa using hLine)
    rw [Option.getD_some, hKept]
    exact hLoad
  · obtain ⟨disk, hDisk, hGains⟩ := loadExecPolicy_gains hLoad (hReadBack hLine)
    exact ⟨disk, hDisk, Or.inr ⟨hLine, hGains⟩⟩

/-- After an update, memory and the reloaded policy decide a command alike exactly when both
or neither gained the rule, or the rule does not sway the decision. -/
theorem appendAmendment_agrees_iff (env : PathEnv) (starlark : Starlark)
    (before after : List Text) (file : Option Text)
    (requirements : Option ((overlay : Policy) × HashMap.Iteration overlay.rulesByProgram))
    (policy : Policy) (tokens cmd : List Text) (fallback : List Text → Decision)
    (hTokens : tokens ≠ [])
    (hLoad : loadExecPolicy env starlark (before ++ file.toList ++ after) requirements =
      .ok policy)
    (hReadBack : ReadsBack starlark file tokens) :
    ∃ file' memory disk,
      appendAmendmentAndUpdate env file policy tokens = .ok (file', memory) ∧
      loadExecPolicy env starlark (before ++ [file'] ++ after) requirements = .ok disk ∧
      ((memory.checkWithOptions env cmd fallback ⟨true⟩).map Evaluation.decision =
          (disk.checkWithOptions env cmd fallback ⟨true⟩).map Evaluation.decision ↔
        (allowLine tokens ∈ lines (file.getD []) ↔ policy.AllowsAlready env tokens) ∨
          ¬policy.SwayedBy env tokens cmd fallback) := by
  obtain ⟨first, rest, rfl⟩ := exists_cons_of_ne_nil hTokens
  obtain ⟨memory, hUpdate, hMemory⟩ := memory_after_update env file policy first rest
  obtain ⟨disk, hReload, hDisk⟩ := disk_after_update hLoad hReadBack
  refine ⟨_, memory, disk, hUpdate, hReload, ?_⟩
  simp only [checkWithOptions_eq, Option.map_some, Option.some_inj]
  rcases hMemory with ⟨hAllowed, rfl⟩ | ⟨hAllowed, hMemory⟩ <;>
    rcases hDisk with ⟨hLine, rfl⟩ | ⟨hLine, hDisk⟩
  · -- neither gained the rule
    exact iff_of_true rfl (Or.inl (iff_of_true hLine hAllowed))
  · -- the rule is on disk only
    rw [eq_comm, hDisk.verdict_eq_iff]
    simp [hLine, hAllowed]
  · -- the rule is in memory only
    rw [hMemory.verdict_eq_iff]
    simp [hLine, hAllowed]
  · -- both gained it
    exact iff_of_true (hMemory.verdict_eq hDisk _) (Or.inl (iff_of_false hLine hAllowed))

/-! ## A path that is allowed by its basename -/

/-- `git` is allowed, `git push` is not. -/
def gitRules : Text :=
  ("prefix_rule(pattern=[\"git\"])\n" ++
    "prefix_rule(pattern=[\"git\", \"push\"], decision=\"forbidden\")\n").toList

def gitDirectives : List Directive :=
  [.prefixRule [.str "git".toList] none none none none,
    .prefixRule [.str "git".toList, .str "push".toList] (some "forbidden".toList) none none none]

/-- The user allows the program by its path. -/
def gitPath : List Text := ["/usr/bin/git".toList]

/-- An evaluator for the rules file, without and with the appended line. -/
def gitStarlark : Starlark where
  eval contents :=
    if allowLine gitPath ∈ lines contents then
      .ok (gitDirectives ++ [allowDirective gitPath])
    else .ok gitDirectives
  shlexSplit _ := none

/-- The policy of the rules file, with the rules of an amendment after its own. -/
def gitPolicy (amended : List PrefixRule) : Policy :=
  ([prefixRuleOf "git".toList [] .allow,
    prefixRuleOf "git".toList ["push".toList] .forbidden] ++ amended).foldl
      PolicyBuilder.addRule .new |>.build

theorem readsBack_gitRules : ReadsBack gitStarlark (some gitRules) gitPath := by
  intro _ directives hEval
  have hRules : gitStarlark.eval gitRules = .ok directives := hEval
  cases hRules
  have hLine : allowLine gitPath ∈
      lines (appendLockedLine gitRules (allowLine gitPath)) := by decide +kernel
  show gitStarlark.eval _ = _
  unfold gitStarlark
  dsimp only
  exact if_pos hLine

theorem load_gitRules :
    loadExecPolicy ⟨none, none⟩ gitStarlark [gitRules] none = .ok (gitPolicy []) := by
  unfold loadExecPolicy
  rfl

/-- The rule for the path is on disk and not in memory: `git push` by its path is forbidden
until the policy is loaded again, and allowed from then on. -/
theorem push_allowed_after_reload :
    ∃ policy file memory disk,
      loadExecPolicy ⟨none, none⟩ gitStarlark [gitRules] none = .ok policy ∧
      ReadsBack gitStarlark (some gitRules) gitPath ∧
      appendAmendmentAndUpdate ⟨none, none⟩ (some gitRules) policy gitPath =
        .ok (file, memory) ∧
      loadExecPolicy ⟨none, none⟩ gitStarlark [file] none = .ok disk ∧
      (memory.checkWithOptions ⟨none, none⟩ (gitPath ++ ["push".toList]) (fun _ => .prompt)
        ⟨true⟩).map Evaluation.decision = some .forbidden ∧
      (disk.checkWithOptions ⟨none, none⟩ (gitPath ++ ["push".toList]) (fun _ => .prompt)
        ⟨true⟩).map Evaluation.decision = some .allow := by
  refine ⟨gitPolicy [], appendLockedLine gitRules (allowLine gitPath), gitPolicy [],
    gitPolicy [prefixRuleOf "/usr/bin/git".toList [] .allow], load_gitRules, readsBack_gitRules,
    ?_, ?_, by decide +kernel, by decide +kernel⟩
  · unfold appendAmendmentAndUpdate
    rfl
  · unfold loadExecPolicy
    rfl

/-- `git status` by its path is decided alike: nothing stricter matches it. -/
theorem status_agrees_after_reload :
    ∃ file memory disk,
      appendAmendmentAndUpdate ⟨none, none⟩ (some gitRules) (gitPolicy []) gitPath =
        .ok (file, memory) ∧
      loadExecPolicy ⟨none, none⟩ gitStarlark [file] none = .ok disk ∧
      (memory.checkWithOptions ⟨none, none⟩ (gitPath ++ ["status".toList]) (fun _ => .prompt)
          ⟨true⟩).map Evaluation.decision =
        (disk.checkWithOptions ⟨none, none⟩ (gitPath ++ ["status".toList]) (fun _ => .prompt)
          ⟨true⟩).map Evaluation.decision := by
  obtain ⟨file, memory, disk, hUpdate, hReload, hIff⟩ :=
    appendAmendment_agrees_iff ⟨none, none⟩ gitStarlark [] [] (some gitRules) none (gitPolicy [])
      gitPath (gitPath ++ ["status".toList]) (fun _ => .prompt) (by decide) load_gitRules
      readsBack_gitRules
  refine ⟨file, memory, disk, hUpdate, hReload, hIff.mpr (Or.inr ?_)⟩
  have hHost : (gitPolicy []).hostRulesOn ⟨none, none⟩ (gitPath ++ ["status".toList]) =
      [prefixRuleOf "git".toList [] .allow] := by decide +kernel
  unfold SwayedBy
  rw [hHost]
  rintro ⟨-, ⟨-, rule, hRule, hStrict⟩ | ⟨-, hNone, -⟩⟩
  · rw [mem_singleton] at hRule
    subst hRule
    exact hStrict rfl
  · cases hNone

end Codex.ExecPolicy
