import Codex.ExecPolicy.Policy
import Codex.Std.Result

/-!
# Codex — loading a policy

`execpolicy/src/parser.rs`, the rest of `rule.rs`, and `load_exec_policy` of
`core/src/exec_policy.rs`.

A rules file is a Starlark module. Its evaluation is a parameter: `Starlark.eval` gives the
calls that the module makes to the three builtins, in order, with their unpacked arguments.
The builtins return nothing to the module, so which calls it makes does not depend on them.
What each call does to the builder is modelled. The parameter `shlexSplit` splits an example
that is written as one string.

Errors carry the examples and rules themselves where the source renders them with `shlex`
and `{:?}`, and no source location. A builtin's error is the one it raises, without the
Starlark error that wraps it.
-/

namespace Codex.ExecPolicy

open Text

inductive Error where
  | invalidDecision (raw : Text)
  | invalidPattern (message : Text)
  | invalidExample (message : Text)
  | invalidRule (message : Text)
  | exampleDidNotMatch (rules : List PrefixRule) (examples : List (List Text))
  | exampleDidMatch (rule : RuleMatch) (example_ : List Text)
  | starlark (message : Text)
  deriving DecidableEq, Repr

def Decision.parse (raw : Text) : Except Error Decision :=
  if raw = "allow".toList then .ok .allow
  else if raw = "prompt".toList then .ok .prompt
  else if raw = "forbidden".toList then .ok .forbidden
  else .error (.invalidDecision raw)

/-! ## rule.rs -/

def NetworkRuleProtocol.parse (raw : Text) : Except Error NetworkRuleProtocol :=
  if raw = "http".toList then .ok .http
  else if raw ∈ ["https".toList, "https_connect".toList, "http-connect".toList] then .ok .https
  else if raw = "socks5_tcp".toList then .ok .socks5Tcp
  else if raw = "socks5_udp".toList then .ok .socks5Udp
  else .error (.invalidRule
    ("network_rule protocol must be one of http, https, socks5_tcp, socks5_udp (got ".toList ++
      raw ++ [')']))

/-- A port: at least one digit and nothing else. -/
def isPort (port : Text) : Bool := !port.isEmpty && port.all fun c => '0' ≤ c && c ≤ '9'

/-- The host without the brackets of an IPv6 literal and without a port. -/
def stripPort (raw host : Text) : Except Error Text :=
  match stripPrefix? ['['] host with
  | some stripped =>
    match splitOnce [']'] stripped with
    | none => .error (.invalidRule
        "network_rule host has an invalid bracketed IPv6 literal".toList)
    | some (inside, rest) =>
      let portOk := (stripPrefix? [':'] rest).any isPort
      if !rest.isEmpty && !portOk then
        .error (.invalidRule
          ("network_rule host contains an unsupported suffix: ".toList ++ raw))
      else .ok inside
  | none =>
    -- with one colon, the first is the last
    match if host.count ':' = 1 then splitOnce [':'] host else none with
    | some (candidate, port) => .ok (if !candidate.isEmpty && isPort port then candidate else host)
    | none => .ok host

def normalizeNetworkRuleHost (raw : Text) : Except Error Text := do
  let host := trim raw
  if host.isEmpty then throw (.invalidRule "network_rule host cannot be empty".toList)
  if (splitOnce "://".toList host).isSome || host.any (fun c => c ∈ ['/', '?', '#']) then
    throw (.invalidRule
      "network_rule host must be a hostname or IP literal (without scheme or path)".toList)
  let host ← stripPort raw host
  let normalized := toAsciiLowercase (trim (trimEndMatches '.' host))
  if normalized.isEmpty then throw (.invalidRule "network_rule host cannot be empty".toList)
  if normalized.any (· == '*') then
    throw (.invalidRule
      "network_rule host must be a specific host; wildcards are not allowed".toList)
  if normalized.any isWhitespace then
    throw (.invalidRule "network_rule host cannot contain whitespace".toList)
  return normalized

/-- `validate_match_examples`: every example is matched. -/
def validateMatchExamples (env : PathEnv) (policy : Policy) (rules : List PrefixRule)
    (examples : List (List Text)) : Except Error Unit :=
  let unmatched := examples.filter fun cmd =>
    (policy.matchesForCommandWithOptions env cmd none ⟨true⟩).isEmpty
  if unmatched.isEmpty then .ok () else .error (.exampleDidNotMatch rules unmatched)

/-- `validate_not_match_examples`: the first example that is matched is an error. -/
def validateNotMatchExamples (env : PathEnv) (policy : Policy) (examples : List (List Text)) :
    Except Error Unit :=
  examples.forM fun cmd =>
    match (policy.matchesForCommandWithOptions env cmd none ⟨true⟩).head? with
    | some rule => .error (.exampleDidMatch rule cmd)
    | none => .ok ()

/-! ## The policy builder -/

structure PendingExampleValidation where
  rules : List PrefixRule
  matchExamples : List (List Text)
  notMatchExamples : List (List Text)

structure PolicyBuilder where
  rulesByProgram : MultiMap Text PrefixRule
  networkRules : List NetworkRule
  hostExecutablesByName : HashMap Text (List AbsolutePathBuf)
  pendingExampleValidations : List PendingExampleValidation

namespace PolicyBuilder

def new : PolicyBuilder :=
  { rulesByProgram := ∅, networkRules := [], hostExecutablesByName := ∅
    pendingExampleValidations := [] }

variable (builder : PolicyBuilder)

def addRule (rule : PrefixRule) : PolicyBuilder :=
  { builder with rulesByProgram := builder.rulesByProgram.insert rule.program rule }

def addNetworkRule (rule : NetworkRule) : PolicyBuilder :=
  { builder with networkRules := builder.networkRules ++ [rule] }

def addHostExecutable (name : Text) (paths : List AbsolutePathBuf) : PolicyBuilder :=
  { builder with hostExecutablesByName := builder.hostExecutablesByName.insert name paths }

def addPendingExampleValidation (validation : PendingExampleValidation) : PolicyBuilder :=
  { builder with
    pendingExampleValidations := builder.pendingExampleValidations ++ [validation] }

/-- One turn of the loop of `validate_pending_examples_from`: the rules of one call alone,
with the host executables known by then. -/
def validateExamples (env : PathEnv) (hosts : HashMap Text (List AbsolutePathBuf))
    (validation : PendingExampleValidation) : Except Error Unit := do
  let policy : Policy :=
    { rulesByProgram := validation.rules.foldl (fun m rule => m.insert rule.program rule)
        (∅ : MultiMap Text PrefixRule)
      networkRules := []
      hostExecutablesByName := hosts }
  validateNotMatchExamples env policy validation.notMatchExamples
  validateMatchExamples env policy validation.rules validation.matchExamples

def validatePendingExamplesFrom (env : PathEnv) (builder : PolicyBuilder) (start : Nat) :
    Except Error Unit :=
  (builder.pendingExampleValidations.drop start).forM
    (validateExamples env builder.hostExecutablesByName)

def build : Policy :=
  { rulesByProgram := builder.rulesByProgram
    networkRules := builder.networkRules
    hostExecutablesByName := builder.hostExecutablesByName }

end PolicyBuilder

/-! ## The builtins -/

/-- A Starlark value, as far as the builtins look at it. -/
inductive Value where
  | str (s : Text)
  | list (items : List Value)
  | other (typeName : Text)
  deriving Repr

namespace Value

def getType : Value → Text
  | str _ => "string".toList
  | list _ => "list".toList
  | other typeName => typeName

def unpackStr : Value → Option Text
  | str s => some s
  | _ => none

end Value

/-- A call to a builtin. -/
inductive Directive where
  | prefixRule (pattern : List Value) (decision : Option Text)
      (matchExamples notMatchExamples : Option (List Value)) (justification : Option Text)
  | networkRule (host protocol decision : Text) (justification : Option Text)
  | hostExecutable (name : Text) (paths : List Value)

/-- The Starlark evaluator and the shell splitter. -/
structure Starlark where
  eval : Text → Except Text (List Directive)
  shlexSplit : Text → Option (List Text)

/-- What a builtin that raised nothing does to the builder. -/
inductive BuilderCall where
  | addRules (validation : PendingExampleValidation)
  | addNetworkRule (rule : NetworkRule)
  | addHostExecutable (name : Text) (paths : List AbsolutePathBuf)

def PolicyBuilder.apply (builder : PolicyBuilder) : BuilderCall → PolicyBuilder
  | .addRules validation =>
      validation.rules.foldl addRule (builder.addPendingExampleValidation validation)
  | .addNetworkRule rule => builder.addNetworkRule rule
  | .addHostExecutable name paths => builder.addHostExecutable name paths

section Builtins

variable (env : PathEnv) (starlark : Starlark)

/-- The strings of a list, or an error that names the type of the first other value. -/
def unpackStrings (error : Text → Error) (message : Text) (items : List Value) :
    Except Error (List Text) :=
  items.mapM fun value =>
    match value.unpackStr with
    | some s => .ok s
    | none => .error (error (message ++ " (got ".toList ++ value.getType ++ [')']))

def parsePatternToken (value : Value) : Except Error PatternToken :=
  match value with
  | .str s => .ok (.single s)
  | .list items => do
      let tokens ← unpackStrings .invalidPattern "pattern alternative must be a string".toList items
      match tokens with
      | [] => throw (.invalidPattern "pattern alternatives cannot be empty".toList)
      | [single] => return .single single
      | _ => return .alts tokens
  | .other typeName => .error (.invalidPattern
      ("pattern element must be a string or list of strings (got ".toList ++ typeName ++ [')']))

def parsePattern (pattern : List Value) : Except Error (List PatternToken) := do
  let tokens ← pattern.mapM parsePatternToken
  if tokens.isEmpty then throw (.invalidPattern "pattern cannot be empty".toList)
  return tokens

def parseStringExample (raw : Text) : Except Error (List Text) :=
  match starlark.shlexSplit raw with
  | none => .error (.invalidExample "example string has invalid shell syntax".toList)
  | some [] => .error (.invalidExample "example cannot be an empty string".toList)
  | some tokens => .ok tokens

def parseListExample (items : List Value) : Except Error (List Text) := do
  let tokens ← unpackStrings .invalidExample "example tokens must be strings".toList items
  if tokens.isEmpty then throw (.invalidExample "example cannot be an empty list".toList)
  return tokens

def parseExample (value : Value) : Except Error (List Text) :=
  match value with
  | .str raw => parseStringExample starlark raw
  | .list items => parseListExample items
  | .other typeName => .error (.invalidExample
      ("example must be a string or list of strings (got ".toList ++ typeName ++ [')']))

def parseExamples (examples : Option (List Value)) : Except Error (List (List Text)) :=
  (examples.getD []).mapM (parseExample starlark)

def parseJustification (justification : Option Text) : Except Error (Option Text) :=
  match justification with
  | some raw =>
      if (trim raw).isEmpty then
        .error (.invalidRule "justification cannot be empty".toList)
      else .ok (some raw)
  | none => .ok none

/-- The builtin `prefix_rule`: one rule for each alternative of the first token. -/
def prefixRule (pattern : List Value) (decision : Option Text)
    (matchExamples notMatchExamples : Option (List Value)) (justification : Option Text) :
    Except Error BuilderCall := do
  let decision ← match decision with
    | some raw => Decision.parse raw
    | none => .ok .allow
  let justification ← parseJustification justification
  let patternTokens ← parsePattern pattern
  let matchExamples ← parseExamples starlark matchExamples
  let notMatchExamples ← parseExamples starlark notMatchExamples
  match patternTokens with
  | [] => throw (.invalidPattern "pattern cannot be empty".toList)
  | firstToken :: rest =>
      let rules := firstToken.alternatives.map fun head =>
        { pattern := { first := head, rest }, decision, justification : PrefixRule }
      return .addRules { rules, matchExamples, notMatchExamples }

def parseNetworkRuleDecision (raw : Text) : Except Error Decision :=
  if raw = "deny".toList then .ok .forbidden else Decision.parse raw

/-- The builtin `network_rule`. -/
def networkRule (host protocol decision : Text) (justification : Option Text) :
    Except Error BuilderCall := do
  let protocol ← NetworkRuleProtocol.parse protocol
  let decision ← parseNetworkRuleDecision decision
  let justification ← parseJustification justification
  let host ← normalizeNetworkRuleHost host
  return .addNetworkRule { host, protocol, decision, justification }

def parseLiteralAbsolutePath (raw : Text) : Except Error AbsolutePathBuf :=
  if !(PathBuf.ofText raw).hasRoot then
    .error (.invalidRule ("host_executable paths must be absolute (got ".toList ++ raw ++ [')']))
  else
    match AbsolutePathBuf.fromAbsolutePath env (.ofText raw) with
    | some path => .ok path
    | none => .error (.invalidRule ("invalid absolute path `".toList ++ raw ++ "`".toList))

def validateHostExecutableName (name : Text) : Except Error Unit :=
  let path := PathBuf.ofText name
  -- the root is a component of its own
  let components := path.components.length + path.hasRoot.toNat
  if name.isEmpty then .error (.invalidRule "host_executable name cannot be empty".toList)
  else if components ≠ 1 ∨ path.fileName ≠ some name then
    .error (.invalidRule
      ("host_executable name must be a bare executable name (got ".toList ++ name ++ [')']))
  else .ok ()

/-- One turn of the loop over the paths of `host_executable`. -/
def addHostExecutablePath (name : Text) (parsed : List AbsolutePathBuf) (value : Value) :
    Except Error (List AbsolutePathBuf) :=
  match value.unpackStr with
  | none => .error (.invalidRule
      ("host_executable paths must be strings (got ".toList ++ value.getType ++ [')']))
  | some raw => do
      let path ← parseLiteralAbsolutePath env raw
      if executablePathLookupKey path ≠ some (executableLookupKey name) then
        throw (.invalidRule ("host_executable path `".toList ++ raw ++
          "` must have basename `".toList ++ name ++ "`".toList))
      return if parsed.any (· == path) then parsed else parsed ++ [path]

/-- The builtin `host_executable`. -/
def hostExecutable (name : Text) (paths : List Value) : Except Error BuilderCall := do
  validateHostExecutableName name
  let parsed ← paths.foldlM (addHostExecutablePath env name) []
  return .addHostExecutable (executableLookupKey name) parsed

def Directive.call : Directive → Except Error BuilderCall
  | .prefixRule pattern decision matchExamples notMatchExamples justification =>
      ExecPolicy.prefixRule starlark pattern decision matchExamples notMatchExamples justification
  | .networkRule host protocol decision justification =>
      ExecPolicy.networkRule host protocol decision justification
  | .hostExecutable name paths => ExecPolicy.hostExecutable env name paths

/-! ## Files -/

/-- One call of a module, on the builder of the evaluation. -/
def PolicyBuilder.run (builder : PolicyBuilder) (directive : Directive) :
    Except Error PolicyBuilder := do
  return builder.apply (← directive.call env starlark)

/-- `PolicyParser::parse`: the examples of the file are checked when it has been read. -/
def PolicyBuilder.parse (builder : PolicyBuilder) (contents : Text) :
    Except Error PolicyBuilder := do
  let pendingValidationCount := builder.pendingExampleValidations.length
  let directives ← (starlark.eval contents).mapError .starlark
  let builder ← directives.foldlM (run env starlark) builder
  builder.validatePendingExamplesFrom env pendingValidationCount
  return builder

/-- `load_exec_policy`, over the contents of the rules files in increasing precedence and
the policy of the requirements, with the order in which its rules come. -/
def loadExecPolicy (files : List Text)
    (requirements : Option ((overlay : Policy) × HashMap.Iteration overlay.rulesByProgram)) :
    Except Error Policy := do
  let builder ← files.foldlM (PolicyBuilder.parse env starlark) .new
  match requirements with
  | none => return builder.build
  | some ⟨overlay, order⟩ => return builder.build.mergeOverlay overlay order

end Builtins

end Codex.ExecPolicy
