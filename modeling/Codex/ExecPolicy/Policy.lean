import Codex.Std.HashMap
import Codex.Std.Path
import Mathlib.Order.BoundedOrder.Basic
import Mathlib.Order.MinMax

/-!
# Codex — command execution policies

The crate `execpolicy`: `decision.rs`, `rule.rs`, `executable_name.rs`, `policy.rs`.

A policy holds prefix rules, filed under their first token, and for some bare program
names the absolute paths that may stand for them. A command is matched against the rules
filed under its first token; only if none of them matches, and host executables are
resolved, against those filed under the basename of its program. The decision is the
strictest of the matching rules, or what the caller's heuristics say where none matches.

`PrefixRule` is the only implementation of the trait `Rule`, so a `RuleRef` is one. Paths
are those of Unix, where the lookup key of an executable is its name. `PathEnv` is what
`AbsolutePathBuf::try_from` reads from the process: a relative program is taken from the
current directory, it is not an error.
-/

namespace Codex.ExecPolicy

/-! ## decision.rs -/

inductive Decision where
  | allow
  | prompt
  | forbidden
  deriving DecidableEq, Repr

namespace Decision

/-- The declaration order, which `derive(Ord)` compares by. -/
def rank : Decision → Nat
  | allow => 0
  | prompt => 1
  | forbidden => 2

instance : LinearOrder Decision :=
  LinearOrder.lift' rank fun a b h => by cases a <;> cases b <;> first | rfl | cases h

instance : OrderBot Decision where
  bot := allow
  bot_le d := Nat.zero_le d.rank

theorem bot_eq : (⊥ : Decision) = allow := rfl

end Decision

/-! ## rule.rs -/

inductive PatternToken where
  | single (value : Text)
  | alts (alternatives : List Text)
  deriving DecidableEq, Repr

namespace PatternToken

/-- `PatternToken::matches`. -/
def accepts : PatternToken → Text → Bool
  | single expected, token => expected == token
  | alts alternatives, token => alternatives.any (· == token)

def alternatives : PatternToken → List Text
  | single expected => [expected]
  | alts alternatives => alternatives

end PatternToken

structure PrefixPattern where
  first : Text
  rest : List PatternToken
  deriving DecidableEq, Repr

/-- `PrefixPattern::matches_prefix`: the part of the command that the pattern covers. -/
def PrefixPattern.matchesPrefix (pattern : PrefixPattern) (cmd : List Text) : Option (List Text) :=
  let patternLength := pattern.rest.length + 1
  if cmd.length < patternLength ∨ cmd.head? ≠ some pattern.first then none
  else if (pattern.rest.zip ((cmd.take patternLength).drop 1)).all fun pair =>
      pair.1.accepts pair.2 then
    some (cmd.take patternLength)
  else none

inductive RuleMatch where
  | prefixRuleMatch (matchedPrefix : List Text) (decision : Decision)
      (resolvedProgram : Option AbsolutePathBuf) (justification : Option Text)
  | heuristicsRuleMatch (command : List Text) (decision : Decision)
  deriving DecidableEq, Repr

namespace RuleMatch

def decision : RuleMatch → Decision
  | prefixRuleMatch _ decision _ _ => decision
  | heuristicsRuleMatch _ decision => decision

def withResolvedProgram (program : AbsolutePathBuf) : RuleMatch → RuleMatch
  | prefixRuleMatch matched decision _ justification =>
      prefixRuleMatch matched decision (some program) justification
  | heuristicsRuleMatch command decision => heuristicsRuleMatch command decision

end RuleMatch

structure PrefixRule where
  pattern : PrefixPattern
  decision : Decision
  justification : Option Text
  deriving DecidableEq, Repr

namespace PrefixRule

def program (rule : PrefixRule) : Text := rule.pattern.first

/-- `Rule::matches`. -/
def ruleMatch (rule : PrefixRule) (cmd : List Text) : Option RuleMatch :=
  (rule.pattern.matchesPrefix cmd).map fun matched =>
    .prefixRuleMatch matched rule.decision none rule.justification

end PrefixRule

inductive NetworkRuleProtocol where
  | http
  | https
  | socks5Tcp
  | socks5Udp
  deriving DecidableEq, Repr

structure NetworkRule where
  host : Text
  protocol : NetworkRuleProtocol
  decision : Decision
  justification : Option Text
  deriving DecidableEq, Repr

/-! ## executable_name.rs -/

def executableLookupKey (raw : Text) : Text := raw

def executablePathLookupKey (path : AbsolutePathBuf) : Option Text :=
  path.toPathBuf.fileName.map executableLookupKey

/-! ## policy.rs -/

structure MatchOptions where
  resolveHostExecutables : Bool
  deriving DecidableEq, Repr

structure Policy where
  rulesByProgram : MultiMap Text PrefixRule
  networkRules : List NetworkRule
  hostExecutablesByName : HashMap Text (List AbsolutePathBuf)

structure Evaluation where
  decision : Decision
  matchedRules : List RuleMatch
  deriving DecidableEq, Repr

/-- `Evaluation::from_matches`; `none` is the panic on an empty list. -/
def Evaluation.fromMatches (matchedRules : List RuleMatch) : Option Evaluation :=
  (matchedRules.map RuleMatch.decision).max?.map fun decision => { decision, matchedRules }

/-- The rule that `add_prefix_rule` builds: every token stands for itself. -/
def prefixRuleOf (first : Text) (rest : List Text) (decision : Decision) : PrefixRule :=
  { pattern := { first, rest := rest.map .single }, decision, justification := none }

namespace Policy

def empty : Policy :=
  { rulesByProgram := ∅, networkRules := [], hostExecutablesByName := ∅ }

/-- `Policy::add_prefix_rule`; the error is the message of `Error::InvalidPattern`. -/
def addPrefixRule (policy : Policy) (tokens : List Text) (decision : Decision) :
    Except Text Policy :=
  match tokens with
  | [] => .error "prefix cannot be empty".toList
  | first :: rest =>
      .ok { policy with
        rulesByProgram := policy.rulesByProgram.insert first (prefixRuleOf first rest decision) }

/-- `Policy::merge_overlay`. The rules of the overlay come in the order in which its map is
iterated over; a host executable of the overlay replaces one of the same name. -/
def mergeOverlay (policy overlay : Policy) (order : HashMap.Iteration overlay.rulesByProgram) :
    Policy :=
  { rulesByProgram := policy.rulesByProgram.insertAll order.pairs
    networkRules := policy.networkRules ++ overlay.networkRules
    hostExecutablesByName := overlay.hostExecutablesByName ∪ policy.hostExecutablesByName }

def matchExactRules (policy : Policy) (cmd : List Text) : Option (List RuleMatch) :=
  match cmd with
  | [] => none
  | first :: _ =>
      some (((policy.rulesByProgram.getVec first).map fun rules =>
        rules.filterMap (·.ruleMatch cmd)).getD [])

def matchHostExecutableRules (env : PathEnv) (policy : Policy) (cmd : List Text) : List RuleMatch :=
  match cmd with
  | [] => []
  | first :: args =>
    match AbsolutePathBuf.fromAbsolutePath env (.ofText first) with
    | none => []
    | some program =>
      match executablePathLookupKey program with
      | none => []
      | some basename =>
        match policy.rulesByProgram.getVec basename with
        | none => []
        | some rules =>
          -- a name without an entry stands for every path with that basename
          if (policy.hostExecutablesByName.lookup basename).any fun paths =>
              !paths.any (· == program) then []
          else
            (rules.filterMap (·.ruleMatch (basename :: args))).map
              (·.withResolvedProgram program)

def matchesForCommandWithOptions (env : PathEnv) (policy : Policy) (cmd : List Text)
    (heuristicsFallback : Option (List Text → Decision)) (options : MatchOptions) :
    List RuleMatch :=
  let matchedRules :=
    (((policy.matchExactRules cmd).filter fun matched => !matched.isEmpty).or
      ((if options.resolveHostExecutables then
          some (policy.matchHostExecutableRules env cmd) else none).filter
        fun matched => !matched.isEmpty)).getD []
  match matchedRules, heuristicsFallback with
  | [], some fallback => [.heuristicsRuleMatch cmd (fallback cmd)]
  | _, _ => matchedRules

def checkWithOptions (env : PathEnv) (policy : Policy) (cmd : List Text)
    (heuristicsFallback : List Text → Decision) (options : MatchOptions) : Option Evaluation :=
  Evaluation.fromMatches
    (policy.matchesForCommandWithOptions env cmd (some heuristicsFallback) options)

def checkMultipleWithOptions (env : PathEnv) (policy : Policy) (commands : List (List Text))
    (heuristicsFallback : List Text → Decision) (options : MatchOptions) : Option Evaluation :=
  Evaluation.fromMatches (commands.flatMap fun cmd =>
    policy.matchesForCommandWithOptions env cmd (some heuristicsFallback) options)

end Policy

end Codex.ExecPolicy
