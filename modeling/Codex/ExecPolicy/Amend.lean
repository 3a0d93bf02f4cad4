import Codex.ExecPolicy.Parser

/-!
# Codex — amending the policy

`execpolicy/src/amend.rs` and `ExecPolicyManager::append_amendment_and_update` of
`core/src/exec_policy.rs`.

An amendment is a token list that the user allows as the start of a command. Its rule is
written to the end of the default rules file, unless the file has that very line, and added
to the policy in memory, unless that policy allows the tokens already.

The file is its contents, or `none` while it does not exist. The directory, the lock and the
errors of the file system are left out: each of them ends the update before memory is touched.
Updates of one manager exclude each other, so one is modelled.
-/

namespace Codex.ExecPolicy

open Text

/-! ## amend.rs -/

inductive AmendError where
  | emptyPrefix
  deriving DecidableEq, Repr

def hexDigit (n : Nat) : Char :=
  if n < 10 then Char.ofNat ('0'.toNat + n) else Char.ofNat ('a'.toNat + (n - 10))

/-- How `serde_json` writes one character of a string. -/
def jsonChar (c : Char) : Text :=
  if c = '"' then ['\\', '"']
  else if c = '\\' then ['\\', '\\']
  else if c.toNat = 8 then ['\\', 'b']
  else if c.toNat = 9 then ['\\', 't']
  else if c.toNat = 10 then ['\\', 'n']
  else if c.toNat = 12 then ['\\', 'f']
  else if c.toNat = 13 then ['\\', 'r']
  else if c.toNat < 32 then
    ['\\', 'u', '0', '0', hexDigit (c.toNat / 16), hexDigit (c.toNat % 16)]
  else [c]

/-- `serde_json::to_string` of a string. -/
def jsonString (t : Text) : Text := ['"'] ++ t.flatMap jsonChar ++ ['"']

/-- The line of the rule that allows a token list. -/
def allowLine (tokens : List Text) : Text :=
  let pattern := ['['] ++ join ", ".toList (tokens.map jsonString) ++ [']']
  "prefix_rule(pattern=".toList ++ pattern ++ ", decision=\"allow\")".toList

/-- `append_locked_line`, on the contents of the file. -/
def appendLockedLine (contents line : Text) : Text :=
  if (lines contents).any (· == line) then contents
  else
    let separator :=
      if !contents.isEmpty && !endsWith ['\n'] contents then ['\n'] else []
    contents ++ separator ++ line ++ ['\n']

/-- `blocking_append_allow_prefix_rule`. -/
def blockingAppendAllowPrefixRule (file : Option Text) (tokens : List Text) :
    Except AmendError Text :=
  if tokens.isEmpty then .error .emptyPrefix
  else .ok (appendLockedLine (file.getD []) (allowLine tokens))

/-! ## exec_policy.rs -/

inductive ExecPolicyUpdateError where
  | appendRule (source : AmendError)
  | addRule (source : Text)
  deriving DecidableEq, Repr

def isPolicyMatch : RuleMatch → Bool
  | .prefixRuleMatch .. => true
  | .heuristicsRuleMatch .. => false

/-- Every rule that bears on the tokens allows them, and there is one. -/
def alreadyAllowed (env : PathEnv) (policy : Policy) (tokens : List Text) : Bool :=
  (policy.checkMultipleWithOptions env [tokens] (fun _ => .forbidden) ⟨true⟩).any
    fun evaluation => evaluation.decision == .allow &&
      evaluation.matchedRules.any fun found => isPolicyMatch found && found.decision == .allow

/-- `ExecPolicyManager::append_amendment_and_update`: the file and the policy in memory
after the update. -/
def appendAmendmentAndUpdate (env : PathEnv) (file : Option Text) (policy : Policy)
    (tokens : List Text) : Except ExecPolicyUpdateError (Text × Policy) := do
  let file ← (blockingAppendAllowPrefixRule file tokens).mapError .appendRule
  if alreadyAllowed env policy tokens then return (file, policy)
  let updatedPolicy ← (policy.addPrefixRule tokens .allow).mapError .addRule
  return (file, updatedPolicy)

end Codex.ExecPolicy
