import Mathlib.Data.List.Pairwise
import Mathlib.Data.List.Sort
import Codex.Std.Text
import Codex.Std.Result

/-!
# Codex — plain commands of a shell script

`shell-command/src/bash.rs`: the part of a tree-sitter parse that is a sequence
of plain commands, and the words of each command.

tree-sitter itself is not modelled. A parse is a `Tree` of `Node`s as the
library hands them out: kind, whether the kind is named in the grammar, first
byte, and the slice of the source the node covers (`utf8_text`).

`try_parse_word_only_commands_sequence` walks the tree with an explicit stack.
`walkLoop` is that loop, and `walkLoop_spec` what it comes to: every node of the
tree is of an allowed kind, and the command nodes come out in some order. The
sort by first byte then restores the order of the source.
-/

namespace Codex.Shell

open List Text

/-- `tree_sitter::Node`. -/
inductive Node where
  | mk (kind : String) (named : Bool) (startByte : Nat) (text : Text) (children : List Node)
  deriving Repr

namespace Node

def kind : Node → String
  | mk kind _ _ _ _ => kind

/-- `Node::is_named`. -/
def named : Node → Bool
  | mk _ named _ _ _ => named

def startByte : Node → Nat
  | mk _ _ startByte _ _ => startByte

/-- `Node::utf8_text`. -/
def text : Node → Text
  | mk _ _ _ text _ => text

def children : Node → List Node
  | mk _ _ _ _ children => children

def namedChildren (node : Node) : List Node := node.children.filter named

end Node

mutual

/-- A node and everything below it, in the order of the source. -/
def Node.nodes : Node → List Node
  | .mk kind named startByte text children =>
    .mk kind named startByte text children :: forest children

def forest : List Node → List Node
  | [] => []
  | node :: rest => node.nodes ++ forest rest

end

/-- `tree_sitter::Tree`, with `has_error` of its root. -/
structure Tree where
  root : Node
  hasError : Bool

variable (node : Node)

/-- The nodes `command_nodes` collects. -/
def Node.isCommand : Bool := node.named && node.kind = "command"

/-- The commands of the script, in the order of the source. -/
def Tree.commands (tree : Tree) : List Node := tree.root.nodes.filter Node.isCommand

/-! ## The walk -/

/-- `ALLOWED_KINDS`. -/
def allowedKinds : List String :=
  ["program", "list", "pipeline", "command", "command_name", "word", "string",
    "string_content", "raw_string", "number", "concatenation"]

/-- `ALLOWED_PUNCT_TOKENS`. -/
def allowedPunctTokens : List String := ["&&", "||", ";", "|", "\"", "'"]

/-- The checks of one turn of the loop. -/
def nodeAllowed : Bool :=
  if node.named then allowedKinds.contains node.kind
  else
    !(node.kind.toList.any ("&;|".toList.contains ·) && !allowedPunctTokens.contains node.kind) &&
      (allowedPunctTokens.contains node.kind || trim node.kind.toList = [])

/-- The loop over `stack`; its last element, which is popped, is the head here. -/
def walkLoop : Nat → List Node → List Node → Option (List Node)
  | _, [], commandNodes => some commandNodes
  | 0, _ :: _, _ => none
  | fuel + 1, node :: stack, commandNodes =>
    if nodeAllowed node then
      -- the children are pushed from left to right, so the last one is popped next
      walkLoop fuel (node.children.reverse ++ stack)
        (if node.isCommand then commandNodes ++ [node] else commandNodes)
    else none

/-! ## The words of a command -/

/-- `parse_double_quoted_string`. -/
def parseDoubleQuotedString : Option Text :=
  if node.kind ≠ "string" then none
  else if node.namedChildren.any (·.kind ≠ "string_content") then none
  else (stripPrefix? "\"".toList node.text).bind (stripSuffix? "\"".toList)

/-- `parse_raw_string`. -/
def parseRawString : Option Text :=
  if node.kind ≠ "raw_string" then none
  else (stripPrefix? "'".toList node.text).bind (stripSuffix? "'".toList)

/-- One part of a concatenated argument such as `-g"*.py"`. -/
def parsePart (part : Node) : Option Text :=
  if part.kind = "word" ∨ part.kind = "number" then some part.text
  else if part.kind = "string" then parseDoubleQuotedString part
  else if part.kind = "raw_string" then parseRawString part
  else none

/-- One turn of the loop of `parse_plain_command_from_node`. -/
def parseWord (child : Node) : Option Text :=
  if child.kind = "command_name" then do
    let wordNode ← child.namedChildren.head?
    if wordNode.kind ≠ "word" then none else some wordNode.text
  else if child.kind = "concatenation" then do
    let concatenated ← (child.namedChildren.mapM parsePart).map List.flatten
    if concatenated = [] then none else some concatenated
  else parsePart child

/-- `parse_plain_command_from_node`. -/
def parsePlainCommandFromNode (cmd : Node) : Option (List Text) :=
  if cmd.kind ≠ "command" then none else cmd.namedChildren.mapM parseWord

/-- `try_parse_word_only_commands_sequence`. The walk takes one turn for each node. -/
def tryParseWordOnlyCommandsSequence (tree : Tree) : Option (List (List Text)) :=
  if tree.hasError then none else do
    let commandNodes ← walkLoop tree.root.nodes.length [tree.root] []
    (commandNodes.insertionSort (fun a b => a.startByte ≤ b.startByte)).mapM
      parsePlainCommandFromNode

/-! ## What the walk comes to -/

@[simp] theorem forest_cons (rest : List Node) :
    forest (node :: rest) = node :: forest node.children ++ forest rest := by
  cases node
  rfl

theorem forest_append (xs ys : List Node) : forest (xs ++ ys) = forest xs ++ forest ys := by
  induction xs with
  | nil => rfl
  | cons x xs ih => simp [ih]

theorem forest_reverse_perm (nodes : List Node) : (forest nodes.reverse).Perm (forest nodes) := by
  induction nodes with
  | nil => exact .refl _
  | cons n ns ih =>
    rw [reverse_cons, forest_append]
    refine perm_append_comm.trans ?_
    rw [show n :: ns = [n] ++ ns from rfl, forest_append]
    exact ih.append_left _

/-- **The walk.** It fails exactly on a node that is not allowed, and otherwise collects the
command nodes of the whole tree. -/
theorem walkLoop_spec {fuel : Nat} {stack commandNodes : List Node}
    (hFuel : (forest stack).length ≤ fuel) : (∀ out, walkLoop fuel stack commandNodes = some out →
      out.Perm (commandNodes ++ (forest stack).filter Node.isCommand)) ∧
    ((walkLoop fuel stack commandNodes).isSome = true ↔
      ∀ node ∈ forest stack, nodeAllowed node = true) := by
  have hPerm : ∀ node stack,
      (node :: forest (node.children.reverse ++ stack)).Perm (forest (node :: stack)) := by
    intro node stack
    rw [forest_append, forest_cons]
    exact ((forest_reverse_perm node.children).append_right _).cons node
  have hAll : ∀ node stack, (∀ n ∈ forest (node :: stack), nodeAllowed n = true) ↔
      nodeAllowed node = true ∧
        ∀ n ∈ forest (node.children.reverse ++ stack), nodeAllowed n = true := by
    intro node stack
    refine Iff.trans ?_ (forall_mem_cons (p := fun n => nodeAllowed n = true))
    exact forall_congr' fun n => imp_congr_left (hPerm node stack).mem_iff.symm
  fun_induction walkLoop fuel stack commandNodes with
  | case1 => simp [forest]
  | case2 => simp at hFuel
  | case3 fuel node stack commandNodes hNode ih =>
    have hLen := (hPerm node stack).length_eq
    rw [length_cons] at hLen
    obtain ⟨hOut, hSome⟩ := ih (by omega)
    refine ⟨fun out hEq => (hOut out hEq).trans ?_, ?_⟩
    · -- the popped node, if it is a command, now stands before the others
      refine List.Perm.trans ?_ (((hPerm node stack).filter _).append_left commandNodes)
      by_cases hCmd : node.isCommand = true
      · rw [if_pos hCmd, filter_cons_of_pos hCmd, append_assoc]
        exact .refl _
      · rw [if_neg hCmd, filter_cons_of_neg hCmd]
    · rw [hSome, hAll]
      exact ⟨fun h => ⟨hNode, h⟩, fun h => h.2⟩
  | case4 fuel node stack commandNodes hNode => simp [hNode]

/-- The sort by first byte undoes the order of the walk. -/
theorem insertionSort_startByte {collected commands : List Node} (hPerm : collected.Perm commands)
    (hOrdered : commands.Pairwise fun a b => a.startByte < b.startByte) :
    collected.insertionSort (fun a b => a.startByte ≤ b.startByte) = commands := by
  have hSorted := pairwise_insertionSort (fun a b : Node => a.startByte ≤ b.startByte) collected
  have hSame := (perm_insertionSort (fun a b : Node => a.startByte ≤ b.startByte) collected).trans
    hPerm
  refine List.Perm.eq_of_pairwise ?_ hSorted (hOrdered.imp Nat.le_of_lt) hSame
  -- two commands with the same first byte are one and the same
  intro a b ha hb hab hba
  have hSymm : Std.Symm fun a b : Node => a.startByte ≠ b.startByte := ⟨fun _ _ h => h.symm⟩
  have hDistinct : commands.Pairwise fun a b => a.startByte ≠ b.startByte :=
    hOrdered.imp Nat.ne_of_lt
  by_contra hNe
  exact hDistinct.forall (hSame.mem_iff.mp ha) hb hNe (Nat.le_antisymm hab hba)

/-- **What is accepted.** A script is a sequence of plain commands exactly when it parses, every
node is allowed, and every command has words. -/
theorem tryParse_eq_some_iff {tree : Tree} {commands : List (List Text)}
    (hOrdered : tree.commands.Pairwise fun a b => a.startByte < b.startByte) :
    tryParseWordOnlyCommandsSequence tree = some commands ↔
      tree.hasError = false ∧ (∀ node ∈ tree.root.nodes, nodeAllowed node = true) ∧
        List.Forall₂ (fun cmd words => parsePlainCommandFromNode cmd = some words)
          tree.commands commands := by
  have hForest : forest [tree.root] = tree.root.nodes := append_nil _
  obtain ⟨hOut, hSome⟩ := @walkLoop_spec tree.root.nodes.length [tree.root] [] (by rw [hForest])
  rw [hForest] at hOut hSome
  unfold tryParseWordOnlyCommandsSequence
  by_cases hError : tree.hasError = true
  · simp [hError]
  rw [if_neg hError, ← hSome]
  rcases hWalk : walkLoop tree.root.nodes.length [tree.root] [] with _ | collected
  · simp
  have hSort : collected.insertionSort _ = tree.commands :=
    insertionSort_startByte (hOut collected hWalk) hOrdered
  show (collected.insertionSort _).mapM parsePlainCommandFromNode = some commands ↔ _
  rw [hSort, mapM_eq_some_iff]
  simp [hError]

end Codex.Shell
