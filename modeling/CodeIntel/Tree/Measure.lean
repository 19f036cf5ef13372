import CodeIntel.Source.CodeLines
import CodeIntel.Symbol.Kind
import CodeIntel.Tree.Basic

/-! The measures of a method, taken from its tree: the number of ways through it, how hard it is to
follow, how deep it nests, its lines of code and its parameters. -/

namespace CodeIntel.Tree

/-- Tokens and nodes that add a way through a method wherever they stand. -/
def decisionKinds : List String :=
  ["if", "while", "for", "foreach", "case", "catch", "&&", "||", "??", "switch_expression_arm"]

/-- Whether a node below a parent of some kind adds a way through. -/
def isDecision (parentKind kind : String) : Bool :=
  decisionKinds.contains kind || (kind == "?" && parentKind == "conditional_expression")

mutual

/-- The decisions at and below a node. -/
def decisions (parentKind : String) : Tree → Nat
  | .node head children =>
    (if isDecision parentKind head.kind then 1 else 0) + decisionsAmong head.kind children

/-- The decisions at and below the children of a node. -/
def decisionsAmong (parentKind : String) : List Tree → Nat
  | [] => 0
  | child :: rest => decisions parentKind child + decisionsAmong parentKind rest

end

/-- What a walk through a method has gathered: its weight and the deepest nesting. The measures of a method
are counted in 32 bits, beyond which a sum begins anew at zero; counted in natural numbers a walk gives the
weight that it would have without that bound. -/
structure Load (ω : Type) where
  score : ω
  nesting : ω
deriving DecidableEq, Repr, Inhabited

section

variable {ω : Type} [Add ω] [Max ω] [OfNat ω 0] [OfNat ω 1]

namespace Load

/-- Adds to the weight. -/
def add (load : Load ω) (weight : ω) : Load ω := { load with score := load.score + weight }

/-- Notes a depth of nesting. -/
def reach (load : Load ω) (depth : ω) : Load ω := { load with nesting := max load.nesting depth }

end Load

/-- Structures that weigh more the deeper they stand and that nest what is below them. -/
def nestingKinds : List String :=
  ["switch_statement", "switch_expression", "for_statement", "for_each_statement",
    "while_statement", "do_statement", "catch_clause", "conditional_expression"]

/-- Functions inside functions, which nest what is below them without a weight of their own. -/
def innerFunctionKinds : List String :=
  ["lambda_expression", "anonymous_method_expression", "local_function_statement"]

/-- The logical operator among the tokens right below a node. -/
def logicalOperator? (children : List Tree) : Option String :=
  (children.find? fun child =>
    !child.head.named && (child.kind == "&&" || child.kind == "||")).map Tree.kind

/-- The weight of a node that is no conditional statement, given the depth and the logical operator
of an expression right above. A run of one logical operator weighs as one. -/
def weight (above : Option String) (depth : ω) (head : Node) (children : List Tree) : ω :=
  if nestingKinds.contains head.kind then 1 + depth
  else if head.kind == "binary_expression" then
    match logicalOperator? children with
    | some operator => if above = some operator then 0 else 1
    | none => 0
  else if head.kind == "goto_statement" then 1
  else 0

/-- Whether a node nests what is below it. -/
def nests (kind : String) : Bool := nestingKinds.contains kind || innerFunctionKinds.contains kind

mutual

/-- Walks a node at some depth. `above` is the logical operator of an expression right above, and
`elseIf` says that the node continues a conditional statement instead of starting one. -/
def walk (above : Option String) (depth : ω) (elseIf : Bool) : Tree → Load ω → Load ω
  | .node head children, load =>
    if head.kind = "if_statement" then
      walkBranches depth false children
        ((load.add (if elseIf then 1 else 1 + depth)).reach (depth + 1))
    else
      let load := load.add (weight above depth head children)
      let load := if nestingKinds.contains head.kind then load.reach (depth + 1) else load
      let operator := if head.kind = "binary_expression" then logicalOperator? children else none
      walkNamed operator (if nests head.kind then depth + 1 else depth) children load

/-- Walks the parts of a conditional statement: those before `else` one level deeper, and after it
another conditional statement at the same depth or anything else as a branch with a weight. -/
def walkBranches (depth : ω) (afterElse : Bool) : List Tree → Load ω → Load ω
  | [], load => load
  | child :: rest, load =>
    if !child.head.named then walkBranches depth (afterElse || child.kind == "else") rest load
    else if afterElse then
      if child.kind = "if_statement" then
        walkBranches depth afterElse rest (walk none depth true child load)
      else walkBranches depth afterElse rest (walk none (depth + 1) false child (load.add 1))
    else walkBranches depth afterElse rest (walk none (depth + 1) false child load)

/-- Walks the children that are nodes of the grammar. -/
def walkNamed (above : Option String) (depth : ω) : List Tree → Load ω → Load ω
  | [], load => load
  | child :: rest, load =>
    walkNamed above depth rest
      (if child.head.named then walk above depth false child load else load)

end

end

/-- The number of parameters that a method declares. -/
def parameterCount (method : Tree) : Nat :=
  match (method.field? "parameters").or (method.childOfKind? "parameter_list") with
  | some list =>
    (list.namedChildren.filter fun child =>
      child.kind = "parameter" || child.kind = "parameter_array").length
  | none => 0

/-- The measures of a method in a document. -/
def measure (method : Tree) (d : Document) : Metrics :=
  let load : Load UInt32 := walk none 0 false method ⟨0, 0⟩
  { cyclomatic := 1 + decisions "" method
    cognitive := load.score
    nesting := load.nesting
    linesOfCode := CodeLines.count ((method.text? d).getD "")
    parameters := parameterCount method }

end CodeIntel.Tree
