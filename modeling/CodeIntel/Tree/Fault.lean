import CodeIntel.Tree.Basic

/-! What a parser could not make sense of: text that fits no rule, and tokens that are missing. -/

namespace CodeIntel

/-- A place where a text does not parse. -/
structure ParseFault where
  span : Span
  kind : String
  isMissing : Bool
  /-- The first line of the text that is in the way, if there is any. -/
  actualText : Option String
deriving DecidableEq, Repr, Inhabited

namespace Tree

/-- The fault that a node stands for. -/
def faultOf (d : Document) (head : Node) : ParseFault where
  span := head.span
  kind := head.kind
  isMissing := head.isMissing
  actualText :=
    match d.slice? head.span with
    | none => none
    | some text =>
      if text = "" then none else some (String.ofList (Text.firstLine text.toList))

mutual

/-- The faults at and below a node, in order. Below text that fits no rule there are only the tokens
of that text, so nothing more is looked for there. -/
def faultsBelow (d : Document) : Tree → List ParseFault
  | .node head children =>
    (if head.isError || head.isMissing then [faultOf d head] else []) ++
      (if head.isError then [] else faultsAmong d children)

/-- The faults at and below the children of a node. -/
def faultsAmong (d : Document) : List Tree → List ParseFault
  | [] => []
  | child :: rest => faultsBelow d child ++ faultsAmong d rest

end

/-- The faults of a tree whose root says that there are any. -/
def faults (d : Document) (t : Tree) : List ParseFault :=
  if t.head.hasError then faultsBelow d t else []

end Tree

end CodeIntel
