import CodeIntel.Source.Document

/-! Parse trees: what a parser found in a text, each node with its kind, its span of bytes, its
marks and its children in order. Some children are known by the name of a field as well. -/

namespace CodeIntel

/-- A node apart from its children. -/
structure Node where
  kind : String
  /-- A node of the grammar, not a mere token. -/
  named : Bool
  /-- Text that fits no rule. -/
  isError : Bool
  /-- A token that was wanted and is not there. -/
  isMissing : Bool
  /-- Something at or below the node is wrong. -/
  hasError : Bool
  span : Span
  /-- The children that fields name, by their index. -/
  fields : List (String × Nat)
deriving DecidableEq, Repr, Inhabited

/-- A node with its children. -/
inductive Tree where
  | node (head : Node) (children : List Tree)
deriving Repr, Inhabited

namespace Tree

/-- The root of a tree. -/
def head : Tree → Node
  | .node head _ => head

/-- The trees right below the root. -/
def children : Tree → List Tree
  | .node _ children => children

@[simp]
theorem head_node (head : Node) (children : List Tree) : (Tree.node head children).head = head := rfl

@[simp]
theorem children_node (head : Node) (children : List Tree) :
    (Tree.node head children).children = children := rfl

/-- The kind of the root. -/
def kind (t : Tree) : String := t.head.kind

/-- The span of the root. -/
def span (t : Tree) : Span := t.head.span

/-- The index of the child that a field names. -/
def fieldIndex? (t : Tree) (name : String) : Option Nat :=
  (t.head.fields.find? fun (field, _) => field = name).map Prod.snd

/-- The child that a field names. -/
def field? (t : Tree) (name : String) : Option Tree :=
  (t.fieldIndex? name).bind fun index => t.children[index]?

/-- The children that are nodes of the grammar. -/
def namedChildren (t : Tree) : List Tree := t.children.filter fun child => child.head.named

/-- The first child of the grammar of a given kind. -/
def childOfKind? (t : Tree) (kind : String) : Option Tree :=
  t.namedChildren.find? fun child => child.kind = kind

/-- The tree of nodes in preorder, each with the number of its children. Nothing unless they make
exactly one tree. -/
def ofPreorder? (nodes : List (Node × Nat)) : Option Tree :=
  let forest := nodes.foldr
    (fun (head, count) (made : List Tree) => .node head (made.take count) :: made.drop count) []
  match forest with
  | [tree] => some tree
  | _ => none

/-- The text of a tree's root in a document. -/
def text? (t : Tree) (d : Document) : Option String := d.slice? t.span

end Tree

end CodeIntel
