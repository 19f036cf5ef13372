import CodeIntel.Symbol.Info
import CodeIntel.Text.Blank
import CodeIntel.Tree.Fault
import CodeIntel.Tree.Measure

/-! The index of a document: what its parse tree declares, names, calls and imports. The tree is
visited in preorder through the nodes of the grammar. On the way down the visit keeps the enclosing
namespaces and types and the member that calls are made from. -/

namespace CodeIntel

/-- A declared symbol with the spans of its declaration and of its name. -/
structure Declaration where
  symbol : SymbolInfo
  span : Span
  nameSpan : Span
deriving DecidableEq, Repr, Inhabited

/-- An identifier of the text. -/
structure Token where
  name : String
  span : Span
deriving DecidableEq, Repr, Inhabited

/-- A call of a name, and the qualified name of the member that makes it. -/
structure Invocation where
  callee : String
  nameSpan : Span
  caller : Option String
deriving DecidableEq, Repr, Inhabited

/-- A method or constructor with its measures. -/
structure MethodInfo where
  name : String
  container : Option String
  span : Span
  range : Range
  metrics : Metrics
deriving DecidableEq, Repr, Inhabited

/-- A field: its name, and where a modifier goes in front of its type. -/
structure FieldInfo where
  nameSpan : Span
  typeStart : Nat
  isReadonly : Bool
deriving DecidableEq, Repr, Inhabited

/-- An import at the top of a document. -/
structure Import where
  span : Span
  text : String
deriving DecidableEq, Repr, Inhabited

/-- Everything that is known of a document without its neighbours. -/
structure Index where
  declarations : List Declaration := []
  identifiers : List Token := []
  invocations : List Invocation := []
  methods : List MethodInfo := []
  fields : List FieldInfo := []
  imports : List Import := []
  faults : List ParseFault := []
  emptyCatches : List Span := []
deriving DecidableEq, Repr, Inhabited

/-- What a node means to the index. -/
inductive Role where
  /-- A namespace or type around its children. -/
  | scope (kind : SymbolKind)
  /-- A namespace around the rest of the document. -/
  | openScope
  /-- A declaration that is no place to call from. -/
  | plain (kind : SymbolKind)
  /-- A method or constructor. -/
  | callable (kind : SymbolKind)
  /-- Any other member with a body of its own. -/
  | accessor (kind : SymbolKind)
  /-- Variables declared together. -/
  | declarators (kind : SymbolKind)
  | invocation
  | creation
  | identifier
  | importing
  | catching
  | other
deriving DecidableEq, Repr

/-- The role of a kind of node. -/
def Role.ofKind (kind : String) : Role :=
  match kind with
  | "namespace_declaration" => .scope .namespaceScope
  | "file_scoped_namespace_declaration" => .openScope
  | "class_declaration" => .scope .classType
  | "struct_declaration" => .scope .structType
  | "interface_declaration" => .scope .interfaceType
  | "enum_declaration" => .scope .enumType
  | "record_declaration" => .scope .recordType
  | "record_struct_declaration" => .scope .recordType
  | "delegate_declaration" => .plain .delegateType
  | "enum_member_declaration" => .plain .enumMember
  | "method_declaration" => .callable .method
  | "constructor_declaration" => .callable .constructor
  | "property_declaration" => .accessor .property
  | "event_declaration" => .accessor .event
  | "field_declaration" => .declarators .field
  | "event_field_declaration" => .declarators .event
  | "invocation_expression" => .invocation
  | "object_creation_expression" => .creation
  | "identifier" => .identifier
  | "using_directive" => .importing
  | "catch_clause" => .catching
  | _ => .other

namespace Tree

/-- The node that names a declaration: that of the field, else the last identifier before the
parameters, else the first identifier. -/
def nameNode? (t : Tree) : Option Tree :=
  let named := t.namedChildren
  let before := named.takeWhile fun child => child.kind ≠ "parameter_list"
  let isIdentifier (child : Tree) : Bool := child.kind == "identifier"
  (t.field? "name").or <|
    (if before.length < named.length then before.reverse.find? isIdentifier else none).or
      (named.find? isIdentifier)

/-- The last position in a list that holds an element with a property. -/
def lastIndex? (p : Tree → Bool) (trees : List Tree) : Option Nat :=
  (trees.reverse.findIdx? p).map fun back => trees.length - 1 - back

mutual

/-- The simple name that is called or constructed by an expression. -/
def calledName? : Tree → Option Tree
  | .node head children =>
    let whole := Tree.node head children
    let below := calledNames children
    match head.kind with
    | "identifier" => some whole
    | "generic_name" => whole.childOfKind? "identifier"
    | "member_access_expression" | "qualified_name" =>
      match (whole.fieldIndex? "name").or (lastIndex? (fun child => child.head.named) children) with
      | some index => below[index]?.join
      | none => none
    | _ => none

/-- The simple names that the children of a node call. -/
def calledNames : List Tree → List (Option Tree)
  | [] => []
  | child :: rest => calledName? child :: calledNames rest

end

/-- Whether one of the modifiers stands right below a declaration. -/
def hasModifier (d : Document) (modifiers : List String) (t : Tree) : Bool :=
  t.children.any fun child =>
    if child.kind = "modifier" then
      match child.text? d with
      | some text => modifiers.contains (Text.trimmed text)
      | none => false
    else modifiers.contains child.kind

end Tree

/-- A visit under way. -/
structure Visit where
  index : Index := {}
  /-- The enclosing namespaces and types, the innermost first. -/
  containers : List String := []
  /-- The qualified name of the enclosing member. -/
  member : Option String := none
deriving Repr, Inhabited

namespace Visit

/-- The range of a span; a span outside the document is the engine's failure. -/
def range (d : Document) (s : Span) : Except EngineError Range :=
  match d.rangeOf s with
  | .ok range => .ok range
  | .error e => .error (.failed e.message)

/-- Records a declaration. -/
def addDeclaration (d : Document) (kind : SymbolKind) (name : String) (span nameSpan : Span)
    (visit : Visit) : Except EngineError Visit := do
  let whole ← range d span
  let selected ← range d nameSpan
  let symbol : SymbolInfo :=
    { name, kind, containerName := visit.containers.head?, path := d.path, range := whole,
      selectionRange := selected }
  let index := visit.index
  return { visit with
    index := { index with declarations := index.declarations ++ [⟨symbol, span, nameSpan⟩] } }

/-- Records the declaration that a node makes, if it has a name, and gives the name. -/
def declare (d : Document) (kind : SymbolKind) (t : Tree) (visit : Visit) :
    Except EngineError (Visit × Option String) :=
  match t.nameNode? with
  | none => .ok (visit, none)
  | some node =>
    match node.text? d with
    | none => .ok (visit, none)
    | some name => do
      let visit ← visit.addDeclaration d kind name t.span node.span
      return (visit, some name)

/-- Records the method that a node declares under a name. -/
def addMethod (d : Document) (t : Tree) (name : String) (visit : Visit) :
    Except EngineError Visit := do
  let whole ← range d t.span
  let method : MethodInfo :=
    { name, container := visit.containers.head?, span := t.span, range := whole,
      metrics := t.measure d }
  let index := visit.index
  return { visit with index := { index with methods := index.methods ++ [method] } }

/-- The qualified name of the last declaration with a given span. -/
def qualifiedNameAt? (visit : Visit) (span : Span) : Option String :=
  (visit.index.declarations.reverse.find? fun d => d.span = span).map fun d => d.symbol.qualifiedName

/-- Records a call of the name in an expression. -/
def addCall (d : Document) (target : Option Tree) (visit : Visit) : Visit :=
  match target.bind Tree.calledName? with
  | none => visit
  | some node =>
    match node.text? d with
    | none => visit
    | some callee =>
      let index := visit.index
      let call : Invocation := ⟨callee, node.span, visit.member⟩
      { visit with index := { index with invocations := index.invocations ++ [call] } }

/-- Records one declared variable. -/
def addVariable (d : Document) (kind : SymbolKind) (whole : Span) (typeStart : Nat)
    (isReadonly : Bool) (declarator : Tree) (visit : Visit) : Except EngineError Visit :=
  match declarator.nameNode? with
  | none => .ok visit
  | some node =>
    match node.text? d with
    | none => .ok visit
    | some name => do
      let visit ← visit.addDeclaration d kind name whole node.span
      if kind = .field then
        let index := visit.index
        let field : FieldInfo := ⟨node.span, typeStart, isReadonly⟩
        return { visit with index := { index with fields := index.fields ++ [field] } }
      else return visit

/-- Records the variables that a node declares. -/
def addVariables (d : Document) (kind : SymbolKind) (t : Tree) (visit : Visit) :
    Except EngineError Visit :=
  match t.childOfKind? "variable_declaration" with
  | none => .ok visit
  | some declaration =>
    let typeStart := ((declaration.field? "type").getD declaration).span.start
    let isReadonly := t.hasModifier d ["readonly", "const"]
    let declarators := declaration.namedChildren.filter fun child =>
      child.kind = "variable_declarator"
    declarators.foldlM
      (fun visit declarator => visit.addVariable d kind t.span typeStart isReadonly declarator) visit

/-- Records an identifier. -/
def addIdentifier (d : Document) (t : Tree) (visit : Visit) : Visit :=
  match t.text? d with
  | none => visit
  | some name =>
    let index := visit.index
    { visit with index := { index with identifiers := index.identifiers ++ [⟨name, t.span⟩] } }

/-- Records an import if it stands at the top of the document. -/
def addImport (d : Document) (parentKind : String) (t : Tree) (visit : Visit) : Visit :=
  if parentKind = "compilation_unit" then
    match t.text? d with
    | none => visit
    | some text =>
      let index := visit.index
      { visit with
        index := { index with imports := index.imports ++ [⟨t.span, Text.trimmed text⟩] } }
  else visit

/-- Records a handler with nothing in it. -/
def addCatch (t : Tree) (visit : Visit) : Visit :=
  match (t.field? "body").or (t.childOfKind? "block") with
  | some body =>
    if body.namedChildren.isEmpty then
      let index := visit.index
      { visit with index := { index with emptyCatches := index.emptyCatches ++ [t.span] } }
    else visit
  | none => visit

/-- The expression that a construction names: that of the field, else the first child that is not
the list of arguments. -/
def created? (t : Tree) : Option Tree :=
  (t.field? "type").or (t.namedChildren.find? fun child => child.kind ≠ "argument_list")

mutual

/-- Visits a node and what is below it. -/
def tree (d : Document) (parentKind : String) : Tree → Visit → Except EngineError Visit
  | .node head children, visit =>
    let whole := Tree.node head children
    match Role.ofKind head.kind with
    | .scope kind => do
      let (visit, name) ← visit.declare d kind whole
      match name with
      | some name => do
        let inside ← trees d head.kind children
          { visit with containers := name :: visit.containers }
        return { inside with containers := inside.containers.tail }
      | none => trees d head.kind children visit
    | .openScope => do
      let (visit, name) ← visit.declare d .namespaceScope whole
      trees d head.kind children
        { visit with containers := name.toList ++ visit.containers }
    | .plain kind => do
      let (visit, _) ← visit.declare d kind whole
      trees d head.kind children visit
    | .callable kind => do
      let (visit, name) ← visit.declare d kind whole
      let visit ← match name with
        | some name => visit.addMethod d whole name
        | none => pure visit
      let inside ← trees d head.kind children
        { visit with member := visit.qualifiedNameAt? head.span }
      return { inside with member := visit.member }
    | .accessor kind => do
      let (visit, _) ← visit.declare d kind whole
      let inside ← trees d head.kind children
        { visit with member := visit.qualifiedNameAt? head.span }
      return { inside with member := visit.member }
    | .declarators kind => do
      let visit ← visit.addVariables d kind whole
      trees d head.kind children visit
    | .invocation =>
      trees d head.kind children
        (visit.addCall d ((whole.field? "function").or whole.namedChildren.head?))
    | .creation => trees d head.kind children (visit.addCall d (created? whole))
    | .identifier => trees d head.kind children (visit.addIdentifier d whole)
    | .importing => trees d head.kind children (visit.addImport d parentKind whole)
    | .catching => trees d head.kind children (visit.addCatch whole)
    | .other => trees d head.kind children visit

/-- Visits the nodes of the grammar among children, in order. -/
def trees (d : Document) (parentKind : String) :
    List Tree → Visit → Except EngineError Visit
  | [], visit => .ok visit
  | child :: rest, visit => do
    let visit ← if child.head.named then tree d parentKind child visit else pure visit
    trees d parentKind rest visit

end

end Visit

/-- The first of the elements that come before all others under a total order. -/
def firstLeast? (precedes : α → α → Bool) : List α → Option α
  | [] => none
  | a :: rest =>
    match firstLeast? precedes rest with
    | none => some a
    | some b => if precedes a b then some a else some b

namespace Index

/-- The index of a document with its parse tree. -/
def build (d : Document) (t : Tree) : Except EngineError Index := do
  let visit ← Visit.tree d "" t {}
  return { visit.index with faults := t.faults d }

/-- The declared symbols. -/
def symbols (index : Index) : List SymbolInfo := index.declarations.map Declaration.symbol

/-- The identifier at an offset: one that the offset is in, else one that ends there. -/
def identifierAt? (index : Index) (offset : Nat) : Option Token :=
  (index.identifiers.find? fun t => t.span.start ≤ offset && offset < t.span.stop).or
    (index.identifiers.find? fun t => t.span.stop == offset)

/-- The declaration whose name an offset touches. -/
def declarationNamedAt? (index : Index) (offset : Nat) : Option Declaration :=
  index.declarations.find? fun d => d.nameSpan.touches offset

/-- The innermost method around an offset. -/
def methodContaining? (index : Index) (offset : Nat) : Option MethodInfo :=
  firstLeast? (fun a b => a.span.stop - a.span.start ≤ b.span.stop - b.span.start)
    (index.methods.filter fun m => m.span.touches offset)

end Index

end CodeIntel
