import CodeIntel.Source.Edit
import CodeIntel.Symbol.Kind

/-! What an engine reports: declared symbols, places in documents, calls, findings, measures of
methods, and actions on code. -/

namespace CodeIntel

/-- A declared symbol. -/
structure SymbolInfo where
  name : String
  kind : SymbolKind
  /-- The enclosing type or namespace, if there is one. -/
  containerName : Option String
  path : String
  /-- The whole declaration. -/
  range : Range
  /-- The declared name. -/
  selectionRange : Range
deriving DecidableEq, Repr, Inhabited

/-- The name of a symbol with that of its container in front. -/
def SymbolInfo.qualifiedName (s : SymbolInfo) : String :=
  match s.containerName with
  | some container => container ++ "." ++ s.name
  | none => s.name

/-- A place in a document, with the line that it starts on. -/
structure Location where
  path : String
  range : Range
  context : String
deriving DecidableEq, Repr, Inhabited

/-- The name under a cursor, and its declaration if it is the name of one. -/
structure SymbolAtPosition where
  name : String
  path : String
  range : Range
  declaration : Option SymbolInfo
deriving DecidableEq, Repr, Inhabited

/-- A call: the name that is called, the member that calls, and the declaration that is meant. -/
structure CallSite where
  callee : String
  caller : Option String
  location : Location
  definition : Option SymbolInfo
deriving DecidableEq, Repr, Inhabited

/-- What an action on code is for. -/
inductive CodeActionKind where
  | quickFix
  | refactor
  | source
deriving DecidableEq, Repr, Inhabited

/-- The name of a kind of action. -/
def CodeActionKind.text : CodeActionKind → String
  | .quickFix => "QuickFix"
  | .refactor => "Refactor"
  | .source => "Source"

/-- A fix or a refactoring that is offered for a range. Its title tells it from the others. -/
structure CodeAction where
  title : String
  kind : CodeActionKind
  edits : List DocumentEdit
deriving DecidableEq, Repr, Inhabited

/-- A finding about a range of a document. -/
structure Diagnostic where
  path : String
  range : Range
  severity : Severity
  code : String
  message : String
deriving DecidableEq, Repr, Inhabited

/-- The measures of a named method. -/
structure MethodComplexity where
  name : String
  containerName : Option String
  range : Range
  metrics : Metrics
deriving DecidableEq, Repr, Inhabited

end CodeIntel
