import CodeIntel.Service.Batch
import CodeIntel.Service.Call
import CodeIntel.Symbol.Info
import CodeIntel.Workspace.Store

/-! The answers of the operations. -/

namespace CodeIntel

/-- The first of the symbols that a search found, and how many there were. -/
structure SymbolSearch where
  symbols : List SymbolInfo
  totalMatches : Nat
  truncated : Bool
  version : Nat
deriving DecidableEq, Repr, Inhabited

/-- The first of the uses of a name, and how many there were. -/
structure ReferenceSearch where
  symbolName : String
  references : List Location
  totalReferences : Nat
  truncated : Bool
deriving DecidableEq, Repr, Inhabited

/-- The first of the calls that belong to a method. -/
structure CallSearch where
  method : SymbolInfo
  calls : List CallSite
  truncated : Bool
deriving DecidableEq, Repr, Inhabited

/-- What became of edits. -/
inductive Effect where
  /-- They were only shown. -/
  | preview (edits : List DocumentEdit)
  /-- They were made, and the workspace has this version now. -/
  | applied (newVersion : Nat)
deriving DecidableEq, Repr, Inhabited

/-- A symbol with another name. -/
structure RenameResult where
  oldName : String
  newName : String
  affectedFiles : List String
  changeCount : Nat
  effect : Effect
deriving DecidableEq, Repr, Inhabited

/-- An action on code. -/
structure ActionResult where
  title : String
  affectedFiles : List String
  effect : Effect
deriving DecidableEq, Repr, Inhabited

/-- The measures of a method that were asked for. -/
structure MethodMetrics where
  name : String
  containerName : Option String
  range : Range
  metrics : List (Metric × Nat)
deriving DecidableEq, Repr, Inhabited

/-- The measures of the method around a position or of all methods of a file. -/
inductive ComplexityReport where
  | ofMethod (file : String) (method : MethodMetrics)
  | ofFile (file : String) (methods : List MethodMetrics)
deriving DecidableEq, Repr, Inhabited

/-- The members of a type. -/
structure TypeMembers where
  typeName : String
  kind : SymbolKind
  path : String
  members : List SymbolInfo
deriving DecidableEq, Repr, Inhabited

/-- The source of a method, and how many others of its type have its name. -/
structure MethodSource where
  typeName : String
  methodName : String
  path : String
  range : Range
  source : String
  overloads : Nat
deriving DecidableEq, Repr, Inhabited

/-- What a call is answered with. -/
inductive Answer where
  | loaded (summary : LoadSummary)
  | synced (report : SyncReport)
  | status (status : WorkspaceStatus)
  | found (search : SymbolSearch)
  | documentSymbols (file : String) (symbols : List SymbolInfo)
  /-- The declaration of the name under a cursor; nothing where there is no name. -/
  | definition (symbol : Option SymbolInfo)
  | references (search : ReferenceSearch)
  | callers (search : CallSearch)
  | outgoingCalls (search : CallSearch)
  | renamed (result : RenameResult)
  | actions (actions : List CodeAction)
  | acted (result : ActionResult)
  | diagnostics (diagnostics : List Diagnostic)
  | complexity (report : ComplexityReport)
  | typeMembers (batch : BatchResult String TypeMembers)
  | methodSources (batch : BatchResult MethodSourceRequest MethodSource)
deriving Inhabited

/-- What every request comes back with: an answer or an error. -/
abbrev Envelope := Except Error Answer

end CodeIntel
