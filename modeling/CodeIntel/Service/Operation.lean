import CodeIntel.Error

/-! The operations that callers can ask for by name. -/

namespace CodeIntel

/-- An operation. -/
inductive Operation where
  | loadWorkspace
  | syncDocuments
  | getWorkspaceStatus
  | searchSymbols
  | getDocumentSymbols
  | goToDefinition
  | findReferences
  | findCallers
  | getOutgoingCalls
  | renameSymbol
  | getCodeActions
  | applyCodeAction
  | getDiagnostics
  | getComplexityMetrics
  | getTypeMembersBatch
  | getMethodSourceBatch
deriving DecidableEq, Repr, Inhabited

namespace Operation

/-- Every operation. -/
def all : List Operation :=
  [.loadWorkspace, .syncDocuments, .getWorkspaceStatus, .searchSymbols, .getDocumentSymbols,
    .goToDefinition, .findReferences, .findCallers, .getOutgoingCalls, .renameSymbol,
    .getCodeActions, .applyCodeAction, .getDiagnostics, .getComplexityMetrics,
    .getTypeMembersBatch, .getMethodSourceBatch]

/-- The name of an operation. -/
def text : Operation → String
  | .loadWorkspace => "LoadWorkspace"
  | .syncDocuments => "SyncDocuments"
  | .getWorkspaceStatus => "GetWorkspaceStatus"
  | .searchSymbols => "SearchSymbols"
  | .getDocumentSymbols => "GetDocumentSymbols"
  | .goToDefinition => "GoToDefinition"
  | .findReferences => "FindReferences"
  | .findCallers => "FindCallers"
  | .getOutgoingCalls => "GetOutgoingCalls"
  | .renameSymbol => "RenameSymbol"
  | .getCodeActions => "GetCodeActions"
  | .applyCodeAction => "ApplyCodeAction"
  | .getDiagnostics => "GetDiagnostics"
  | .getComplexityMetrics => "GetComplexityMetrics"
  | .getTypeMembersBatch => "GetTypeMembersBatch"
  | .getMethodSourceBatch => "GetMethodSourceBatch"

/-- The operations that may publish a snapshot. -/
def isMutating (operation : Operation) : Bool :=
  [.loadWorkspace, .syncDocuments, .renameSymbol, .applyCodeAction].contains operation

/-- The operation of a name; case counts. -/
def ofText (name : String) : Except Error Operation :=
  match all.find? fun operation => operation.text = name with
  | some operation => .ok operation
  | none => .error (.notFound ("Unknown operation: " ++ name))

end Operation

end CodeIntel
