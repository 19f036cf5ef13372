import CodeIntel.Json.Decode
import CodeIntel.Service.Operation
import CodeIntel.Source.Position
import CodeIntel.Symbol.Kind

/-! Calls: an operation together with its arguments, decoded from JSON. Unknown arguments are
refused, and bounds that are left out have values of their own. -/

namespace CodeIntel

open Json (Record Decoder)

/-- A position in a file, as a caller gives it. -/
structure Cursor where
  file : String
  line : Nat
  column : Nat
deriving DecidableEq, Repr, Inhabited

/-- The position of a cursor. -/
def Cursor.position (c : Cursor) : Position := ⟨c.line, c.column⟩

/-- A cursor with an end, which defaults to the cursor itself. -/
structure Selection where
  cursor : Cursor
  endLine : Option Nat
  endColumn : Option Nat
deriving DecidableEq, Repr, Inhabited

/-- Two numbers that have to be given together or not at all. -/
def together? (names : String) (line column : Option Nat) : Except Error (Option Position) :=
  match line, column with
  | none, none => .ok none
  | some line, some column => .ok (some ⟨line, column⟩)
  | _, _ => .error (.invalidArgument (names ++ " must be given together"))

/-- The ends of a selection. -/
def Selection.positions (s : Selection) : Except Error (Position × Position) := do
  let stop ← together? "endLine and endColumn" s.endLine s.endColumn
  return (s.cursor.position, stop.getD s.cursor.position)

/-- A request for the source of a method. -/
structure MethodSourceRequest where
  typeName : String
  methodName : String
deriving DecidableEq, Repr, Inhabited

/-- An operation with its arguments. -/
inductive Call where
  | loadWorkspace (path : String)
  | syncDocuments (paths : Option (List String))
  | getWorkspaceStatus
  | searchSymbols (pattern : String) (kind : Option String) (most : Nat)
  | getDocumentSymbols (file : String)
  | goToDefinition (cursor : Cursor)
  | findReferences (cursor : Cursor) (most : Nat)
  | findCallers (cursor : Cursor) (most : Nat)
  | getOutgoingCalls (cursor : Cursor) (most : Nat)
  | renameSymbol (cursor : Cursor) (newName : String) (preview : Bool)
  | getCodeActions (selection : Selection)
  | applyCodeAction (selection : Selection) (title : String) (preview : Bool)
  | getDiagnostics (file : Option String) (severity : Option String)
  | getComplexityMetrics (file : String) (line column : Option Nat)
      (metrics : Option (List String))
  | getTypeMembersBatch (typeNames : List String)
  | getMethodSourceBatch (requests : List MethodSourceRequest)
deriving DecidableEq, Repr, Inhabited

namespace Call

/-- The fields of a cursor. -/
def cursor : Record Cursor :=
  Cursor.mk <$> Record.field "file" Decoder.string <*> Record.field "line" Decoder.coordinate
    <*> Record.field "column" Decoder.coordinate

/-- An optional coordinate. -/
def coordinate? (name : String) : Record (Option Nat) :=
  Record.optional name (Decoder.nullable Decoder.coordinate) none

/-- An optional text. -/
def text? (name : String) : Record (Option String) :=
  Record.optional name (Decoder.nullable Decoder.string) none

/-- The fields of a selection. -/
def selection : Record Selection :=
  Selection.mk <$> cursor <*> coordinate? "endLine" <*> coordinate? "endColumn"

/-- Whether only to show what would be done. -/
def preview : Record Bool := Record.optional "preview" Decoder.bool false

/-- How many results a search may give unless it says otherwise. -/
def defaultResults : Nat := 100

/-- How many calls a search may give unless it says otherwise. -/
def defaultCalls : Nat := 50

/-- A request for the source of a method. -/
def methodSourceRequest : Decoder MethodSourceRequest :=
  Record.decoder "MethodSourceRequest" <|
    MethodSourceRequest.mk <$> Record.field "typeName" Decoder.string
      <*> Record.field "methodName" Decoder.string

/-- The name and the fields of the arguments of an operation. -/
def arguments : Operation → String × Record Call
  | .loadWorkspace =>
    ("LoadWorkspaceArgs", Call.loadWorkspace <$> Record.field "path" Decoder.string)
  | .syncDocuments =>
    ("SyncDocumentsArgs", Call.syncDocuments
      <$> Record.optional "paths" (Decoder.nullable (Decoder.list Decoder.string)) none)
  | .getWorkspaceStatus => ("NoArgs", pure .getWorkspaceStatus)
  | .searchSymbols =>
    ("SearchSymbolsArgs", Call.searchSymbols <$> Record.field "pattern" Decoder.string
      <*> text? "kind" <*> Record.optional "maxResults" Decoder.size defaultResults)
  | .getDocumentSymbols =>
    ("DocumentArgs", Call.getDocumentSymbols <$> Record.field "file" Decoder.string)
  | .goToDefinition => ("PositionArgs", Call.goToDefinition <$> cursor)
  | .findReferences =>
    ("FindReferencesArgs", Call.findReferences <$> cursor
      <*> Record.optional "maxResults" Decoder.size defaultResults)
  | .findCallers =>
    ("FindCallersArgs", Call.findCallers <$> cursor
      <*> Record.optional "maxCallers" Decoder.size defaultCalls)
  | .getOutgoingCalls =>
    ("OutgoingCallsArgs", Call.getOutgoingCalls <$> cursor
      <*> Record.optional "maxOutgoingCalls" Decoder.size defaultCalls)
  | .renameSymbol =>
    ("RenameSymbolArgs", Call.renameSymbol <$> cursor
      <*> Record.field "newName" Decoder.string <*> preview)
  | .getCodeActions => ("CodeActionsArgs", Call.getCodeActions <$> selection)
  | .applyCodeAction =>
    ("ApplyCodeActionArgs", Call.applyCodeAction <$> selection
      <*> Record.field "title" Decoder.string <*> preview)
  | .getDiagnostics =>
    ("DiagnosticsArgs", Call.getDiagnostics <$> text? "file" <*> text? "severity")
  | .getComplexityMetrics =>
    ("ComplexityArgs", Call.getComplexityMetrics <$> Record.field "file" Decoder.string
      <*> coordinate? "line" <*> coordinate? "column"
      <*> Record.optional "metrics" (Decoder.nullable (Decoder.list Decoder.string)) none)
  | .getTypeMembersBatch =>
    ("TypeMembersBatchArgs", Call.getTypeMembersBatch
      <$> Record.field "typeNames" (Decoder.list Decoder.string))
  | .getMethodSourceBatch =>
    ("MethodSourceBatchArgs", Call.getMethodSourceBatch
      <$> Record.field "requests" (Decoder.list methodSourceRequest))

/-- The call of an operation with arguments; null stands for no arguments. -/
def decode (operation : Operation) (given : Json) : Except Error Call :=
  let given := match given with
    | .null => .object []
    | other => other
  let (name, fields) := arguments operation
  match Record.decoder name fields given with
  | .ok call => .ok call
  | .error fault => .error (.invalidArgument ("Invalid arguments: " ++ fault.message))

end Call

/-- A bound on the size of an answer has to let something through. -/
def checkBound (name : String) (most : Nat) : Except Error Unit :=
  if most = 0 then .error (.invalidArgument (name ++ " must be at least 1")) else .ok ()

/-- The measures that were asked for, in their own order and each once; all without a list. -/
def selectedMetrics : Option (List String) → Except Error (List Metric)
  | none => .ok Metric.all
  | some [] => .error (.invalidArgument "metrics must name at least one metric when given")
  | some names => do
    let wanted ← names.mapM Metric.ofText
    return Metric.all.filter wanted.contains

end CodeIntel
