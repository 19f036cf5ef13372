import CodeIntel.Analysis.Outcome
import CodeIntel.Solution.Load
import CodeIntel.Symbol.Info
import CodeIntel.Symbol.Pattern
import CodeIntel.Workspace.Snapshot

/-! What the service wants to know of an engine. Offsets count bytes of the given document. -/

namespace CodeIntel

/-- What a call into the engine gives. -/
abbrev Reply (α : Type) := Outcome EngineError α

/-- The symbols of some documents that have a wanted kind and a name that a pattern accepts, in the
order in which the engine reports them. -/
def matchingSymbols (symbolsOf : Document → Reply (List SymbolInfo)) (pattern : Pattern)
    (kind : Option SymbolKind) : List Document → Reply (List SymbolInfo)
  | [] => pure []
  | document :: rest => do
    let symbols ← symbolsOf document
    let found := symbols.filter fun symbol =>
      (kind.isNone || kind == some symbol.kind) && pattern.accepts symbol.name
    return found ++ (← matchingSymbols symbolsOf pattern kind rest)

/-- An engine. -/
structure Engine where
  /-- Reads a descriptor and lists the source files of its projects. -/
  loadSolution : Disk → String → Reply Solution
  /-- Whether a name may be given to a symbol; asks nothing of the workspace. That this may break down as well
  is the matter of `attempt`. -/
  isValidIdentifier : String → Bool
  documentSymbols : Document → Reply (List SymbolInfo)
  /-- The name at an offset; nothing between names. -/
  symbolAt : Snapshot → Document → Nat → Reply (Option SymbolAtPosition)
  definition : Snapshot → Document → Nat → Reply (Option SymbolInfo)
  references : Snapshot → Document → Nat → Reply (List Location)
  /-- The method that a cursor means: the one named there, else the one around it. -/
  methodAt : Snapshot → Document → Nat → Reply SymbolInfo
  /-- The calls of that method. -/
  callers : Snapshot → Document → Nat → Reply (List CallSite)
  /-- The calls made inside that method. -/
  outgoingCalls : Snapshot → Document → Nat → Reply (List CallSite)
  renameEdits : Snapshot → Document → Nat → String → Reply (List DocumentEdit)
  codeActions : Snapshot → Document → AnchorRange → Reply (List CodeAction)
  /-- The findings of one document or, without one, of the whole workspace. -/
  diagnostics : Snapshot → Option Document → Reply (List Diagnostic)
  methodComplexity : Document → Reply (List MethodComplexity)
  symbolsMatching : Snapshot → Pattern → Option SymbolKind → Reply (List SymbolInfo) :=
    fun snapshot pattern kind =>
      matchingSymbols documentSymbols pattern kind snapshot.allDocuments
  /-- The edits of an action; they may be worked out only when they are asked for. -/
  codeActionEdits : Snapshot → CodeAction → Reply (List DocumentEdit) :=
    fun _ action => pure action.edits

end CodeIntel
