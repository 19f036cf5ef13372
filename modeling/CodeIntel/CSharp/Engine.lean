import CodeIntel.Analysis.Engine
import CodeIntel.Analysis.Finding
import CodeIntel.CSharp.Actions

/-! The engine for C#. What a document declares, names and calls comes from its parse tree, which a
parser outside the library supplies. Names are followed by their spelling alone: every identifier of
the same name counts as a use of the symbol. -/

namespace CodeIntel.CSharp

/-- A parser: the tree of a text. -/
abbrev Parser := String → Option Tree

/-- What projects are written in unless they say otherwise. -/
def language : String := "csharp"

/-- The extensions of source files. -/
def extensions : List String := ["cs"]

/-- The index of a document. -/
def indexOf (parser : Parser) (d : Document) : Except EngineError Index :=
  match parser d.text with
  | some tree => Index.build d tree
  | none => .error (.failed "Failed to parse source code")

/-- The documents of a snapshot with their indexes, in path order. -/
def indexAll (parser : Parser) (snapshot : Snapshot) :
    Except EngineError (List (Document × Index)) :=
  snapshot.allDocuments.mapM fun d => do return (d, ← indexOf parser d)

/-- The declarations of a name: those of the document at hand first, then in path order. -/
def declarationsNamed (own : Document × Index) (all : List (Document × Index)) (name : String) :
    List SymbolInfo :=
  let others := all.filter fun (d, _) => d.path ≠ own.1.path
  (own :: others).flatMap fun (_, index) => index.symbols.filter fun symbol => symbol.name = name

/-- The declaration whose own name a token is. -/
def ownDeclaration? (index : Index) (token : Token) : Option SymbolInfo :=
  match index.declarationNamedAt? token.span.start with
  | some d => if d.symbol.name = token.name then some d.symbol else none
  | none => none

/-- The name at an offset. -/
def symbolAt (parser : Parser) (d : Document) (offset : Nat) :
    Except EngineError (Option SymbolAtPosition) := do
  let index ← indexOf parser d
  match index.identifierAt? offset with
  | none => return none
  | some token => do
    let range ← Visit.range d token.span
    return some ⟨token.name, d.path, range, ownDeclaration? index token⟩

/-- The declaration of the name at an offset: its own if it is the name of one, else the first. -/
def definition (parser : Parser) (snapshot : Snapshot) (d : Document) (offset : Nat) :
    Except EngineError (Option SymbolInfo) := do
  let index ← indexOf parser d
  match index.identifierAt? offset with
  | none => return none
  | some token =>
    match ownDeclaration? index token with
    | some symbol => return some symbol
    | none => do
      let all ← indexAll parser snapshot
      return (declarationsNamed (d, index) all token.name).head?

/-- A span of a document with the line that it starts on. -/
def location (d : Document) (span : Span) : Except EngineError Location := do
  let range ← Visit.range d span
  let line := (Lines.contentOf? d.chars range.start.line).getD []
  return ⟨d.path, range, String.ofList (Text.trim line)⟩

/-- The name at an offset, which has to be there. -/
def nameAt (index : Index) (offset : Nat) : Except EngineError String :=
  match index.identifierAt? offset with
  | some token => .ok token.name
  | none => .error (.notFound "No symbol at the given position")

/-- The identifiers of a name in a document. -/
def tokensNamed (index : Index) (name : String) : List Token :=
  index.identifiers.filter fun token => token.name = name

/-- Every use of the name at an offset, in path order. -/
def references (parser : Parser) (snapshot : Snapshot) (d : Document) (offset : Nat) :
    Except EngineError (List Location) := do
  let name ← nameAt (← indexOf parser d) offset
  let all ← indexAll parser snapshot
  let found ← all.mapM fun (document, index) =>
    (tokensNamed index name).mapM fun token => location document token.span
  return found.flatten

/-- The method that a cursor means: the first callable of the name at the offset, else the innermost
method around it. -/
def methodAt (parser : Parser) (snapshot : Snapshot) (d : Document) (offset : Nat) :
    Except EngineError SymbolInfo := do
  let index ← indexOf parser d
  let named ← match index.identifierAt? offset with
    | none => pure none
    | some token => do
      let all ← indexAll parser snapshot
      pure ((declarationsNamed (d, index) all token.name).find? fun symbol => symbol.kind.isCallable)
  match named with
  | some symbol => return symbol
  | none =>
    match index.methodContaining? offset with
    | none => .error (.notFound "No method found at the given position")
    | some method =>
      match index.declarations.find? fun declaration => declaration.span = method.span with
      | some declaration => return declaration.symbol
      | none => .error (.notFound ("No declaration for method " ++ method.name))

/-- The calls of the method that a cursor means, in path order. -/
def callers (parser : Parser) (snapshot : Snapshot) (d : Document) (offset : Nat) :
    Except EngineError (List CallSite) := do
  let target ← methodAt parser snapshot d offset
  let all ← indexAll parser snapshot
  let found ← all.mapM fun (document, index) =>
    (index.invocations.filter fun call => call.callee = target.name).mapM fun call => do
      let place ← location document call.nameSpan
      return (⟨call.callee, call.caller, place, some target⟩ : CallSite)
  return found.flatten

/-- Whether a call stands inside a body. -/
def isInside (body : Span) (call : Invocation) : Bool :=
  body.start ≤ call.nameSpan.start && call.nameSpan.stop ≤ body.stop

/-- The calls made inside the method that a cursor means. -/
def outgoingCalls (parser : Parser) (snapshot : Snapshot) (d : Document) (offset : Nat) :
    Except EngineError (List CallSite) := do
  let method ← methodAt parser snapshot d offset
  let target := (snapshot.document? method.path).getD d
  let index ← indexOf parser target
  match index.methods.find? fun m => m.range = method.range with
  | none => .error (.notFound ("No body found for " ++ method.name))
  | some body => do
    let calls := index.invocations.filter (isInside body.span)
    let all ← if calls.isEmpty then pure [] else indexAll parser snapshot
    calls.mapM fun call => do
      let place ← location target call.nameSpan
      let meant := (declarationsNamed (target, index) all call.callee).find? fun symbol =>
        symbol.kind.isCallable || symbol.kind.isType
      return ⟨call.callee, some method.qualifiedName, place, meant⟩

/-- The edits that give the name at an offset another spelling wherever it is used. -/
def renameEdits (parser : Parser) (snapshot : Snapshot) (d : Document) (offset : Nat)
    (newName : String) : Except EngineError (List DocumentEdit) := do
  let own ← indexOf parser d
  let oldName ← nameAt own offset
  let all ← indexAll parser snapshot
  if (declarationsNamed (d, own) all oldName).isEmpty then
    .error (.notFound s!"'{oldName}' is not declared in the workspace")
  else if oldName = newName then .error (.invalidArgument s!"'{oldName}' already has that name")
  else
    let changes ← all.mapM fun (document, index) => do
      let edits ← (tokensNamed index oldName).mapM fun token => do
        return (⟨← Visit.range document token.span, newName⟩ : TextEdit)
      return (⟨document.path, edits⟩ : DocumentEdit)
    return changes.filter fun change => !change.edits.isEmpty

/-- A better spelling for a callable whose name starts with a lower-case letter. -/
def renameAction? (parser : Parser) (snapshot : Snapshot) (d : Document) (declared : Declaration) :
    Except EngineError (Option CodeAction) := do
  match pascalCase? declared.symbol.name with
  | none => return none
  | some better => do
    let edits ← renameEdits parser snapshot d declared.nameSpan.start better
    return some ⟨s!"Rename '{declared.symbol.name}' to '{better}'", .refactor, edits⟩

/-- The actions that are offered for a range, each title once. -/
def codeActions (parser : Parser) (snapshot : Snapshot) (d : Document) (range : AnchorRange) :
    Except EngineError (List CodeAction) := do
  let index ← indexOf parser d
  let meets (span : Span) : Bool := span.overlaps range.span.start range.span.stop
  let touched := index.declarations.filter fun declared => meets declared.nameSpan
  let semicolons ← semicolonFixes d index.faults range.range
  let comments := touched.filterMap fun declared => documentation? d declared.symbol
  let fields := index.fields.filter fun field => !field.isReadonly && meets field.nameSpan
  let modifiers ← fields.mapM (readonlyField d)
  let callables := touched.filter fun declared => declared.symbol.kind.isCallable
  let renames ← callables.mapM (renameAction? parser snapshot d)
  let sorting ← sortImports d index.imports
  return distinctTitles [] <|
    semicolons ++ comments ++ modifiers ++ renames.filterMap id ++ sorting.toList

/-- The findings of one document or, without one, of all in path order. -/
def diagnostics (parser : Parser) (snapshot : Snapshot) :
    Option Document → Except EngineError (List Diagnostic)
  | some d => do documentDiagnostics d (← indexOf parser d)
  | none => do
    let found ← snapshot.allDocuments.mapM fun d => do
      documentDiagnostics d (← indexOf parser d)
    return found.flatten

/-- The measures of the methods of a document. -/
def methodComplexity (parser : Parser) (d : Document) :
    Except EngineError (List MethodComplexity) := do
  let index ← indexOf parser d
  return index.methods.map fun method =>
    ⟨method.name, method.container, method.range, method.metrics⟩

/-- The engine. -/
def engine (parser : Parser) : Engine where
  loadSolution disk descriptor := .ofExcept (Solution.load language extensions disk descriptor)
  isValidIdentifier := isValidIdentifier
  documentSymbols d := .ofExcept ((indexOf parser d).map Index.symbols)
  symbolAt _ d offset := .ofExcept (symbolAt parser d offset)
  definition snapshot d offset := .ofExcept (definition parser snapshot d offset)
  references snapshot d offset := .ofExcept (references parser snapshot d offset)
  methodAt snapshot d offset := .ofExcept (methodAt parser snapshot d offset)
  callers snapshot d offset := .ofExcept (callers parser snapshot d offset)
  outgoingCalls snapshot d offset := .ofExcept (outgoingCalls parser snapshot d offset)
  renameEdits snapshot d offset newName :=
    .ofExcept (renameEdits parser snapshot d offset newName)
  codeActions snapshot d range := .ofExcept (codeActions parser snapshot d range)
  diagnostics snapshot d := .ofExcept (diagnostics parser snapshot d)
  methodComplexity d := .ofExcept (methodComplexity parser d)

end CodeIntel.CSharp
