import CodeIntel.Service.Answer
import CodeIntel.Tree.Index

/-! What each call does. A call is first checked against the published snapshot; then the engine
works against that one snapshot; and what is left is either an answer or a step that publishes. The
steps are kept apart, since a request can be cancelled between them. -/

namespace CodeIntel

/-- What is left of a call when the engine has done its part. -/
inductive Finish where
  | reply (answer : Answer)
  /-- A step that may change the store; it runs to its end once it has begun. -/
  | publish (step : Store → Except Error Answer × Store)

/-- A call that has passed its checks. -/
inductive Plan where
  /-- The answer is known without the engine. -/
  | known (answer : Answer)
  /-- The engine has its part to do. That part reads the store as it is when the engine runs, and
  changes nothing of it. -/
  | work (compute : Store → Outcome Error Finish)

namespace Plan

/-- What the engine says, with its errors as those of the request. -/
def ask (reply : Reply α) : Outcome Error α := reply.mapError EngineError.toError

/-- A document of a snapshot by its path. -/
def documentOf (snapshot : Snapshot) (path : String) : Outcome Error Document :=
  match snapshot.document? path with
  | some document => .done document
  | none => .failed (CoordinateError.documentNotFound path).toError

/-- Where no symbol was found. -/
def noSymbol (anchor : Anchor) : Error :=
  .notFound s!"No symbol at {anchor.path}:{anchor.position.text}"

/-- The first elements of a list, and whether that leaves any out. -/
def firstOf (most : Nat) (all : List α) : List α × Bool := (all.take most, most < all.length)

/-- The order of the symbols that a search finds. -/
def symbolPrecedes (a b : SymbolInfo) : Bool :=
  (compareLex (compareOn SymbolInfo.path)
    (compareLex (compareOn fun s : SymbolInfo => s.range.start) (compareOn SymbolInfo.name))
    a b).isLE

/-- The order of places: by path and start. -/
def placePrecedes (path : α → String) (start : α → Position) (a b : α) : Bool :=
  (compareLex (compareOn path) (compareOn start) a b).isLE

/-- The paths of the documents that edits change, ascending and each once. -/
def affectedFiles (edits : List DocumentEdit) : List String :=
  ascending ((edits.filter fun edit => !edit.edits.isEmpty).map DocumentEdit.path)

/-- How many edits there are in all. -/
def changeCount (edits : List DocumentEdit) : Nat :=
  (edits.flatMap DocumentEdit.edits).length

/-- What is left of edits: they are shown, or made to the snapshot that they were worked out on. -/
def finishEdits (snapshot : Snapshot) (edits : List DocumentEdit) (preview : Bool)
    (answer : Effect → Answer) : Finish :=
  if preview then .reply (answer (.preview edits))
  else .publish fun store =>
    match store.applyEdits snapshot.id snapshot.version edits with
    | (.ok version, store) => (.ok (answer (.applied version)), store)
    | (.error error, store) => (.error error, store)

/-- The first type of a name, simple or qualified, in path order, and the symbols of its
document. -/
def findType (engine : Engine) (typeName : String) :
    List Document → Outcome Error (SymbolInfo × List SymbolInfo)
  | [] => .failed (.notFound ("Type not found: " ++ typeName))
  | document :: rest => do
    let symbols ← ask (engine.documentSymbols document)
    let found := symbols.find? fun symbol =>
      symbol.kind.isType && (symbol.name == typeName || symbol.qualifiedName == typeName)
    match found with
    | some symbol => return (symbol, symbols)
    | none => findType engine typeName rest

/-- Whether a symbol is a member of a type: the type is its container and it starts inside. -/
def isMemberOf (type symbol : SymbolInfo) : Bool :=
  symbol.containerName == some type.name && type.range.contains symbol.range.start &&
    symbol != type

/-- The members of a type. -/
def typeMembers (engine : Engine) (snapshot : Snapshot) (typeName : String) :
    Outcome Error TypeMembers :=
  if Text.trimmed typeName = "" then .failed (.invalidArgument "typeName must not be empty")
  else do
    let (type, symbols) ← findType engine typeName snapshot.allDocuments
    return ⟨typeName, type.kind, type.path, symbols.filter (isMemberOf type)⟩

/-- The text from one offset to another of a document. Offsets in the wrong order break the work
down. -/
def textBetween (document : Document) (start stop : Nat) : Outcome Error String :=
  match document.slice? ⟨start, stop⟩ with
  | some text => .done text
  | none => .crashed (some s!"byte range starts at {start} but ends at {stop}")

/-- The source of a method of a type: that of the first callable of its name. -/
def methodSource (engine : Engine) (snapshot : Snapshot) (request : MethodSourceRequest) :
    Outcome Error MethodSource :=
  if Text.trimmed request.methodName = "" then
    .failed (.invalidArgument "methodName must not be empty")
  else do
    let type ← typeMembers engine snapshot request.typeName
    let matching := type.members.filter fun member =>
      member.kind.isCallable && member.name == request.methodName
    match matching with
    | [] =>
      .failed (.notFound s!"Method {request.methodName} not found in type {request.typeName}")
    | method :: others => do
      let document ← documentOf snapshot method.path
      let start ← (Outcome.ofExcept (document.offsetAt method.range.start)).mapError
        CoordinateError.toError
      let stop ← (Outcome.ofExcept (document.offsetAt method.range.stop)).mapError
        CoordinateError.toError
      let source ← textBetween document start stop
      return ⟨request.typeName, request.methodName, method.path, method.range, source, others.length⟩

/-- Whether a method is shorter than another: fewer lines, then an earlier end. -/
def isTighter (a b : MethodComplexity) : Bool :=
  let linesOf (m : MethodComplexity) : Nat := m.range.stop.line - m.range.start.line
  linesOf a < linesOf b ||
    (linesOf a == linesOf b && a.range.stop.column ≤ b.range.stop.column)

/-- The chosen measures of a method. -/
def chosenMetrics (metrics : List Metric) (method : MethodComplexity) : MethodMetrics :=
  ⟨method.name, method.containerName, method.range,
    metrics.map fun metric => (metric, metric.value method.metrics)⟩

/-- The measures of the tightest method around a position, or of all methods without one. -/
def complexityReport (file : String) (metrics : List Metric) (position : Option Position)
    (methods : List MethodComplexity) : Outcome Error ComplexityReport :=
  match position with
  | none => .done (.ofFile file (methods.map (chosenMetrics metrics)))
  | some p =>
    match firstLeast? isTighter (methods.filter fun method => method.range.contains p) with
    | some method => .done (.ofMethod file (chosenMetrics metrics method))
    | none => .failed (.notFound s!"No method found at {file}:{p.text}")

/-- The anchor of a cursor. -/
def anchorOf (store : Store) (snapshot : Snapshot) (cursor : Cursor) : Except Error Anchor :=
  (snapshot.anchor store.disk cursor.file cursor.position).mapError CoordinateError.toError

/-- The path of a document under any spelling of it. -/
def fileOf (store : Store) (snapshot : Snapshot) (file : String) : Except Error String :=
  ((snapshot.locate store.disk file).map Document.path).mapError CoordinateError.toError

/-- The anchored ends of a selection. -/
def rangeOf (store : Store) (snapshot : Snapshot) (file : String) (ends : Position × Position) :
    Except Error AnchorRange :=
  (snapshot.anchorRange store.disk file ends.1 ends.2).mapError CoordinateError.toError

/-- A call that only the engine answers. -/
def reply (compute : Unit → Outcome Error Answer) : Plan :=
  .work fun _ => do return .reply (← compute ())

/-- Loads a workspace under a number that no load before it has drawn. -/
def loadWorkspace (engine : Engine) (id : Nat) (path : String) : Plan :=
  .work fun store => do
    let pending ← store.prepareLoad engine id path
    return .publish fun store =>
      let (summary, store) := store.commitLoad pending
      (.ok (.loaded summary), store)

/-- Syncs documents with the disk. -/
def syncDocuments (engine : Engine) (paths : Option (List String)) : Plan :=
  .work fun store => do
    let pending ← store.prepareSync engine paths
    return .publish fun store =>
      let (report, store) := store.commitSync pending
      (report.map .synced, store)

/-- Searches for symbols. -/
def searchSymbols (engine : Engine) (store : Store) (pattern : String) (kind : Option String)
    (most : Nat) : Except Error Plan := do
  let pattern ← Pattern.ofText pattern
  let kind ← kind.mapM SymbolKind.ofText
  checkBound "maxResults" most
  let snapshot ← store.current
  return reply fun _ => do
    let symbols ← ask (engine.symbolsMatching snapshot pattern kind)
    let (first, truncated) := firstOf most (symbols.mergeSort symbolPrecedes)
    return .found ⟨first, symbols.length, truncated, snapshot.version⟩

/-- Lists the symbols of a document. -/
def documentSymbols (engine : Engine) (store : Store) (file : String) : Except Error Plan := do
  let snapshot ← store.current
  let path ← fileOf store snapshot file
  return reply fun _ => do
    let document ← documentOf snapshot path
    return .documentSymbols path (← ask (engine.documentSymbols document))

/-- Finds the declaration of the name under a cursor. -/
def goToDefinition (engine : Engine) (store : Store) (cursor : Cursor) : Except Error Plan := do
  let snapshot ← store.current
  let anchor ← anchorOf store snapshot cursor
  return reply fun _ => do
    let document ← documentOf snapshot anchor.path
    match ← ask (engine.symbolAt snapshot document anchor.offset) with
    | none => return .definition none
    | some symbol =>
      match ← ask (engine.definition snapshot document anchor.offset) with
      | some definition => return .definition (some definition)
      | none => .failed (.notFound s!"No definition found for '{symbol.name}'")

/-- Finds the uses of the name under a cursor. -/
def findReferences (engine : Engine) (store : Store) (cursor : Cursor) (most : Nat) :
    Except Error Plan := do
  checkBound "maxResults" most
  let snapshot ← store.current
  let anchor ← anchorOf store snapshot cursor
  return reply fun _ => do
    let document ← documentOf snapshot anchor.path
    match ← ask (engine.symbolAt snapshot document anchor.offset) with
    | none => .failed (noSymbol anchor)
    | some symbol => do
      let found ← ask (engine.references snapshot document anchor.offset)
      let sorted := found.mergeSort (placePrecedes Location.path fun l => l.range.start)
      let (first, truncated) := firstOf most sorted
      return .references ⟨symbol.name, first, found.length, truncated⟩

/-- Finds the calls that belong to the method under a cursor. -/
def callSearch (engine : Engine) (store : Store) (cursor : Cursor) (bound : String) (most : Nat)
    (calls : Snapshot → Document → Nat → Reply (List CallSite)) (answer : CallSearch → Answer) :
    Except Error Plan := do
  checkBound bound most
  let snapshot ← store.current
  let anchor ← anchorOf store snapshot cursor
  return reply fun _ => do
    let document ← documentOf snapshot anchor.path
    let method ← ask (engine.methodAt snapshot document anchor.offset)
    let found ← ask (calls snapshot document anchor.offset)
    let (first, truncated) := firstOf most found
    return answer ⟨method, first, truncated⟩

/-- Gives the symbol under a cursor another name. -/
def renameSymbol (engine : Engine) (store : Store) (cursor : Cursor) (newName : String)
    (preview : Bool) : Except Error Plan := do
  if !engine.isValidIdentifier newName then
    .error (.invalidArgument s!"'{newName}' is not a valid identifier")
  else
    let snapshot ← store.current
    let anchor ← anchorOf store snapshot cursor
    return .work fun _ => do
      let document ← documentOf snapshot anchor.path
      match ← ask (engine.symbolAt snapshot document anchor.offset) with
      | none => .failed (noSymbol anchor)
      | some symbol => do
        let edits ← ask (engine.renameEdits snapshot document anchor.offset newName)
        return finishEdits snapshot edits preview fun effect =>
          .renamed ⟨symbol.name, newName, affectedFiles edits, changeCount edits, effect⟩

/-- Lists the actions that are offered for a selection. -/
def codeActions (engine : Engine) (store : Store) (selection : Selection) : Except Error Plan := do
  let ends ← selection.positions
  let snapshot ← store.current
  let range ← rangeOf store snapshot selection.cursor.file ends
  return reply fun _ => do
    let document ← documentOf snapshot range.path
    return .actions (← ask (engine.codeActions snapshot document range))

/-- Does the first of the actions that has a title. -/
def applyCodeAction (engine : Engine) (store : Store) (selection : Selection) (title : String)
    (preview : Bool) : Except Error Plan := do
  let ends ← selection.positions
  let snapshot ← store.current
  let range ← rangeOf store snapshot selection.cursor.file ends
  return .work fun _ => do
    let document ← documentOf snapshot range.path
    let actions ← ask (engine.codeActions snapshot document range)
    match actions.find? fun action => action.title = title with
    | none =>
      let available := String.intercalate ", " (actions.map CodeAction.title)
      .failed (.notFound s!"No code action titled '{title}'. Available: [{available}]")
    | some action => do
      let edits ← ask (engine.codeActionEdits snapshot action)
      return finishEdits snapshot edits preview fun effect =>
        .acted ⟨title, affectedFiles edits, effect⟩

/-- Lists the findings of a file or of the whole workspace. -/
def diagnostics (engine : Engine) (store : Store) (file severity : Option String) :
    Except Error Plan := do
  let least ← severity.mapM Severity.ofText
  let snapshot ← store.current
  let path ← file.mapM (fileOf store snapshot)
  return reply fun _ => do
    let document ← path.mapM (documentOf snapshot)
    let found ← ask (engine.diagnostics snapshot document)
    let kept := found.filter fun diagnostic : Diagnostic =>
      least.all fun least => diagnostic.severity.atLeast least
    return .diagnostics (kept.mergeSort (placePrecedes Diagnostic.path fun d => d.range.start))

/-- Measures the method around a position or all methods of a file. -/
def complexityMetrics (engine : Engine) (store : Store) (file : String) (line column : Option Nat)
    (metrics : Option (List String)) : Except Error Plan := do
  let metrics ← selectedMetrics metrics
  let position ← together? "line and column" line column
  let snapshot ← store.current
  let path ← fileOf store snapshot file
  let _ ← position.mapM fun p =>
    (snapshot.anchor store.disk path p).mapError CoordinateError.toError
  return reply fun _ => do
    let document ← documentOf snapshot path
    let methods ← ask (engine.methodComplexity document)
    return .complexity (← complexityReport path metrics position methods)

/-- Lists the members of several types. -/
def typeMembersBatch (engine : Engine) (store : Store) (typeNames : List String) :
    Except Error Plan := do
  let snapshot ← store.current
  return reply fun _ => do
    let batch ← Id.run <|
      Batch.execute "GetTypeMembersBatch" typeNames .accept (typeMembers engine snapshot)
    return .typeMembers batch

/-- Gives the sources of several methods. -/
def methodSourceBatch (engine : Engine) (store : Store) (requests : List MethodSourceRequest) :
    Except Error Plan := do
  let snapshot ← store.current
  return reply fun _ => do
    let batch ← Id.run <|
      Batch.execute "GetMethodSourceBatch" requests .reject (methodSource engine snapshot)
    return .methodSources batch

/-- The plan of a call; `id` is a number that no load before it has drawn. -/
def ofCall (engine : Engine) (store : Store) (id : Nat) : Call → Except Error Plan
  | .loadWorkspace path => .ok (loadWorkspace engine id path)
  | .syncDocuments paths => .ok (syncDocuments engine paths)
  | .getWorkspaceStatus => .ok (.known (.status store.status))
  | .searchSymbols pattern kind most => searchSymbols engine store pattern kind most
  | .getDocumentSymbols file => documentSymbols engine store file
  | .goToDefinition cursor => goToDefinition engine store cursor
  | .findReferences cursor most => findReferences engine store cursor most
  | .findCallers cursor most =>
    callSearch engine store cursor "maxCallers" most engine.callers .callers
  | .getOutgoingCalls cursor most =>
    callSearch engine store cursor "maxOutgoingCalls" most engine.outgoingCalls .outgoingCalls
  | .renameSymbol cursor newName preview => renameSymbol engine store cursor newName preview
  | .getCodeActions selection => codeActions engine store selection
  | .applyCodeAction selection title preview =>
    applyCodeAction engine store selection title preview
  | .getDiagnostics file severity => diagnostics engine store file severity
  | .getComplexityMetrics file line column metrics =>
    complexityMetrics engine store file line column metrics
  | .getTypeMembersBatch typeNames => typeMembersBatch engine store typeNames
  | .getMethodSourceBatch requests => methodSourceBatch engine store requests

end Plan

end CodeIntel
