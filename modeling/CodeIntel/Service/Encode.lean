import CodeIntel.Json.Basic
import CodeIntel.Service.Answer

/-! Answers as JSON. An optional value that is not there is null, except for the edits and the new
version of a change, of which only one is there at all. -/

namespace CodeIntel

/-- A position as JSON. -/
def Position.toJson (p : Position) : Json :=
  .ofMembers [("line", .nat p.line), ("column", .nat p.column)]

/-- A range as JSON. -/
def Range.toJson (r : Range) : Json :=
  .ofMembers [("start", r.start.toJson), ("end", r.stop.toJson)]

/-- An optional text as JSON. -/
def optionalText (text : Option String) : Json := .ofOption (text.map .string)

/-- A symbol as JSON. -/
def SymbolInfo.toJson (s : SymbolInfo) : Json :=
  .ofMembers
    [("name", .string s.name), ("kind", .string s.kind.text),
      ("containerName", optionalText s.containerName), ("path", .string s.path),
      ("range", s.range.toJson), ("selectionRange", s.selectionRange.toJson)]

/-- A location as JSON. -/
def Location.toJson (l : Location) : Json :=
  .ofMembers
    [("path", .string l.path), ("range", l.range.toJson), ("context", .string l.context)]

/-- The name under a cursor as JSON. -/
def SymbolAtPosition.toJson (s : SymbolAtPosition) : Json :=
  .ofMembers
    [("name", .string s.name), ("path", .string s.path), ("range", s.range.toJson),
      ("declaration", .ofOption (s.declaration.map SymbolInfo.toJson))]

/-- A call as JSON. -/
def CallSite.toJson (c : CallSite) : Json :=
  .ofMembers
    [("callee", .string c.callee), ("caller", optionalText c.caller),
      ("location", c.location.toJson),
      ("definition", .ofOption (c.definition.map SymbolInfo.toJson))]

/-- An edit as JSON. -/
def TextEdit.toJson (e : TextEdit) : Json :=
  .ofMembers [("range", e.range.toJson), ("newText", .string e.newText)]

/-- The edits of a document as JSON. -/
def DocumentEdit.toJson (e : DocumentEdit) : Json :=
  .ofMembers [("path", .string e.path), ("edits", .array (e.edits.map TextEdit.toJson))]

/-- An offered action as JSON; its edits are not shown. -/
def CodeAction.toJson (a : CodeAction) : Json :=
  .ofMembers [("title", .string a.title), ("kind", .string a.kind.text)]

/-- A finding as JSON. -/
def Diagnostic.toJson (d : Diagnostic) : Json :=
  .ofMembers
    [("path", .string d.path), ("range", d.range.toJson), ("severity", .string d.severity.text),
      ("code", .string d.code), ("message", .string d.message)]

/-- All measures of a method as JSON. -/
def Metrics.toJson (m : Metrics) : Json :=
  .ofMembers (Metric.all.map fun metric => (metric.text, .nat (metric.value m)))

/-- An error as JSON. -/
def Error.toJson (e : Error) : Json :=
  .ofMembers [("code", .string e.code.text), ("message", .string e.message)]

/-- What a load published as JSON. -/
def LoadSummary.toJson (s : LoadSummary) : Json :=
  .ofMembers
    [("workspaceId", .nat s.workspaceId), ("projectCount", .nat s.projectCount),
      ("documentCount", .nat s.documentCount), ("version", .nat s.version),
      ("projects", .strings s.projects)]

/-- What a sync found as JSON. -/
def SyncReport.toJson (r : SyncReport) : Json :=
  .ofMembers
    [("added", .nat r.added), ("updated", .nat r.updated), ("removed", .nat r.removed),
      ("totalSynced", .nat r.totalSynced), ("version", .nat r.version)]

/-- What is published as JSON. -/
def WorkspaceStatus.toJson (s : WorkspaceStatus) : Json :=
  .ofMembers
    [("loaded", .bool s.loaded), ("workspaceId", .ofOption (s.workspaceId.map .nat)),
      ("version", .ofOption (s.version.map .nat)), ("projectCount", .nat s.projectCount),
      ("documentCount", .nat s.documentCount), ("publishedAt", optionalText s.publishedAt)]

/-- The calls that belong to a method as JSON, under a key of their own. -/
def CallSearch.toJson (key : String) (s : CallSearch) : Json :=
  .ofMembers
    [("methodName", .string s.method.name), ("method", s.method.toJson),
      (key, .array (s.calls.map CallSite.toJson)), ("truncated", .bool s.truncated)]

/-- What became of edits, as members of an answer. -/
def Effect.members : Effect → List (String × Json)
  | .preview edits => [("edits", .array (edits.map DocumentEdit.toJson)), ("applied", .bool false)]
  | .applied newVersion => [("applied", .bool true), ("newVersion", .nat newVersion)]

/-- The chosen measures of a method as JSON. -/
def MethodMetrics.toJson (m : MethodMetrics) : Json :=
  .ofMembers
    [("name", .string m.name), ("containerName", optionalText m.containerName),
      ("range", m.range.toJson),
      ("metrics", .ofMembers (m.metrics.map fun (metric, value) => (metric.text, .nat value)))]

/-- Measures as JSON. -/
def ComplexityReport.toJson : ComplexityReport → Json
  | .ofMethod file method =>
    .ofMembers [("scope", .string "method"), ("file", .string file), ("method", method.toJson)]
  | .ofFile file methods =>
    .ofMembers
      [("scope", .string "file"), ("file", .string file),
        ("methods", .array (methods.map MethodMetrics.toJson))]

/-- The members of a type as JSON. -/
def TypeMembers.toJson (t : TypeMembers) : Json :=
  .ofMembers
    [("typeName", .string t.typeName), ("kind", .string t.kind.text), ("path", .string t.path),
      ("members", .array (t.members.map SymbolInfo.toJson))]

/-- The source of a method as JSON. -/
def MethodSource.toJson (m : MethodSource) : Json :=
  .ofMembers
    [("typeName", .string m.typeName), ("methodName", .string m.methodName),
      ("path", .string m.path), ("range", m.range.toJson), ("source", .string m.source),
      ("overloads", .nat m.overloads)]

/-- A failed item as JSON: the members of its request, and whether and why it failed, which win over
members of the request of the same name. -/
def BatchFailure.toJson (members : ρ → List (String × Json)) (failure : BatchFailure ρ) : Json :=
  .ofMembers
    (members failure.request ++ [("success", .bool false), ("error", failure.error.toJson)])

/-- A batch as JSON. -/
def BatchResult.toJson (members : ρ → List (String × Json)) (encode : α → Json)
    (batch : BatchResult ρ α) : Json :=
  .ofMembers
    [("totalRequested", .nat batch.totalRequested), ("successCount", .nat batch.successCount),
      ("errorCount", .nat batch.errorCount), ("results", .array (batch.results.map encode)),
      ("errors", .array (batch.failures.map (BatchFailure.toJson members)))]

/-- How many findings have a severity. -/
def severityCount (severity : Severity) (diagnostics : List Diagnostic) : Nat :=
  (diagnostics.filter fun d => d.severity = severity).length

/-- An answer as JSON. -/
def Answer.toJson : Answer → Json
  | .loaded summary => summary.toJson
  | .synced report => report.toJson
  | .status s => s.toJson
  | .found s =>
    .ofMembers
      [("symbols", .array (s.symbols.map SymbolInfo.toJson)), ("totalMatches", .nat s.totalMatches),
        ("truncated", .bool s.truncated), ("version", .nat s.version)]
  | .documentSymbols file symbols =>
    .ofMembers [("file", .string file), ("symbols", .array (symbols.map SymbolInfo.toJson))]
  | .definition symbol =>
    .ofMembers
      [("found", .bool symbol.isSome), ("symbol", .ofOption (symbol.map SymbolInfo.toJson))]
  | .references s =>
    .ofMembers
      [("symbolName", .string s.symbolName),
        ("references", .array (s.references.map Location.toJson)),
        ("totalReferences", .nat s.totalReferences), ("truncated", .bool s.truncated)]
  | .callers search => search.toJson "callers"
  | .outgoingCalls search => search.toJson "calls"
  | .renamed r =>
    .ofMembers
      ([("oldName", .string r.oldName), ("newName", .string r.newName),
        ("affectedFiles", .strings r.affectedFiles), ("changeCount", .nat r.changeCount)] ++
        r.effect.members)
  | .actions all => .ofMembers [("actions", .array (all.map CodeAction.toJson))]
  | .acted r =>
    .ofMembers
      ([("title", .string r.title), ("affectedFiles", .strings r.affectedFiles)] ++
        r.effect.members)
  | .diagnostics all =>
    .ofMembers
      [("diagnostics", .array (all.map Diagnostic.toJson)),
        ("errorCount", .nat (severityCount .error all)),
        ("warningCount", .nat (severityCount .warning all)),
        ("infoCount", .nat (severityCount .info all))]
  | .complexity report => report.toJson
  | .typeMembers batch =>
    batch.toJson (fun typeName => [("typeName", .string typeName)]) TypeMembers.toJson
  | .methodSources batch =>
    batch.toJson
      (fun r => [("typeName", .string r.typeName), ("methodName", .string r.methodName)])
      MethodSource.toJson

/-- What a request comes back with, as the members of a JSON object. -/
def Envelope.members : Envelope → List (String × Json)
  | .ok answer => [("success", .bool true), ("data", answer.toJson), ("error", .null)]
  | .error error => [("success", .bool false), ("data", .null), ("error", error.toJson)]

/-- What a request comes back with as JSON. -/
def Envelope.toJson (envelope : Envelope) : Json := .ofMembers envelope.members

end CodeIntel
