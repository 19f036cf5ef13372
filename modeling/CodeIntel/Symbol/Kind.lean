import CodeIntel.Error
import CodeIntel.Text.Basic

/-! The closed sets of names that requests use: kinds of symbols, severities and metrics. Names are
recognised up to the case of ASCII letters. -/

namespace CodeIntel

/-- What a symbol is. -/
inductive SymbolKind where
  | namespaceScope
  | classType
  | structType
  | interfaceType
  | enumType
  | recordType
  | delegateType
  | method
  | constructor
  | property
  | field
  | event
  | enumMember
deriving DecidableEq, Repr, Inhabited

namespace SymbolKind

/-- Every kind. -/
def all : List SymbolKind :=
  [.namespaceScope, .classType, .structType, .interfaceType, .enumType, .recordType, .delegateType,
    .method, .constructor, .property, .field, .event, .enumMember]

/-- The name of a kind. -/
def text : SymbolKind → String
  | .namespaceScope => "Namespace"
  | .classType => "Class"
  | .structType => "Struct"
  | .interfaceType => "Interface"
  | .enumType => "Enum"
  | .recordType => "Record"
  | .delegateType => "Delegate"
  | .method => "Method"
  | .constructor => "Constructor"
  | .property => "Property"
  | .field => "Field"
  | .event => "Event"
  | .enumMember => "EnumMember"

/-- The kinds that own members. -/
def isType (kind : SymbolKind) : Bool :=
  [.classType, .structType, .interfaceType, .enumType, .recordType].contains kind

/-- The kinds that can be called. -/
def isCallable (kind : SymbolKind) : Bool := [.method, .constructor].contains kind

/-- The kind of a name. -/
def ofText (name : String) : Except Error SymbolKind :=
  match all.find? fun kind => Text.sameIgnoringCase kind.text name with
  | some kind => .ok kind
  | none =>
    let known := String.intercalate ", " (all.map text)
    .error (.invalidArgument s!"Unknown symbol kind '{name}'. Expected one of: {known}")

end SymbolKind

/-- How bad a finding is. -/
inductive Severity where
  | info
  | warning
  | error
deriving DecidableEq, Repr, Inhabited

namespace Severity

/-- Greater is worse. -/
def rank : Severity → Nat
  | .info => 0
  | .warning => 1
  | .error => 2

/-- Whether a finding is at least as bad as another. -/
def atLeast (severity least : Severity) : Bool := least.rank ≤ severity.rank

/-- The name of a severity. -/
def text : Severity → String
  | .info => "Info"
  | .warning => "Warning"
  | .error => "Error"

/-- The names that requests may use. -/
def names : List (String × Severity) :=
  [("info", .info), ("information", .info), ("warning", .warning), ("warn", .warning),
    ("error", .error)]

/-- The severity of a name. -/
def ofText (name : String) : Except Error Severity :=
  match names.find? fun (known, _) => Text.sameIgnoringCase known name with
  | some (_, severity) => .ok severity
  | none =>
    .error (.invalidArgument s!"Unknown severity '{name}'. Expected one of: Error, Warning, Info")

end Severity

/-- The measures of one method, all of them numbers of 32 bits. Those that count nodes, lines or parameters one
by one stay below the length of a text, which is less than 2^32 bytes where there is a parse tree; the weight does
not, since it grows with the depth of each node. -/
structure Metrics where
  cyclomatic : Nat
  cognitive : UInt32
  nesting : UInt32
  linesOfCode : Nat
  parameters : Nat
deriving DecidableEq, Repr, Inhabited

/-- The names of the measures, in the order in which answers list them. -/
inductive Metric where
  | cyclomatic
  | cognitive
  | nesting
  | linesOfCode
  | parameters
deriving DecidableEq, Repr, Inhabited

namespace Metric

/-- Every measure. -/
def all : List Metric := [.cyclomatic, .cognitive, .nesting, .linesOfCode, .parameters]

/-- The name of a measure. -/
def text : Metric → String
  | .cyclomatic => "cyclomatic"
  | .cognitive => "cognitive"
  | .nesting => "nesting"
  | .linesOfCode => "loc"
  | .parameters => "parameters"

/-- The value of a measure. -/
def value (metrics : Metrics) : Metric → Nat
  | .cyclomatic => metrics.cyclomatic
  | .cognitive => metrics.cognitive.toNat
  | .nesting => metrics.nesting.toNat
  | .linesOfCode => metrics.linesOfCode
  | .parameters => metrics.parameters

/-- The measure of a name. -/
def ofText (name : String) : Except Error Metric :=
  match all.find? fun metric => Text.sameIgnoringCase metric.text name with
  | some metric => .ok metric
  | none =>
    let known := String.intercalate ", " (all.map text)
    .error (.invalidArgument s!"Unknown metric '{name}'. Expected one of: {known}")

end Metric

end CodeIntel
