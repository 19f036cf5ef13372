import CodeIntel.Tree.Index

/-! The findings of a document: places that do not parse, handlers with nothing in them, and methods
with too many ways through. -/

namespace CodeIntel

/-- The most ways through a method that are not reported. -/
def complexityThreshold : Nat := 10

namespace ParseFault

/-- The code of a fault. -/
def code (fault : ParseFault) : String := if fault.isMissing then "SL0002" else "SL0001"

/-- The wording of a fault. -/
def message (fault : ParseFault) : String :=
  if fault.isMissing then "Missing " ++ fault.kind
  else
    match fault.actualText with
    | some text => s!"Syntax error: unexpected '{text}'"
    | none => "Syntax error: unexpected " ++ fault.kind

/-- The finding that reports a fault. -/
def diagnostic (d : Document) (fault : ParseFault) : Except EngineError Diagnostic := do
  let range ← Visit.range d fault.span
  return ⟨d.path, range, .error, fault.code, fault.message⟩

end ParseFault

/-- The finding that reports a handler with nothing in it. -/
def emptyCatchDiagnostic (d : Document) (span : Span) : Except EngineError Diagnostic := do
  let range ← Visit.range d span
  return ⟨d.path, range, .warning, "SL1001", "Empty catch block swallows exceptions"⟩

/-- The finding that reports a method with too many ways through. -/
def complexityDiagnostic? (d : Document) (method : MethodInfo) : Option Diagnostic :=
  let ways := method.metrics.cyclomatic
  if complexityThreshold < ways then
    some ⟨d.path, method.range, .info, "SL2001",
      s!"Method '{method.name}' has cyclomatic complexity {ways} (threshold {complexityThreshold})"⟩
  else none

namespace Diagnostic

/-- The order of the findings of one document: by start, end and code. -/
def byPlace : Diagnostic → Diagnostic → Ordering :=
  compareLex (compareOn fun d => d.range.start)
    (compareLex (compareOn fun d => d.range.stop) (compareOn Diagnostic.code))

/-- Whether a finding may stand before another. -/
def precedes (a b : Diagnostic) : Bool := (byPlace a b).isLE

end Diagnostic

/-- The findings that report the faults of a document. -/
def faultDiagnostics (d : Document) (faults : List ParseFault) :
    Except EngineError (List Diagnostic) :=
  faults.mapM (ParseFault.diagnostic d)

/-- All findings of a document, in order. -/
def documentDiagnostics (d : Document) (index : Index) : Except EngineError (List Diagnostic) := do
  let faults ← faultDiagnostics d index.faults
  let catches ← index.emptyCatches.mapM (emptyCatchDiagnostic d)
  let complex := index.methods.filterMap (complexityDiagnostic? d)
  return (faults ++ catches ++ complex).mergeSort Diagnostic.precedes

end CodeIntel
