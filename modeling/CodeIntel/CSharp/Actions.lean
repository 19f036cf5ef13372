import CodeIntel.CSharp.Identifier
import CodeIntel.Tree.Index
import CodeIntel.Workspace.Snapshot

/-! The actions that are offered for a range of a document and that need nothing but the document:
inserting a missing semicolon, adding a documentation comment, making a field read-only, and sorting
the imports. -/

namespace CodeIntel.CSharp

/-- The edits of one document as those of a request. -/
def inDocument (d : Document) (edits : List TextEdit) : List DocumentEdit := [⟨d.path, edits⟩]

/-- The position of an offset; one outside the document is the engine's failure. -/
def position (d : Document) (offset : Nat) : Except EngineError Position :=
  match d.positionAt offset with
  | .ok p => .ok p
  | .error e => .error (.failed e.message)

/-- Semicolons that are missing on the lines of the range. -/
def semicolonFixes (d : Document) (faults : List ParseFault) (range : Range) :
    Except EngineError (List CodeAction) := do
  let missing := faults.filter fun fault => fault.isMissing && fault.kind == ";"
  let places ← missing.mapM fun fault => position d fault.span.start
  let inside := places.filter fun p => range.start.line ≤ p.line && p.line ≤ range.stop.line
  return inside.map fun p =>
    ⟨"Insert missing ';'", .quickFix, inDocument d [TextEdit.insert p ";"]⟩

/-- Whether a declaration is of a kind that is documented. -/
def isDocumentable (kind : SymbolKind) : Bool :=
  kind.isType || kind.isCallable || kind == .property

/-- The nearest line above another that is neither blank nor an attribute. -/
def lineAbove? (d : Document) (line : Nat) : Option (List Char) :=
  let above := (List.range line).reverse.filterMap (Lines.contentOf? d.chars)
  (above.map Text.trim).find? fun text => !text.isEmpty && text.head? != some '['

/-- Whether the line above a declaration is a documentation comment. -/
def isDocumented (d : Document) (line : Nat) : Bool :=
  match lineAbove? d line with
  | some text => ['/', '/', '/'].isPrefixOf text
  | none => false

/-- A documentation comment for a declaration that has none, indented like its first line. -/
def documentation? (d : Document) (symbol : SymbolInfo) : Option CodeAction :=
  let line := symbol.range.start.line
  if isDocumentable symbol.kind && !isDocumented d line then
    let text := (Lines.contentOf? d.chars line).getD []
    let indent := String.ofList (text.takeWhile Text.isBlank)
    let comment :=
      s!"{indent}/// <summary>\n{indent}/// {symbol.name}\n{indent}/// </summary>\n"
    some
      ⟨s!"Add documentation comment for '{symbol.name}'", .refactor,
        inDocument d [TextEdit.insert ⟨line, 0⟩ comment]⟩
  else none

/-- A modifier for a field that may still be written to. -/
def readonlyField (d : Document) (field : FieldInfo) : Except EngineError CodeAction := do
  let name := (d.slice? field.nameSpan).getD ""
  let p ← position d field.typeStart
  return ⟨s!"Make field '{name}' readonly", .refactor, inDocument d [TextEdit.insert p "readonly "]⟩

/-- What an import imports: its text without the words in front and the semicolons behind. -/
def importedName (text : String) : String :=
  let start := Text.dropRepeated "static ".toList <|
    Text.dropRepeated "using ".toList <| Text.dropRepeated "global ".toList text.toList
  let body := (start.reverse.dropWhile (· == ';')).reverse
  String.ofList (Text.trim body)

/-- Whether an import is of the system library. -/
def isSystem (text : String) : Bool :=
  let name := importedName text
  name == "System" || "System.".toList.isPrefixOf name.toList

/-- Whether an import may stand before another: those of the system library first, each group in
ascending order. -/
def importPrecedes (a b : String) : Bool :=
  if isSystem a == isSystem b then decide (importedName a ≤ importedName b) else isSystem a

/-- Whether only blanks stand between neighbouring imports. -/
def areContiguous (d : Document) : List Import → Bool
  | a :: b :: rest =>
    (match d.slice? ⟨a.span.stop, b.span.start⟩ with
      | some between => Text.allBlank between.toList
      | none => false) && areContiguous d (b :: rest)
  | _ => true

/-- The order of the imports of a document, if they stand together and are not in that order. -/
def sortedImports? (d : Document) (imports : List Import) : Option (List String) :=
  let texts := imports.map Import.text
  let sorted := texts.mergeSort importPrecedes
  if imports.length < 2 || !areContiguous d imports || sorted == texts then none else some sorted

/-- What ends the lines of a document. -/
def lineEnd (d : Document) : String :=
  if (Text.find? ['\r', '\n'] d.chars).isSome then "\r\n" else "\n"

/-- Sorts the imports of a document. -/
def sortImports (d : Document) (imports : List Import) : Except EngineError (Option CodeAction) :=
  match sortedImports? d imports, imports.head?, imports.getLast? with
  | some sorted, some first, some last => do
    let range ← Visit.range d ⟨first.span.start, last.span.stop⟩
    return some ⟨"Sort using directives", .source,
      inDocument d [⟨range, String.intercalate (lineEnd d) sorted⟩]⟩
  | _, _, _ => .ok none

/-- The actions without those whose title came before. -/
def distinctTitles (seen : List String) : List CodeAction → List CodeAction
  | [] => []
  | action :: rest =>
    if seen.contains action.title then distinctTitles seen rest
    else action :: distinctTitles (action.title :: seen) rest

end CodeIntel.CSharp
