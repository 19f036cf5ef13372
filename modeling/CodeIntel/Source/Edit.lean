import CodeIntel.Source.Document

/-! Edits replace ranges of a text. The edits of one request all address the text as it was, so
they are applied as one splice: sorted by where they start and end, those at one place in the order
in which they were given, and none starting before the one before it ends. -/

namespace CodeIntel

/-- The replacement of a range by a text. -/
structure TextEdit where
  range : Range
  newText : String
deriving DecidableEq, Repr, Inhabited

/-- The insertion of a text at a position. -/
def TextEdit.insert (p : Position) (newText : String) : TextEdit := ⟨.point p, newText⟩

/-- The edits of one document. -/
structure DocumentEdit where
  path : String
  edits : List TextEdit
deriving DecidableEq, Repr, Inhabited

/-- An edit in bytes. -/
structure Splice where
  span : Span
  newText : String
deriving DecidableEq, Repr, Inhabited

namespace Splice

/-- The order in which splices are applied. -/
def precedes (a b : Splice) : Bool :=
  a.span.start < b.span.start || (a.span.start == b.span.start && a.span.stop ≤ b.span.stop)

/-- Two neighbours of which the second starts before the first ends. -/
def overlap? : List Splice → Option (Span × Span)
  | a :: b :: rest =>
    if b.span.start < a.span.stop then some (a.span, b.span) else overlap? (b :: rest)
  | _ => none

/-- A text, given from byte `done` on, with splices in order put into it. A splice that does not
fit the text ends the work there. -/
def applyFrom (done : Nat) (cs : List Char) : List Splice → List Char
  | [] => cs
  | splice :: rest =>
    match Text.cut? cs (splice.span.start - done) with
    | none => cs
    | some (kept, after) =>
      match Text.cut? after (splice.span.stop - splice.span.start) with
      | none => cs
      | some (_, after) => kept ++ splice.newText.toList ++ applyFrom splice.span.stop after rest

end Splice

namespace Document

/-- An edit in bytes of the document. -/
def splice (d : Document) (edit : TextEdit) : Except Error Splice :=
  if edit.range.stop < edit.range.start then
    .error (CoordinateError.invertedRange edit.range.start edit.range.stop).toError
  else
    match d.offsetAt edit.range.start with
    | .error e => .error e.toError
    | .ok start =>
      match d.offsetAt edit.range.stop with
      | .error e => .error e.toError
      | .ok stop => .ok ⟨⟨start, stop⟩, edit.newText⟩

/-- What is wrong with edits that overlap. -/
def overlapError (d : Document) (first second : Span) : Error :=
  .invalidArgument
    s!"Overlapping edits in {d.path} at byte offsets {first.start}..{first.stop} and {second.start}..{second.stop}"

/-- The document after some edits, as of a version. -/
def applyEdits (d : Document) (edits : List TextEdit) (version : Nat) : Except Error Document := do
  let splices ← edits.mapM d.splice
  let ordered := splices.mergeSort Splice.precedes
  match Splice.overlap? ordered with
  | some (first, second) => .error (d.overlapError first second)
  | none => return { d with text := String.ofList (Splice.applyFrom 0 d.chars ordered), version }

end Document

end CodeIntel
