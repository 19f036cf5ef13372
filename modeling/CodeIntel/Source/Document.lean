import CodeIntel.Source.Lines

/-! A document is one source file as a snapshot holds it: its path, its text, and the version of
the snapshot in which it last changed. Documents do not change; an edit makes another document. -/

namespace CodeIntel

/-- Half-open spans of bytes. -/
structure Span where
  start : Nat
  stop : Nat
deriving DecidableEq, Repr, Inhabited

namespace Span

/-- Whether an offset is in a span or at one of its ends. -/
def touches (s : Span) (offset : Nat) : Bool := s.start ≤ offset && offset ≤ s.stop

/-- Whether a span meets the offsets from `start` to `stop`, ends included. -/
def overlaps (s : Span) (start stop : Nat) : Bool := s.start ≤ stop && start ≤ s.stop

end Span

/-- One source file. -/
structure Document where
  /-- The path below the root of the workspace. -/
  path : String
  text : String
  /-- The version of the snapshot in which the document last changed. -/
  version : Nat
deriving DecidableEq, Repr, Inhabited

namespace Document

/-- The characters of the text. -/
def chars (d : Document) : List Char := d.text.toList

/-- How many lines the text has. -/
def lineCount (d : Document) : Nat := Lines.count d.chars

/-- The content of a line. -/
def lineText? (d : Document) (line : Nat) : Option String :=
  (Lines.contentOf? d.chars line).map String.ofList

/-- The byte offset of a position. -/
def offsetAt (d : Document) (p : Position) : Except CoordinateError Nat := Lines.offset d.chars p

/-- The position of a byte offset. -/
def positionAt (d : Document) (offset : Nat) : Except CoordinateError Position :=
  Lines.position d.chars offset

/-- The range of a span of bytes. -/
def rangeOf (d : Document) (s : Span) : Except CoordinateError Range := do
  let start ← d.positionAt s.start
  let stop ← d.positionAt s.stop
  return ⟨start, stop⟩

/-- The text of a span of bytes; nothing when an end is inside a character or past the end. -/
def slice? (d : Document) (s : Span) : Option String :=
  (Text.slice? d.chars s.start s.stop).map String.ofList

/-- Whether a text is not the one that the document holds. -/
def differsFrom (d : Document) (text : String) : Bool := d.text != text

end Document

end CodeIntel
