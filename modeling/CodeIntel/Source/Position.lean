import CodeIntel.Error

/-! Positions in a text as its readers count them: lines and columns from zero, a column counting
characters. Positions are ordered as they follow each other in a text. -/

namespace CodeIntel

/-- A place between two characters of a line. -/
structure Position where
  line : Nat
  column : Nat
deriving DecidableEq, Repr, Inhabited

namespace Position

instance : Ord Position := ⟨compareLex (compareOn Position.line) (compareOn Position.column)⟩

instance : LT Position :=
  ⟨fun p q => p.line < q.line ∨ (p.line = q.line ∧ p.column < q.column)⟩

instance : LE Position :=
  ⟨fun p q => p.line < q.line ∨ (p.line = q.line ∧ p.column ≤ q.column)⟩

instance (p q : Position) : Decidable (p < q) :=
  inferInstanceAs (Decidable (p.line < q.line ∨ (p.line = q.line ∧ p.column < q.column)))

instance (p q : Position) : Decidable (p ≤ q) :=
  inferInstanceAs (Decidable (p.line < q.line ∨ (p.line = q.line ∧ p.column ≤ q.column)))

theorem lt_def {p q : Position} :
    p < q ↔ p.line < q.line ∨ (p.line = q.line ∧ p.column < q.column) := Iff.rfl

theorem le_def {p q : Position} :
    p ≤ q ↔ p.line < q.line ∨ (p.line = q.line ∧ p.column ≤ q.column) := Iff.rfl

theorem not_lt {p q : Position} : ¬ p < q ↔ q ≤ p := by
  rw [lt_def, le_def]
  omega

/-- A position in a message. -/
def text (p : Position) : String := s!"{p.line}:{p.column}"

end Position

/-- The text from one position to another; an insertion point when the two are the same. -/
structure Range where
  start : Position
  stop : Position
deriving DecidableEq, Repr, Inhabited

namespace Range

/-- The insertion point at a position. -/
def point (p : Position) : Range := ⟨p, p⟩

/-- Whether a range is an insertion point. -/
def isEmpty (r : Range) : Bool := r.start == r.stop

/-- Whether a position touches a range; both ends do. -/
def contains (r : Range) (p : Position) : Bool := decide (r.start ≤ p) && decide (p ≤ r.stop)

end Range

/-- Why coordinates do not fit a workspace. -/
inductive CoordinateError where
  | documentNotFound (path : String)
  | outsideRoot (path : String)
  | lineOutOfRange (line lineCount : Nat)
  | columnOutOfRange (line column length : Nat)
  | offsetOutOfRange (offset length : Nat)
  | invertedRange (start stop : Position)
deriving DecidableEq, Repr

namespace CoordinateError

/-- The wording of a coordinate error. -/
def message : CoordinateError → String
  | .documentNotFound path => "Document not found in workspace: " ++ path
  | .outsideRoot path => "Path is outside the workspace root: " ++ path
  | .lineOutOfRange line lineCount =>
    s!"Line {line} is out of range (document has {lineCount} lines)"
  | .columnOutOfRange line column length =>
    s!"Column {column} is out of range for line {line} (line has {length} characters)"
  | .offsetOutOfRange offset length =>
    s!"Offset {offset} is out of range (document has {length} bytes)"
  | .invertedRange start stop => s!"Range end {stop.text} precedes start {start.text}"

/-- What a request fails with: a place that does not exist is not found, all else is a bad
argument. -/
def toError (e : CoordinateError) : Error :=
  match e with
  | .documentNotFound _ => .notFound e.message
  | .outsideRoot _ => .notFound e.message
  | _ => .invalidArgument e.message

end CoordinateError

end CodeIntel
