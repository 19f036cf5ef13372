import CodeIntel.Source.Lines
import CodeIntel.Text.Blank

/-! Counting the lines of a text that hold code: lines that are neither blank nor comment. A block
comment counts from a line that starts with it to the line that closes it; code after the close on
that line counts. -/

namespace CodeIntel.CodeLines

/-- Whether a line holds code, and whether the lines after it start inside a block comment. -/
def line (inComment : Bool) (cs : List Char) : Bool × Bool :=
  let shown := Text.trim cs
  let afterClose (rest : List Char) : Bool := !(Text.trim rest).isEmpty
  if inComment then
    match Text.find? ['*', '/'] shown with
    | some (_, rest) => (afterClose rest, false)
    | none => (false, true)
  else if shown.isEmpty || ['/', '/'].isPrefixOf shown then (false, false)
  else if ['/', '*'].isPrefixOf shown then
    match Text.find? ['*', '/'] shown with
    | some (_, rest) => (afterClose rest, false)
    | none => (false, true)
  else (true, false)

/-- How many of some lines hold code. -/
def countFrom (inComment : Bool) : List (List Char) → Nat
  | [] => 0
  | cs :: rest =>
    let (holdsCode, inside) := line inComment cs
    countFrom inside rest + if holdsCode then 1 else 0

/-- How many lines of a text hold code. -/
def count (text : String) : Nat := countFrom false (Lines.lines text.toList)

end CodeIntel.CodeLines
