import CodeIntel.Source.Position
import CodeIntel.Text.Basic

/-! The lines of a text, and the translation between positions and byte offsets. A line feed ends a
line, and a carriage return at the end of a line belongs to its end, not to its content. A column
equal to the length of the content addresses the end of the line. -/

namespace CodeIntel.Lines

/-- The lines of a text without their line feeds; a text has at least one. -/
def lines (cs : List Char) : List (List Char) := Text.pieces '\n' cs

/-- A line without a carriage return at its end. -/
def content (line : List Char) : List Char :=
  if line.getLast? = some '\r' then line.dropLast else line

/-- How many lines a text has. -/
def count (cs : List Char) : Nat := (lines cs).length

/-- The content of a line. -/
def contentOf? (cs : List Char) (line : Nat) : Option (List Char) := (lines cs)[line]?.map content

/-- The bytes from the start of the first of some lines to the start of the `n`-th: each line and
its line feed. -/
def startOf (all : List (List Char)) (n : Nat) : Nat :=
  (all.take n).foldr (fun line bytes => Text.byteLength line + 1 + bytes) 0

/-- The byte offset of a position. -/
def offset (cs : List Char) (p : Position) : Except CoordinateError Nat :=
  let all := lines cs
  match all[p.line]? with
  | none => .error (.lineOutOfRange p.line all.length)
  | some line =>
    let shown := content line
    if p.column ≤ shown.length then
      .ok (startOf all p.line + Text.byteLength (shown.take p.column))
    else .error (.columnOutOfRange p.line p.column shown.length)

/-- How many characters from the front fit into a number of bytes. -/
def fitting : List Char → Nat → Nat
  | [], _ => 0
  | c :: cs, bytes => if c.utf8Size ≤ bytes then fitting cs (bytes - c.utf8Size) + 1 else 0

/-- The position of a byte offset from the start of the first of some lines. Inside a character it
is the position before that character, inside the end of a line the end of the content. -/
def locate : List (List Char) → Nat → Position
  | [], _ => ⟨0, 0⟩
  | [line], bytes => ⟨0, fitting (content line) bytes⟩
  | line :: rest, bytes =>
    if bytes ≤ Text.byteLength line then ⟨0, fitting (content line) bytes⟩
    else
      let below := locate rest (bytes - (Text.byteLength line + 1))
      ⟨below.line + 1, below.column⟩

/-- The position of a byte offset. -/
def position (cs : List Char) (bytes : Nat) : Except CoordinateError Position :=
  if bytes ≤ Text.byteLength cs then .ok (locate (lines cs) bytes)
  else .error (.offsetOutOfRange bytes (Text.byteLength cs))

end CodeIntel.Lines
