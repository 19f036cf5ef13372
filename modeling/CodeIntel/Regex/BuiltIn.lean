import CodeIntel.Regex.Basic

/-! A library of regular expressions that reads no more than the kinds of parts there are here. It works out
for every end of a text at once whether an expression matches there, part by part from the last one, so that no
end is looked at twice for one part. -/

namespace CodeIntel.Regex

/-- What has been read of an expression. -/
structure Reading where
  /-- The parts, the last of which comes first. -/
  parts : List Part := []
  /-- Whether a backslash has been read that belongs to the next character. -/
  quoting : Bool := false
deriving DecidableEq, Repr, Inhabited

namespace Reading

/-- One more part has been read. -/
def push (reading : Reading) (part : Part) : Reading := ⟨part :: reading.parts, false⟩

/-- A star has been read; it belongs to the part before it. -/
def repeatLast? (reading : Reading) : Option Reading :=
  match reading.parts with
  | .one atom :: before => some ⟨.many atom :: before, false⟩
  | _ => none

/-- Reads a character. -/
def next? (reading : Reading) (c : Char) : Option Reading :=
  if reading.quoting then if isMeta c then some (reading.push (.one (.literal c))) else none
  else if c = '\\' then some { reading with quoting := true }
  else if c = '*' then reading.repeatLast?
  else if c = '.' then some (reading.push (.one .any))
  else if c = '^' then some (reading.push .start)
  else if c = '$' then some (reading.push .stop)
  else if isMeta c then none
  else some (reading.push (.one (.literal c)))

end Reading

/-- The expression that a text spells. -/
def parse? (text : List Char) : Option (List Part) := do
  let reading ← text.foldlM Reading.next? {}
  if reading.quoting then none else some reading.parts.reverse

/-- The bytes that a part compiles to. -/
def Part.size : Part → Nat
  | .one (.literal c) => 32 * c.utf8Size
  | .one .any | .many _ => 1040
  | .start | .stop => 0

/-- Whether a part is a repetition. -/
def Part.isMany : Part → Bool
  | .many _ => true
  | _ => false

/-- The bytes that an expression compiles to. -/
def size (parts : List Part) : Nat :=
  parts.foldl (fun bytes part => bytes + part.size) (if parts.any Part.isMany then 128 else 192)

/-- The most bytes that an expression may compile to. -/
def sizeLimit : Nat := 10485760

/-- Whether an atom can stand for a character. -/
def Atom.takes : Atom → Char → Bool
  | .literal c, d => d == c
  | .any, d => d != '\n'

/-- The row of an atom before an expression, from the row of that expression. -/
def oneRow (atom : Atom) : List Char → List Bool → List Bool
  | c :: text, _ :: row => (atom.takes c && row.headD false) :: oneRow atom text row
  | _, _ => [false]

/-- The row of a repetition before an expression, from the row of that expression. -/
def manyRow (atom : Atom) : List Char → List Bool → List Bool
  | c :: text, here :: row =>
    let later := manyRow atom text row
    (here || (atom.takes c && later.headD false)) :: later
  | _, row => row

/-- The row of a part before an expression, from the row of that expression. -/
def partRow (atStart : Bool) (text : List Char) (part : Part) (row : List Bool) : List Bool :=
  match part with
  | .one atom => oneRow atom text row
  | .many atom => manyRow atom text row
  | .start => (atStart && row.headD false) :: text.map fun _ => false
  | .stop => text.map (fun _ => false) ++ [row.getLastD false]

/-- At which ends of a text an expression matches, from the whole text to the empty end. -/
def row (atStart : Bool) (text : List Char) (parts : List Part) : List Bool :=
  parts.foldr (partRow atStart text) (true :: text.map fun _ => true)

/-- The library that comes with this one. -/
def builtIn : Library where
  Compiled := List Part
  compile text :=
    match parse? text.toList with
    | none => .error (.malformed "unsupported expression")
    | some parts => if sizeLimit < size parts then .error (.tooBig sizeLimit) else .ok parts
  isMatch parts text := (row true text.toList parts).any id

end CodeIntel.Regex
