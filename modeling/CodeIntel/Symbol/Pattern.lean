import CodeIntel.Error
import CodeIntel.Regex.BuiltIn
import CodeIntel.Text.Blank

/-! Patterns for names: a star stands for any run of characters without a line feed, everything else for
itself, and the whole name has to match. A pattern is made into a regular expression, which a library
compiles and matches. -/

namespace CodeIntel

/-- A pattern without blanks around it, and the expression that is made of it. -/
structure SearchPattern (library : Regex.Library) where
  source : String
  regex : library.Compiled

namespace SearchPattern

/-- The text of the expression: what stands between the stars is taken as it is. -/
def expression (source : String) : String :=
  let pieces := (Text.pieces '*' source.toList).map String.ofList
  "^" ++ String.intercalate ".*" (pieces.map Regex.escape) ++ "$"

/-- The pattern of a text; blanks around it do not count. -/
def parse (library : Regex.Library) (text : String) : Except Error (SearchPattern library) :=
  let source := Text.trimmed text
  if source = "" then .error (.invalidArgument "Search pattern must not be empty")
  else
    match library.compile (expression source) with
    | .ok regex => .ok ⟨source, regex⟩
    | .error refusal =>
      .error (.invalidArgument ("Invalid search pattern: " ++ refusal.message))

/-- Whether a name matches. -/
def accepts {library : Regex.Library} (pattern : SearchPattern library) (name : String) : Bool :=
  library.isMatch pattern.regex name

end SearchPattern

/-- A pattern that the built-in library matches. -/
abbrev Pattern := SearchPattern Regex.builtIn

/-- The pattern of a text; blanks around it do not count. -/
def Pattern.ofText (text : String) : Except Error Pattern := SearchPattern.parse Regex.builtIn text

end CodeIntel
