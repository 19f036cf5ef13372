import CodeIntel.Text.Letter

/-! The names that C# allows: a letter or an underscore and then letters, digits and underscores,
but no keyword unless the name starts with an at sign. -/

namespace CodeIntel.CSharp

/-- The words that are no names by themselves. -/
def keywords : List String :=
  ["abstract", "as", "base", "bool", "break", "byte", "case", "catch", "char", "checked",
    "class", "const", "continue", "decimal", "default", "delegate", "do", "double", "else",
    "enum", "event", "explicit", "extern", "false", "finally", "fixed", "float", "for",
    "foreach", "goto", "if", "implicit", "in", "int", "interface", "internal", "is", "lock",
    "long", "namespace", "new", "null", "object", "operator", "out", "override", "params",
    "private", "protected", "public", "readonly", "ref", "return", "sbyte", "sealed", "short",
    "sizeof", "stackalloc", "static", "string", "struct", "switch", "this", "throw", "true",
    "try", "typeof", "uint", "ulong", "unchecked", "unsafe", "ushort", "using", "virtual",
    "void", "volatile", "while"]

/-- Whether characters have the shape of a name. -/
def hasNameShape : List Char → Bool
  | [] => false
  | first :: rest =>
    (Text.isAlphabetic first || first == '_') &&
      rest.all fun c => Text.isAlphanumeric c || c == '_'

/-- Whether a text may be the name of a symbol. -/
def isValidIdentifier (name : String) : Bool :=
  match name.toList with
  | '@' :: body => hasNameShape body
  | body => hasNameShape body && !keywords.contains name

/-- The name with its first letter in upper case; nothing unless that is a lower-case ASCII
letter. -/
def pascalCase? (name : String) : Option String :=
  match name.toList with
  | [] => none
  | first :: rest => if first.isLower then some (String.ofList (first.toUpper :: rest)) else none

end CodeIntel.CSharp
