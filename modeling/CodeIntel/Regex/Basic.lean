import CodeIntel.Text.Basic

/-! Regular expressions, as far as search patterns need them: characters that stand for themselves, a full
stop for any character but a line feed, a star behind either of them, and the two ends of a text. What
compiles an expression and looks for it is a library, of which only the documented behaviour is known:
`Library.Standard` says what that is. -/

namespace CodeIntel.Regex

/-- What stands for one character of a text. -/
inductive Atom where
  | literal (c : Char)
  /-- Any character but a line feed. -/
  | any
deriving DecidableEq, Repr, Inhabited

/-- A part of an expression. -/
inductive Part where
  | one (atom : Atom)
  /-- Any number of characters one after another, or none. -/
  | many (atom : Atom)
  /-- The start of the text. -/
  | start
  /-- The end of the text. -/
  | stop
deriving DecidableEq, Repr, Inhabited

/-! ### How expressions are written -/

/-- The characters that mean something else than themselves. -/
def metas : List Char := "\\.+*?()|[]\x7b\x7d^$#&-~".toList

/-- Whether a character means something else than itself. -/
def isMeta (c : Char) : Bool := metas.contains c

/-- How a character that stands for itself is written. -/
def escaped (c : Char) : List Char := if isMeta c then ['\\', c] else [c]

/-- The expression that stands for a given text. -/
def escape (text : String) : String := String.ofList (text.toList.flatMap escaped)

/-- How an atom is written. -/
def Atom.spelling : Atom → List Char
  | .literal c => escaped c
  | .any => ['.']

/-- How a part is written. -/
def Part.spelling : Part → List Char
  | .one atom => atom.spelling
  | .many atom => atom.spelling ++ ['*']
  | .start => ['^']
  | .stop => ['$']

/-- How an expression is written. -/
def spelling (parts : List Part) : String := String.ofList (parts.flatMap Part.spelling)

/-! ### What expressions match -/

/-- What an atom can stand for. -/
def Atom.Takes : Atom → Char → Prop
  | .literal c, d => d = c
  | .any, d => d ≠ '\n'

/-- What an expression matches: the characters that it takes, given whether they begin at the start of the
text and what follows them. -/
inductive Matches : Bool → List Part → List Char → List Char → Prop where
  | nil {atStart : Bool} {after : List Char} : Matches atStart [] [] after
  | one {atStart : Bool} {atom : Atom} {c : Char} {parts : List Part} {taken after : List Char} :
      atom.Takes c → Matches false parts taken after → Matches atStart (.one atom :: parts) (c :: taken) after
  | skip {atStart : Bool} {atom : Atom} {parts : List Part} {taken after : List Char} :
      Matches atStart parts taken after → Matches atStart (.many atom :: parts) taken after
  | more {atStart : Bool} {atom : Atom} {c : Char} {parts : List Part} {taken after : List Char} :
      atom.Takes c → Matches false (.many atom :: parts) taken after →
        Matches atStart (.many atom :: parts) (c :: taken) after
  | start {parts : List Part} {taken after : List Char} :
      Matches true parts taken after → Matches true (.start :: parts) taken after
  | stop {atStart : Bool} {parts : List Part} :
      Matches atStart parts [] [] → Matches atStart (.stop :: parts) [] []

/-- An expression is found in a text: it matches some part of it. -/
def FoundIn (parts : List Part) (text : List Char) : Prop :=
  ∃ before taken after, text = before ++ taken ++ after ∧ Matches before.isEmpty parts taken after

/-! ### Libraries -/

/-- Why an expression is refused. -/
inductive Refusal where
  | malformed (message : String)
  /-- What the expression compiles to takes more bytes than this. -/
  | tooBig (limit : Nat)
deriving DecidableEq, Repr, Inhabited

/-- The wording of a refusal. -/
def Refusal.message : Refusal → String
  | .malformed message => message
  | .tooBig limit => s!"Compiled regex exceeds size limit of {limit} bytes."

/-- A library of regular expressions. -/
structure Library where
  Compiled : Type
  compile : String → Except Refusal Compiled
  /-- Whether an expression is found in a text. -/
  isMatch : Compiled → String → Bool

/-- What is documented of a library. An expression of the kinds above is compiled unless that takes too much
room, and is found in a text if and only if it matches some part of it. -/
structure Library.Standard (library : Library) : Prop where
  compiles : ∀ parts refusal, library.compile (spelling parts) = .error refusal →
    ∃ limit, refusal = .tooBig limit
  finds : ∀ parts compiled, library.compile (spelling parts) = .ok compiled →
    ∀ text : String, library.isMatch compiled text = true ↔ FoundIn parts text.toList

end CodeIntel.Regex
