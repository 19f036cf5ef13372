import CodeIntel.Text.Basic
import CodeIntel.Text.Blank

/-! How much is logged. -/

namespace CodeIntel

/-- The levels of logging, from the most to the least. -/
inductive Verbosity where
  | trace
  | debug
  | info
  | warn
  | error
deriving DecidableEq, Repr, Inhabited

/-- A text that names no level. -/
structure UnknownLevel where
  text : String
deriving DecidableEq, Repr

/-- The wording of that. -/
def UnknownLevel.message (unknown : UnknownLevel) : String := "Unknown log level: " ++ unknown.text

namespace Verbosity

/-- Every level, from the most to the least. -/
def all : List Verbosity := [.trace, .debug, .info, .warn, .error]

/-- The name of a level. -/
def text : Verbosity → String
  | .trace => "trace"
  | .debug => "debug"
  | .info => "info"
  | .warn => "warn"
  | .error => "error"

/-- Greater is quieter. -/
def rank : Verbosity → Nat
  | .trace => 0
  | .debug => 1
  | .info => 2
  | .warn => 3
  | .error => 4

/-- Whether less is logged than at another level. -/
def isQuieterThan (level other : Verbosity) : Bool := other.rank < level.rank

/-- Whether messages of a level are logged. -/
def shows (level message : Verbosity) : Bool := level.rank ≤ message.rank

/-- The level of a name, up to blanks at its ends and the case of ASCII letters. -/
def ofText (name : String) : Except UnknownLevel Verbosity :=
  let name := Text.trimmed name
  match all.find? fun level => Text.sameIgnoringCase level.text name with
  | some level => .ok level
  | none => if Text.sameIgnoringCase "warning" name then .ok .warn else .error ⟨name⟩

/-- The level in the middle. -/
def middle : Verbosity := .info

/-- The level of a setting: the middle one when there is none or it names no level. -/
def ofSetting : Option String → Verbosity
  | some name => (ofText name).toOption.getD middle
  | none => middle

/-- The parts of the program that a level applies to. -/
def targets : List String :=
  ["sharplens", "sharplens_core", "sharplens_protocol", "sharplens_server"]

/-- The filter that applies a level to the program and to nothing else. -/
def filter (level : Verbosity) : String :=
  String.intercalate "," (targets.map fun target => target ++ "=" ++ level.text)

end Verbosity

end CodeIntel
