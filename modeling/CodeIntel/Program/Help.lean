import CodeIntel.Program.CommandLine
import CodeIntel.Text.ControlSequence

/-! What the program prints about itself. The help sets headings and options apart for a terminal;
its control sequences are taken out again unless the environment wants them. -/

namespace CodeIntel.Help

/-- A heading: bold and underlined. -/
def heading (text : String) : String := "\x1b[1m\x1b[4m" ++ text ++ "\x1b[0m"

/-- Something to be typed as it stands: bold. -/
def literal (text : String) : String := "\x1b[1m" ++ text ++ "\x1b[0m"

/-- The column in which descriptions start. -/
def descriptionColumn : Nat := 33

/-- Blanks. -/
def blanks (count : Nat) : String := String.ofList (List.replicate count ' ')

/-- A description; its further lines start in its own column. -/
def description (text : String) : String :=
  String.ofList (Text.joined (('\n' :: (blanks descriptionColumn).toList))
    (Text.pieces '\n' text.toList))

/-- The entry of an option: its short form, its long form, what its value is called, and a
description. -/
def entry (short : Option String) (long value text : String) : String :=
  let name := match short with
    | some short => "  " ++ literal short ++ ", " ++ literal long
    | none => "      " ++ literal long
  let width := 6 + long.length + value.length
  name ++ value ++ blanks (descriptionColumn - width) ++ description text ++ "\n"

/-- The help for a terminal; it shows the setting that the environment gives. -/
def painted (environment : String → Option String) : String :=
  let setting := CommandLine.descriptorSetting ++ "=" ++
    (environment CommandLine.descriptorSetting).getD ""
  "C# code intelligence over line-delimited JSON on stdin/stdout\n\n" ++
    heading "Usage:" ++ " " ++ literal "sharplens" ++ " [OPTIONS]\n\n" ++
    heading "Options:" ++ "\n" ++
    entry none "--descriptor" " <DESCRIPTOR>"
      ("Project descriptor to load before serving requests [env: " ++ setting ++ "]") ++
    entry none "--log-file" " <LOG_FILE>" "Write logs to this file instead of stderr" ++
    entry (some "-h") "--help" "" "Print help" ++
    entry (some "-V") "--version" "" "Print version"

/-- Whether the environment wants control sequences although nothing says that a terminal reads
them. Either setting counts by having a text, whatever the text says. -/
def isPaintForced (environment : String → Option String) : Bool :=
  (environment "NO_COLOR").getD "" = "" && (environment "CLICOLOR_FORCE").getD "" ≠ ""

/-- The settings that decide about control sequences. -/
def paintSettings : List String := ["NO_COLOR", "CLICOLOR_FORCE"]

/-- The help. -/
def text (environment : String → Option String) : String :=
  if isPaintForced environment then painted environment
  else Text.withoutControls (painted environment)

/-- The name and the version. -/
def versionText : String := "sharplens 0.1.0\n"

end CodeIntel.Help
