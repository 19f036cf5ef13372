import CodeIntel.Server.Verbosity

/-! The command line: two options with a value, and the two that only print. Arguments are taken from
left to right, and the first that prints or is wrong decides. -/

namespace CodeIntel

/-- What the program is started with. -/
structure Options where
  /-- The descriptor to load before the first request. -/
  descriptor : Option String := none
  /-- Where to log instead of the standard error. -/
  logFile : Option String := none
deriving DecidableEq, Repr, Inhabited

/-- An option that has a value. -/
inductive ValueOption where
  | descriptor
  | logFile
deriving DecidableEq, Repr

/-- What a command line asks for. -/
inductive Command where
  | help
  | version
  | serve (options : Options)
deriving DecidableEq, Repr, Inhabited

/-- Why a command line is refused. -/
inductive UsageError where
  | unexpected (argument : String)
  | valueMissing (option : ValueOption)
  | valueNotTaken (argument : String)
  | repeated (option : ValueOption)
deriving DecidableEq, Repr, Inhabited

namespace ValueOption

/-- How an option is written. -/
def text : ValueOption → String
  | .descriptor => "--descriptor"
  | .logFile => "--log-file"

/-- The option of a name. -/
def ofText? (name : String) : Option ValueOption :=
  [.descriptor, .logFile].find? fun option : ValueOption => option.text = name

end ValueOption

/-- The wording of a refusal. -/
def UsageError.message : UsageError → String
  | .unexpected argument => s!"error: unexpected argument '{argument}' found"
  | .valueMissing option =>
    s!"error: a value is required for '{option.text}' but none was supplied"
  | .valueNotTaken argument => s!"error: unexpected value for '{argument}' found"
  | .repeated option => s!"error: the argument '{option.text}' cannot be used multiple times"

namespace Options

/-- The value of an option. -/
def get? (options : Options) : ValueOption → Option String
  | .descriptor => options.descriptor
  | .logFile => options.logFile

/-- Gives an option its value, which must not be empty, for the first time. -/
def set (options : Options) (option : ValueOption) (value : String) :
    Except UsageError Options :=
  if value = "" then .error (.valueMissing option)
  else if (options.get? option).isSome then .error (.repeated option)
  else
    match option with
    | .descriptor => .ok { options with descriptor := some value }
    | .logFile => .ok { options with logFile := some value }

end Options

namespace CommandLine

/-- Whether an argument is a value where one is wanted: it does not look like an option. -/
def isValue (argument : String) : Bool := argument.toList.head? ≠ some '-' || argument = "-"

/-- The name of an option and the value that an equals sign attaches to it. -/
def attached (argument : String) : String × Option String :=
  match Text.pieces '=' argument.toList with
  | name :: first :: more =>
    (String.ofList name, some (String.ofList (Text.joined ['='] (first :: more))))
  | _ => (argument, none)

/-- An argument that only prints, or none that is known. -/
def printing (argument : String) : Except UsageError Command :=
  match attached argument with
  | ("--help", none) => .ok .help
  | ("--version", none) => .ok .version
  | ("--help", some _) | ("--version", some _) => .error (.valueNotTaken argument)
  | _ =>
    match argument.toList with
    | '-' :: 'h' :: _ => .ok .help
    | '-' :: 'V' :: _ => .ok .version
    | _ => .error (.unexpected argument)

/-- What arguments ask for, given the options before them. -/
def parse (options : Options) : List String → Except UsageError Command
  | [] => .ok (.serve options)
  | ["--"] => .ok (.serve options)
  | "--" :: argument :: _ => .error (.unexpected argument)
  | argument :: rest =>
    match attached argument with
    | (name, value) =>
      match ValueOption.ofText? name, value, rest with
      | none, _, _ => printing argument
      | some option, some value, rest => do parse (← options.set option value) rest
      | some option, none, [] => .error (.valueMissing option)
      | some option, none, value :: rest =>
        if isValue value then do parse (← options.set option value) rest
        else .error (.valueMissing option)

/-- The setting that names a descriptor when the command line does not. -/
def descriptorSetting : String := "SHARPLENS_DESCRIPTOR"

/-- The setting that names the level of logging. -/
def levelSetting : String := "SHARPLENS_LOG_LEVEL"

/-- What a command line asks for, with what the environment adds to it. -/
def read (environment : String → Option String) (arguments : List String) :
    Except UsageError Command := do
  match ← parse {} arguments with
  | .serve options =>
    match options.descriptor, environment descriptorSetting with
    | none, some value => return .serve (← options.set .descriptor value)
    | _, _ => return .serve options
  | other => return other

end CommandLine

end CodeIntel
