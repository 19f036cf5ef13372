import CodeIntel.Json.Printer

/-! Decoding JSON values into the types of the library. A record is decoded from an object by the
names of its fields or from an array by their order. An object's keys are visited in key order and
the first problem is the one reported; what is missing is noticed only after all keys. -/

namespace CodeIntel.Json

/-- Why a value does not decode. -/
inductive Fault where
  /-- A value of one kind stands where another is wanted. -/
  | wrongType (found : Json) (wanted : String)
  /-- An integer stands where a narrower one is wanted. -/
  | outOfRange (value : Int) (wanted : String)
  | unknownField (name : String) (known : List String)
  | missingField (name : String)
  /-- An array ends before the field of a given index. -/
  | tooShort (index : Nat) (record : String) (count : Nat)
  /-- An array goes on after the last field. -/
  | tooLong (length : Nat)

namespace Fault

/-- How a message names what was found. -/
def found : Json → String
  | .null => "null"
  | .bool true => "boolean `true`"
  | .bool false => "boolean `false`"
  | .number (.int value) => "integer `" ++ toString value ++ "`"
  | .number (.float value) => "floating point `" ++ value.text ++ "`"
  | .string value => "string " ++ Text.quoted value
  | .array _ => "sequence"
  | .object _ => "map"

/-- How a message lists the fields that a record has. -/
def fieldList : List String → String
  | [] => "there are no fields"
  | [a] => "expected `" ++ a ++ "`"
  | [a, b] => "expected `" ++ a ++ "` or `" ++ b ++ "`"
  | names => "expected one of " ++ String.intercalate ", " (names.map fun name => "`" ++ name ++ "`")

/-- How a message counts fields. -/
def elements (count : Nat) : String :=
  if count = 1 then "1 element" else toString count ++ " elements"

/-- The wording of a fault. -/
def message : Fault → String
  | .wrongType value wanted => "invalid type: " ++ found value ++ ", expected " ++ wanted
  | .outOfRange value wanted => "invalid value: integer `" ++ toString value ++ "`, expected " ++ wanted
  | .unknownField name known => "unknown field `" ++ name ++ "`, " ++ fieldList known
  | .missingField name => "missing field `" ++ name ++ "`"
  | .tooShort index record count =>
    "invalid length " ++ toString index ++ ", expected struct " ++ record ++ " with " ++ elements count
  | .tooLong length =>
    "invalid length " ++ toString length ++ ", expected fewer elements in array"

end Fault

/-- A way to read a value of a type off a JSON value. -/
abbrev Decoder (α : Type) := Json → Except Fault α

namespace Decoder

/-- A string. -/
def string : Decoder String
  | .string value => .ok value
  | other => .error (.wrongType other "a string")

/-- A truth value. -/
def bool : Decoder Bool
  | .bool value => .ok value
  | other => .error (.wrongType other "a boolean")

/-- A natural number below a bound. -/
def natural (bound : Nat) (wanted : String) : Decoder Nat
  | .number (.int value) =>
    if 0 ≤ value ∧ value < bound then .ok value.toNat else .error (.outOfRange value wanted)
  | other => .error (.wrongType other wanted)

/-- A line, a column: 32 bits. -/
def coordinate : Decoder Nat := natural UInt32.size "u32"

/-- A bound on the size of an answer: 64 bits. -/
def size : Decoder Nat := natural UInt64.size "usize"

/-- A list of values of one kind. -/
def list (item : Decoder α) : Decoder (List α)
  | .array items => items.mapM item
  | other => .error (.wrongType other "a sequence")

/-- A value or null. -/
def nullable (item : Decoder α) : Decoder (Option α)
  | .null => .ok none
  | other => (item other).map some

end Decoder

/-- When a field may be left out. -/
inductive Presence where
  /-- Never. -/
  | required
  /-- In an object; an array that is too short for it is refused. -/
  | byName
  /-- Always. -/
  | optional
deriving DecidableEq, Repr

/-- A field of a record: its name, when it may be left out, and what is wrong with a value of it. -/
structure Field where
  name : String
  presence : Presence
  problem? : Json → Option Fault

/-- How to decode a record: its fields in order, and its value from those that are given. What to
report for a field that is not given is left to the caller. -/
structure Record (α : Type) where
  fields : List Field
  build : (given : String → Option Json) → (missing : String → Fault) → Except Fault α

namespace Record

/-- What is wrong with a value, if anything is. -/
def problem? (decoder : Decoder α) (value : Json) : Option Fault :=
  match decoder value with
  | .ok _ => none
  | .error fault => some fault

/-- A field that has to be given. -/
def field (name : String) (decoder : Decoder α) : Record α where
  fields := [⟨name, .required, problem? decoder⟩]
  build given missing :=
    match given name with
    | some value => decoder value
    | none => .error (missing name)

/-- A field with a value of its own where it may be left out. -/
def withDefault (presence : Presence) (name : String) (decoder : Decoder α) (default : α) :
    Record α where
  fields := [⟨name, presence, problem? decoder⟩]
  build given _ :=
    match given name with
    | some value => decoder value
    | none => .ok default

/-- A field that may always be left out. -/
def optional (name : String) (decoder : Decoder α) (default : α) : Record α :=
  withDefault .optional name decoder default

instance : Functor Record where
  map f record := { record with build := fun given missing => (record.build given missing).map f }

instance : Pure Record where
  pure value := ⟨[], fun _ _ => .ok value⟩

instance : Seq Record where
  seq left right :=
    { fields := left.fields ++ (right ()).fields
      build := fun given missing => do
        let f ← left.build given missing
        return f (← (right ()).build given missing) }

/-- The first problem among the members of an object, in key order. -/
def objectProblem? (fields : List Field) : List (String × Json) → Option Fault
  | [] => none
  | (key, value) :: rest =>
    match fields.find? fun field => field.name = key with
    | none => some (.unknownField key (fields.map Field.name))
    | some field => (field.problem? value).or (objectProblem? fields rest)

/-- The first problem among the items of an array, the `index`-th field coming first. -/
def arrayProblem? (name : String) (count : Nat) : Nat → List Field → List Json → Option Fault
  | _, [], _ => none
  | index, field :: fields, [] =>
    if field.presence = .optional then arrayProblem? name count (index + 1) fields []
    else some (.tooShort index name count)
  | index, field :: fields, value :: values =>
    (field.problem? value).or (arrayProblem? name count (index + 1) fields values)

/-- Decodes a record from an object or an array. -/
def decoder (name : String) (record : Record α) : Decoder α
  | .object members =>
    match objectProblem? record.fields members with
    | some fault => .error fault
    | none => record.build (fun key => member? key members) .missingField
  | .array values =>
    match arrayProblem? name record.fields.length 0 record.fields values with
    | some fault => .error fault
    | none =>
      if record.fields.length < values.length then .error (.tooLong values.length)
      else
        let members := (record.fields.map Field.name).zip values
        record.build (fun key => member? key members) .missingField
  | other => .error (.wrongType other ("struct " ++ name))

end Record

end CodeIntel.Json
