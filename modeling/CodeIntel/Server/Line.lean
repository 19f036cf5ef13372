import CodeIntel.Json.Reader
import CodeIntel.Service.Dispatch
import CodeIntel.Text.Blank

/-! The lines that a server reads. A line is a JSON text: an object with the members `operation` and,
if wanted, `id` and `arguments`, or an array of the three in the order id, operation, arguments. Other
members of the object are passed over, whatever they hold. -/

namespace CodeIntel

open Json (Draft)

/-- The operation of a line that cancels requests and is not answered. -/
def cancelOperation : String := "$/cancel"

/-- The key of an id: its JSON text. A request without an id has none and cannot be cancelled. -/
def requestKey? : Json → Option String
  | .null => none
  | id => some id.text

/-- Why a line is no request. -/
inductive LineFault where
  | notJson
  | notARequest
deriving DecidableEq, Repr, Inhabited

/-- The error that answers such a line. -/
def LineFault.toError : LineFault → Error
  | .notJson => .invalidArgument "Malformed request: not a JSON text"
  | .notARequest => .invalidArgument "Malformed request: not an operation with an id and arguments"

/-- What a line says. -/
inductive Line where
  | blank
  | malformed (fault : LineFault)
  /-- Cancels the requests of a key; without one nothing is cancelled. -/
  | cancel (key : Option String)
  | request (id : Json) (request : Request)
deriving Inhabited

namespace Line

/-- A part of a request that may be left out; it is null then. -/
def part? : Option Draft → Option Json
  | some draft => draft.toJson? (Json.deepest - 1)
  | none => some .null

/-- The line of a request with the given parts. -/
def ofParts? (id operation arguments : Option Draft) : Option Line := do
  let id ← part? id
  let arguments ← part? arguments
  match operation with
  | some (.string (some name)) =>
    if name = cancelOperation then return .cancel ((arguments.get? "id").bind requestKey?)
    else return .request id ⟨name, arguments⟩
  | _ => none

/-- The values that the members of an object give a key. -/
def valuesOf (key : String) (members : List (Option String × Draft)) : List Draft :=
  members.filterMap fun (name, value) => if name = some key then some value else none

/-- The only value that the members of an object give a key, or that there is none. Nothing when the
key is given more than once. -/
def atMostOne? (key : String) (members : List (Option String × Draft)) : Option (Option Draft) :=
  match valuesOf key members with
  | [] => some none
  | [value] => some (some value)
  | _ => none

/-- The line that a draft spells. -/
def ofDraft? : Draft → Option Line
  | .object members =>
    if members.any fun (name, _) => name.isNone then none
    else do
      ofParts? (← atMostOne? "id" members) (← atMostOne? "operation" members)
        (← atMostOne? "arguments" members)
  | .array [id, operation] => ofParts? (some id) (some operation) none
  | .array [id, operation, arguments] => ofParts? (some id) (some operation) (some arguments)
  | _ => none

/-- What a text says. -/
def ofText (text : String) : Line :=
  if Text.allBlank text.toList then .blank
  else
    match Draft.ofText? text with
    | none => .malformed .notJson
    | some draft => (ofDraft? draft).getD (.malformed .notARequest)

/-- The lines of a text; a carriage return at the end of a line belongs to its end. -/
def split (text : String) : List String :=
  (Text.pieces '\n' text.toList).map fun line =>
    String.ofList (if line.getLast? = some '\r' then line.dropLast else line)

end Line

end CodeIntel
