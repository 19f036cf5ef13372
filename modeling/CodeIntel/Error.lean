/-! What can go wrong with a request, and the code under which callers see it. -/

namespace CodeIntel

/-- The classes of errors that callers tell apart. -/
inductive ErrorCode where
  | notFound
  | invalidArgument
  | conflict
  | internal
deriving DecidableEq, Repr

/-- The name of a class in an answer. -/
def ErrorCode.text : ErrorCode → String
  | .notFound => "NOT_FOUND"
  | .invalidArgument => "INVALID_ARGUMENT"
  | .conflict => "CONFLICT"
  | .internal => "INTERNAL"

/-- Why a request fails. -/
inductive Error where
  | notFound (message : String)
  | invalidArgument (message : String)
  /-- The workspace went on from the version that the request was based on. -/
  | conflict (expected actual : Nat)
  /-- The workspace was loaded anew since the request began. -/
  | reloaded
  | internal (message : String)
deriving DecidableEq, Repr

namespace Error

/-- The class of an error. -/
def code : Error → ErrorCode
  | .notFound _ => .notFound
  | .invalidArgument _ => .invalidArgument
  | .conflict _ _ => .conflict
  | .reloaded => .conflict
  | .internal _ => .internal

/-- The wording of an error. -/
def message : Error → String
  | .notFound message => message
  | .invalidArgument message => message
  | .conflict expected actual =>
    s!"Workspace version conflict: request was based on version {expected}, current version is {actual}"
  | .reloaded => "Workspace was reloaded since the request's snapshot was taken"
  | .internal message => message

end Error

/-- Why an engine does not answer. -/
inductive EngineError where
  | notFound (message : String)
  | invalidArgument (message : String)
  | failed (message : String)
deriving DecidableEq, Repr

namespace EngineError

/-- The wording of an engine's error. -/
def message : EngineError → String
  | .notFound message => message
  | .invalidArgument message => message
  | .failed message => "Analysis engine failure: " ++ message

/-- What a request fails with when the engine does. -/
def toError (e : EngineError) : Error :=
  match e with
  | .notFound message => .notFound message
  | .invalidArgument message => .invalidArgument message
  | .failed _ => .internal e.message

end EngineError

end CodeIntel
