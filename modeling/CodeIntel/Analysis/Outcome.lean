import CodeIntel.Error

/-! How work that is handed to an engine ends: with a value, with an error, by breaking down, or by
being given up because the request was cancelled while the engine ran. -/

namespace CodeIntel

/-- The end of a piece of work. -/
inductive Outcome (ε α : Type) where
  | done (value : α)
  | failed (error : ε)
  /-- The engine broke down; it may have left a message. -/
  | crashed (report : Option String)
  /-- The request was cancelled while the engine ran. -/
  | interrupted
deriving Repr, Inhabited, DecidableEq

namespace Outcome

/-- Goes on with a value; any other end is the end of the whole. -/
def andThen (work : Outcome ε α) (next : α → Outcome ε β) : Outcome ε β :=
  match work with
  | .done value => next value
  | .failed error => .failed error
  | .crashed report => .crashed report
  | .interrupted => .interrupted

instance : Monad (Outcome ε) where
  pure := .done
  bind := andThen

/-- The outcome of work that cannot break down. -/
def ofExcept : Except ε α → Outcome ε α
  | .ok value => .done value
  | .error error => .failed error

/-- The same work with its errors said otherwise. -/
def mapError (f : ε → ε') : Outcome ε α → Outcome ε' α
  | .done value => .done value
  | .failed error => .failed (f error)
  | .crashed report => .crashed report
  | .interrupted => .interrupted

/-- What is known of a breakdown. -/
def report (message : Option String) : String := message.getD "unknown panic"

end Outcome

/-- The error of a request that was cancelled. -/
def Error.cancelled : Error := .internal "request cancelled"

/-- The answer of a request whose work ended so. -/
def Outcome.settled : Outcome Error α → Except Error α
  | .done value => .ok value
  | .failed error => .error error
  | .crashed message => .error (.internal ("Analysis engine panicked: " ++ Outcome.report message))
  | .interrupted => .error Error.cancelled

end CodeIntel
