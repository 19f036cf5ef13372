import CodeIntel.Workspace.Keyed

/-! The requests that are on their way, so that a caller can cancel them by id. A caller may use one
id for several requests at once: each has a ticket of its own, and finishing one leaves the others
alone. A key is held only while a request is on its way under it. -/

namespace CodeIntel

/-- What a request is cancelled by. -/
abbrev RequestToken := Nat

/-- A request on its way. -/
structure Ticketed where
  ticket : Nat
  token : RequestToken
deriving DecidableEq, Repr, Inhabited

/-- The requests on their way by their keys, the earliest first. -/
structure Registry where
  nextTicket : Nat := 0
  running : Keyed (List Ticketed) := []
deriving DecidableEq, Repr, Inhabited

namespace Registry

/-- The requests that are on their way under a key. -/
def under (registry : Registry) (key : String) : List Ticketed :=
  (registry.running.get? key).getD []

/-- Enters a request and draws its ticket. -/
def register (registry : Registry) (key : String) (token : RequestToken) : Nat × Registry :=
  let ticket := registry.nextTicket
  (ticket,
    { nextTicket := ticket + 1
      running := registry.running.insert key (registry.under key ++ [⟨ticket, token⟩]) })

/-- Takes out the request of a ticket, and its key with the last request under it. -/
def finish (registry : Registry) (key : String) (ticket : Nat) : Registry :=
  match (registry.under key).filter fun request => request.ticket ≠ ticket with
  | [] => { registry with running := registry.running.erase key }
  | others => { registry with running := registry.running.insert key others }

/-- The tokens that a cancellation of a key reaches. -/
def reached (registry : Registry) (key : String) : List RequestToken :=
  (registry.under key).map Ticketed.token

@[simp]
theorem under_register_self (registry : Registry) (key : String) (token : RequestToken) :
    (registry.register key token).2.under key =
      registry.under key ++ [⟨registry.nextTicket, token⟩] := by
  simp [register, under]

theorem under_register_of_ne (registry : Registry) (token : RequestToken) {key other : String}
    (different : other ≠ key) :
    (registry.register key token).2.under other = registry.under other := by
  simp [register, under, Keyed.get?_insert_of_ne _ _ different]

@[simp]
theorem under_finish_self (registry : Registry) (key : String) (ticket : Nat) :
    (registry.finish key ticket).under key =
      (registry.under key).filter fun request => request.ticket ≠ ticket := by
  cases left : (registry.under key).filter fun request => request.ticket ≠ ticket with
  | nil => simp only [finish, left]; simp [under]
  | cons first others => simp only [finish, left]; simp [under]

theorem under_finish_of_ne (registry : Registry) (ticket : Nat) {key other : String}
    (different : other ≠ key) :
    (registry.finish key ticket).under other = registry.under other := by
  cases left : (registry.under key).filter fun request => request.ticket ≠ ticket with
  | nil => simp only [finish, left]; simp [under, Keyed.get?_erase_of_ne _ different]
  | cons first others =>
      simp only [finish, left]; simp [under, Keyed.get?_insert_of_ne _ _ different]

end Registry

end CodeIntel
