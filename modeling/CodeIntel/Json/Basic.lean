import CodeIntel.Decimal.Shortest

/-! JSON values. The members of an object stand in ascending order of their keys, each key once, so
that equal values are equal terms and have equal texts. -/

namespace CodeIntel

open CodeIntel.Decimal (Binary64)

/-- A JSON number: an integer that fits 64 bits, signed or not, or a double. -/
inductive Number where
  | int (value : Int)
  | float (value : Binary64)
deriving DecidableEq, Repr, Inhabited

/-- A JSON value. -/
inductive Json where
  | null
  | bool (value : Bool)
  | number (value : Number)
  | string (value : String)
  | array (items : List Json)
  | object (members : List (String × Json))
deriving Repr, Inhabited, BEq

namespace Json

/-- Adds a member in key order; a member of the same key is replaced. -/
def insertMember (key : String) (value : Json) : List (String × Json) → List (String × Json)
  | [] => [(key, value)]
  | (k, v) :: rest =>
    if key < k then (key, value) :: (k, v) :: rest
    else if key = k then (key, value) :: rest
    else (k, v) :: insertMember key value rest

/-- The members of a list in key order; of several with one key the last counts. -/
def orderedMembers (members : List (String × Json)) : List (String × Json) :=
  members.foldl (fun done (key, value) => insertMember key value done) []

/-- The object with the given members; of several with one key the last counts. -/
def ofMembers (members : List (String × Json)) : Json := .object (orderedMembers members)

/-- The value of a key among the members of an object. -/
def member? (key : String) : List (String × Json) → Option Json
  | [] => none
  | (k, v) :: rest => if k = key then some v else member? key rest

/-- The value of a key of an object; nothing for any other value. -/
def get? (value : Json) (key : String) : Option Json :=
  match value with
  | .object members => member? key members
  | _ => none

/-- A natural number as a value. -/
def nat (n : Nat) : Json := .number (.int n)

/-- An optional value; a missing one is null. -/
def ofOption (value : Option Json) : Json := value.getD .null

/-- A list of strings as a value. -/
def strings (values : List String) : Json := .array (values.map .string)

theorem member?_insertMember_self (key : String) (value : Json) (members : List (String × Json)) :
    member? key (insertMember key value members) = some value := by
  induction members with
  | nil => simp [insertMember, member?]
  | cons head rest ih =>
      obtain ⟨k, v⟩ := head
      by_cases before : key < k
      · simp [insertMember, before, member?]
      · by_cases same : key = k
        · simp [insertMember, same, member?]
        · simp [insertMember, before, same, member?, Ne.symm same, ih]

theorem member?_insertMember_of_ne {key other : String} (value : Json)
    (members : List (String × Json)) (different : other ≠ key) :
    member? other (insertMember key value members) = member? other members := by
  induction members with
  | nil => simp [insertMember, member?, Ne.symm different]
  | cons head rest ih =>
      obtain ⟨k, v⟩ := head
      by_cases before : key < k
      · simp [insertMember, before, member?, Ne.symm different]
      · by_cases same : key = k
        · subst same
          simp [insertMember, member?, Ne.symm different]
        · simp only [insertMember, before, same, if_false, member?, ih]

end Json

end CodeIntel
