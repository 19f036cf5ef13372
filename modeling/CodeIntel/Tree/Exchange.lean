import CodeIntel.Json.Basic
import CodeIntel.Tree.Basic

/-! Parse trees as JSON, as a parser outside the library hands them over: the nodes in preorder, each
an array of its kind, its marks, its two ends, the number of its children and, if it has any, the
fields that name children. The marks are added up: 1 for a node of the grammar, 2 for text that fits
no rule, 4 for a token that is missing, 8 for a node with something wrong at or below it. -/

namespace CodeIntel.Tree

/-- Whether a mark is among those that are added up. -/
def isMarked (marks mark : Nat) : Bool := marks / mark % 2 == 1

/-- A natural number. -/
def natOf? : Json → Option Nat
  | .number (.int value) => if 0 ≤ value then some value.toNat else none
  | _ => none

/-- The children that fields name. -/
def fieldsOf? : Json → Option (List (String × Nat))
  | .object members => members.mapM fun (name, index) => do return (name, ← natOf? index)
  | _ => none

/-- A node of the given parts. -/
def nodeOf? (kind marks start stop fields : Json) : Option Node := do
  match kind with
  | .string kind => do
    let marks ← natOf? marks
    let fields ← fieldsOf? fields
    return {
      kind
      named := isMarked marks 1
      isError := isMarked marks 2
      isMissing := isMarked marks 4
      hasError := isMarked marks 8
      span := ⟨← natOf? start, ← natOf? stop⟩
      fields }
  | _ => none

/-- A node with the number of its children. -/
def entryOf? : Json → Option (Node × Nat)
  | .array [kind, marks, start, stop, count] => do
    return (← nodeOf? kind marks start stop (.object []), ← natOf? count)
  | .array [kind, marks, start, stop, count, fields] => do
    return (← nodeOf? kind marks start stop fields, ← natOf? count)
  | _ => none

/-- The tree of a list of nodes. -/
def ofJson? : Json → Option Tree
  | .array nodes => (nodes.mapM entryOf?).bind ofPreorder?
  | _ => none

/-- Trees with the texts that they belong to: a list of objects with the members `text` and
`tree`. -/
def listOfJson : Json → List (String × Tree)
  | .array items =>
    items.filterMap fun item => do
      match item.get? "text", (item.get? "tree").bind ofJson? with
      | some (.string text), some tree => return (text, tree)
      | _, _ => none
  | _ => []

/-- The tree that belongs to a text. -/
def lookUp (known : List (String × Tree)) (text : String) : Option Tree :=
  (known.find? fun (other, _) => other = text).map Prod.snd

end CodeIntel.Tree
