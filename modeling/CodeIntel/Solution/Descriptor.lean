import CodeIntel.Error
import CodeIntel.Json.Decode
import CodeIntel.Json.Reader

/-! The descriptor of a solution: a JSON text that lists its projects, each with a name, a folder
below that of the descriptor, a language and the projects that it refers to. -/

namespace CodeIntel

open Json (Draft Fault Record Decoder)

/-- A project as a descriptor names it. -/
structure ProjectDescriptor where
  name : String
  path : String
  language : Option String
  references : List String
deriving DecidableEq, Repr, Inhabited

/-- The projects of a solution. -/
structure Descriptor where
  projects : List ProjectDescriptor
deriving DecidableEq, Repr, Inhabited

/-- Why a text is no descriptor. -/
inductive DescriptorFault where
  | notJson
  | repeatedKey
  | badValue (fault : Fault)

/-- The wording of such a fault. -/
def DescriptorFault.message : DescriptorFault → String
  | .notJson => "not a JSON text"
  | .repeatedKey => "a key is given twice"
  | .badValue fault => fault.message

namespace Json.Draft

mutual

/-- Whether some object gives a key more than once. -/
def repeatsKey : Draft → Bool
  | .array items => someRepeatsKey items
  | .object members =>
    (members.map Prod.fst).eraseDups.length < members.length || someMemberRepeatsKey members
  | _ => false

/-- Whether an object in some items gives a key more than once. -/
def someRepeatsKey : List Draft → Bool
  | [] => false
  | item :: rest => repeatsKey item || someRepeatsKey rest

/-- Whether an object in the values of some members gives a key more than once. -/
def someMemberRepeatsKey : List (Option String × Draft) → Bool
  | [] => false
  | (_, value) :: rest => repeatsKey value || someMemberRepeatsKey rest

end

end Json.Draft

namespace Descriptor

/-- A project: only the name has to be given, and the folder is that of the descriptor unless said
otherwise. -/
def project : Decoder ProjectDescriptor :=
  Record.decoder "ProjectDescriptor" <|
    ProjectDescriptor.mk <$> Record.field "name" Decoder.string
      <*> Record.optional "path" Decoder.string "."
      <*> Record.withDefault .byName "language" (Decoder.nullable Decoder.string) none
      <*> Record.optional "references" (Decoder.list Decoder.string) []

/-- The whole descriptor. -/
def decoder : Decoder Descriptor :=
  Record.decoder "SolutionDescriptor" <|
    Descriptor.mk <$> Record.field "projects" (Decoder.list project)

/-- The descriptor that a text spells. -/
def ofText (text : String) : Except DescriptorFault Descriptor :=
  match Draft.ofText? text with
  | none => .error .notJson
  | some draft =>
    if draft.repeatsKey then .error .repeatedKey
    else
      match draft.toJson? Json.deepest with
      | none => .error .notJson
      | some value =>
        match decoder value with
        | .ok descriptor => .ok descriptor
        | .error fault => .error (.badValue fault)

/-- What an engine fails with over a text that is no descriptor. -/
def parse (text : String) : Except EngineError Descriptor :=
  match ofText text with
  | .ok descriptor => .ok descriptor
  | .error fault =>
    .error (.invalidArgument ("Invalid solution descriptor: " ++ fault.message))

end Descriptor

end CodeIntel
