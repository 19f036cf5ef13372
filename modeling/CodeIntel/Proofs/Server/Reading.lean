import CodeIntel.Proofs.Outcome
import CodeIntel.Server.Line

/-! What a line says. A line that is not blank and is a JSON text spells a request when it gives the three
parts of one, each at most once: an operation by its name, and an id and arguments that may be left out.
Every other line is malformed, and one operation stands for the cancellation of requests. -/

namespace CodeIntel.Line

open Json (Draft)

/-- A draft gives the parts of a request: an object whose names can all be read, with each part at most
once, or an array of two or three. -/
inductive Gives : Draft → Option Draft → Option Draft → Option Draft → Prop where
  | object {members : List (Option String × Draft)} {id operation arguments : Option Draft} :
      (∀ value, (none, value) ∉ members) → atMostOne? "id" members = some id →
      atMostOne? "operation" members = some operation →
      atMostOne? "arguments" members = some arguments →
      Gives (.object members) id operation arguments
  | pair (id operation : Draft) : Gives (.array [id, operation]) (some id) (some operation) none
  | triple (id operation arguments : Draft) :
      Gives (.array [id, operation, arguments]) (some id) (some operation) (some arguments)

/-- A draft spells a request: the operation is a name, and the id and the arguments are null when they are
left out. -/
def Spells (draft : Draft) (name : String) (id arguments : Json) : Prop :=
  ∃ idPart argumentsPart, Gives draft idPart (some (.string (some name))) argumentsPart ∧
    part? idPart = some id ∧ part? argumentsPart = some arguments

/-- What a text says as a line. -/
inductive Reads (text : String) : Line → Prop where
  | blank : Text.allBlank text.toList = true → Reads text .blank
  | notJson : Text.allBlank text.toList = false → Draft.ofText? text = none →
      Reads text (.malformed .notJson)
  | notARequest {draft : Draft} : Text.allBlank text.toList = false →
      Draft.ofText? text = some draft → (∀ name id arguments, ¬ Spells draft name id arguments) →
      Reads text (.malformed .notARequest)
  | cancel {draft : Draft} {id arguments : Json} : Text.allBlank text.toList = false →
      Draft.ofText? text = some draft → Spells draft cancelOperation id arguments →
      Reads text (.cancel ((arguments.get? "id").bind requestKey?))
  | request {draft : Draft} {name : String} {id arguments : Json} :
      Text.allBlank text.toList = false → Draft.ofText? text = some draft →
      Spells draft name id arguments → name ≠ cancelOperation →
      Reads text (.request id ⟨name, arguments⟩)

/-- The line of a request. -/
def ofRequest (name : String) (id arguments : Json) : Line :=
  if name = cancelOperation then .cancel ((arguments.get? "id").bind requestKey?)
  else .request id ⟨name, arguments⟩

theorem ofParts?_eq_some {id operation arguments : Option Draft} {line : Line} :
    ofParts? id operation arguments = some line ↔ ∃ name idValue value,
      operation = some (.string (some name)) ∧ part? id = some idValue ∧
      part? arguments = some value ∧ ofRequest name idValue value = line := by
  constructor
  · intro h
    obtain ⟨idValue, hid, h⟩ := Option.bind_eq_some_iff.mp h
    obtain ⟨value, hvalue, h⟩ := Option.bind_eq_some_iff.mp h
    split at h
    · rename_i name _ _
      refine ⟨name, idValue, value, rfl, hid, hvalue, ?_⟩
      rw [ofRequest]
      split at h
      · rename_i hcancel
        rw [if_pos hcancel]
        exact Option.some.inj h
      · rename_i hother
        rw [if_neg hother]
        exact Option.some.inj h
    · cases h
  · rintro ⟨name, idValue, value, rfl, hid, hvalue, rfl⟩
    refine Option.bind_eq_some_iff.mpr ⟨idValue, hid, Option.bind_eq_some_iff.mpr ⟨value, hvalue, ?_⟩⟩
    dsimp only
    rw [ofRequest]
    split <;> rfl

/-- The parts that a draft gives are the parts of its line. -/
theorem ofDraft?_eq_some_iff_gives {draft : Draft} {line : Line} : ofDraft? draft = some line ↔
    ∃ id operation arguments, Gives draft id operation arguments ∧
      ofParts? id operation arguments = some line := by
  constructor
  · intro h
    unfold ofDraft? at h
    split at h
    · rename_i members
      split at h
      · cases h
      · rename_i hnames
        obtain ⟨id, hid, h⟩ := Option.bind_eq_some_iff.mp h
        obtain ⟨operation, hoperation, h⟩ := Option.bind_eq_some_iff.mp h
        obtain ⟨arguments, harguments, h⟩ := Option.bind_eq_some_iff.mp h
        refine ⟨id, operation, arguments, .object ?_ hid hoperation harguments, h⟩
        simpa using hnames
    · exact ⟨_, _, _, .pair _ _, h⟩
    · exact ⟨_, _, _, .triple _ _ _, h⟩
    · cases h
  · rintro ⟨id, operation, arguments, hgives, hline⟩
    cases hgives with
    | object hnames hid hoperation harguments =>
        rw [ofDraft?, if_neg (by simpa using hnames), hid, hoperation,
          harguments]
        exact hline
    | pair | triple => exact hline

theorem ofDraft?_eq_some {draft : Draft} {line : Line} : ofDraft? draft = some line ↔
    ∃ name id arguments, Spells draft name id arguments ∧ ofRequest name id arguments = line := by
  rw [ofDraft?_eq_some_iff_gives]
  constructor
  · rintro ⟨idPart, operation, argumentsPart, hgives, hline⟩
    obtain ⟨name, id, arguments, rfl, hid, harguments, hline⟩ := ofParts?_eq_some.mp hline
    exact ⟨name, id, arguments, ⟨idPart, argumentsPart, hgives, hid, harguments⟩, hline⟩
  · rintro ⟨name, id, arguments, ⟨idPart, argumentsPart, hgives, hid, harguments⟩, hline⟩
    exact ⟨idPart, _, argumentsPart, hgives,
      ofParts?_eq_some.mpr ⟨name, id, arguments, rfl, hid, harguments, hline⟩⟩

theorem Reads.of_spells {text name : String} {draft : Draft} {id arguments : Json}
    (hblank : Text.allBlank text.toList = false) (hdraft : Draft.ofText? text = some draft)
    (hspells : Spells draft name id arguments) : Reads text (ofRequest name id arguments) := by
  rw [ofRequest]
  split
  · rename_i hcancel
    exact .cancel hblank hdraft (hcancel ▸ hspells)
  · rename_i hother
    exact .request hblank hdraft hspells hother

/-- A text is read as the line that it says. -/
theorem ofText_eq_iff {text : String} {line : Line} : ofText text = line ↔ Reads text line := by
  constructor
  · rintro rfl
    rw [ofText]
    split
    · rename_i hblank
      exact .blank hblank
    · rename_i hblank
      have hblank := Bool.eq_false_iff.mpr hblank
      cases hdraft : Draft.ofText? text with
      | none => exact .notJson hblank hdraft
      | some draft =>
          dsimp only
          cases hline : ofDraft? draft with
          | none =>
              refine .notARequest hblank hdraft fun name id arguments hspells => ?_
              cases hline.symm.trans (ofDraft?_eq_some.mpr ⟨name, id, arguments, hspells, rfl⟩)
          | some line =>
              obtain ⟨name, id, arguments, hspells, rfl⟩ := ofDraft?_eq_some.mp hline
              exact .of_spells hblank hdraft hspells
  · have hother : ∀ {draft : Draft}, Text.allBlank text.toList = false →
        Draft.ofText? text = some draft →
        ofText text = (ofDraft? draft).getD (.malformed .notARequest) := by
      intro draft hblank hdraft
      rw [ofText, if_neg (Bool.eq_false_iff.mp hblank), hdraft]
    intro h
    cases h with
    | blank hblank => rw [ofText, if_pos hblank]
    | notJson hblank hnone => rw [ofText, if_neg (Bool.eq_false_iff.mp hblank), hnone]
    | notARequest hblank hdraft hnone =>
        rw [hother hblank hdraft]
        cases hline : ofDraft? _ with
        | none => rfl
        | some line =>
            obtain ⟨name, id, arguments, hspells, -⟩ := ofDraft?_eq_some.mp hline
            exact absurd hspells (hnone name id arguments)
    | cancel hblank hdraft hspells =>
        rw [hother hblank hdraft, ofDraft?_eq_some.mpr ⟨_, _, _, hspells, rfl⟩, ofRequest, if_pos rfl]
        rfl
    | request hblank hdraft hspells hname =>
        rw [hother hblank hdraft, ofDraft?_eq_some.mpr ⟨_, _, _, hspells, rfl⟩, ofRequest, if_neg hname]
        rfl

end CodeIntel.Line
