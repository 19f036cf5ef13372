import CodeIntel.Regex.BuiltIn
import Mathlib.Data.List.Basic

/-! The built-in library does what is documented of a library. It reads back what is written, so that it
compiles every expression that is not too big; and its rows hold, for every end of a text, whether the expression
matches there. -/

namespace CodeIntel.Regex

variable {atStart : Bool} {atom : Atom} {c : Char} {parts : List Part} {text : List Char}

/-! ### Reading what is written -/

/-- Characters that have a rule of their own are among those that are escaped. -/
theorem ne_of_isMeta_eq_false (h : isMeta c = false) :
    c ≠ '\\' ∧ c ≠ '*' ∧ c ≠ '.' ∧ c ≠ '^' ∧ c ≠ '$' := by
  refine ⟨?_, ?_, ?_, ?_, ?_⟩ <;>
    · rintro rfl
      exact absurd h (by decide)

namespace Reading

variable (parts : List Part)

theorem next?_escaped (c : Char) :
    (escaped c).foldlM next? ⟨parts, false⟩ = some ⟨.one (.literal c) :: parts, false⟩ := by
  unfold escaped
  cases hmeta : isMeta c with
  | true => simp [next?, push, hmeta]
  | false =>
      obtain ⟨hslash, hstar, hdot, hcaret, hdollar⟩ := ne_of_isMeta_eq_false hmeta
      simp [next?, push, hmeta, hslash, hstar, hdot, hcaret, hdollar]

theorem next?_atom (atom : Atom) :
    atom.spelling.foldlM next? ⟨parts, false⟩ = some ⟨.one atom :: parts, false⟩ := by
  cases atom with
  | literal c => exact next?_escaped parts c
  | any => simp [Atom.spelling, next?, push]

theorem next?_part (part : Part) : part.spelling.foldlM next? ⟨parts, false⟩ = some ⟨part :: parts, false⟩ := by
  cases part with
  | one atom => exact next?_atom parts atom
  | many atom =>
      rw [Part.spelling, List.foldlM_append, next?_atom]
      simp [next?, repeatLast?]
  | start => simp [Part.spelling, next?, push]
  | stop => simp [Part.spelling, next?, push]

/-- Each part that is written is read as that part, whatever was read before. -/
theorem next?_parts (more : List Part) :
    (more.flatMap Part.spelling).foldlM next? ⟨parts, false⟩ = some ⟨more.reverse ++ parts, false⟩ := by
  induction more generalizing parts with
  | nil => rfl
  | cons part more ih =>
      rw [List.flatMap_cons, List.foldlM_append, next?_part, Option.bind_eq_bind, Option.bind_some, ih,
        List.reverse_cons, List.append_assoc, List.singleton_append]

end Reading

/-- What is written is read back. -/
theorem parse?_spelling (parts : List Part) : parse? (spelling parts).toList = some parts := by
  rw [parse?, spelling, String.toList_ofList, Reading.next?_parts]
  simp

theorem compile_spelling (parts : List Part) :
    builtIn.compile (spelling parts) =
      if sizeLimit < size parts then .error (.tooBig sizeLimit) else .ok parts := by
  unfold builtIn
  dsimp only
  rw [parse?_spelling]

/-! ### Matching from an end of a text -/

/-- An expression matches what a text begins with. -/
def Hits (atStart : Bool) (parts : List Part) (text : List Char) : Prop :=
  ∃ taken after, text = taken ++ after ∧ Matches atStart parts taken after

theorem hits_nil (atStart : Bool) (text : List Char) : Hits atStart [] text := ⟨[], text, rfl, .nil⟩

@[simp]
theorem not_hits_one_nil : ¬ Hits atStart (.one atom :: parts) [] := by
  rintro ⟨_, after, hnil, hmatches⟩
  cases hmatches with
  | one => cases hnil

@[simp]
theorem hits_one_cons :
    Hits atStart (.one atom :: parts) (c :: text) ↔ atom.Takes c ∧ Hits false parts text := by
  constructor
  · rintro ⟨_, after, htext, hmatches⟩
    cases hmatches with
    | one htakes hrest =>
        obtain ⟨rfl, rfl⟩ := List.cons.inj htext
        exact ⟨htakes, _, _, rfl, hrest⟩
  · rintro ⟨htakes, taken, after, rfl, hrest⟩
    exact ⟨c :: taken, after, rfl, .one htakes hrest⟩

@[simp]
theorem hits_many_nil : Hits atStart (.many atom :: parts) [] ↔ Hits atStart parts [] := by
  constructor
  · rintro ⟨_, after, hnil, hmatches⟩
    cases hmatches with
    | skip hrest => exact ⟨_, _, hnil, hrest⟩
    | more => cases hnil
  · rintro ⟨taken, after, hnil, hrest⟩
    exact ⟨taken, after, hnil, .skip hrest⟩

@[simp]
theorem hits_many_cons : Hits atStart (.many atom :: parts) (c :: text) ↔
    Hits atStart parts (c :: text) ∨ atom.Takes c ∧ Hits false (.many atom :: parts) text := by
  constructor
  · rintro ⟨_, after, htext, hmatches⟩
    cases hmatches with
    | skip hrest => exact .inl ⟨_, _, htext, hrest⟩
    | more htakes hrest =>
        obtain ⟨rfl, rfl⟩ := List.cons.inj htext
        exact .inr ⟨htakes, _, _, rfl, hrest⟩
  · rintro (⟨taken, after, htext, hrest⟩ | ⟨htakes, taken, after, rfl, hrest⟩)
    · exact ⟨taken, after, htext, .skip hrest⟩
    · exact ⟨c :: taken, after, rfl, .more htakes hrest⟩

@[simp]
theorem hits_start : Hits atStart (.start :: parts) text ↔ atStart = true ∧ Hits atStart parts text := by
  constructor
  · rintro ⟨_, after, rfl, hmatches⟩
    cases hmatches with
    | start hrest => exact ⟨rfl, _, _, rfl, hrest⟩
  · rintro ⟨rfl, taken, after, rfl, hrest⟩
    exact ⟨taken, after, rfl, .start hrest⟩

@[simp]
theorem hits_stop_nil : Hits atStart (.stop :: parts) [] ↔ Hits atStart parts [] := by
  constructor
  · rintro ⟨_, after, hnil, hmatches⟩
    cases hmatches with
    | stop hrest => exact ⟨[], [], rfl, hrest⟩
  · rintro ⟨taken, after, hnil, hrest⟩
    obtain ⟨rfl, rfl⟩ := List.append_eq_nil_iff.mp hnil.symm
    exact ⟨[], [], rfl, .stop hrest⟩

@[simp]
theorem not_hits_stop_cons : ¬ Hits atStart (.stop :: parts) (c :: text) := by
  rintro ⟨_, after, htext, hmatches⟩
  cases hmatches with
  | stop => cases htext

/-! ### Rows -/

theorem takes_iff {d : Char} : atom.takes d = true ↔ atom.Takes d := by
  cases atom <;> simp [Atom.takes, Atom.Takes]

/-- A row says for each end of a text, the whole text first, whether something holds of it. Only the whole text
can begin at its start. -/
inductive Answers (holds : Bool → List Char → Prop) : Bool → List Char → List Bool → Prop where
  | nil {atStart here : Bool} : (here = true ↔ holds atStart []) → Answers holds atStart [] [here]
  | cons {atStart here : Bool} {c : Char} {text : List Char} {row : List Bool} :
      (here = true ↔ holds atStart (c :: text)) → Answers holds false text row →
        Answers holds atStart (c :: text) (here :: row)

namespace Answers

variable {holds : Bool → List Char → Prop} {answered : List Bool}

theorem headD (h : Answers holds atStart text answered) : answered.headD false = true ↔ holds atStart text := by
  cases h with
  | nil hhere => exact hhere
  | cons hhere _ => exact hhere

/-- Some end is answered with yes exactly if what is asked holds of one. -/
theorem any_iff (h : Answers holds atStart text answered) :
    answered.any id = true ↔ ∃ before rest, text = before ++ rest ∧ holds (atStart && before.isEmpty) rest := by
  induction h with
  | @nil atStart here hhere =>
      simp only [List.any_cons, List.any_nil, Bool.or_false, id, hhere]
      constructor
      · exact fun h => ⟨[], [], rfl, by simpa using h⟩
      · rintro ⟨before, rest, hnil, h⟩
        obtain ⟨rfl, rfl⟩ := List.append_eq_nil_iff.mp hnil.symm
        simpa using h
  | @cons atStart here c text row hhere _ ih =>
      rw [List.any_cons, Bool.or_eq_true, ih]
      constructor
      · rintro (hholds | ⟨before, rest, rfl, hholds⟩)
        · exact ⟨[], c :: text, rfl, by simpa using hhere.mp hholds⟩
        · exact ⟨c :: before, rest, rfl, by simpa using hholds⟩
      · rintro ⟨before, rest, htext, hholds⟩
        cases before with
        | nil =>
            obtain rfl : c :: text = rest := htext
            exact .inl (hhere.mpr (by simpa using hholds))
        | cons d before =>
            obtain ⟨rfl, rfl⟩ := List.cons.inj htext
            exact .inr ⟨before, rest, rfl, by simpa using hholds⟩

theorem oneRow (atom : Atom) (h : Answers (Hits · parts) atStart text answered) :
    Answers (Hits · (.one atom :: parts)) atStart text (oneRow atom text answered) := by
  induction h with
  | nil => exact .nil (by simp)
  | cons _ hrow ih => exact .cons (by rw [Bool.and_eq_true, takes_iff, hrow.headD, hits_one_cons]) ih

theorem manyRow (atom : Atom) (h : Answers (Hits · parts) atStart text answered) :
    Answers (Hits · (.many atom :: parts)) atStart text (manyRow atom text answered) := by
  induction h with
  | nil hhere => exact .nil (hhere.trans hits_many_nil.symm)
  | cons hhere _ ih =>
      exact .cons (by rw [Bool.or_eq_true, Bool.and_eq_true, takes_iff, ih.headD, hhere, hits_many_cons]) ih

/-- Nothing but the whole text begins at the start. -/
theorem startRow (h : Answers (Hits · parts) atStart text answered) :
    Answers (Hits · (.start :: parts)) atStart text
      ((atStart && answered.headD false) :: text.map fun _ => false) := by
  have hlater : ∀ text, Answers (Hits · (.start :: parts)) false text (false :: text.map fun _ => false) := by
    intro text
    induction text with
    | nil => exact .nil (by simp)
    | cons c text ih => exact .cons (by simp) ih
  have hhere : (atStart && answered.headD false) = true ↔ Hits atStart (.start :: parts) text := by
    rw [Bool.and_eq_true, h.headD, hits_start]
  cases h with
  | nil => exact .nil hhere
  | cons => exact .cons hhere (hlater _)

/-- Nothing but the empty end is at the end. -/
theorem stopRow (h : Answers (Hits · parts) atStart text answered) :
    Answers (Hits · (.stop :: parts)) atStart text (text.map (fun _ => false) ++ [answered.getLastD false]) := by
  induction h with
  | nil hhere => exact .nil (hhere.trans hits_stop_nil.symm)
  | @cons _ here _ _ row _ hrow ih =>
      have hlast : (here :: row).getLastD false = row.getLastD false := by
        cases hrow <;> rfl
      rw [hlast]
      exact .cons (by simp) ih

/-- The row of a text and an expression says at which ends of the text the expression matches. -/
theorem row (atStart : Bool) (text : List Char) (parts : List Part) :
    Answers (Hits · parts) atStart text (row atStart text parts) := by
  induction parts with
  | nil =>
      show Answers _ atStart text (true :: text.map fun _ => true)
      induction text generalizing atStart with
      | nil => exact .nil (by simp [hits_nil])
      | cons c text ih => exact .cons (by simp [hits_nil]) (ih false)
  | cons part parts ih =>
      cases part with
      | one atom => exact ih.oneRow atom
      | many atom => exact ih.manyRow atom
      | start => exact ih.startRow
      | stop => exact ih.stopRow

end Answers

/-- The built-in library does what is documented of a library. -/
theorem builtIn_standard : builtIn.Standard where
  compiles parts refusal h := by
    rw [compile_spelling] at h
    split at h
    · exact ⟨sizeLimit, (Except.error.inj h).symm⟩
    · cases h
  finds parts compiled h text := by
    rw [compile_spelling] at h
    split at h
    · cases h
    · obtain rfl := Except.ok.inj h
      show (row true text.toList parts).any id = true ↔ _
      rw [(Answers.row true text.toList parts).any_iff]
      constructor
      · rintro ⟨before, _, htext, taken, after, rfl, hmatches⟩
        exact ⟨before, taken, after, by rw [htext, List.append_assoc], hmatches⟩
      · rintro ⟨before, taken, after, htext, hmatches⟩
        exact ⟨before, taken ++ after, by rw [htext, List.append_assoc], taken, after, rfl, hmatches⟩

end CodeIntel.Regex
