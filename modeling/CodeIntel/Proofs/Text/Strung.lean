import CodeIntel.Text.Basic
import CodeIntel.Text.Blank
import Mathlib.Data.List.Infix
import Mathlib.Data.List.TakeWhile

/-! Pieces that stand in a text one behind another, with nothing but blanks around them. Trimming takes a
piece out of such a text, and texts that follow each other can be put together. -/

namespace CodeIntel.Text

/-- Some pieces stand in a text, in their order, and everything else in it is blank. -/
inductive Strung : List (List Char) → List Char → Prop where
  | nil {gap : List Char} : allBlank gap = true → Strung [] gap
  | cons {gap piece rest : List Char} {pieces : List (List Char)} :
      allBlank gap = true → Strung pieces rest → Strung (piece :: pieces) (gap ++ piece ++ rest)

variable {pieces others : List (List Char)} {text more gap : List Char}

theorem allBlank_append {front back : List Char} (hfront : allBlank front = true)
    (hback : allBlank back = true) : allBlank (front ++ back) = true := by
  rw [allBlank, List.all_append, Bool.and_eq_true]
  exact ⟨hfront, hback⟩

theorem Strung.behind (h : Strung pieces text) (hgap : allBlank gap = true) :
    Strung pieces (gap ++ text) := by
  cases h with
  | nil htext => exact .nil (allBlank_append hgap htext)
  | cons hfirst hrest =>
      rw [List.append_assoc, ← List.append_assoc gap, ← List.append_assoc]
      exact .cons (allBlank_append hgap hfirst) hrest

/-- What stands in two texts stands in both of them together. -/
theorem Strung.append (h : Strung pieces text) (h' : Strung others more) :
    Strung (pieces ++ others) (text ++ more) := by
  induction h with
  | nil hgap => exact h'.behind hgap
  | cons hgap _ ih =>
      rw [List.append_assoc]
      exact .cons hgap ih

theorem trimEnd_append (cs : List Char) : ∃ gap, allBlank gap = true ∧ cs = trimEnd cs ++ gap := by
  refine ⟨(cs.reverse.takeWhile isBlank).reverse, ?_, ?_⟩
  · rw [allBlank, List.all_reverse, List.all_takeWhile]
  · rw [trimEnd, ← List.reverse_append, List.takeWhile_append_dropWhile, List.reverse_reverse]

theorem trim_append (cs : List Char) :
    ∃ gap rest, allBlank gap = true ∧ allBlank rest = true ∧ cs = gap ++ (trim cs ++ rest) := by
  obtain ⟨rest, hrest, hback⟩ := trimEnd_append (trimStart cs)
  refine ⟨cs.takeWhile isBlank, rest, List.all_takeWhile, hrest, ?_⟩
  rw [trim, ← hback, trimStart, List.takeWhile_append_dropWhile]

/-- A trimmed text stands in the text that it was made from. -/
theorem strung_trim (cs : List Char) : Strung [trim cs] cs := by
  obtain ⟨gap, rest, hgap, hrest, hcs⟩ := trim_append cs
  have hstrung : Strung [trim cs] (gap ++ trim cs ++ rest) := .cons hgap (.nil hrest)
  rwa [List.append_assoc, ← hcs] at hstrung

/-- Trimming leaves nothing of a blank text, and only of such. -/
theorem isEmpty_trim (cs : List Char) : (trim cs).isEmpty = allBlank cs := by
  obtain ⟨gap, rest, hgap, hrest, hcs⟩ := trim_append cs
  rw [Bool.eq_iff_iff, List.isEmpty_iff]
  constructor
  · intro hnil
    rw [hcs, hnil]
    exact allBlank_append hgap hrest
  · intro hblank
    rw [trim, trimStart, List.dropWhile_eq_nil_iff.mpr (List.all_eq_true.mp hblank)]
    rfl

/-- A trimmed text does not begin with a blank. -/
theorem isBlank_of_head?_trim {c : Char} (h : (trim text).head? = some c) : isBlank c = false := by
  obtain ⟨rest, -, hback⟩ := trimEnd_append (trimStart text)
  have hhead : (text.dropWhile isBlank).head? = some c := by
    rw [← trimStart, hback, List.head?_append, ← trim, h]
    rfl
  have hfirst := List.head?_dropWhile_not isBlank text
  rw [hhead] at hfirst
  exact hfirst

/-- A pattern is found in a text if it stands somewhere in it. -/
theorem find?_isSome {pattern : List Char} : (find? pattern text).isSome ↔ pattern <:+: text := by
  induction text with
  | nil => simp [find?, List.infix_nil]
  | cons c cs ih =>
      rw [find?, List.infix_cons_iff, ← ih]
      split
      · rename_i h
        exact iff_of_true rfl (.inl (List.isPrefixOf_iff_prefix.mp h))
      · rename_i h
        rw [List.isPrefixOf_iff_prefix] at h
        simp [h]

/-- What is found makes up the text together with what is around it. -/
theorem append_of_find? {pattern front back : List Char} (h : find? pattern text = some (front, back)) :
    text = front ++ (pattern ++ back) := by
  induction text generalizing front with
  | nil =>
      rw [find?] at h
      split at h
      · rename_i hnil
        obtain ⟨rfl, rfl⟩ := Prod.mk.inj (Option.some.inj h)
        rw [List.isEmpty_iff.mp hnil]
        rfl
      · cases h
  | cons c cs ih =>
      rw [find?] at h
      split at h
      · rename_i hfound
        obtain ⟨rfl, rfl⟩ := Prod.mk.inj (Option.some.inj h)
        exact (List.prefix_iff_eq_append.mp (List.isPrefixOf_iff_prefix.mp hfound)).symm
      · obtain ⟨⟨before, behind⟩, hfound, hsame⟩ := Option.map_eq_some_iff.mp h
        obtain ⟨rfl, rfl⟩ := Prod.mk.inj hsame
        rw [ih hfound]
        rfl

end CodeIntel.Text
