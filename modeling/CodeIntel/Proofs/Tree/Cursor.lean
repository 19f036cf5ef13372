import CodeIntel.Proofs.Tree.Identifiers
import Mathlib.Data.List.Pairwise

/-! The identifier that a cursor means. Identifiers follow each other in the text, so at most one of them is
around an offset; where two meet at an offset, or some of no width stand there, a cursor still means one
that has a width, provided that there is one to mean. -/

namespace CodeIntel

/-- Of two elements of a list in order, one stands before the other unless they are the same. -/
theorem eq_or_related_of_pairwise {α : Type} {related : α → α → Prop} {items : List α}
    (h : items.Pairwise related) {a b : α} (ha : a ∈ items) (hb : b ∈ items) :
    a = b ∨ related a b ∨ related b a := by
  have : Std.Symm fun a b => related a b ∨ related b a := ⟨fun _ _ => Or.symm⟩
  have heither := (h.imp fun hrelated => Or.inl hrelated : items.Pairwise fun a b =>
    related a b ∨ related b a)
  by_cases hne : a = b
  · exact .inl hne
  · exact .inr (heither.forall ha hb hne)

/-- A search finds the one element that has a property. -/
theorem find?_eq_some_of_unique {α : Type} {p : α → Bool} {items : List α} {a : α} (ha : a ∈ items)
    (hp : p a = true) (hunique : ∀ b ∈ items, p b = true → b = a) : items.find? p = some a := by
  obtain ⟨b, hb⟩ := Option.isSome_iff_exists.mp (List.find?_isSome.mpr ⟨a, ha, hp⟩)
  rw [hb, hunique b (List.mem_of_find?_eq_some hb) (List.find?_some hb)]

namespace Index

variable {index : Index} {token other : Token} {offset : Nat} {span : Span}

theorem mem_of_identifierAt? (h : index.identifierAt? offset = some token) :
    token ∈ index.identifiers := by
  rcases Option.or_eq_some_iff.mp h with h | ⟨-, h⟩
  · exact List.mem_of_find?_eq_some h
  · exact List.mem_of_find?_eq_some h

/-- A cursor means an identifier that it touches. -/
theorem touches_of_identifierAt? (hordered : ∀ token ∈ index.identifiers, token.span.start ≤ token.span.stop)
    (h : index.identifierAt? offset = some token) : token.span.touches offset = true := by
  have hle := hordered token (mem_of_identifierAt? h)
  rw [Span.touches, Bool.and_eq_true, decide_eq_true_eq, decide_eq_true_eq]
  rcases Option.or_eq_some_iff.mp h with haround | ⟨-, hends⟩
  · have hp := List.find?_some haround
    simp only [Bool.and_eq_true, decide_eq_true_eq] at hp
    omega
  · have hp := List.find?_some hends
    simp only [beq_iff_eq] at hp
    omega

/-- A cursor means no identifier exactly where it touches none. -/
theorem identifierAt?_eq_none (hordered : ∀ token ∈ index.identifiers, token.span.start ≤ token.span.stop) :
    index.identifierAt? offset = none ↔
      ∀ token ∈ index.identifiers, token.span.touches offset = false := by
  constructor
  · intro hnone token hmem
    obtain ⟨haround, hends⟩ := Option.or_eq_none_iff.mp hnone
    have haway := List.find?_eq_none.mp haround token hmem
    have hapart := List.find?_eq_none.mp hends token hmem
    simp only [Bool.and_eq_true, decide_eq_true_eq, beq_iff_eq] at haway hapart
    rw [Span.touches, Bool.and_eq_false_iff, decide_eq_false_iff_not, decide_eq_false_iff_not]
    omega
  · intro haway
    cases h : index.identifierAt? offset with
    | none => rfl
    | some token =>
        have htouches := touches_of_identifierAt? hordered h
        rw [haway token (mem_of_identifierAt? h)] at htouches
        cases htouches

/-- Two identifiers around one offset are the same. -/
theorem eq_of_around (hlined : Tree.Lined span index.identifiers) (hmem : token ∈ index.identifiers)
    (hother : other ∈ index.identifiers) (hstart : token.span.start ≤ offset)
    (hstop : offset < token.span.stop) (hstart' : other.span.start ≤ offset)
    (hstop' : offset < other.span.stop) : other = token := by
  rcases eq_or_related_of_pairwise hlined.2 hmem hother with heq | hbehind | hbefore
  · exact heq.symm
  · omega
  · omega

/-- The identifier around an offset is the one that a cursor there means. -/
theorem identifierAt?_of_around (hlined : Tree.Lined span index.identifiers)
    (hmem : token ∈ index.identifiers) (hstart : token.span.start ≤ offset)
    (hstop : offset < token.span.stop) : index.identifierAt? offset = some token := by
  have haround : index.identifiers.find?
      (fun t => t.span.start ≤ offset && offset < t.span.stop) = some token := by
    refine find?_eq_some_of_unique hmem (by simp [hstart, hstop]) fun other hother hp => ?_
    simp only [Bool.and_eq_true, decide_eq_true_eq] at hp
    exact eq_of_around hlined hmem hother hstart hstop hp.1 hp.2
  rw [identifierAt?, haround]
  rfl

/-- A cursor at the start of an identifier that has a width means it. -/
theorem identifierAt?_start (hlined : Tree.Lined span index.identifiers)
    (hmem : token ∈ index.identifiers) (hwide : token.span.start < token.span.stop) :
    index.identifierAt? token.span.start = some token :=
  identifierAt?_of_around hlined hmem (Nat.le_refl _) hwide

/-- A cursor in an identifier that has a width, or at one of its ends, means an identifier that has a
width. -/
theorem exists_identifierAt? (hlined : Tree.Lined span index.identifiers)
    (hmem : token ∈ index.identifiers) (hwide : token.span.start < token.span.stop)
    (htouches : token.span.touches offset = true) :
    ∃ chosen, index.identifierAt? offset = some chosen ∧ chosen.span.start < chosen.span.stop := by
  cases haround : index.identifiers.find?
      (fun t => t.span.start ≤ offset && offset < t.span.stop) with
  | some chosen =>
      have hp := List.find?_some haround
      simp only [Bool.and_eq_true, decide_eq_true_eq] at hp
      refine ⟨chosen, ?_, by omega⟩
      rw [identifierAt?, haround]
      rfl
  | none =>
      -- The cursor is at the end of the identifier, and those of no width there come behind it.
      have hoffset : token.span.stop = offset := by
        have hnot := List.find?_eq_none.mp haround token hmem
        simp only [Span.touches, Bool.and_eq_true, decide_eq_true_eq] at htouches hnot
        omega
      have hends : index.identifiers.find? (fun t => t.span.stop == offset) = some token := by
        have hends : (index.identifiers.find? fun t => t.span.stop == offset).isSome :=
          List.find?_isSome.mpr ⟨token, hmem, by simp [hoffset]⟩
        obtain ⟨first, hfirst⟩ := Option.isSome_iff_exists.mp hends
        obtain ⟨hstop, before, behind, hsplit, hbefore⟩ := List.find?_eq_some_iff_append.mp hfirst
        have hpairwise := hlined.2
        rw [hsplit] at hmem hpairwise
        rcases List.mem_append.mp hmem with hmem | hmem
        · simpa [hoffset] using hbefore token hmem
        · rcases List.mem_cons.mp hmem with rfl | hmem
          · exact hfirst
          · have hbehind := (List.pairwise_cons.mp (List.pairwise_append.mp hpairwise).2.1).1 token hmem
            simp only [beq_iff_eq] at hstop
            omega
      refine ⟨token, ?_, hwide⟩
      rw [identifierAt?, haround, hends]
      rfl

end Index

end CodeIntel
