import CodeIntel.Proofs.Source.Editing
import Mathlib

/-! The order in which edits are given. Edits are sorted before they are made, so that another order makes
a difference only for edits of one span; and as edits must not overlap, these are insertions at one
position. All else is the same whatever the order is: whether the edits are made, with which class of
error they are refused, and what the new text is. -/

namespace CodeIntel

namespace Splice

theorem span_eq_of_precedes {a b : Splice} (h : precedes a b = true) (h' : precedes b a = true) :
    a.span = b.span := by
  obtain ⟨⟨start, stop⟩, _⟩ := a
  obtain ⟨⟨start', stop'⟩, _⟩ := b
  rw [precedes_iff] at h h'
  rw [Span.mk.injEq]
  simp only at h h'
  omega

/-- However splices are given, the same order comes out as long as those of one span are given in the same
order. -/
theorem Arranged.unique {given given' ordered ordered' : List Splice} (h : Arranged given ordered)
    (h' : Arranged given' ordered')
    (hties : ∀ span, given.filter (·.span = span) = given'.filter (·.span = span)) :
    ordered = ordered' :=
  eq_of_ties Splice.span (fun _ _ => span_eq_of_precedes) h.sorted h'.sorted fun span => by
    rw [h.ties, h'.ties, hties]

/-- Of splices that are apart at most one has a span that is not empty. -/
theorem filter_eq_of_perm {cs : List Char} {given given' : List Splice} {span : Span}
    (hperm : given.Perm given') (hfits : ∀ splice ∈ given, splice.Fits cs)
    (hapart : given.Pairwise fun a b => a.span.Apart b.span) (hwide : span.start ≠ span.stop) :
    given.filter (·.span = span) = given'.filter (·.span = span) := by
  have hsame := hperm.filter (·.span = span)
  have honly := hapart.filter (·.span = span)
  have hspan : ∀ splice ∈ given.filter (·.span = span), splice.span = span ∧ splice.Fits cs := by
    intro splice hmem
    obtain ⟨hgiven, heq⟩ := List.mem_filter.mp hmem
    exact ⟨of_decide_eq_true heq, hfits splice hgiven⟩
  generalize given.filter (·.span = span) = found at *
  match found with
  | [] => exact (List.nil_perm.mp hsame).symm
  | [splice] => exact List.singleton_perm.mp hsame
  | a :: b :: _ =>
      obtain ⟨ha, hfit⟩ := hspan a List.mem_cons_self
      obtain ⟨hb, -⟩ := hspan b (by simp)
      have hboth := (List.pairwise_cons.mp honly).1 b List.mem_cons_self
      have hordered := hfit.ordered
      rw [ha] at hordered hboth
      rw [hb] at hboth
      unfold Span.Apart at hboth
      omega

end Splice

namespace Document

variable {d : Document} {edits edits' : List TextEdit}

theorem Accepts.perm (h : edits.Perm edits') (haccepts : d.Accepts edits) : d.Accepts edits' := by
  have hsymm : ∀ {a b : Splice}, a.span.Apart b.span → b.span.Apart a.span := Span.Apart.symm
  refine ⟨fun edit hmem => haccepts.held edit (h.mem_iff.mpr hmem), ?_⟩
  exact ((h.filterMap _).pairwise_iff hsymm).mp haccepts.apart

/-- The insertions at an offset are those at its position. -/
theorem filter_splices {p : Position} {offset : Nat} (hp : d.offsetAt p = .ok offset)
    (edits : List TextEdit) :
    (d.splices edits).filter (·.span = ⟨offset, offset⟩) =
      d.splices (edits.filter (·.range = .point p)) := by
  induction edits with
  | nil => rfl
  | cons edit edits ih =>
      rcases d.splice_cases edit with ⟨-, start, stop, hstart, hstop, hsplice⟩ | ⟨-, error, hsplice, -⟩
      · have hsame : (⟨start, stop⟩ : Span) = ⟨offset, offset⟩ ↔ edit.range = .point p := by
          obtain ⟨⟨first, last⟩, newText⟩ := edit
          rw [Span.mk.injEq, Range.point, Range.mk.injEq]
          constructor
          · rintro ⟨rfl, rfl⟩
            exact ⟨Lines.eq_of_offset_eq hstart hp, Lines.eq_of_offset_eq hstop hp⟩
          · rintro ⟨rfl, rfl⟩
            exact ⟨Except.ok.inj (hstart.symm.trans hp), Except.ok.inj (hstop.symm.trans hp)⟩
        rw [splices_cons hsplice, List.filter_cons, List.filter_cons]
        simp only [hsame]
        split
        · rw [splices_cons hsplice, ih]
        · exact ih
      · rw [splices_cons_of_error hsplice, List.filter_cons]
        split
        · rw [splices_cons_of_error hsplice, ih]
        · exact ih

/-- Edits that can be made give the splices of each span in the same order as another list of them does
that keeps the order of insertions at one position. -/
theorem Accepts.filter_splices_eq (haccepts : d.Accepts edits) (h : edits.Perm edits')
    (hsame : ∀ p, edits.filter (·.range = .point p) = edits'.filter (·.range = .point p)) (span : Span) :
    (d.splices edits).filter (·.span = span) = (d.splices edits').filter (·.span = span) := by
  obtain ⟨start, stop⟩ := span
  by_cases hpoint : start = stop
  · subst hpoint
    by_cases hposition : ∃ p, d.offsetAt p = .ok start
    · obtain ⟨p, hp⟩ := hposition
      rw [filter_splices hp, filter_splices hp, hsame]
    · -- No edit starts at an offset without a position.
      have hnone : ∀ others, (d.splices others).filter (·.span = ⟨start, start⟩) = [] := by
        intro others
        refine List.filter_eq_nil_iff.mpr fun splice hmem hspan => hposition ?_
        obtain ⟨edit, -, hedit⟩ := List.mem_filterMap.mp hmem
        rw [toOption_eq_some] at hedit
        rcases d.splice_cases edit with ⟨-, first, last, hfirst, -, hsplice⟩ | ⟨-, error, hsplice, -⟩
        · rw [hsplice] at hedit
          obtain rfl := Except.ok.inj hedit
          obtain ⟨rfl, -⟩ := Span.mk.inj (of_decide_eq_true hspan)
          exact ⟨_, hfirst⟩
        · rw [hsplice] at hedit
          cases hedit
      rw [hnone, hnone]
  · exact Splice.filter_eq_of_perm (h.filterMap _) (fun splice hmem => fits_of_mem_splices hmem)
      haccepts.apart hpoint

/-- Edits in another order are made or refused alike, and refused with the same class of error. The document
that they make is the same if insertions at one position are given in the same order. -/
theorem applyEdits_perm (d : Document) {edits edits' : List TextEdit} (h : edits.Perm edits')
    (version : Nat) :
    ((∃ after, d.applyEdits edits version = .ok after) ↔
      ∃ after, d.applyEdits edits' version = .ok after) ∧
    (∀ error error', d.applyEdits edits version = .error error →
      d.applyEdits edits' version = .error error' → error.code = error'.code) ∧
    ((∀ p, edits.filter (·.range = .point p) = edits'.filter (·.range = .point p)) →
      ∀ after after', d.applyEdits edits version = .ok after →
        d.applyEdits edits' version = .ok after' → after = after') := by
  refine ⟨⟨?_, ?_⟩, ?_, ?_⟩
  · rintro ⟨after, hmade⟩
    exact ⟨_, applyEdits_eq_ok.mpr ⟨(applyEdits_eq_ok.mp hmade).1.perm h, rfl⟩⟩
  · rintro ⟨after, hmade⟩
    exact ⟨_, applyEdits_eq_ok.mpr ⟨(applyEdits_eq_ok.mp hmade).1.perm h.symm, rfl⟩⟩
  · intro error error' hrefused hrefused'
    rw [code_of_applyEdits hrefused, code_of_applyEdits hrefused']
  · intro hsame after after' hmade hmade'
    obtain ⟨haccepts, rfl⟩ := applyEdits_eq_ok.mp hmade
    obtain ⟨-, rfl⟩ := applyEdits_eq_ok.mp hmade'
    have horder := (Splice.arranged_mergeSort _).unique (Splice.arranged_mergeSort _)
      (haccepts.filter_splices_eq h hsame)
    rw [horder]

/-- The replacement given between the two insertions. -/
def reorderedEdits : List TextEdit :=
  [.insert ⟨0, 1⟩ "1", ⟨⟨⟨0, 1⟩, ⟨0, 2⟩⟩, "xy"⟩, .insert ⟨0, 1⟩ "2"]

/-- A replacement may be given between insertions that touch it. -/
theorem touching_edits_reordered :
    touchingEdits.Perm reorderedEdits ∧
    (∀ p, touchingEdits.filter (·.range = .point p) = reorderedEdits.filter (·.range = .point p)) ∧
    accented.applyEdits reorderedEdits 1 = .ok ⟨"A.cs", "a12xyb", 1⟩ := by
  have hperm : touchingEdits.Perm reorderedEdits := .swap _ _ _
  have hties : ∀ p, touchingEdits.filter (·.range = .point p) =
      reorderedEdits.filter (·.range = .point p) := by
    intro p
    have hwide : (⟨⟨0, 1⟩, ⟨0, 2⟩⟩ : Range) ≠ .point p := by
      rintro heq
      obtain ⟨rfl, hstop⟩ := Range.mk.inj heq
      cases hstop
    simp [touchingEdits, reorderedEdits, List.filter_cons, hwide]
  have hmade : accented.applyEdits touchingEdits 1 = .ok ⟨"A.cs", "a12xyb", 1⟩ := by cbv
  obtain ⟨halike, -, hsame⟩ := applyEdits_perm accented hperm 1
  obtain ⟨after, hreordered⟩ := halike.mp ⟨_, hmade⟩
  refine ⟨hperm, hties, ?_⟩
  rw [hreordered, ← hsame hties _ _ hmade hreordered]

/-- The order of insertions at one position shows in the text. -/
example : accented.applyEdits [.insert ⟨0, 1⟩ "2", .insert ⟨0, 1⟩ "1"] 1 =
    .ok ⟨"A.cs", "a21éb", 1⟩ := by cbv

end Document

end CodeIntel
