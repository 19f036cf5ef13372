import CodeIntel.Proofs.Source.Editing
import CodeIntel.Proofs.Source.Words

/-! Edits at the extents of spans. The position of an offset is one of the text even where the offset itself
has none, so that the extent of a span is a range of the document, and the extents of spans that follow each
other do not overlap. If both ends of a span have positions, an edit at its extent exchanges the span. -/

namespace CodeIntel

namespace Lines

theorem exists_shown_of_locate {all : List (List Char)} (hne : all ≠ []) (bytes : Nat) :
    ∃ line, all[(locate all bytes).line]? = some line ∧
      (locate all bytes).column ≤ (content line).length := by
  induction all generalizing bytes with
  | nil => exact absurd rfl hne
  | cons first rest ih =>
      cases rest with
      | nil => exact ⟨first, rfl, fitting_le_length _ _⟩
      | cons second rest =>
          rw [locate_cons_cons]
          split
          · exact ⟨first, rfl, fitting_le_length _ _⟩
          · exact ih (List.cons_ne_nil _ _) _

/-- The position of an offset is one of the text. -/
theorem exists_offset_locate (cs : List Char) (bytes : Nat) :
    ∃ other, offset cs (locate (lines cs) bytes) = .ok other := by
  obtain ⟨line, hline, hcolumn⟩ := exists_shown_of_locate (Text.pieces_ne_nil '\n' cs) bytes
  exact ⟨_, offset_eq_ok.mpr ⟨line, hline, hcolumn, rfl⟩⟩

/-- A line that a position is in has a first position. -/
theorem exists_offset_of_line {cs : List Char} {p : Position} {bytes : Nat} (h : offset cs p = .ok bytes) :
    ∃ other, offset cs ⟨p.line, 0⟩ = .ok other := by
  obtain ⟨line, hline, -, -⟩ := offset_eq_ok.mp h
  exact ⟨_, offset_eq_ok.mpr ⟨line, hline, Nat.zero_le _, rfl⟩⟩

/-- A byte offset lies behind the carriage return of the end of a line: before its line feed or, if the last
line ends so, at the end of the text. -/
def InsideTerminator (cs : List Char) (bytes : Nat) : Prop :=
  ∃ front back, cs = front ++ '\r' :: back ∧ Text.byteLength front + 1 = bytes ∧
    (back = [] ∨ back.head? = some '\n')

theorem addressable_of_not_insideTerminator {front back : List Char}
    (h : ¬ InsideTerminator (front ++ back) (Text.byteLength front)) : Addressable front back := by
  intro hlast
  obtain ⟨front, rfl⟩ := List.getLast?_eq_some_iff.mp hlast
  have hnot : ¬ (back = [] ∨ back.head? = some '\n') := fun hends =>
    h ⟨front, back, by simp, by rw [Text.byteLength_append]; rfl, hends⟩
  exact not_or.mp hnot

end Lines

namespace Document

variable {d : Document} {span other : Span} {edit : TextEdit} {edits : List TextEdit}

/-- A span is a piece of the text, and neither of its ends lies inside the end of a line. -/
structure Addressed (d : Document) (span : Span) : Prop where
  inText : ∃ text, d.slice? span = some text
  start : ¬ Lines.InsideTerminator d.chars span.start
  stop : ¬ Lines.InsideTerminator d.chars span.stop

/-- What stands in front of an offset inside the end of a line is a carriage return. -/
theorem slice?_of_insideTerminator {offset : Nat} (h : Lines.InsideTerminator d.chars offset) :
    d.slice? ⟨offset - 1, offset⟩ = some "\r" := by
  obtain ⟨front, back, hchars, hfront, -⟩ := h
  have hpiece : Text.slice? d.chars (offset - 1) offset = some ['\r'] :=
    Text.slice?_eq_some.mpr ⟨front, back, by rw [hchars, List.append_cons], by omega, by
      rw [show Text.byteLength ['\r'] = 1 from rfl]
      omega⟩
  rw [slice?, hpiece]
  rfl

theorem addressed_of_not_mem {text : String} (h : d.slice? span = some text) (hreturn : '\r' ∉ d.chars) :
    d.Addressed span := by
  have hnone : ∀ bytes, ¬ Lines.InsideTerminator d.chars bytes := by
    rintro bytes ⟨front, back, hchars, -, -⟩
    exact hreturn (hchars ▸ List.mem_append_right _ List.mem_cons_self)
  exact ⟨⟨text, h⟩, hnone _, hnone _⟩

namespace Addressed

theorem offsetAt_start (h : d.Addressed span) : d.offsetAt (d.extent span).start = .ok span.start := by
  obtain ⟨text, htext⟩ := h.inText
  obtain ⟨front, back, hchars, hstart, -⟩ := exists_of_slice? htext
  rw [List.append_assoc] at hchars
  have haddressable := Lines.addressable_of_not_insideTerminator (hchars ▸ hstart ▸ h.start)
  rw [extent, ← hstart]
  exact offsetAt_locate hchars haddressable

theorem offsetAt_stop (h : d.Addressed span) : d.offsetAt (d.extent span).stop = .ok span.stop := by
  obtain ⟨text, htext⟩ := h.inText
  obtain ⟨front, back, hchars, hstart, hstop⟩ := exists_of_slice? htext
  rw [← hstart, ← Text.byteLength_append] at hstop
  have haddressable := Lines.addressable_of_not_insideTerminator (hchars ▸ hstop ▸ h.stop)
  rw [extent, ← hstop]
  exact offsetAt_locate hchars haddressable

/-- Spans of one extent are the same. -/
theorem eq_of_extent_eq (h : d.Addressed span) (h' : d.Addressed other)
    (heq : d.extent span = d.extent other) : span = other := by
  have hstart := h.offsetAt_start
  have hstop := h.offsetAt_stop
  rw [heq, h'.offsetAt_start] at hstart
  rw [heq, h'.offsetAt_stop] at hstop
  obtain ⟨start, stop⟩ := span
  obtain ⟨start', stop'⟩ := other
  obtain rfl : start' = start := Except.ok.inj hstart
  obtain rfl : stop' = stop := Except.ok.inj hstop
  rfl

/-- The extent of a span contains the positions of the offsets that the span touches. -/
theorem contains_eq_touches (h : d.Addressed span) {p : Position} {offset : Nat}
    (hp : d.offsetAt p = .ok offset) : (d.extent span).contains p = span.touches offset := by
  have hle : ∀ {p q first second}, d.offsetAt p = .ok first → d.offsetAt q = .ok second →
      (p ≤ q ↔ first ≤ second) := by
    intro p q first second hp hq
    rw [← Position.not_lt, ← Nat.not_lt]
    exact not_congr (Lines.lt_iff_offset_lt hq hp)
  rw [Range.contains, Span.touches, decide_eq_decide.mpr (hle h.offsetAt_start hp),
    decide_eq_decide.mpr (hle hp h.offsetAt_stop)]

/-- The extent of a span contains the start of another one's if the spans touch there. -/
theorem contains_extent (h : d.Addressed span) (h' : d.Addressed other) :
    (d.extent span).contains (d.extent other).start = span.touches other.start :=
  h.contains_eq_touches h'.offsetAt_start

end Addressed

/-- The extent of a span is a range of the document. -/
theorem holds_extent (d : Document) (h : span.start ≤ span.stop) : d.Holds (d.extent span) where
  ordered := Position.not_lt.mpr (Lines.locate_mono _ h)
  start := Lines.exists_offset_locate _ _
  stop := Lines.exists_offset_locate _ _

/-- A position of the document is a range of it. -/
theorem holds_point {p : Position} (h : ∃ offset, d.offsetAt p = .ok offset) : d.Holds (.point p) where
  ordered := Position.not_lt.mpr (.inr ⟨rfl, Nat.le_refl _⟩)
  start := h
  stop := h

theorem accepts_singleton (h : d.Holds edit.range) : d.Accepts [edit] where
  held other hother := List.mem_singleton.mp hother ▸ h
  apart := by
    obtain ⟨splice, hsplice⟩ := exists_splice_iff.mpr h
    rw [splices_cons hsplice]
    exact List.pairwise_singleton _ _

/-- Edits at the extents of spans that follow each other do not overlap. -/
theorem stop_le_of_extents {newText newText' : String} {splice splice' : Splice}
    (h : d.splice ⟨d.extent span, newText⟩ = .ok splice)
    (h' : d.splice ⟨d.extent other, newText'⟩ = .ok splice') (hbehind : span.stop ≤ other.start) :
    splice.span.stop ≤ splice'.span.start := by
  rcases d.splice_cases ⟨d.extent span, newText⟩ with ⟨-, _, stop, -, hstop, hsplice⟩ | ⟨-, _, hsplice, -⟩
  · obtain rfl := Except.ok.inj (h.symm.trans hsplice)
    rcases d.splice_cases ⟨d.extent other, newText'⟩ with
      ⟨-, start, _, hstart, -, hsplice'⟩ | ⟨-, _, hsplice', -⟩
    · obtain rfl := Except.ok.inj (h'.symm.trans hsplice')
      exact Lines.offset_mono (Lines.locate_mono _ hbehind) hstop hstart
    · cases h'.symm.trans hsplice'
  · cases h.symm.trans hsplice

/-- Edits at the extents of spans that follow each other are accepted. -/
theorem accepts_extents (d : Document) {spans : List Span} (hwide : ∀ span ∈ spans, span.start ≤ span.stop)
    (hordered : spans.Pairwise fun first second => first.stop ≤ second.start) (newText : String) :
    d.Accepts (spans.map fun span => ⟨d.extent span, newText⟩) where
  held edit hedit := by
    obtain ⟨span, hspan, rfl⟩ := List.mem_map.mp hedit
    exact d.holds_extent (hwide span hspan)
  apart := by
    rw [splices, List.filterMap_map, List.pairwise_filterMap]
    refine hordered.imp fun {first second} hbehind splice hsplice splice' hsplice' => .inl ?_
    exact stop_le_of_extents (toOption_eq_some.mp hsplice) (toOption_eq_some.mp hsplice') hbehind

/-- Pieces of the text that follow each other make up one. -/
theorem slice?_append {start middle stop : Nat} {first second : String}
    (hfirst : d.slice? ⟨start, middle⟩ = some first) (hsecond : d.slice? ⟨middle, stop⟩ = some second) :
    d.slice? ⟨start, stop⟩ = some (first ++ second) := by
  obtain ⟨front, back, hchars, hstart, hmiddle⟩ := exists_of_slice? hfirst
  obtain ⟨front', back', hchars', hstart', hstop⟩ := exists_of_slice? hsecond
  dsimp only at hstart hmiddle hstart' hstop
  have hcut : (front ++ first.toList) ++ back = front' ++ (second.toList ++ back') := by
    rw [← hchars, hchars', List.append_assoc]
  have hlength : Text.byteLength (front ++ first.toList) = Text.byteLength front' := by
    rw [Text.byteLength_append, hstart, hmiddle, hstart']
  obtain ⟨-, rfl⟩ := Text.append_inj_of_byteLength hcut hlength
  have hpiece : Text.slice? d.chars start stop = some (first ++ second).toList := by
    refine Text.slice?_eq_some.mpr ⟨front, back', ?_, hstart, ?_⟩
    · rw [hchars, String.toList_append]
      simp only [List.append_assoc]
    · rw [String.toList_append, Text.byteLength_append]
      omega
  rw [slice?, hpiece, Option.map_some, String.ofList_toList]

/-- An edit at the extent of a span both of whose ends have positions exchanges the span. -/
theorem splice_extent_of_addressed (hle : span.start ≤ span.stop)
    (hstart : ∃ p, d.offsetAt p = .ok span.start) (hstop : ∃ p, d.offsetAt p = .ok span.stop)
    (newText : String) : d.splice ⟨d.extent span, newText⟩ = .ok ⟨span, newText⟩ := by
  have hback : ∀ offset, (∃ p, d.offsetAt p = .ok offset) →
      d.offsetAt (Lines.locate (Lines.lines d.chars) offset) = .ok offset := by
    rintro offset ⟨p, hp⟩
    have hposition := Lines.position_of_offset hp
    rw [Lines.position, if_pos (Lines.boundary_of_offset hp).le] at hposition
    rw [Except.ok.inj hposition]
    exact hp
  rw [splice, if_neg (d.holds_extent hle).ordered, extent, hback _ hstart, hback _ hstop]

/-- An edit at the extent of such a span keeps what stands in front of the span and behind it. -/
theorem applyEdits_extent {front middle back : List Char} (hchars : d.chars = front ++ middle ++ back)
    (hfront : Text.byteLength front = span.start) (hmiddle : Text.byteLength (front ++ middle) = span.stop)
    (hstart : ∃ p, d.offsetAt p = .ok span.start) (hstop : ∃ p, d.offsetAt p = .ok span.stop)
    (newText : String) (version : Nat) :
    d.applyEdits [⟨d.extent span, newText⟩] version =
      .ok ⟨d.path, String.ofList (front ++ newText.toList ++ back), version⟩ := by
  have hle : span.start ≤ span.stop := by
    rw [← hfront, ← hmiddle, Text.byteLength_append]
    omega
  have hsplices : d.splices [⟨d.extent span, newText⟩] = [⟨span, newText⟩] :=
    splices_cons (splice_extent_of_addressed hle hstart hstop newText)
  have hmade : Splice.applyFrom 0 d.chars [⟨span, newText⟩] = front ++ newText.toList ++ back := by
    rw [hchars, List.append_assoc front]
    have hdone : Text.byteLength ([] ++ front) = (Splice.mk span newText).span.start := hfront
    exact Splice.applyFrom_cons hdone hmiddle back []
  refine applyEdits_eq_ok.mpr ⟨accepts_singleton (d.holds_extent hle), ?_⟩
  rw [hsplices, List.mergeSort_singleton, hmade]

end Document

end CodeIntel
