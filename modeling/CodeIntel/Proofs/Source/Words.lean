import CodeIntel.Proofs.Outcome
import CodeIntel.Proofs.Source.Positions
import CodeIntel.Source.Edit

/-! Words of a text and their replacement. The range of a word leads back to the very bytes of the word,
so that edits of some words in text order come out as one splice at their spans: the words are
exchanged and everything between them stays. -/

namespace CodeIntel

namespace Text

theorem slice?_eq_some {cs piece : List Char} {start stop : Nat} :
    slice? cs start stop = some piece ↔
      ∃ front back, cs = front ++ piece ++ back ∧ byteLength front = start ∧
        start + byteLength piece = stop := by
  constructor
  · intro h
    unfold slice? at h
    split at h
    · obtain ⟨⟨front, rest⟩, hfront, h⟩ := Option.bind_eq_some_iff.mp h
      obtain ⟨⟨found, back⟩, hfound, h⟩ := Option.bind_eq_some_iff.mp h
      obtain rfl := Option.some.inj h
      obtain ⟨rfl, hstart⟩ := cut?_eq_some hfront
      obtain ⟨rfl, hstop⟩ := cut?_eq_some hfound
      exact ⟨front, back, by simp, hstart, by omega⟩
    · cases h
  · rintro ⟨front, back, rfl, rfl, rfl⟩
    simp [slice?, cut?_append]

/-- A text that can stand as one word: it is not empty and does not break a line. -/
structure IsWord (word : List Char) : Prop where
  ne_nil : word ≠ []
  noFeed : '\n' ∉ word
  noReturn : '\r' ∉ word

/-- Another text in which a word has been exchanged at some spans, in order from an offset on: what
stands before, between and behind the spans is the same in both. -/
inductive Respelled (old new : List Char) : (done : Nat) → List Span → List Char → List Char → Prop
    where
  | nil (done : Nat) (rest : List Char) : Respelled old new done [] rest rest
  | cons {done : Nat} {span : Span} {spans : List Span} {rest rest' : List Char} (gap : List Char) :
      span.start = done + byteLength gap → span.stop = span.start + byteLength old →
      Respelled old new span.stop spans rest rest' →
      Respelled old new done (span :: spans) (gap ++ old ++ rest) (gap ++ new ++ rest')

end Text

namespace Document

open Lines (Addressable)

variable {d : Document} {word : String} {span : Span}

theorem exists_of_slice? (h : d.slice? span = some word) :
    ∃ front back, d.chars = front ++ word.toList ++ back ∧ Text.byteLength front = span.start ∧
      span.start + Text.byteLength word.toList = span.stop := by
  obtain ⟨piece, hpiece, rfl⟩ := Option.map_eq_some_iff.mp h
  rw [String.toList_ofList]
  exact Text.slice?_eq_some.mp hpiece

/-- The range of a span of the text. -/
def extent (d : Document) (span : Span) : Range :=
  ⟨Lines.locate (Lines.lines d.chars) span.start, Lines.locate (Lines.lines d.chars) span.stop⟩

/-- The ends of a piece of the text are in order and inside the text. -/
theorem le_of_slice? (h : d.slice? span = some word) :
    span.start ≤ span.stop ∧ span.stop ≤ Text.byteLength d.chars := by
  obtain ⟨front, back, hchars, hstart, hstop⟩ := exists_of_slice? h
  have hlength := congrArg Text.byteLength hchars
  simp only [Text.byteLength_append] at hlength
  omega

theorem positionAt_of_le {offset : Nat} (h : offset ≤ Text.byteLength d.chars) :
    d.positionAt offset = .ok (Lines.locate (Lines.lines d.chars) offset) := if_pos h

/-- Every span inside the text has a range. -/
theorem rangeOf_of_le (hle : span.start ≤ span.stop) (hinside : span.stop ≤ Text.byteLength d.chars) :
    d.rangeOf span = .ok (d.extent span) := by
  rw [rangeOf, positionAt_of_le (Nat.le_trans hle hinside), positionAt_of_le hinside]
  rfl

theorem rangeOf_of_slice? (h : d.slice? span = some word) : d.rangeOf span = .ok (d.extent span) :=
  rangeOf_of_le (le_of_slice? h).1 (le_of_slice? h).2

/-- The start of the range of a piece of the text leads back to the piece, unless it lies inside the end of
a line. -/
theorem offsetAt_start (h : d.slice? span = some word) (hwide : span.start < span.stop)
    (hstart : ¬ Lines.InsideEnd d.chars span.start) :
    d.offsetAt (d.extent span).start = .ok span.start := by
  obtain ⟨front, back, hchars, hfront, hstop⟩ := exists_of_slice? h
  rw [List.append_assoc] at hchars
  have hbefore : Addressable front (word.toList ++ back) := by
    intro hlast
    constructor
    · intro hnil
      rw [(List.append_eq_nil_iff.mp hnil).1, Text.byteLength_nil] at hstop
      omega
    · intro hhead
      obtain ⟨before, rfl⟩ := List.getLast?_eq_some_iff.mp hlast
      obtain ⟨rest, hrest⟩ := List.head?_eq_some_iff.mp hhead
      refine hstart ⟨before, rest, ?_, ?_⟩
      · rw [hchars, hrest, List.append_assoc]
        rfl
      · rw [← hfront, Text.byteLength_append]
        rfl
  have hoffset := offsetAt_locate hchars hbefore
  rw [hfront] at hoffset
  exact hoffset

/-- No word starts inside the end of a line. -/
theorem not_insideEnd (h : d.slice? span = some word) (hword : Text.IsWord word.toList) :
    ¬ Lines.InsideEnd d.chars span.start := by
  rintro ⟨before, rest, hsplit, hbefore⟩
  obtain ⟨front, back, hchars, hfront, -⟩ := exists_of_slice? h
  obtain ⟨first, others, hfirst⟩ := List.exists_cons_of_ne_nil hword.ne_nil
  have hcut : front ++ (word.toList ++ back) = (before ++ ['\r']) ++ ('\n' :: rest) := by
    rw [← List.append_assoc, ← hchars, hsplit, List.append_assoc]
    rfl
  have hlength : Text.byteLength front = Text.byteLength (before ++ ['\r']) := by
    rw [hfront, ← hbefore, Text.byteLength_append]
    rfl
  have hhead := (Text.append_inj_of_byteLength hcut hlength).2
  rw [hfirst, List.cons_append, List.cons.injEq] at hhead
  refine hword.noFeed ?_
  rw [hfirst, hhead.1]
  exact List.mem_cons_self

theorem start_lt_stop (h : d.slice? span = some word) (hne : word ≠ "") : span.start < span.stop := by
  obtain ⟨_, _, -, -, hstop⟩ := exists_of_slice? h
  have hlength : Text.byteLength word.toList ≠ 0 := fun hzero =>
    hne (String.toList_eq_nil_iff.mp (Text.eq_nil_of_byteLength hzero))
  omega

/-- The range of a word leads back to its span. -/
theorem splice_extent (h : d.slice? span = some word) (hword : Text.IsWord word.toList)
    (newText : String) : d.splice ⟨d.extent span, newText⟩ = .ok ⟨span, newText⟩ := by
  obtain ⟨front, back, hchars, hstart, hstop⟩ := exists_of_slice? h
  have hwide := start_lt_stop h fun hnil => hword.ne_nil (String.toList_eq_nil_iff.mpr hnil)
  have hoffset := offsetAt_start h hwide (not_insideEnd h hword)
  -- The last character of the word is no carriage return.
  have hbehind : Addressable (front ++ word.toList) back := by
    intro hlast
    rw [List.getLast?_append_of_ne_nil _ hword.ne_nil] at hlast
    exact absurd (List.mem_of_getLast? hlast) hword.noReturn
  have hoffset' := offsetAt_locate hchars hbehind
  rw [Text.byteLength_append, hstart, hstop] at hoffset'
  have horder := Lines.locate_mono (Lines.lines d.chars) (show span.start ≤ span.stop by omega)
  rw [extent] at hoffset
  rw [splice, extent, if_neg (Position.not_lt.mpr horder), hoffset, hoffset']

/-- Some spans of a document, each behind the one before, at all of which a word stands. -/
structure WordsAt (d : Document) (word : String) (spans : List Span) : Prop where
  isWord : Text.IsWord word.toList
  stands : ∀ span ∈ spans, d.slice? span = some word
  ordered : spans.Pairwise fun first second => first.stop ≤ second.start

namespace WordsAt

variable {spans : List Span}

theorem start_le_stop (h : d.WordsAt word spans) (hmem : span ∈ spans) : span.start ≤ span.stop := by
  obtain ⟨_, _, -, -, hstop⟩ := exists_of_slice? (h.stands span hmem)
  omega

theorem tail (h : d.WordsAt word (span :: spans)) : d.WordsAt word spans :=
  ⟨h.isWord, fun other hmem => h.stands other (List.mem_cons_of_mem _ hmem),
    (List.pairwise_cons.mp h.ordered).2⟩

/-- The splices of such spans are in the order in which they are applied. -/
theorem mergeSort_eq (h : d.WordsAt word spans) (newText : String) :
    (spans.map fun span => Splice.mk span newText).mergeSort Splice.precedes =
      spans.map fun span => Splice.mk span newText := by
  refine List.mergeSort_of_pairwise (List.pairwise_map.mpr ?_)
  refine h.ordered.imp_of_mem fun {first second} hfirst hsecond hbehind => ?_
  have hle := h.start_le_stop hfirst
  have hle' := h.start_le_stop hsecond
  simp only [Splice.precedes, Bool.or_eq_true, decide_eq_true_eq, Bool.and_eq_true, beq_iff_eq]
  omega

theorem overlap?_eq_none (h : d.WordsAt word spans) (newText : String) :
    Splice.overlap? (spans.map fun span => Splice.mk span newText) = none := by
  induction spans with
  | nil => rfl
  | cons first rest ih =>
      cases rest with
      | nil => rfl
      | cons second rest =>
          have hbehind := (List.pairwise_cons.mp h.ordered).1 second List.mem_cons_self
          rw [List.map_cons, List.map_cons, Splice.overlap?, if_neg (Nat.not_lt.mpr hbehind)]
          exact ih h.tail

/-- Putting a text at every one of the spans exchanges the words and nothing else. -/
theorem respelled (h : d.WordsAt word spans) (newText : String) {front rest : List Char}
    (hchars : d.chars = front ++ rest)
    (hahead : ∀ span ∈ spans, Text.byteLength front ≤ span.start) :
    Text.Respelled word.toList newText.toList (Text.byteLength front) spans rest
      (Splice.applyFrom (Text.byteLength front) rest
        (spans.map fun span => Splice.mk span newText)) := by
  induction spans generalizing front rest with
  | nil => exact .nil _ _
  | cons span spans ih =>
      obtain ⟨before, behind, hsplit, hstart, hstop⟩ :=
        exists_of_slice? (h.stands span List.mem_cons_self)
      have hstarts := hahead span List.mem_cons_self
      -- The word stands in the rest of the text, behind a gap.
      obtain ⟨gap, rfl, rfl⟩ : ∃ gap, before = front ++ gap ∧ rest = gap ++ (word.toList ++ behind) := by
        rw [hchars, List.append_assoc] at hsplit
        exact Text.exists_gap hsplit (by omega)
      rw [Text.byteLength_append] at hstart
      have hgap : span.start - Text.byteLength front = Text.byteLength gap := by omega
      have hword : span.stop - span.start = Text.byteLength word.toList := by omega
      have hdone : Text.byteLength (front ++ gap ++ word.toList) = span.stop := by
        simp only [Text.byteLength_append]
        omega
      have hbehind : ∀ other ∈ spans, Text.byteLength (front ++ gap ++ word.toList) ≤ other.start := by
        rw [hdone]
        exact (List.pairwise_cons.mp h.ordered).1
      have hrest := ih h.tail hsplit hbehind
      rw [hdone] at hrest
      rw [List.map_cons, Splice.applyFrom, hgap, Text.cut?_append]
      dsimp only
      rw [hword, Text.cut?_append, ← List.append_assoc]
      exact .cons gap (by omega) (by omega) hrest

/-- Edits that give each of the words another spelling are made, and exchange the words and nothing
else. -/
theorem applyEdits (h : d.WordsAt word spans) (newText : String) (version : Nat) :
    ∃ after, d.applyEdits (spans.map fun span => ⟨d.extent span, newText⟩) version = .ok after ∧
      after.path = d.path ∧ after.version = version ∧
      Text.Respelled word.toList newText.toList 0 spans d.chars after.chars := by
  have hsplices : (spans.map fun span => TextEdit.mk (d.extent span) newText).mapM d.splice =
      .ok (spans.map fun span => Splice.mk span newText) := by
    rw [mapM_eq_ok, List.forall₂_map_left_iff, List.forall₂_map_right_iff, List.forall₂_same]
    exact fun span hmem => splice_extent (h.stands span hmem) h.isWord newText
  have hmade := h.respelled newText (List.nil_append d.chars).symm fun _ _ => Nat.zero_le _
  refine ⟨{ d with
    text := String.ofList (Splice.applyFrom 0 d.chars (spans.map fun span => Splice.mk span newText))
    version }, ?_, rfl, rfl, ?_⟩
  · rw [Document.applyEdits, hsplices]
    simp only [bind, Except.bind, h.mergeSort_eq, h.overlap?_eq_none]
    rfl
  · rw [chars, chars, String.toList_ofList]
    exact hmade

end WordsAt

end Document

end CodeIntel
