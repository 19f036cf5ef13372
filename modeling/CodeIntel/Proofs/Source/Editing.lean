import CodeIntel.Proofs.Sorting
import CodeIntel.Proofs.Source.Adjunction

/-! Making edits, exactly. Edits are made when each has a range of the document and no two of them
overlap; nothing else is asked, and what is refused is a bad argument. The new text is made of the pieces
of the old one between the spans and of the new texts, in the order of the spans. Putting the new texts
in from the last to the first, on a text that changes under way, comes to the same. -/

namespace CodeIntel

namespace Span

/-- Whether two spans do not overlap: one of them ends before the other starts, or where it starts. So
spans may touch, and several insertions may be at one point. -/
def Apart (a b : Span) : Prop := a.stop ≤ b.start ∨ b.stop ≤ a.start

theorem Apart.symm {a b : Span} (h : a.Apart b) : b.Apart a := Or.symm h

end Span

namespace Splice

/-! ### The order of splices -/

theorem precedes_iff {a b : Splice} :
    precedes a b = true ↔ a.span.start < b.span.start ∨
      (a.span.start = b.span.start ∧ a.span.stop ≤ b.span.stop) := by
  simp [precedes]

theorem precedes_trans (a b c : Splice) (h : precedes a b = true) (h' : precedes b c = true) :
    precedes a c = true := by
  rw [precedes_iff] at *
  omega

theorem precedes_total (a b : Splice) : (precedes a b || precedes b a) = true := by
  rw [Bool.or_eq_true, precedes_iff, precedes_iff]
  omega

/-- Given splices in the order of their spans, by start and then by stop. Splices of one span are in the
order in which they are given. -/
structure Arranged (given ordered : List Splice) : Prop where
  perm : ordered.Perm given
  sorted : ordered.Pairwise fun a b => precedes a b = true
  ties : ∀ span, ordered.filter (·.span = span) = given.filter (·.span = span)

theorem arranged_mergeSort (given : List Splice) : Arranged given (given.mergeSort precedes) := by
  refine ⟨List.mergeSort_perm given precedes,
    List.pairwise_mergeSort precedes_trans precedes_total given, fun span => ?_⟩
  refine filter_mergeSort precedes_trans precedes_total (fun a b ha hb => ?_) given
  rw [precedes_iff, of_decide_eq_true ha, of_decide_eq_true hb]
  omega

section

variable {cs : List Char} {splices ordered : List Splice}

/-- Of two splices that are apart the one that precedes ends before the other starts. -/
theorem stop_le_of_apart {a b : Splice} (hapart : a.span.Apart b.span) (hprecedes : precedes a b = true)
    (ha : a.Fits cs) (hb : b.Fits cs) : a.span.stop ≤ b.span.start := by
  have hordered := ha.ordered
  have hordered' := hb.ordered
  rw [precedes_iff] at hprecedes
  rcases hapart with hbefore | hbehind
  · exact hbefore
  · omega

/-- Looking at neighbours is enough: none of them overlap exactly when no splice starts before an earlier
one ends. -/
theorem overlap?_eq_none_iff (hfits : ∀ splice ∈ ordered, splice.Fits cs) :
    overlap? ordered = none ↔ ordered.Pairwise fun a b => a.span.stop ≤ b.span.start := by
  induction ordered with
  | nil => simp [overlap?]
  | cons first rest ih =>
      have hrest := ih fun splice hmem => hfits splice (List.mem_cons_of_mem _ hmem)
      cases rest with
      | nil => simp [overlap?]
      | cons second rest =>
          rw [overlap?, List.pairwise_cons]
          split
          · rename_i hoverlap
            refine iff_of_false (by simp) fun h => ?_
            exact Nat.not_le_of_lt hoverlap (h.1 second List.mem_cons_self)
          · rename_i hbehind
            rw [hrest, iff_and_self]
            intro hpairwise other hother
            have hsecond := (hfits second (by simp)).ordered
            rcases List.mem_cons.mp hother with rfl | hother
            · exact Nat.not_lt.mp hbehind
            · have hnext := (List.pairwise_cons.mp hpairwise).1 other hother
              omega

/-- Sorted splices follow each other exactly when any two of them are apart. -/
theorem Arranged.overlap?_eq_none (h : Arranged splices ordered)
    (hfits : ∀ splice ∈ splices, splice.Fits cs) :
    overlap? ordered = none ↔ splices.Pairwise fun a b => a.span.Apart b.span := by
  have hfits' : ∀ splice ∈ ordered, splice.Fits cs := fun splice hmem =>
    hfits splice (h.perm.mem_iff.mp hmem)
  have hsymm : ∀ {a b : Splice}, a.span.Apart b.span → b.span.Apart a.span := Span.Apart.symm
  rw [overlap?_eq_none_iff hfits', ← h.perm.pairwise_iff hsymm]
  constructor
  · exact fun hpairwise => hpairwise.imp Or.inl
  · intro hapart
    refine (h.sorted.and hapart).imp_of_mem fun ha hb hboth => ?_
    exact stop_le_of_apart hboth.2 hboth.1 (hfits' _ ha) (hfits' _ hb)

/-! ### What the new text is made of -/

/-- The text that splices in order make of a text from a byte offset on: the slices of the text before,
between and behind their spans, with their new texts in between. Nothing when one of these, or what a
span covers, is not a slice of the text. -/
def assembled? (cs : List Char) (done : Nat) : List Splice → Option (List Char)
  | [] => Text.slice? cs done (Text.byteLength cs)
  | splice :: rest => do
    let kept ← Text.slice? cs done splice.span.start
    let _ ← Text.slice? cs splice.span.start splice.span.stop
    let more ← assembled? cs splice.span.stop rest
    return kept ++ splice.newText.toList ++ more

/-- A text with what a span covers exchanged; nothing when that is not a slice of the text. -/
def replaced? (cs : List Char) (splice : Splice) : Option (List Char) :=
  if splice.span.start ≤ splice.span.stop then do
    let (front, rest) ← Text.cut? cs splice.span.start
    let (_, back) ← Text.cut? rest (splice.span.stop - splice.span.start)
    return front ++ splice.newText.toList ++ back
  else none

theorem replaced?_append {splice : Splice} {front old : List Char} (back : List Char)
    (hstart : Text.byteLength front = splice.span.start)
    (hstop : Text.byteLength (front ++ old) = splice.span.stop) :
    replaced? (front ++ (old ++ back)) splice = some (front ++ splice.newText.toList ++ back) := by
  rw [Text.byteLength_append, hstart] at hstop
  have hold : splice.span.stop - splice.span.start = Text.byteLength old := by omega
  rw [replaced?, if_pos (by omega), ← hstart, Text.cut?_append]
  simp [hstart, hold, Text.cut?_append]

/-- Splices that follow each other make of a text what its slices and the new texts make. -/
theorem assembled?_eq {front rest : List Char} (hcs : cs = front ++ rest)
    (hfits : ∀ splice ∈ splices, splice.Fits cs)
    (horder : InOrder (Text.byteLength cs) (Text.byteLength front) splices) :
    assembled? cs (Text.byteLength front) splices =
      some (applyFrom (Text.byteLength front) rest splices) := by
  induction splices generalizing front rest with
  | nil =>
      refine Text.slice?_eq_some.mpr ⟨front, [], ?_, rfl, ?_⟩
      · rw [applyFrom, List.append_nil, hcs]
      · rw [applyFrom, ← Text.byteLength_append, hcs]
  | cons splice splices ih =>
      obtain ⟨hahead, -, hbehind⟩ := horder
      obtain ⟨gap, old, back, rfl, hstart, hstop⟩ :=
        (hfits splice List.mem_cons_self).exists_pieces hcs hahead
      have hsplit : cs = front ++ gap ++ old ++ back := by simp [hcs]
      have hrest := ih hsplit (fun other hmem => hfits other (List.mem_cons_of_mem _ hmem))
        (hstop ▸ hbehind)
      rw [hstop] at hrest
      have hkept : Text.slice? cs (Text.byteLength front) splice.span.start = some gap :=
        Text.slice?_eq_some.mpr ⟨front, old ++ back, by simp [hcs], rfl,
          by rw [← Text.byteLength_append, hstart]⟩
      have hcovered : Text.slice? cs splice.span.start splice.span.stop = some old :=
        Text.slice?_eq_some.mpr ⟨front ++ gap, back, hsplit, hstart,
          by rw [← hstart, ← Text.byteLength_append, hstop]⟩
      rw [applyFrom_cons hstart hstop, assembled?, hkept, hcovered, hrest]
      rfl

/-- Splices that follow each other can be put in from the last to the first: the text in front of a splice
has not changed when its turn comes. -/
theorem foldlM_replaced?_eq {front rest : List Char} (hcs : cs = front ++ rest)
    (hfits : ∀ splice ∈ splices, splice.Fits cs)
    (horder : InOrder (Text.byteLength cs) (Text.byteLength front) splices) :
    splices.reverse.foldlM replaced? cs =
      some (front ++ applyFrom (Text.byteLength front) rest splices) := by
  induction splices generalizing front rest with
  | nil => rw [applyFrom, ← hcs]; rfl
  | cons splice splices ih =>
      obtain ⟨hahead, -, hbehind⟩ := horder
      obtain ⟨gap, old, back, rfl, hstart, hstop⟩ :=
        (hfits splice List.mem_cons_self).exists_pieces hcs hahead
      have hsplit : cs = front ++ gap ++ old ++ back := by simp [hcs]
      have hrest := ih hsplit (fun other hmem => hfits other (List.mem_cons_of_mem _ hmem))
        (hstop ▸ hbehind)
      rw [hstop, List.append_assoc (front ++ gap)] at hrest
      rw [List.reverse_cons, List.foldlM_append, hrest, applyFrom_cons hstart hstop]
      change replaced? _ splice >>= pure = _
      rw [replaced?_append _ hstart hstop, ← List.append_assoc, ← List.append_assoc]
      rfl

/-! ### The bytes outside the spans -/

/-- Where a byte that no splice covers comes to stand, counted from an offset of the old text on. -/
def landing (done : Nat) : List Splice → Nat → Nat
  | [], offset => offset - done
  | splice :: rest, offset =>
    if offset < splice.span.start then offset - done
    else
      splice.span.start - done + splice.newText.utf8ByteSize + landing splice.span.stop rest offset

/-- Whether no splice covers an offset. -/
def Spares (splices : List Splice) (offset : Nat) : Prop :=
  ∀ splice ∈ splices, offset < splice.span.start ∨ splice.span.stop ≤ offset

theorem Spares.tail {splice : Splice} {offset : Nat} (h : Spares (splice :: splices) offset) :
    Spares splices offset := fun other hmem => h other (List.mem_cons_of_mem _ hmem)

/-- Bytes that no splice covers land in their order. -/
theorem landing_lt {size done first second : Nat} (horder : InOrder size done splices)
    (hdone : done ≤ first) (hless : first < second) (hfirst : Spares splices first)
    (hsecond : Spares splices second) :
    landing done splices first < landing done splices second := by
  induction splices generalizing done with
  | nil => rw [landing, landing]; omega
  | cons splice rest ih =>
      obtain ⟨hahead, hordered, hbehind⟩ := horder
      rw [landing, landing]
      split
      · split
        · omega
        · omega
      · rw [if_neg (by omega)]
        have hcovered := (hfirst splice List.mem_cons_self).resolve_left (by assumption)
        have hrest := ih hbehind hcovered hfirst.tail hsecond.tail
        omega

theorem InOrder.le {size done : Nat} (h : InOrder size done splices) : done ≤ size := by
  induction splices generalizing done with
  | nil => exact h
  | cons splice rest ih =>
      obtain ⟨hahead, hordered, hbehind⟩ := h
      have hrest := ih hbehind
      omega

section

variable {bytes : ByteArray} {done offset : Nat} {splice : Splice} {rest : List Splice}

/-- What stands before a splice is kept. -/
theorem getElem_putInto_before (hsize : splice.span.start ≤ bytes.size) (hdone : done ≤ offset)
    (hbefore : offset < splice.span.start) :
    ∃ h : offset - done < (putInto bytes done (splice :: rest)).size,
      (putInto bytes done (splice :: rest))[offset - done] = bytes[offset] := by
  have hkept : offset - done < (bytes.extract done splice.span.start).size := by
    rw [ByteArray.size_extract]
    omega
  have hfront : offset - done <
      (bytes.extract done splice.span.start ++ splice.newText.toUTF8).size := by
    rw [ByteArray.size_append]
    omega
  have hinto : offset - done < (putInto bytes done (splice :: rest)).size := by
    rw [putInto, ByteArray.size_append]
    omega
  refine ⟨hinto, ?_⟩
  simp only [putInto]
  rw [ByteArray.getElem_append_left hfront, ByteArray.getElem_append_left hkept,
    ByteArray.getElem_extract]
  congr 1
  omega

/-- What is put in behind a splice follows its new text. -/
theorem getElem_putInto_behind (hsize : splice.span.start ≤ bytes.size)
    (h : offset < (putInto bytes splice.span.stop rest).size) :
    ∃ h' : splice.span.start - done + splice.newText.utf8ByteSize + offset <
        (putInto bytes done (splice :: rest)).size,
      (putInto bytes done (splice :: rest))[splice.span.start - done +
        splice.newText.utf8ByteSize + offset] = (putInto bytes splice.span.stop rest)[offset] := by
  have hfront : (bytes.extract done splice.span.start ++ splice.newText.toUTF8).size =
      splice.span.start - done + splice.newText.utf8ByteSize := by
    rw [ByteArray.size_append, ByteArray.size_extract, Nat.min_eq_left hsize]
    rfl
  have hinto : splice.span.start - done + splice.newText.utf8ByteSize + offset <
      (putInto bytes done (splice :: rest)).size := by
    rw [putInto, ByteArray.size_append, hfront]
    omega
  refine ⟨hinto, ?_⟩
  simp only [putInto]
  rw [ByteArray.getElem_append_right (by omega)]
  congr 1
  omega

end

/-- A byte that no splice covers stands where it lands. -/
theorem getElem_putInto {bytes : ByteArray} {done offset : Nat}
    (horder : InOrder bytes.size done splices) (hdone : done ≤ offset) (hinside : offset < bytes.size)
    (hspares : Spares splices offset) :
    ∃ h : landing done splices offset < (putInto bytes done splices).size,
      (putInto bytes done splices)[landing done splices offset] = bytes[offset] := by
  induction splices generalizing done with
  | nil =>
      have hinto : landing done [] offset < (putInto bytes done []).size := by
        rw [landing, putInto, ByteArray.size_extract]
        omega
      refine ⟨hinto, ?_⟩
      simp only [landing, putInto, ByteArray.getElem_extract]
      congr 1
      omega
  | cons splice rest ih =>
      obtain ⟨-, hordered, hbehind⟩ := horder
      have hsize : splice.span.start ≤ bytes.size := Nat.le_trans hordered hbehind.le
      by_cases hbefore : offset < splice.span.start
      · have hland : landing done (splice :: rest) offset = offset - done := by
          rw [landing, if_pos hbefore]
        simp only [hland]
        exact getElem_putInto_before hsize hdone hbefore
      · have hland : landing done (splice :: rest) offset =
            splice.span.start - done + splice.newText.utf8ByteSize +
              landing splice.span.stop rest offset := by
          rw [landing, if_neg hbefore]
        have hcovered := (hspares splice List.mem_cons_self).resolve_left hbefore
        obtain ⟨hrest, heq⟩ := ih hbehind hcovered hspares.tail
        simp only [hland, ← heq]
        exact getElem_putInto_behind hsize hrest

/-- The bytes of a text at some offsets stand in another text, in the same order. -/
def KeptInOrder (kept : Nat → Prop) (old new : ByteArray) : Prop :=
  ∃ land : Nat → Nat,
    (∀ first second, kept first → kept second → first < second → land first < land second) ∧
    ∀ offset, kept offset → ∀ h : offset < old.size, ∃ h' : land offset < new.size,
      new[land offset] = old[offset]

theorem keptInOrder_putInto {bytes : ByteArray} (horder : InOrder bytes.size 0 splices) :
    KeptInOrder (Spares splices) bytes (putInto bytes 0 splices) :=
  ⟨landing 0 splices,
    fun _ _ hfirst hsecond hless => landing_lt horder (Nat.zero_le _) hless hfirst hsecond,
    fun _ hspares hinside => getElem_putInto horder (Nat.zero_le _) hinside hspares⟩

end

end Splice

namespace Lines

/-- What a line shows is a slice of the text. -/
theorem slice?_of_contentOf? {cs shown : List Char} {line : Nat} (h : contentOf? cs line = some shown) :
    Text.slice? cs (startOf (lines cs) line) (startOf (lines cs) line + Text.byteLength shown) =
      some shown := by
  obtain ⟨found, hfound, rfl⟩ := Option.map_eq_some_iff.mp h
  obtain ⟨front, back, hjoined, hfront, -, -⟩ := exists_of_getElem? hfound
  obtain ⟨terminator, hterminator⟩ := content_isPrefix found
  rw [lines, Text.joined_pieces, ← hterminator, List.append_assoc, ← List.append_assoc] at hjoined
  exact Text.slice?_eq_some.mpr ⟨front, terminator ++ back, hjoined, hfront, rfl⟩

theorem code_of_offset {cs : List Char} {p : Position} {error : CoordinateError}
    (h : offset cs p = .error error) : error.toError.code = .invalidArgument := by
  rw [offset] at h
  dsimp only at h
  split at h
  · obtain rfl := Except.error.inj h
    rfl
  · split at h
    · cases h
    · obtain rfl := Except.error.inj h
      rfl

end Lines

namespace Document

variable {d after : Document} {edit : TextEdit} {edits : List TextEdit} {found : List Splice}
  {version : Nat} {error : Error}

/-- A range of a document: its ends are positions of the document, the second not before the first. -/
structure Holds (d : Document) (range : Range) : Prop where
  ordered : ¬ range.stop < range.start
  start : ∃ offset, d.offsetAt range.start = .ok offset
  stop : ∃ offset, d.offsetAt range.stop = .ok offset

/-- Edits in bytes, in the order in which they are given. One that has no range of the document is left
out. -/
def splices (d : Document) (edits : List TextEdit) : List Splice :=
  edits.filterMap fun edit => (d.splice edit).toOption

/-- Edits that can be made: each has a range of the document, and no two of them overlap. -/
structure Accepts (d : Document) (edits : List TextEdit) : Prop where
  held : ∀ edit ∈ edits, d.Holds edit.range
  apart : (d.splices edits).Pairwise fun a b => a.span.Apart b.span

/-- An edit comes to the bytes between the offsets of its ends, or its range is none of the document. -/
theorem splice_cases (d : Document) (edit : TextEdit) :
    (d.Holds edit.range ∧ ∃ start stop, d.offsetAt edit.range.start = .ok start ∧
      d.offsetAt edit.range.stop = .ok stop ∧ d.splice edit = .ok ⟨⟨start, stop⟩, edit.newText⟩) ∨
    (¬ d.Holds edit.range ∧ ∃ error, d.splice edit = .error error ∧ error.code = .invalidArgument) := by
  rw [splice]
  by_cases hinverted : edit.range.stop < edit.range.start
  · rw [if_pos hinverted]
    exact .inr ⟨fun h => h.ordered hinverted, _, rfl, rfl⟩
  · rw [if_neg hinverted]
    cases hstart : d.offsetAt edit.range.start with
    | error fault =>
        refine .inr ⟨fun h => ?_, _, rfl, Lines.code_of_offset hstart⟩
        obtain ⟨offset, hoffset⟩ := h.start
        rw [hstart] at hoffset
        cases hoffset
    | ok start =>
        cases hstop : d.offsetAt edit.range.stop with
        | error fault =>
            refine .inr ⟨fun h => ?_, _, rfl, Lines.code_of_offset hstop⟩
            obtain ⟨offset, hoffset⟩ := h.stop
            rw [hstop] at hoffset
            cases hoffset
        | ok stop =>
            exact .inl ⟨⟨hinverted, ⟨start, hstart⟩, ⟨stop, hstop⟩⟩, start, stop, rfl, rfl, rfl⟩

theorem exists_splice_iff : (∃ splice, d.splice edit = .ok splice) ↔ d.Holds edit.range := by
  rcases d.splice_cases edit with ⟨hholds, start, stop, -, -, hsplice⟩ | ⟨hnot, fault, hsplice, -⟩
  · exact iff_of_true ⟨_, hsplice⟩ hholds
  · refine iff_of_false ?_ hnot
    rintro ⟨splice, hfound⟩
    rw [hsplice] at hfound
    cases hfound

theorem splices_cons {splice : Splice} (h : d.splice edit = .ok splice) :
    d.splices (edit :: edits) = splice :: d.splices edits :=
  List.filterMap_cons_some (by rw [h]; rfl)

theorem splices_cons_of_error (h : d.splice edit = .error error) :
    d.splices (edit :: edits) = d.splices edits :=
  List.filterMap_cons_none (by rw [h]; rfl)

theorem mapM_splice_eq_ok :
    edits.mapM d.splice = .ok found ↔
      (∀ edit ∈ edits, d.Holds edit.range) ∧ found = d.splices edits := by
  constructor
  · intro h
    refine ⟨fun edit hmem => ?_, ?_⟩
    · obtain ⟨splice, hsplice, -⟩ := exists_of_mem_of_mapM h hmem
      exact exists_splice_iff.mp ⟨splice, hsplice⟩
    · rw [mapM_eq_ok] at h
      induction h with
      | nil => rfl
      | cons hfirst _ ih => rw [splices_cons hfirst, ← ih]
  · rintro ⟨hheld, rfl⟩
    induction edits with
    | nil => rfl
    | cons edit edits ih =>
        obtain ⟨splice, hsplice⟩ := exists_splice_iff.mpr (hheld edit List.mem_cons_self)
        have hrest := ih fun other hmem => hheld other (List.mem_cons_of_mem _ hmem)
        rw [mapM_eq_ok] at hrest ⊢
        rw [splices_cons hsplice]
        exact .cons hsplice hrest

theorem fits_of_mem_splices {splice : Splice} (h : splice ∈ d.splices edits) : splice.Fits d.chars := by
  obtain ⟨edit, -, hedit⟩ := List.mem_filterMap.mp h
  exact fits_of_splice (toOption_eq_some.mp hedit)

/-- Edits that can be made are made as one splice, and only those. -/
theorem applyEdits_eq_ok :
    d.applyEdits edits version = .ok after ↔ d.Accepts edits ∧
      after = ⟨d.path, String.ofList
        (Splice.applyFrom 0 d.chars ((d.splices edits).mergeSort Splice.precedes)), version⟩ := by
  have hnone := (Splice.arranged_mergeSort (d.splices edits)).overlap?_eq_none
    fun splice hmem => fits_of_mem_splices hmem
  rw [applyEdits, bind_eq_ok]
  constructor
  · rintro ⟨found, hfound, h⟩
    obtain ⟨hheld, rfl⟩ := mapM_splice_eq_ok.mp hfound
    dsimp only at h
    split at h
    · cases h
    · rename_i hclear
      exact ⟨⟨hheld, hnone.mp hclear⟩, (Except.ok.inj h).symm⟩
  · rintro ⟨⟨hheld, hapart⟩, rfl⟩
    refine ⟨_, mapM_splice_eq_ok.mpr ⟨hheld, rfl⟩, ?_⟩
    dsimp only
    rw [hnone.mpr hapart]
    rfl

theorem code_of_applyEdits (h : d.applyEdits edits version = .error error) :
    error.code = .invalidArgument := by
  rcases bind_eq_error.mp h with h | ⟨found, -, h⟩
  · obtain ⟨edit, -, hedit⟩ := exists_of_mapM_eq_error h
    rcases d.splice_cases edit with ⟨-, _, _, -, -, hsplice⟩ | ⟨-, fault, hsplice, hcode⟩
    · rw [hsplice] at hedit
      cases hedit
    · rw [hsplice] at hedit
      rw [← Except.error.inj hedit, hcode]
  · dsimp only at h
    split at h
    · obtain rfl := Except.error.inj h
      rfl
    · cases h

/-- Edits are made exactly when each of them has a range of the document and no two overlap; otherwise they
are a bad argument. With their spans in order, the new text is made of the slices of the text between them
and the new texts. Exchanging one span after the other from the last on comes to the same text, and every
byte outside the spans is kept. All slices lie between characters, those of the lines in which positions
are looked up too. -/
theorem applyEdits_exact (d : Document) (edits : List TextEdit) (version : Nat) :
    ((∃ after, d.applyEdits edits version = .ok after) ↔ d.Accepts edits) ∧
    (∀ after, d.applyEdits edits version = .ok after →
      after.path = d.path ∧ after.version = version ∧
      ∃ ordered, Splice.Arranged (d.splices edits) ordered ∧
        (ordered.Pairwise fun a b => a.span.stop ≤ b.span.start) ∧
        Splice.assembled? d.chars 0 ordered = some after.chars ∧
        ordered.reverse.foldlM Splice.replaced? d.chars = some after.chars ∧
        Splice.KeptInOrder (Splice.Spares ordered) d.text.toUTF8 after.text.toUTF8) ∧
    (∀ error, d.applyEdits edits version = .error error → error.code = .invalidArgument) ∧
    ∀ line shown, Lines.contentOf? d.chars line = some shown →
      Text.slice? d.chars (Lines.startOf (Lines.lines d.chars) line)
        (Lines.startOf (Lines.lines d.chars) line + Text.byteLength shown) = some shown := by
  refine ⟨⟨?_, ?_⟩, ?_, fun _ h => code_of_applyEdits h, fun _ _ => Lines.slice?_of_contentOf?⟩
  · rintro ⟨after, h⟩
    exact (applyEdits_eq_ok.mp h).1
  · exact fun h => ⟨_, applyEdits_eq_ok.mpr ⟨h, rfl⟩⟩
  · intro after h
    obtain ⟨⟨hheld, hapart⟩, rfl⟩ := applyEdits_eq_ok.mp h
    have harranged := Splice.arranged_mergeSort (d.splices edits)
    have hfits : ∀ splice ∈ (d.splices edits).mergeSort Splice.precedes, splice.Fits d.chars :=
      fun splice hmem => fits_of_mem_splices (harranged.perm.mem_iff.mp hmem)
    have hnone := (harranged.overlap?_eq_none fun splice hmem => fits_of_mem_splices hmem).mpr hapart
    have horder := Splice.inOrder_of_overlap? hnone hfits (Nat.zero_le _) fun _ _ => Nat.zero_le _
    have hchars : d.chars = [] ++ d.chars := rfl
    have hbytes := Splice.utf8Encode_applyFrom hchars hfits horder
    have htext : d.text.toUTF8 = d.chars.utf8Encode := String.utf8Encode_toList.symm
    refine ⟨rfl, rfl, _, harranged, (Splice.overlap?_eq_none_iff hfits).mp hnone, ?_, ?_, ?_⟩
    · rw [chars, chars, String.toList_ofList]
      exact Splice.assembled?_eq hchars hfits horder
    · rw [chars, chars, String.toList_ofList]
      exact Splice.foldlM_replaced?_eq hchars hfits horder
    · rw [htext, String.toUTF8_eq_toByteArray, String.toByteArray_ofList]
      rw [← Text.size_utf8Encode] at horder
      exact hbytes ▸ Splice.keptInOrder_putInto horder

/-- A line with a character of two bytes. -/
def accented : Document := ⟨"A.cs", "aéb", 0⟩

/-- The replacement of that character, and two insertions right before it. -/
def touchingEdits : List TextEdit :=
  [⟨⟨⟨0, 1⟩, ⟨0, 2⟩⟩, "xy"⟩, .insert ⟨0, 1⟩ "1", .insert ⟨0, 1⟩ "2"]

/-- Insertions that touch a replacement are made, in the order in which they are given. -/
theorem touching_edits_made :
    accented.Accepts touchingEdits ∧
    accented.applyEdits touchingEdits 1 = .ok ⟨"A.cs", "a12xyb", 1⟩ ∧
    ∃ ordered, Splice.Arranged (accented.splices touchingEdits) ordered ∧
      Splice.assembled? accented.chars 0 ordered = some "a12xyb".toList ∧
      ordered.reverse.foldlM Splice.replaced? accented.chars = some "a12xyb".toList := by
  have hsplices : touchingEdits.mapM accented.splice =
      .ok [⟨⟨1, 3⟩, "xy"⟩, ⟨⟨1, 1⟩, "1"⟩, ⟨⟨1, 1⟩, "2"⟩] := by rfl
  have hsorted : [⟨⟨1, 3⟩, "xy"⟩, ⟨⟨1, 1⟩, "1"⟩, ⟨⟨1, 1⟩, "2"⟩].mergeSort Splice.precedes =
      [⟨⟨1, 1⟩, "1"⟩, ⟨⟨1, 1⟩, "2"⟩, ⟨⟨1, 3⟩, "xy"⟩] := by
    simp [List.mergeSort, List.MergeSort.Internal.splitInTwo, Splice.precedes]
  have hmade : accented.applyEdits touchingEdits 1 = .ok ⟨"A.cs", "a12xyb", 1⟩ := by
    rw [applyEdits, hsplices]
    simp only [bind, Except.bind, hsorted]
    rfl
  obtain ⟨haccepts, hexact, -, -⟩ := applyEdits_exact accented touchingEdits 1
  obtain ⟨-, -, ordered, harranged, -, hassembled, hbackwards, -⟩ := hexact _ hmade
  exact ⟨haccepts.mp ⟨_, hmade⟩, hmade, ordered, harranged, hassembled, hbackwards⟩

end Document

end CodeIntel
