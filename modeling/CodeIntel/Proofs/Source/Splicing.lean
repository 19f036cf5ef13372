import CodeIntel.Proofs.Outcome
import CodeIntel.Proofs.Source.Positions
import CodeIntel.Source.Edit

/-! Edits in bytes. The ends of an edit lie between characters, its start not behind its end, and edits
that do not overlap follow each other. So the bytes of an edited text are those of the text, with the
bytes between the ends of each edit exchanged for those of its new text. -/

namespace CodeIntel

namespace Text

/-- A byte offset that lies between two characters of a text, or at one of its ends. -/
def Boundary (cs : List Char) (offset : Nat) : Prop :=
  ∃ front back, cs = front ++ back ∧ byteLength front = offset

theorem Boundary.le {cs : List Char} {offset : Nat} (h : Boundary cs offset) :
    offset ≤ byteLength cs := by
  obtain ⟨front, back, rfl, rfl⟩ := h
  rw [byteLength_append]
  omega

/-- A boundary that is not in front of another one lies in what comes after it. -/
theorem Boundary.exists_gap {front rest : List Char} {offset : Nat} (h : Boundary (front ++ rest) offset)
    (hle : byteLength front ≤ offset) :
    ∃ gap back, rest = gap ++ back ∧ byteLength front + byteLength gap = offset := by
  obtain ⟨before, back, hsplit, rfl⟩ := h
  obtain ⟨gap, rfl, hrest⟩ := Text.exists_gap hsplit hle
  exact ⟨gap, back, hrest, (byteLength_append front gap).symm⟩

theorem byteLength_mono {cs more : List Char} (h : cs <+: more) :
    byteLength cs ≤ byteLength more := by
  obtain ⟨rest, rfl⟩ := h
  rw [byteLength_append]
  omega

theorem size_utf8Encode (cs : List Char) : cs.utf8Encode.size = byteLength cs := by
  induction cs with
  | nil => rfl
  | cons c cs ih =>
      rw [List.utf8Encode_cons, ByteArray.size_append, ih, byteLength_cons]
      simp [List.utf8Encode]

/-- The bytes of a piece of a text. -/
theorem extract_utf8Encode (front piece back : List Char) :
    (front ++ (piece ++ back)).utf8Encode.extract (byteLength front)
      (byteLength front + byteLength piece) = piece.utf8Encode := by
  rw [List.utf8Encode_append, List.utf8Encode_append]
  have hskip := ByteArray.extract_append_size_add' (a := front.utf8Encode)
    (b := piece.utf8Encode ++ back.utf8Encode) (i := 0) (j := byteLength piece)
    (size_utf8Encode front).symm
  rw [Nat.add_zero] at hskip
  rw [hskip, ByteArray.extract_append_eq_left (size_utf8Encode piece).symm]

end Text

namespace Lines

open Text (Boundary)

theorem content_isPrefix (line : List Char) : content line <+: line := by
  unfold content
  split
  · exact List.dropLast_prefix line
  · exact List.prefix_refl line

theorem startOf_succ {all : List (List Char)} {n : Nat} {line : List Char} (h : all[n]? = some line) :
    startOf all (n + 1) = startOf all n + (Text.byteLength line + 1) := by
  induction all generalizing n with
  | nil => cases h
  | cons first rest ih =>
      rw [startOf_cons_succ]
      cases n with
      | zero =>
          obtain rfl := Option.some.inj h
          rw [startOf_zero, startOf_zero, Nat.add_zero, Nat.zero_add]
      | succ n =>
          rw [startOf_cons_succ, ih h]
          omega

theorem startOf_mono (all : List (List Char)) {n m : Nat} (h : n ≤ m) :
    startOf all n ≤ startOf all m := by
  induction all generalizing n m with
  | nil => simp [startOf]
  | cons first rest ih =>
      cases n with
      | zero =>
          rw [startOf_zero]
          exact Nat.zero_le _
      | succ n =>
          obtain ⟨k, rfl⟩ := Nat.exists_eq_add_of_lt h
          rw [startOf_cons_succ, startOf_cons_succ]
          exact Nat.add_le_add_left (ih (Nat.le_add_right _ _)) _

/-- A line of a text stands behind the bytes of those before it, at the start of the text or after a line
feed, and a line feed or the end of the text comes after it. -/
theorem exists_of_getElem? {all : List (List Char)} {n : Nat} {line : List Char}
    (h : all[n]? = some line) :
    ∃ front back, Text.joined ['\n'] all = front ++ (line ++ back) ∧
      Text.byteLength front = startOf all n ∧
      (∀ c ∈ front.getLast?, c = '\n') ∧ ∀ c ∈ back.head?, c = '\n' := by
  induction all generalizing n with
  | nil => simp at h
  | cons first rest ih =>
      cases rest with
      | nil =>
          cases n with
          | zero =>
              obtain rfl : first = line := by simpa using h
              exact ⟨[], [], by simp [Text.joined], rfl, by simp, by simp⟩
          | succ n => simp at h
      | cons second rest =>
          have hjoined : Text.joined ['\n'] (first :: second :: rest) =
              first ++ ['\n'] ++ Text.joined ['\n'] (second :: rest) := rfl
          cases n with
          | zero =>
              obtain rfl : first = line := by simpa using h
              exact ⟨[], _, by rw [hjoined, List.append_assoc, List.nil_append], rfl, by simp, by simp⟩
          | succ n =>
              obtain ⟨front, back, hrest, hfront, hbefore, hafter⟩ := ih (by simpa using h)
              refine ⟨first ++ ['\n'] ++ front, back, by simp [hjoined, hrest], ?_, ?_, hafter⟩
              · rw [startOf_cons_succ, ← hfront, Text.byteLength_append, Text.byteLength_append]
                rfl
              · rcases List.eq_nil_or_concat front with rfl | ⟨init, last, rfl⟩
                · simp
                · rw [List.concat_eq_append, List.getLast?_concat] at hbefore
                  rw [List.concat_eq_append, ← List.append_assoc, List.getLast?_concat]
                  exact hbefore

theorem offset_eq_ok {cs : List Char} {p : Position} {bytes : Nat} :
    offset cs p = .ok bytes ↔ ∃ line, (lines cs)[p.line]? = some line ∧
      p.column ≤ (content line).length ∧
      startOf (lines cs) p.line + Text.byteLength ((content line).take p.column) = bytes := by
  rw [offset]
  cases (lines cs)[p.line]? with
  | none => simp
  | some line =>
      by_cases hcolumn : p.column ≤ (content line).length
      · simp [hcolumn]
      · simp [hcolumn]

theorem boundary_of_offset {cs : List Char} {p : Position} {bytes : Nat}
    (h : offset cs p = .ok bytes) : Boundary cs bytes := by
  obtain ⟨line, hline, -, rfl⟩ := offset_eq_ok.mp h
  obtain ⟨front, back, hjoined, hfront, -, -⟩ := exists_of_getElem? hline
  have hshown := List.take_prefix p.column (content line)
  obtain ⟨rest, hrest⟩ := hshown.trans (content_isPrefix line)
  rw [lines, Text.joined_pieces, ← hrest, List.append_assoc, ← List.append_assoc] at hjoined
  exact ⟨_, _, hjoined, by rw [Text.byteLength_append, hfront]⟩

/-- Offsets follow each other as their positions do. -/
theorem offset_mono {cs : List Char} {p q : Position} {bytes more : Nat} (hle : p ≤ q)
    (hp : offset cs p = .ok bytes) (hq : offset cs q = .ok more) : bytes ≤ more := by
  obtain ⟨line, hline, -, rfl⟩ := offset_eq_ok.mp hp
  obtain ⟨line', hline', -, rfl⟩ := offset_eq_ok.mp hq
  rcases Position.le_def.mp hle with hless | ⟨hsame, hcolumn⟩
  · -- The whole line of the first position and its line feed come before the second.
    have hshown := List.take_prefix p.column (content line)
    have hinside := Text.byteLength_mono (hshown.trans (content_isPrefix line))
    have hnext := startOf_mono (lines cs) (Nat.succ_le_of_lt hless)
    rw [startOf_succ hline] at hnext
    omega
  · rw [hsame, hline'] at hline
    obtain rfl := Option.some.inj hline
    have hshorter : (content line').take p.column <+: (content line').take q.column :=
      List.take_prefix_take_left hcolumn
    have hlength := Text.byteLength_mono hshorter
    rw [hsame]
    omega

end Lines

namespace Splice

/-- Splices that follow each other from an offset on, in a text of some bytes. -/
def InOrder (size : Nat) : Nat → List Splice → Prop
  | done, [] => done ≤ size
  | done, splice :: rest =>
    done ≤ splice.span.start ∧ splice.span.start ≤ splice.span.stop ∧
      InOrder size splice.span.stop rest

/-- The bytes from an offset on, with those in the spans of splices exchanged. -/
def putInto (bytes : ByteArray) : Nat → List Splice → ByteArray
  | done, [] => bytes.extract done bytes.size
  | done, splice :: rest =>
    bytes.extract done splice.span.start ++ splice.newText.toUTF8 ++
      putInto bytes splice.span.stop rest

/-- A splice whose ends lie between characters of a text. -/
structure Fits (cs : List Char) (splice : Splice) : Prop where
  ordered : splice.span.start ≤ splice.span.stop
  start : Text.Boundary cs splice.span.start
  stop : Text.Boundary cs splice.span.stop

theorem inOrder_of_overlap? {cs : List Char} {splices : List Splice} (h : overlap? splices = none)
    (hfits : ∀ splice ∈ splices, splice.Fits cs) {done : Nat} (hdone : done ≤ Text.byteLength cs)
    (hfirst : ∀ splice ∈ splices.head?, done ≤ splice.span.start) :
    InOrder (Text.byteLength cs) done splices := by
  induction splices generalizing done with
  | nil => exact hdone
  | cons splice rest ih =>
      have hfit := hfits splice List.mem_cons_self
      refine ⟨hfirst splice rfl, hfit.ordered, ?_⟩
      cases rest with
      | nil => exact hfit.stop.le
      | cons next rest =>
          rw [overlap?] at h
          split at h
          · cases h
          · rename_i hbehind
            refine ih h (fun other hmem => hfits other (List.mem_cons_of_mem _ hmem)) hfit.stop.le ?_
            intro other hother
            obtain rfl := Option.some.inj hother
            exact Nat.not_lt.mp hbehind

/-- The text from an offset on is a gap that stays, the text in the span of a splice ahead, and what stands
behind it. -/
theorem Fits.exists_pieces {cs front rest : List Char} {splice : Splice} (hfit : splice.Fits cs)
    (hcs : cs = front ++ rest) (hahead : Text.byteLength front ≤ splice.span.start) :
    ∃ gap old back, rest = gap ++ (old ++ back) ∧
      Text.byteLength (front ++ gap) = splice.span.start ∧
      Text.byteLength (front ++ gap ++ old) = splice.span.stop := by
  subst hcs
  obtain ⟨gap, behind, rfl, hstart⟩ := hfit.start.exists_gap hahead
  rw [← Text.byteLength_append] at hstart
  have hboundary := hfit.stop
  rw [← List.append_assoc] at hboundary
  obtain ⟨old, back, rfl, hstop⟩ := hboundary.exists_gap (hstart ▸ hfit.ordered)
  exact ⟨gap, old, back, rfl, hstart, by rw [Text.byteLength_append, hstop]⟩

/-- Putting in the next splice keeps the gap before it and drops the text in its span. -/
theorem applyFrom_cons {front gap old : List Char} {splice : Splice}
    (hstart : Text.byteLength (front ++ gap) = splice.span.start)
    (hstop : Text.byteLength (front ++ gap ++ old) = splice.span.stop) (back : List Char)
    (splices : List Splice) :
    applyFrom (Text.byteLength front) (gap ++ (old ++ back)) (splice :: splices) =
      gap ++ splice.newText.toList ++ applyFrom splice.span.stop back splices := by
  rw [Text.byteLength_append, hstart] at hstop
  rw [Text.byteLength_append] at hstart
  have hgap : splice.span.start - Text.byteLength front = Text.byteLength gap := by omega
  have hold : splice.span.stop - splice.span.start = Text.byteLength old := by omega
  rw [applyFrom, hgap, Text.cut?_append]
  dsimp only
  rw [hold, Text.cut?_append]

/-- Splices put into a text change its bytes within their spans only. -/
theorem utf8Encode_applyFrom {cs front rest : List Char} {splices : List Splice}
    (hcs : cs = front ++ rest)
    (hfits : ∀ splice ∈ splices, splice.Fits cs)
    (horder : InOrder (Text.byteLength cs) (Text.byteLength front) splices) :
    (applyFrom (Text.byteLength front) rest splices).utf8Encode =
      putInto cs.utf8Encode (Text.byteLength front) splices := by
  induction splices generalizing front rest with
  | nil =>
      have hextract := Text.extract_utf8Encode front rest []
      rw [List.append_nil, ← Text.byteLength_append, ← hcs, ← Text.size_utf8Encode cs] at hextract
      exact hextract.symm
  | cons splice splices ih =>
      obtain ⟨hahead, -, hbehind⟩ := horder
      have hfit := hfits splice List.mem_cons_self
      obtain ⟨gap, old, back, rfl, hstart, hstop⟩ := hfit.exists_pieces hcs hahead
      have hsplit : cs = front ++ gap ++ old ++ back := by simp [hcs]
      have hrest := ih hsplit (fun other hmem => hfits other (List.mem_cons_of_mem _ hmem))
        (hstop ▸ hbehind)
      rw [hstop] at hrest
      have hkept := Text.extract_utf8Encode front gap (old ++ back)
      rw [← hcs, ← Text.byteLength_append, hstart] at hkept
      rw [applyFrom_cons hstart hstop, List.utf8Encode_append, List.utf8Encode_append, hrest, putInto,
        hkept, String.utf8Encode_toList]
      rfl

end Splice

namespace Document

/-- Bytes that come from others by exchanging those in the spans that edits have in a document. -/
def Splices (d : Document) (edits : List TextEdit) (old new : ByteArray) : Prop :=
  ∃ splices ordered, edits.mapM d.splice = .ok splices ∧ ordered.Perm splices ∧
    Splice.InOrder old.size 0 ordered ∧ new = Splice.putInto old 0 ordered

theorem fits_of_splice {d : Document} {edit : TextEdit} {splice : Splice}
    (h : d.splice edit = .ok splice) : splice.Fits d.chars := by
  unfold Document.splice at h
  split at h
  · cases h
  · rename_i hordered
    split at h
    · cases h
    · rename_i start hstart
      split at h
      · cases h
      · rename_i stop hstop
        obtain rfl := Except.ok.inj h
        exact ⟨Lines.offset_mono (Position.not_lt.mp hordered) hstart hstop,
          Lines.boundary_of_offset hstart, Lines.boundary_of_offset hstop⟩

/-- Edits change the bytes of a document within their ranges only. -/
theorem splices_of_applyEdits {d after : Document} {edits : List TextEdit} {version : Nat}
    (h : d.applyEdits edits version = .ok after) :
    d.Splices edits d.text.toUTF8 after.text.toUTF8 := by
  obtain ⟨splices, hsplices, h⟩ := bind_eq_ok.mp h
  dsimp only at h
  split at h
  · cases h
  · rename_i hnone
    obtain rfl := Except.ok.inj h
    have hperm := List.mergeSort_perm splices Splice.precedes
    have hfits : ∀ splice ∈ splices.mergeSort Splice.precedes, splice.Fits d.chars := by
      intro splice hmem
      obtain ⟨edit, -, hedit⟩ := exists_of_mem_mapM hsplices (hperm.mem_iff.mp hmem)
      exact fits_of_splice hedit
    have horder := Splice.inOrder_of_overlap? hnone hfits (Nat.zero_le _) fun _ _ => Nat.zero_le _
    have hbytes := Splice.utf8Encode_applyFrom (List.nil_append d.chars).symm hfits horder
    have htext : d.text.toUTF8 = d.chars.utf8Encode := String.utf8Encode_toList.symm
    refine ⟨splices, _, hsplices, hperm, ?_, ?_⟩
    · rw [htext, Text.size_utf8Encode]
      exact horder
    · rw [htext, String.toUTF8_eq_toByteArray, String.toByteArray_ofList]
      exact hbytes

end Document

end CodeIntel
