import CodeIntel.Proofs.Text.Pieces
import CodeIntel.Source.Document

/-! Positions and byte offsets. An offset between two characters has a position of its own unless it
lies inside the end of a line, behind a carriage return that the line does not show. Such an offset is
found again from its position, and positions follow each other as their offsets do. -/

namespace CodeIntel

namespace Lines

/-- The text before an offset and the text after it, unless a carriage return that belongs to the end of
a line stands right before the offset. -/
def Addressable (front back : List Char) : Prop :=
  front.getLast? = some '\r' → back ≠ [] ∧ back.head? ≠ some '\n'

/-- A byte offset lies between the carriage return and the line feed that end a line. -/
def InsideEnd (cs : List Char) (bytes : Nat) : Prop :=
  ∃ front back, cs = front ++ '\r' :: '\n' :: back ∧ Text.byteLength front + 1 = bytes

theorem Addressable.tail {c : Char} {front back : List Char} (h : Addressable (c :: front) back) :
    Addressable front back := by
  intro hlast
  obtain ⟨first, rest, rfl⟩ : ∃ first rest, front = first :: rest :=
    List.exists_cons_of_ne_nil (by rintro rfl; cases hlast)
  exact h (by rw [List.getLast?_cons_cons]; exact hlast)

/-- A byte offset that lies behind a front part of what a line shows. -/
structure Spot (all : List (List Char)) (bytes line : Nat) (front : List Char) : Prop where
  shown : ∃ back, all[line]?.map content = some (front ++ back)
  bytes_eq : bytes = startOf all line + Text.byteLength front

theorem content_cons {c : Char} {line : List Char} (h : line ≠ []) :
    content (c :: line) = c :: content line := by
  obtain ⟨first, rest, rfl⟩ := List.exists_cons_of_ne_nil h
  rw [content, content, List.getLast?_cons_cons, List.dropLast_cons_cons]
  split <;> rfl

theorem startOf_cons_succ (line : List Char) (rest : List (List Char)) (n : Nat) :
    startOf (line :: rest) (n + 1) = Text.byteLength line + 1 + startOf rest n := by
  simp [startOf]

theorem startOf_zero (all : List (List Char)) : startOf all 0 = 0 := by simp [startOf]

theorem Spot.succ {rest : List (List Char)} {bytes n : Nat} {front : List Char}
    (h : Spot rest bytes n front) (line : List Char) :
    Spot (line :: rest) (Text.byteLength line + 1 + bytes) (n + 1) front := by
  refine ⟨h.shown, ?_⟩
  rw [startOf_cons_succ, h.bytes_eq]
  omega

/-- A character in front of the first line moves every spot by its width. Only the end of a first line
that was empty is not shown any longer if that character is a carriage return. -/
theorem Spot.cons {line front : List Char} {rest : List (List Char)} {bytes n : Nat} {c : Char}
    (h : Spot (line :: rest) bytes n front) (hshown : n = 0 → line = [] → c ≠ '\r') :
    ∃ front', Spot ((c :: line) :: rest) (c.utf8Size + bytes) n front' := by
  obtain ⟨⟨back, hback⟩, hbytes⟩ := h
  cases n with
  | succ n =>
      refine ⟨front, ⟨back, hback⟩, ?_⟩
      rw [startOf_cons_succ] at hbytes ⊢
      rw [Text.byteLength_cons]
      omega
  | zero =>
      have hcontent : content line = front ++ back := Option.some.inj hback
      rw [startOf_zero] at hbytes
      refine ⟨c :: front, ⟨back, ?_⟩, ?_⟩
      · change some (content (c :: line)) = _
        by_cases hline : line = []
        · subst hline
          have hnil : front ++ back = [] := hcontent.symm
          obtain ⟨rfl, rfl⟩ := List.append_eq_nil_iff.mp hnil
          have hvisible : content [c] = [c] := by simp [content, hshown rfl rfl]
          rw [hvisible]
          rfl
        · rw [content_cons hline, hcontent]
          rfl
      · rw [startOf_zero, Text.byteLength_cons]
        omega

/-- An addressable offset is a spot of the lines. -/
theorem exists_spot {front back : List Char} (h : Addressable front back) :
    ∃ line shown, Spot (lines (front ++ back)) (Text.byteLength front) line shown := by
  induction front with
  | nil =>
      obtain ⟨first, rest, hlines⟩ := List.exists_cons_of_ne_nil (Text.pieces_ne_nil '\n' back)
      rw [List.nil_append, lines, hlines]
      exact ⟨0, [], ⟨content first, rfl⟩, rfl⟩
  | cons c front ih =>
      obtain ⟨n, shown, hspot⟩ := ih h.tail
      by_cases hc : c = '\n'
      · subst hc
        rw [List.cons_append, lines, Text.pieces, if_pos rfl]
        exact ⟨n + 1, shown, hspot.succ []⟩
      · obtain ⟨line, rest, hlines, hall⟩ := Text.pieces_cons_of_ne (front ++ back) hc
        rw [lines, hlines] at hspot
        rw [List.cons_append, lines, hall]
        have hvisible : n = 0 → line = [] → c ≠ '\r' := by
          rintro rfl rfl rfl
          -- The carriage return would stand right before the offset and end the line.
          obtain ⟨⟨rest', hrest'⟩, hbytes⟩ := hspot
          obtain ⟨rfl, -⟩ := List.append_eq_nil_iff.mp (Option.some.inj hrest').symm
          obtain rfl := Text.eq_nil_of_byteLength hbytes
          obtain ⟨hne, hhead⟩ := h rfl
          obtain ⟨first, others, rfl⟩ := List.exists_cons_of_ne_nil hne
          have hfirst : first ≠ '\n' := fun heq => hhead (congrArg some heq)
          obtain ⟨piece, _, -, hpiece⟩ := Text.pieces_cons_of_ne others hfirst
          rw [List.nil_append, hpiece] at hlines
          cases hlines
        obtain ⟨shown', hspot'⟩ := hspot.cons hvisible
        exact ⟨n, shown', hspot'⟩

theorem fitting_append (front back : List Char) :
    fitting (front ++ back) (Text.byteLength front) = front.length := by
  induction front with
  | nil =>
      cases back with
      | nil => rfl
      | cons c back =>
          have hwide := c.utf8Size_pos
          rw [List.nil_append, fitting, if_neg (by simp; omega)]
          rfl
  | cons c front ih =>
      rw [List.cons_append, fitting, Text.byteLength_cons, if_pos (Nat.le_add_right _ _),
        Nat.add_sub_cancel_left, ih]
      rfl

theorem byteLength_content_le (line : List Char) :
    Text.byteLength (content line) ≤ Text.byteLength line := by
  unfold content
  split
  · rename_i hlast
    obtain ⟨front, rfl⟩ := List.getLast?_eq_some_iff.mp hlast
    simp
  · exact Nat.le_refl _

theorem locate_cons_cons (first second : List Char) (rest : List (List Char)) (bytes : Nat) :
    Lines.locate (first :: second :: rest) bytes =
      if bytes ≤ Text.byteLength first then ⟨0, fitting (content first) bytes⟩
      else
        ⟨(Lines.locate (second :: rest) (bytes - (Text.byteLength first + 1))).line + 1,
          (Lines.locate (second :: rest) (bytes - (Text.byteLength first + 1))).column⟩ := rfl

/-- The position of a spot is its line and the number of characters that the line shows before it. -/
theorem Spot.locate {all : List (List Char)} {bytes line : Nat} {front : List Char}
    (h : Spot all bytes line front) : Lines.locate all bytes = ⟨line, front.length⟩ := by
  obtain ⟨⟨back, hback⟩, hbytes⟩ := h
  induction all generalizing bytes line with
  | nil => simp at hback
  | cons first rest ih =>
      cases line with
      | zero =>
          have hcontent : content first = front ++ back := Option.some.inj hback
          rw [startOf_zero, Nat.zero_add] at hbytes
          have hinside : bytes ≤ Text.byteLength first := by
            have := byteLength_content_le first
            rw [hcontent, Text.byteLength_append] at this
            omega
          have hcolumn : fitting (content first) bytes = front.length := by
            rw [hcontent, hbytes, fitting_append]
          cases rest with
          | nil => rw [Lines.locate, hcolumn]
          | cons second rest => rw [locate_cons_cons, if_pos hinside, hcolumn]
      | succ n =>
          rw [startOf_cons_succ] at hbytes
          cases rest with
          | nil => simp at hback
          | cons second rest =>
              have hbelow : bytes - (Text.byteLength first + 1) =
                  startOf (second :: rest) n + Text.byteLength front := by omega
              rw [locate_cons_cons, if_neg (by omega), ih hbelow hback]

/-- The offset of a spot is found from its position. -/
theorem Spot.offset {cs front : List Char} {bytes line : Nat}
    (h : Spot (lines cs) bytes line front) : Lines.offset cs ⟨line, front.length⟩ = .ok bytes := by
  obtain ⟨⟨back, hback⟩, hbytes⟩ := h
  obtain ⟨found, hfound, hcontent⟩ := Option.map_eq_some_iff.mp hback
  simp only [Lines.offset, hfound, hcontent]
  rw [if_pos (by simp), List.take_left, hbytes]

theorem fitting_mono (cs : List Char) {bytes more : Nat} (h : bytes ≤ more) :
    fitting cs bytes ≤ fitting cs more := by
  induction cs generalizing bytes more with
  | nil => exact Nat.le_refl _
  | cons c cs ih =>
      rw [fitting, fitting]
      split
      · have := ih (Nat.sub_le_sub_right h c.utf8Size)
        rw [if_pos (by omega)]
        omega
      · exact Nat.zero_le _

/-- Positions follow each other as their offsets do. -/
theorem locate_mono (all : List (List Char)) {bytes more : Nat} (h : bytes ≤ more) :
    Lines.locate all bytes ≤ Lines.locate all more := by
  induction all generalizing bytes more with
  | nil => exact .inr ⟨rfl, Nat.le_refl _⟩
  | cons first rest ih =>
      cases rest with
      | nil => exact .inr ⟨rfl, fitting_mono _ h⟩
      | cons second rest =>
          rw [locate_cons_cons, locate_cons_cons, Position.le_def]
          split
          · split
            · exact .inr ⟨rfl, fitting_mono _ h⟩
            · exact .inl (Nat.succ_pos _)
          · rw [if_neg (by omega)]
            have := Position.le_def.mp (ih (Nat.sub_le_sub_right h (Text.byteLength first + 1)))
            simp only
            omega

end Lines

namespace Document

variable {d : Document} {front back : List Char}

/-- An addressable offset is found again from its position. -/
theorem offsetAt_locate (hchars : d.chars = front ++ back) (h : Lines.Addressable front back) :
    d.offsetAt (Lines.locate (Lines.lines d.chars) (Text.byteLength front)) =
      .ok (Text.byteLength front) := by
  obtain ⟨line, shown, hspot⟩ := Lines.exists_spot h
  rw [← hchars] at hspot
  rw [hspot.locate]
  exact hspot.offset

end Document

end CodeIntel
