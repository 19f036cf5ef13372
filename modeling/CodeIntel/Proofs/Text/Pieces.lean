import CodeIntel.Text.Basic
import Mathlib.Data.List.Basic

/-! The pieces of a text between the occurrences of a character. Paths are cut at their slashes, texts
at their line feeds and patterns at their stars, and all are taken apart with the same lemmas. -/

namespace CodeIntel.Text

theorem eq_nil_of_byteLength {cs : List Char} (h : byteLength cs = 0) : cs = [] := by
  cases cs with
  | nil => rfl
  | cons c cs =>
      have hwide := c.utf8Size_pos
      rw [byteLength_cons] at h
      omega

/-- Of two cuts of a text the later one falls into what the earlier one leaves. -/
theorem exists_gap {front rest before back : List Char} (h : front ++ rest = before ++ back)
    (hle : byteLength front ≤ byteLength before) :
    ∃ gap, before = front ++ gap ∧ rest = gap ++ back := by
  rcases List.append_eq_append_iff.mp h with hgap | ⟨more, rfl, rfl⟩
  · exact hgap
  · rw [byteLength_append] at hle
    obtain rfl := eq_nil_of_byteLength (show byteLength more = 0 by omega)
    exact ⟨[], by simp, rfl⟩

/-- A text has one cut at each byte offset. -/
theorem append_inj_of_byteLength {front rest before back : List Char}
    (h : front ++ rest = before ++ back) (hlength : byteLength front = byteLength before) :
    front = before ∧ rest = back := by
  obtain ⟨gap, rfl, rfl⟩ := exists_gap h (Nat.le_of_eq hlength)
  rw [byteLength_append] at hlength
  obtain rfl := eq_nil_of_byteLength (show byteLength gap = 0 by omega)
  exact ⟨(List.append_nil _).symm, rfl⟩

theorem pieces_cons_of_ne {separator c : Char} (cs : List Char) (h : c ≠ separator) :
    ∃ piece rest, pieces separator cs = piece :: rest ∧
      pieces separator (c :: cs) = (c :: piece) :: rest := by
  cases hpieces : pieces separator cs with
  | nil => exact absurd hpieces (pieces_ne_nil separator cs)
  | cons piece rest => exact ⟨piece, rest, rfl, by simp [pieces, h, hpieces]⟩

/-- The pieces on both sides of a separator are the pieces of the two sides. -/
theorem pieces_append_cons (separator : Char) (front back : List Char) :
    pieces separator (front ++ separator :: back) = pieces separator front ++ pieces separator back := by
  induction front with
  | nil => simp [pieces]
  | cons c front ih =>
      by_cases h : c = separator
      · simp [pieces, h, ih]
      · obtain ⟨piece, rest, hpiece, hfront⟩ := pieces_cons_of_ne front h
        rw [List.cons_append, pieces, if_neg h, ih, hpiece, hfront]
        rfl

theorem pieces_of_notMem {separator : Char} {cs : List Char} (h : separator ∉ cs) :
    pieces separator cs = [cs] := by
  induction cs with
  | nil => rfl
  | cons c cs ih =>
      rw [List.mem_cons, not_or] at h
      rw [pieces, if_neg (Ne.symm h.1), ih h.2]

theorem notMem_of_mem_pieces {separator : Char} {cs piece : List Char}
    (h : piece ∈ pieces separator cs) : separator ∉ piece := by
  induction cs generalizing piece with
  | nil =>
      rw [pieces, List.mem_singleton] at h
      simp [h]
  | cons c cs ih =>
      by_cases hc : c = separator
      · rw [pieces, if_pos hc, List.mem_cons] at h
        rcases h with rfl | h
        · exact List.not_mem_nil
        · exact ih h
      · obtain ⟨first, rest, hpieces, hall⟩ := pieces_cons_of_ne cs hc
        rw [hall, List.mem_cons] at h
        rcases h with rfl | h
        · have hfirst := ih (hpieces ▸ List.mem_cons_self)
          simp [hfirst, Ne.symm hc]
        · exact ih (hpieces ▸ List.mem_cons_of_mem _ h)

/-- A character of a piece is one of the text. -/
theorem mem_of_mem_pieces {separator c : Char} {cs piece : List Char}
    (hpiece : piece ∈ pieces separator cs) (hc : c ∈ piece) : c ∈ cs := by
  induction cs generalizing piece with
  | nil =>
      rw [pieces, List.mem_singleton] at hpiece
      simp [hpiece] at hc
  | cons first cs ih =>
      by_cases h : first = separator
      · rw [pieces, if_pos h, List.mem_cons] at hpiece
        rcases hpiece with rfl | hpiece
        · cases hc
        · exact List.mem_cons_of_mem _ (ih hpiece hc)
      · obtain ⟨head, rest, hpieces, hall⟩ := pieces_cons_of_ne cs h
        rw [hall, List.mem_cons] at hpiece
        rcases hpiece with rfl | hpiece
        · rcases List.mem_cons.mp hc with rfl | hc
          · exact List.mem_cons_self
          · exact List.mem_cons_of_mem _ (ih (hpieces ▸ List.mem_cons_self) hc)
        · exact List.mem_cons_of_mem _ (ih (hpieces ▸ List.mem_cons_of_mem _ hpiece) hc)

/-- A character other than the separator stands in one of the pieces. -/
theorem exists_piece_of_mem {separator c : Char} {cs : List Char} (h : c ∈ cs) (hne : c ≠ separator) :
    ∃ piece ∈ pieces separator cs, c ∈ piece := by
  induction cs with
  | nil => cases h
  | cons first cs ih =>
      by_cases hfirst : first = separator
      · have hrest : c ∈ cs := (List.mem_cons.mp h).resolve_left fun heq => hne (heq.trans hfirst)
        obtain ⟨piece, hpiece, hc⟩ := ih hrest
        exact ⟨piece, by rw [pieces, if_pos hfirst]; exact List.mem_cons_of_mem _ hpiece, hc⟩
      · obtain ⟨head, rest, hpieces, hall⟩ := pieces_cons_of_ne cs hfirst
        rw [hall]
        rcases List.mem_cons.mp h with rfl | h
        · exact ⟨c :: head, List.mem_cons_self, List.mem_cons_self⟩
        · obtain ⟨piece, hpiece, hc⟩ := ih h
          rw [hpieces] at hpiece
          rcases List.mem_cons.mp hpiece with rfl | hpiece
          · exact ⟨first :: piece, List.mem_cons_self, List.mem_cons_of_mem _ hc⟩
          · exact ⟨piece, List.mem_cons_of_mem _ hpiece, hc⟩

/-- Strings are put together as their characters are. -/
theorem intercalate_ofList (separator : List Char) (pieces : List (List Char)) :
    String.intercalate (String.ofList separator) (pieces.map String.ofList) =
      String.ofList (joined separator pieces) := by
  induction pieces with
  | nil => rfl
  | cons piece rest ih =>
      cases rest with
      | nil => rw [List.map_singleton, String.intercalate_singleton, joined]
      | cons next others =>
          rw [List.map_cons, List.map_cons, String.intercalate_cons_cons, ← List.map_cons, ih]
          change _ = String.ofList (piece ++ separator ++ joined separator (next :: others))
          rw [String.ofList_append, String.ofList_append]

end CodeIntel.Text
