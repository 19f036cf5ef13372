import CodeIntel.Proofs.Source.Splicing
import CodeIntel.Proofs.Source.Words
import Mathlib.Algebra.Group.Nat.Defs

/-! Positions and byte offsets as an adjunction. The offsets of positions are the addressable offsets of a
text, in the order of their positions, and the position of any offset is that of the last addressable
offset that is not behind it. Everything else is read off this one law. An offset inside a character or
inside the end of a line has no position of its own; the boundary that stands for it is found by going
back byte by byte, which never leads out of the line. -/

namespace CodeIntel

namespace Text

theorem cut?_isSome_iff {cs : List Char} {bytes : Nat} :
    (cut? cs bytes).isSome ↔ Boundary cs bytes := by
  rw [Option.isSome_iff_exists]
  constructor
  · rintro ⟨⟨front, back⟩, hcut⟩
    exact ⟨front, back, cut?_eq_some hcut⟩
  · rintro ⟨front, back, rfl, rfl⟩
    exact ⟨_, cut?_append front back⟩

theorem length_le_byteLength (cs : List Char) : cs.length ≤ byteLength cs := by
  induction cs with
  | nil => exact Nat.le_refl _
  | cons c cs ih =>
      have hwide := c.utf8Size_pos
      rw [List.length_cons, byteLength_cons]
      omega

/-- More characters take more bytes. -/
theorem byteLength_take_lt {cs : List Char} {n m : Nat} (hless : n < m) (hm : m ≤ cs.length) :
    byteLength (cs.take n) < byteLength (cs.take m) := by
  obtain ⟨k, rfl⟩ := Nat.exists_eq_add_of_lt hless
  have hsome : 0 < ((cs.drop n).take (k + 1)).length := by
    rw [List.length_take, List.length_drop]
    omega
  have hwide := length_le_byteLength ((cs.drop n).take (k + 1))
  rw [Nat.add_assoc, List.take_add, byteLength_append]
  omega

/-- The boundary at a byte offset or the last one before it, looked for backwards byte by byte. -/
def boundaryBefore (cs : List Char) : Nat → Nat
  | 0 => 0
  | bytes + 1 => if (cut? cs (bytes + 1)).isSome then bytes + 1 else boundaryBefore cs bytes

theorem boundaryBefore_eq {cs : List Char} {last bytes : Nat} (hlast : Boundary cs last)
    (hle : last ≤ bytes) (hgreatest : ∀ other, Boundary cs other → other ≤ bytes → other ≤ last) :
    boundaryBefore cs bytes = last := by
  induction bytes with
  | zero => exact (Nat.le_zero.mp hle).symm
  | succ bytes ih =>
      rw [boundaryBefore]
      split
      · rename_i hcut
        exact Nat.le_antisymm (hgreatest _ (cut?_isSome_iff.mp hcut) (Nat.le_refl _)) hle
      · rename_i hinside
        have hne : last ≠ bytes + 1 := by
          rintro rfl
          exact hinside (cut?_isSome_iff.mpr hlast)
        exact ih (by omega) fun other hother hbefore => hgreatest other hother (by omega)

end Text

namespace Lines

open Text (Boundary boundaryBefore)

/-! ### The line of an offset -/

/-- An offset lies in a line or at its end, before the next line starts. -/
structure Within (all : List (List Char)) (bytes n : Nat) (line : List Char) : Prop where
  found : all[n]? = some line
  start_le : startOf all n ≤ bytes
  le_stop : bytes ≤ startOf all n + Text.byteLength line

theorem Within.succ {rest : List (List Char)} {bytes n : Nat} {line : List Char}
    (h : Within rest bytes n line) (first : List Char) :
    Within (first :: rest) (Text.byteLength first + 1 + bytes) (n + 1) line := by
  obtain ⟨hfound, hstart, hstop⟩ := h
  refine ⟨hfound, ?_, ?_⟩
  · rw [startOf_cons_succ]
    omega
  · rw [startOf_cons_succ]
    omega

/-- The position of an offset is its line and as many characters of the line as fit before it. -/
theorem exists_within {all : List (List Char)} {bytes : Nat} (hne : all ≠ [])
    (h : bytes ≤ Text.byteLength (Text.joined ['\n'] all)) :
    ∃ n line, Within all bytes n line ∧
      locate all bytes = ⟨n, fitting (content line) (bytes - startOf all n)⟩ := by
  induction all generalizing bytes with
  | nil => exact absurd rfl hne
  | cons first rest ih =>
      cases rest with
      | nil =>
          have hinside : bytes ≤ Text.byteLength first := h
          exact ⟨0, first, ⟨rfl, Nat.zero_le _, by rw [startOf_zero]; omega⟩, rfl⟩
      | cons second rest =>
          by_cases hinside : bytes ≤ Text.byteLength first
          · refine ⟨0, first, ⟨rfl, Nat.zero_le _, by rw [startOf_zero]; omega⟩, ?_⟩
            rw [locate_cons_cons, if_pos hinside]
            rfl
          · have hjoined : Text.joined ['\n'] (first :: second :: rest) =
                first ++ ['\n'] ++ Text.joined ['\n'] (second :: rest) := rfl
            have hfeed : Text.byteLength ['\n'] = 1 := rfl
            rw [hjoined, Text.byteLength_append, Text.byteLength_append, hfeed] at h
            have hrest : bytes - (Text.byteLength first + 1) ≤
                Text.byteLength (Text.joined ['\n'] (second :: rest)) := by omega
            obtain ⟨n, line, hwithin, hlocate⟩ := ih (List.cons_ne_nil _ _) hrest
            have hnext := hwithin.succ first
            rw [Nat.add_sub_cancel' (by omega)] at hnext
            refine ⟨n + 1, line, hnext, ?_⟩
            rw [locate_cons_cons, if_neg hinside, hlocate, startOf_cons_succ, Nat.sub_sub]

/-- As many characters fit as have no more bytes than there are. -/
theorem le_fitting_iff {cs : List Char} {n bytes : Nat} (h : n ≤ cs.length) :
    n ≤ fitting cs bytes ↔ Text.byteLength (cs.take n) ≤ bytes := by
  induction cs generalizing n bytes with
  | nil =>
      obtain rfl := Nat.le_zero.mp h
      simp
  | cons c cs ih =>
      cases n with
      | zero => simp
      | succ n =>
          rw [fitting, List.take_succ_cons, Text.byteLength_cons]
          split
          · rename_i hfits
            rw [Nat.succ_le_succ_iff, ih (Nat.le_of_succ_le_succ h)]
            omega
          · omega

theorem fitting_le_length (cs : List Char) (bytes : Nat) : fitting cs bytes ≤ cs.length := by
  induction cs generalizing bytes with
  | nil => exact Nat.le_refl _
  | cons c cs ih =>
      rw [fitting]
      split
      · exact Nat.succ_le_succ (ih _)
      · exact Nat.zero_le _

theorem byteLength_fitting_le (cs : List Char) (bytes : Nat) :
    Text.byteLength (cs.take (fitting cs bytes)) ≤ bytes :=
  (le_fitting_iff (fitting_le_length cs bytes)).mp (Nat.le_refl _)

theorem le_startOf {all : List (List Char)} {n : Nat} (h : n ≤ all.length) : n ≤ startOf all n := by
  induction n with
  | zero => exact Nat.zero_le _
  | succ n ih =>
      have hnext := startOf_succ (List.getElem?_eq_getElem (Nat.lt_of_succ_le h))
      have hbefore := ih (Nat.le_of_succ_le h)
      omega

section

variable {cs : List Char} {p q : Position} {bytes first second : Nat}

theorem position_eq_ok :
    position cs bytes = .ok q ↔ bytes ≤ Text.byteLength cs ∧ ∃ line,
      Within (lines cs) bytes q.line line ∧
      q.column = fitting (content line) (bytes - startOf (lines cs) q.line) := by
  rw [position]
  split
  · rename_i hinside
    have hjoined : Text.joined ['\n'] (lines cs) = cs := Text.joined_pieces '\n' cs
    rw [← hjoined] at hinside
    obtain ⟨n, line, hwithin, hlocate⟩ := exists_within (Text.pieces_ne_nil '\n' cs) hinside
    rw [hjoined] at hinside
    rw [← lines] at hwithin hlocate
    rw [hlocate, Except.ok.injEq, and_iff_right hinside]
    constructor
    · rintro rfl
      exact ⟨line, hwithin, rfl⟩
    · rintro ⟨other, hother, hcolumn⟩
      -- No offset lies within two lines.
      have hline : n = q.line := by
        rcases Nat.lt_trichotomy n q.line with hless | heq | hless
        · have hnext := startOf_mono (lines cs) (Nat.succ_le_of_lt hless)
          rw [startOf_succ hwithin.found] at hnext
          have hstop := hwithin.le_stop
          have hstart := hother.start_le
          omega
        · exact heq
        · have hnext := startOf_mono (lines cs) (Nat.succ_le_of_lt hless)
          rw [startOf_succ hother.found] at hnext
          have hstop := hother.le_stop
          have hstart := hwithin.start_le
          omega
      subst hline
      obtain rfl := Option.some.inj (hwithin.found.symm.trans hother.found)
      rw [← hcolumn]
  · rename_i houtside
    simp [houtside]

/-! ### The law -/

theorem exists_offset_iff :
    (∃ bytes, offset cs p = .ok bytes) ↔
      p.line < count cs ∧ ∃ shown, contentOf? cs p.line = some shown ∧ p.column ≤ shown.length := by
  simp only [offset_eq_ok, contentOf?, Option.map_eq_some_iff]
  constructor
  · rintro ⟨bytes, line, hline, hcolumn, -⟩
    exact ⟨(List.getElem?_eq_some_iff.mp hline).1, content line, ⟨line, hline, rfl⟩, hcolumn⟩
  · rintro ⟨-, shown, ⟨line, hline, rfl⟩, hcolumn⟩
    exact ⟨_, line, hline, hcolumn, rfl⟩

theorem exists_position_iff :
    (∃ q, position cs bytes = .ok q) ↔ bytes ≤ Text.byteLength cs := by
  rw [position]
  split
  · simp [*]
  · simp [*]

/-- A later position has a greater offset. -/
theorem offset_strictMono (hless : p < q) (hp : offset cs p = .ok first)
    (hq : offset cs q = .ok second) : first < second := by
  obtain ⟨line, hline, hcolumn, rfl⟩ := offset_eq_ok.mp hp
  obtain ⟨line', hline', hcolumn', rfl⟩ := offset_eq_ok.mp hq
  rcases Position.lt_def.mp hless with hbefore | ⟨hsame, hcolumns⟩
  · -- The line feed of the first line comes between the two.
    have hinside := Text.byteLength_mono
      ((List.take_prefix p.column (content line)).trans (content_isPrefix line))
    have hnext := startOf_mono (lines cs) (Nat.succ_le_of_lt hbefore)
    rw [startOf_succ hline] at hnext
    omega
  · rw [hsame, hline'] at hline
    obtain rfl := Option.some.inj hline
    have hmore := Text.byteLength_take_lt hcolumns hcolumn'
    rw [hsame]
    omega

theorem lt_iff_offset_lt (hp : offset cs p = .ok first) (hq : offset cs q = .ok second) :
    p < q ↔ first < second := by
  refine ⟨fun hless => offset_strictMono hless hp hq, fun hless => ?_⟩
  by_contra hnot
  exact absurd (offset_mono (Position.not_lt.mp hnot) hq hp) (Nat.not_le_of_lt hless)

/-- The law: the offset of a position is not behind another offset exactly when the position is not
behind the position of that offset. -/
theorem offset_le_iff (hp : offset cs p = .ok first) (hq : position cs bytes = .ok q) :
    first ≤ bytes ↔ p ≤ q := by
  obtain ⟨line, hline, hcolumn, rfl⟩ := offset_eq_ok.mp hp
  obtain ⟨-, line', ⟨hline', hstart, hstop⟩, hcolumn'⟩ := position_eq_ok.mp hq
  rw [Position.le_def]
  rcases Nat.lt_trichotomy p.line q.line with hbefore | hsame | hafter
  · have hinside := Text.byteLength_mono
      ((List.take_prefix p.column (content line)).trans (content_isPrefix line))
    have hnext := startOf_mono (lines cs) (Nat.succ_le_of_lt hbefore)
    rw [startOf_succ hline] at hnext
    exact iff_of_true (by omega) (.inl hbefore)
  · rw [hsame, hline'] at hline
    obtain rfl := Option.some.inj hline
    have hfits : p.column ≤ fitting (content line') (bytes - startOf (lines cs) q.line) ↔ _ :=
      le_fitting_iff hcolumn
    rw [hsame, hcolumn']
    omega
  · have hnext := startOf_mono (lines cs) (Nat.succ_le_of_lt hafter)
    rw [startOf_succ hline'] at hnext
    exact iff_of_false (by omega) (by omega)

theorem exists_offset_of_position (h : position cs bytes = .ok q) :
    ∃ last, offset cs q = .ok last := by
  obtain ⟨-, line, hwithin, hcolumn⟩ := position_eq_ok.mp h
  exact ⟨_, offset_eq_ok.mpr ⟨line, hwithin.found, hcolumn ▸ fitting_le_length _ _, rfl⟩⟩

/-- The offset of a position has this position. -/
theorem position_of_offset (h : offset cs p = .ok bytes) : position cs bytes = .ok p := by
  obtain ⟨q, hq⟩ := exists_position_iff.mpr (boundary_of_offset h).le
  obtain ⟨last, hlast⟩ := exists_offset_of_position hq
  have hforward : p ≤ q := (offset_le_iff h hq).mp (Nat.le_refl _)
  have hback : last ≤ bytes := (offset_le_iff hlast hq).mpr (.inr ⟨rfl, Nat.le_refl _⟩)
  have hnot : ¬ p < q := fun hless => Nat.not_le_of_lt (offset_strictMono hless h hlast) hback
  have hequal : q = p := by
    have hbehind := Position.not_lt.mp hnot
    rw [Position.le_def] at hforward hbehind
    obtain ⟨line, column⟩ := p
    obtain ⟨line', column'⟩ := q
    rw [Position.mk.injEq]
    simp only at hforward hbehind
    omega
  rw [hq, hequal]

theorem eq_of_offset_eq (hp : offset cs p = .ok bytes) (hq : offset cs q = .ok bytes) : p = q :=
  Except.ok.inj ((position_of_offset hp).symm.trans (position_of_offset hq))

/-- Going from an offset to its position and back leads to the last addressable offset that is not behind
it. -/
theorem last_of_position (h : position cs bytes = .ok q) :
    ∃ last, offset cs q = .ok last ∧ last ≤ bytes ∧
      ∀ p other, offset cs p = .ok other → other ≤ bytes → other ≤ last := by
  obtain ⟨last, hlast⟩ := exists_offset_of_position h
  refine ⟨last, hlast, (offset_le_iff hlast h).mpr (.inr ⟨rfl, Nat.le_refl _⟩), ?_⟩
  intro p other hother hle
  exact offset_mono ((offset_le_iff hother h).mp hle) hother hlast

/-! ### The search for a boundary -/

/-- How the position of an offset is searched for: in the last line that starts at or before the offset,
backwards from the offset, or from the end of what the line shows when the offset is behind that. The
search ends in the line, and the column counts the characters up to where it ends. -/
structure FoundBackwards (cs : List Char) (bytes : Nat) (q : Position) : Prop where
  start_le : startOf (lines cs) q.line ≤ bytes
  lt_start : ∀ line, q.line < line → line < count cs → bytes < startOf (lines cs) line
  found : ∃ shown, contentOf? cs q.line = some shown ∧ q.column ≤ shown.length ∧
    let stop := startOf (lines cs) q.line + Text.byteLength shown
    let last := boundaryBefore cs (min bytes stop)
    startOf (lines cs) q.line ≤ last ∧ last ≤ stop ∧
      Text.slice? cs (startOf (lines cs) q.line) last = some (shown.take q.column)

/-- A boundary in what a line shows is the end of its first so many characters. -/
theorem exists_take_of_boundary {front shown back : List Char} {other : Nat}
    (h : Boundary (front ++ (shown ++ back)) other) (hstart : Text.byteLength front ≤ other)
    (hstop : other ≤ Text.byteLength front + Text.byteLength shown) :
    ∃ n, n ≤ shown.length ∧ other = Text.byteLength front + Text.byteLength (shown.take n) := by
  obtain ⟨gap, behind, hsplit, hgap⟩ := h.exists_gap hstart
  obtain ⟨more, rfl, -⟩ := Text.exists_gap hsplit.symm (by omega)
  exact ⟨gap.length, by simp, by rw [List.take_left, hgap]⟩

/-- The search ends behind as many characters of what the line shows as fit before the offset. -/
theorem boundaryBefore_shown (front shown back : List Char) (hstart : Text.byteLength front ≤ bytes) :
    boundaryBefore (front ++ (shown ++ back))
        (min bytes (Text.byteLength front + Text.byteLength shown)) =
      Text.byteLength front +
        Text.byteLength (shown.take (fitting shown (bytes - Text.byteLength front))) := by
  generalize hcolumn : fitting shown (bytes - Text.byteLength front) = column
  have hfits := byteLength_fitting_le shown (bytes - Text.byteLength front)
  have hshown := Text.byteLength_mono (List.take_prefix column shown)
  rw [hcolumn] at hfits
  refine Text.boundaryBefore_eq ?_ (by omega) ?_
  · refine ⟨front ++ shown.take column, shown.drop column ++ back, ?_, Text.byteLength_append _ _⟩
    rw [List.append_assoc, ← List.append_assoc (List.take _ shown), List.take_append_drop]
  · intro other hother hbefore
    by_cases hearlier : other < Text.byteLength front
    · omega
    · obtain ⟨n, hn, rfl⟩ := exists_take_of_boundary hother (by omega) (by omega)
      have hle : n ≤ column := by
        rw [← hcolumn, le_fitting_iff hn]
        omega
      have hless := Text.byteLength_mono (List.take_prefix_take_left (l := shown) hle)
      omega

theorem foundBackwards_of_position (h : position cs bytes = .ok q) : FoundBackwards cs bytes q := by
  obtain ⟨-, line, ⟨hline, hstart, hstop⟩, hcolumn⟩ := position_eq_ok.mp h
  have hshown : contentOf? cs q.line = some (content line) := by
    rw [contentOf?, hline]
    rfl
  refine ⟨hstart, fun other hless _ => ?_, content line, hshown,
    hcolumn ▸ fitting_le_length _ _, ?_⟩
  · have hnext := startOf_mono (lines cs) (Nat.succ_le_of_lt hless)
    rw [startOf_succ hline] at hnext
    omega
  · -- The text is what stands before the line, what the line shows, and what stands behind that.
    obtain ⟨front, rest, hjoined, hfront, -, -⟩ := exists_of_getElem? hline
    obtain ⟨terminator, hterminator⟩ := content_isPrefix line
    rw [lines, Text.joined_pieces, ← hterminator, List.append_assoc] at hjoined
    have hlast := boundaryBefore_shown front (content line) (terminator ++ rest) (hfront ▸ hstart)
    rw [← hjoined, hfront, ← hcolumn] at hlast
    have hinside := Text.byteLength_mono (List.take_prefix q.column (content line))
    dsimp only
    rw [hlast]
    refine ⟨Nat.le_add_right _ _, by omega, Text.slice?_eq_some.mpr
      ⟨front, (content line).drop q.column ++ (terminator ++ rest), ?_, hfront, rfl⟩⟩
    rw [List.append_assoc, ← List.append_assoc (List.take _ _), List.take_append_drop]
    exact hjoined

/-- Neither number of a position exceeds the bytes of the text. -/
theorem position_le (h : position cs bytes = .ok q) :
    q.line ≤ Text.byteLength cs ∧ q.column ≤ Text.byteLength cs := by
  obtain ⟨hinside, line, ⟨hline, hstart, -⟩, hcolumn⟩ := position_eq_ok.mp h
  have hlines := le_startOf (Nat.le_of_lt (List.getElem?_eq_some_iff.mp hline).1)
  have hfits := byteLength_fitting_le (content line) (bytes - startOf (lines cs) q.line)
  have hwide := Text.length_le_byteLength ((content line).take q.column)
  have hlength := fitting_le_length (content line) (bytes - startOf (lines cs) q.line)
  rw [← hcolumn] at hfits hlength
  rw [List.length_take, Nat.min_eq_left hlength] at hwide
  omega

end

/-- The positions and the byte offsets of a text form a Galois connection. A position has an offset
exactly when its line exists and shows that many characters, and later positions have greater offsets;
exactly the offsets up to the length of the text have a position. The offset of a position is a boundary
between characters and has that position again; the position of an offset is that of the last addressable
offset not behind it. It is found by a search backwards that stays in its line, and its numbers fit a
machine word whenever the length of the text does. -/
theorem offsets_and_positions_adjoint (cs : List Char) :
    (∀ p, (∃ bytes, offset cs p = .ok bytes) ↔
      p.line < count cs ∧ ∃ shown, contentOf? cs p.line = some shown ∧ p.column ≤ shown.length) ∧
    (∀ p q first second, offset cs p = .ok first → offset cs q = .ok second →
      (p < q ↔ first < second)) ∧
    (∀ bytes, (∃ q, position cs bytes = .ok q) ↔ bytes ≤ Text.byteLength cs) ∧
    (∀ p q first bytes, offset cs p = .ok first → position cs bytes = .ok q →
      (first ≤ bytes ↔ p ≤ q)) ∧
    (∀ p bytes, offset cs p = .ok bytes → position cs bytes = .ok p ∧ Boundary cs bytes) ∧
    (∀ bytes q, position cs bytes = .ok q →
      (∃ last, offset cs q = .ok last ∧ last ≤ bytes ∧
        ∀ p other, offset cs p = .ok other → other ≤ bytes → other ≤ last) ∧
      FoundBackwards cs bytes q ∧
      (Text.byteLength cs < 2 ^ 32 → q.line < 2 ^ 32 ∧ q.column < 2 ^ 32)) := by
  refine ⟨fun _ => exists_offset_iff, fun _ _ _ _ => lt_iff_offset_lt,
    fun _ => exists_position_iff, fun _ _ _ _ => offset_le_iff, fun _ _ h => ?_, fun _ _ h => ?_⟩
  · exact ⟨position_of_offset h, boundary_of_offset h⟩
  · have hle := position_le h
    exact ⟨last_of_position h, foundBackwards_of_position h, fun hshort => by omega⟩

/-- An offset between the two characters that end a line has the position of the end of what the line
shows, and from there one comes back to the boundary before the carriage return. -/
theorem line_end_adjoint :
    position ['é', '\r', '\n', 'b'] 3 = .ok ⟨0, 1⟩ ∧
    (∃ last, offset ['é', '\r', '\n', 'b'] ⟨0, 1⟩ = .ok last ∧ last ≤ 3 ∧
      ∀ p other, offset ['é', '\r', '\n', 'b'] p = .ok other → other ≤ 3 → other ≤ last) ∧
    FoundBackwards ['é', '\r', '\n', 'b'] 3 ⟨0, 1⟩ := by
  have hposition : position ['é', '\r', '\n', 'b'] 3 = .ok ⟨0, 1⟩ := rfl
  obtain ⟨-, -, -, -, -, hback⟩ := offsets_and_positions_adjoint ['é', '\r', '\n', 'b']
  obtain ⟨hlast, hfound, -⟩ := hback 3 ⟨0, 1⟩ hposition
  exact ⟨hposition, hlast, hfound⟩

end Lines

end CodeIntel
