import CodeIntel.Proofs.Source.Adjunction

/-! The ends of lines. What the lines of a text show and the line feeds between them, each with the carriage
return before it, make up the text, except that a carriage return at the very end of the text is in no
line and ends none. So the lines are the text exactly when it does not end in a carriage return, and only
then has its end a position. -/

namespace CodeIntel.Lines

/-- What ends a line: a line feed, or a carriage return and a line feed. -/
inductive IsTerminator : List Char → Prop where
  | feed : IsTerminator ['\n']
  | returnFeed : IsTerminator ['\r', '\n']

/-- Lines that make up a text, each but the last with what ends it. -/
inductive MakeUp : List (List Char) → List Char → Prop where
  | last (line : List Char) : MakeUp [line] line
  | next {terminator cs : List Char} {rest : List (List Char)} (line : List Char) :
      IsTerminator terminator → MakeUp rest cs → MakeUp (line :: rest) (line ++ (terminator ++ cs))

/-- What the lines of a text show, from the first to the last. -/
def contents (cs : List Char) : List (List Char) :=
  (List.range (count cs)).filterMap (contentOf? cs)

theorem contents_eq (cs : List Char) : contents cs = (lines cs).map content := by
  have hrange : ∀ all : List (List Char),
      (List.range all.length).filterMap (fun n => all[n]?.map content) = all.map content := by
    intro all
    induction all with
    | nil => rfl
    | cons first rest ih =>
        simp [List.range_succ_eq_map, List.filterMap_map, ih]
  exact hrange (lines cs)

theorem content_feed (cs : List Char) : content ('\n' :: cs) = '\n' :: content cs := by
  cases cs with
  | nil => rfl
  | cons c cs => exact content_cons (List.cons_ne_nil _ _)

/-- Only the last line of a text can lose its end. -/
theorem content_append_feed (front back : List Char) :
    content (front ++ '\n' :: back) = front ++ '\n' :: content back := by
  induction front with
  | nil => exact content_feed back
  | cons c front ih => rw [List.cons_append, content_cons (by simp), ih, List.cons_append]

theorem content_of_getLast?_ne {cs : List Char} (h : cs.getLast? ≠ some '\r') : content cs = cs :=
  if_neg h

theorem content_append_return (cs : List Char) : content (cs ++ ['\r']) = cs := by
  simp [content]

/-- What a line does not show is part of what ends it. -/
theorem exists_terminator (line : List Char) :
    ∃ terminator, IsTerminator terminator ∧ line ++ ['\n'] = content line ++ terminator := by
  by_cases h : line.getLast? = some '\r'
  · obtain ⟨front, rfl⟩ := List.getLast?_eq_some_iff.mp h
    exact ⟨_, .returnFeed, by rw [content_append_return, List.append_assoc]; rfl⟩
  · exact ⟨_, .feed, by rw [content_of_getLast?_ne h]⟩

theorem makeUp_joined {all : List (List Char)} (hne : all ≠ []) :
    MakeUp (all.map content) (content (Text.joined ['\n'] all)) := by
  induction all with
  | nil => exact absurd rfl hne
  | cons first rest ih =>
      cases rest with
      | nil => exact .last _
      | cons second rest =>
          have hrest := ih (List.cons_ne_nil _ _)
          have hjoined : Text.joined ['\n'] (first :: second :: rest) =
              first ++ '\n' :: Text.joined ['\n'] (second :: rest) := by simp [Text.joined]
          obtain ⟨terminator, hterminator, hline⟩ := exists_terminator first
          rw [hjoined, content_append_feed, List.append_cons, hline, List.append_assoc]
          exact .next _ hterminator hrest

/-- The lines of a text make it up, less a carriage return at its very end. -/
theorem makeUp_content (cs : List Char) : MakeUp (contents cs) (content cs) := by
  have hlines := makeUp_joined (Text.pieces_ne_nil '\n' cs)
  rw [Text.joined_pieces] at hlines
  rw [contents_eq]
  exact hlines

/-- A text is not made up by the same lines as the text with a carriage return behind it. -/
theorem MakeUp.not_return {all : List (List Char)} {cs : List Char} (h : MakeUp all cs) :
    ¬ MakeUp all (cs ++ ['\r']) := by
  intro hreturn
  generalize htext : cs ++ ['\r'] = text at hreturn
  induction h generalizing text with
  | last line =>
      cases hreturn with
      | last => simp at htext
      | next _ _ hrest => cases hrest
  | @next terminator cs rest line hterminator hrest ih =>
      cases hreturn with
      | last => cases hrest
      | @next terminator' cs' _ _ hterminator' hrest' =>
          rw [List.append_assoc, List.append_assoc, List.append_cancel_left_eq] at htext
          cases hterminator with
          | feed => cases hterminator' with
            | feed => exact ih _ (by simpa using htext) hrest'
            | returnFeed => simp at htext
          | returnFeed => cases hterminator' with
            | feed => simp at htext
            | returnFeed => exact ih _ (by simpa using htext) hrest'

theorem makeUp_iff (cs : List Char) : MakeUp (contents cs) cs ↔ cs.getLast? ≠ some '\r' := by
  have hcontent := makeUp_content cs
  constructor
  · intro h hlast
    obtain ⟨front, rfl⟩ := List.getLast?_eq_some_iff.mp hlast
    rw [content_append_return] at hcontent
    exact hcontent.not_return h
  · intro h
    rwa [content_of_getLast?_ne h] at hcontent

/-! ### Characters and their positions -/

/-- A character, with what stands behind it in the text, that is part of what ends a line. -/
def EndsLine (c : Char) (back : List Char) : Prop :=
  c = '\n' ∨ (c = '\r' ∧ back.head? = some '\n')

/-- A position at which a line shows a character: its offset is that of the character, which stands in
this column of the line. -/
structure Shows (cs : List Char) (p : Position) (front : List Char) (c : Char) : Prop where
  offset_eq : offset cs p = .ok (Text.byteLength front)
  shown : ∃ shown, contentOf? cs p.line = some shown ∧ shown[p.column]? = some c

/-- Behind what a line shows comes what ends it, or a carriage return and the end of the text, or the end
of the text. A line that still ends in a carriage return is not followed by the end of the text. -/
theorem exists_tail (line : List Char) {after : List Char} (hafter : ∀ c ∈ after.head?, c = '\n') :
    ∃ tail, line ++ after = content line ++ tail ∧
      ((content line).getLast? = some '\r' → tail ≠ []) ∧
      ∀ c back, tail = c :: back → c = '\n' ∨ (c = '\r' ∧ ∀ next ∈ back.head?, next = '\n') := by
  by_cases h : line.getLast? = some '\r'
  · obtain ⟨front, rfl⟩ := List.getLast?_eq_some_iff.mp h
    refine ⟨'\r' :: after, by simp [content_append_return], fun _ => List.cons_ne_nil _ _, ?_⟩
    rintro c back heq
    obtain ⟨rfl, rfl⟩ := List.cons.inj heq
    exact .inr ⟨rfl, hafter⟩
  · rw [content_of_getLast?_ne h]
    refine ⟨after, rfl, fun hreturn => absurd hreturn h, ?_⟩
    rintro c back rfl
    exact .inl (hafter c rfl)

/-- The offset of a position cuts the text in the line of the position, behind as many characters as its
column says. -/
theorem exists_split_of_offset {cs front rest : List Char} {p : Position} (hcs : cs = front ++ rest)
    (h : offset cs p = .ok (Text.byteLength front)) :
    ∃ before shown tail, contentOf? cs p.line = some shown ∧
      front = before ++ shown.take p.column ∧ rest = shown.drop p.column ++ tail ∧
      (∀ c ∈ before.getLast?, c = '\n') ∧ (shown.getLast? = some '\r' → tail ≠ []) ∧
      ∀ c back, tail = c :: back → c = '\n' ∨ (c = '\r' ∧ ∀ next ∈ back.head?, next = '\n') := by
  obtain ⟨line, hline, hcolumn, hoffset⟩ := offset_eq_ok.mp h
  obtain ⟨before, after, hjoined, hbefore, hfeed, hafter⟩ := exists_of_getElem? hline
  obtain ⟨tail, htail, hreturn, hends⟩ := exists_tail line hafter
  rw [lines, Text.joined_pieces, htail] at hjoined
  have hsplit : front ++ rest =
      before ++ (content line).take p.column ++ ((content line).drop p.column ++ tail) := by
    rw [← hcs, hjoined, List.append_assoc, ← List.append_assoc (List.take _ _), List.take_append_drop]
  rw [← hbefore, ← Text.byteLength_append] at hoffset
  obtain ⟨hfront, hrest⟩ := Text.append_inj_of_byteLength hsplit hoffset.symm
  refine ⟨before, content line, tail, ?_, hfront, hrest, hfeed, hreturn, hends⟩
  rw [contentOf?, hline]
  rfl

section

variable {cs front back : List Char} {c : Char}

/-- A character that is no part of what ends a line has a position. -/
theorem exists_offset_of_not_endsLine (hends : ¬ EndsLine c back) :
    ∃ p, offset (front ++ c :: back) p = .ok (Text.byteLength front) := by
  have haddressable : Addressable front (c :: back) := by
    refine fun _ => ⟨List.cons_ne_nil _ _, fun hfeed => hends (.inl ?_)⟩
    exact Option.some.inj hfeed
  obtain ⟨line, shown, hspot⟩ := exists_spot haddressable
  exact ⟨_, hspot.offset⟩

/-- Such a character is shown unless it is a carriage return at the end of the text. -/
theorem exists_shows_iff (hcs : cs = front ++ c :: back) (hends : ¬ EndsLine c back) :
    (∃ p, Shows cs p front c) ↔ ¬ (c = '\r' ∧ back = []) := by
  constructor
  · rintro ⟨p, hoffset, shown, hshown, hcolumn⟩ ⟨rfl, rfl⟩
    obtain ⟨before, shown', tail, hshown', -, hrest, -, hreturn, -⟩ :=
      exists_split_of_offset hcs hoffset
    obtain rfl := Option.some.inj (hshown.symm.trans hshown')
    rw [← List.head?_drop] at hcolumn
    obtain ⟨more, hdrop⟩ := List.head?_eq_some_iff.mp hcolumn
    rw [hdrop, List.cons_append] at hrest
    obtain ⟨rfl, rfl⟩ := List.append_eq_nil_iff.mp (List.cons.inj hrest).2.symm
    -- The carriage return would be the last character that the line shows, at the end of the text.
    refine hreturn ?_ rfl
    rw [← List.take_append_drop p.column shown, hdrop, List.getLast?_concat]
  · intro hnot
    obtain ⟨p, hoffset⟩ : ∃ p, offset cs p = .ok (Text.byteLength front) := by
      rw [hcs]
      exact exists_offset_of_not_endsLine hends
    obtain ⟨before, shown, tail, hshown, -, hrest, -, -, htail⟩ := exists_split_of_offset hcs hoffset
    refine ⟨p, hoffset, shown, hshown, ?_⟩
    rw [← List.head?_drop]
    cases hdrop : shown.drop p.column with
    | cons first more =>
        rw [hdrop] at hrest
        rw [(List.cons.inj hrest).1]
        rfl
    | nil =>
        rw [hdrop, List.nil_append] at hrest
        rcases htail c back hrest.symm with hfeed | ⟨hreturn, hnext⟩
        · exact absurd (.inl hfeed) hends
        · cases back with
          | nil => exact absurd ⟨hreturn, rfl⟩ hnot
          | cons next back =>
              obtain rfl := hnext next rfl
              exact absurd (.inr ⟨hreturn, rfl⟩) hends

/-- The end of a text has a position unless a carriage return stands there. -/
theorem exists_position_of_end (cs : List Char) :
    (∃ p, position cs (Text.byteLength cs) = .ok p ∧ offset cs p = .ok (Text.byteLength cs)) ↔
      cs.getLast? ≠ some '\r' := by
  constructor
  · rintro ⟨p, -, hoffset⟩ hlast
    obtain ⟨before, shown, tail, -, hfront, hrest, hfeed, hreturn, -⟩ :=
      exists_split_of_offset (List.append_nil cs).symm hoffset
    obtain ⟨hdrop, rfl⟩ := List.append_eq_nil_iff.mp hrest.symm
    have hall : shown.take p.column = shown := by
      rw [← List.append_nil (List.take _ _), ← hdrop, List.take_append_drop]
    rw [hall] at hfront
    rcases List.eq_nil_or_concat shown with rfl | ⟨init, last, rfl⟩
    · -- An empty line at the end stands behind a line feed.
      rw [hfront, List.append_nil] at hlast
      cases hfeed _ hlast
    · refine hreturn ?_ rfl
      rw [hfront, List.concat_eq_append, ← List.append_assoc, List.getLast?_concat] at hlast
      rw [List.concat_eq_append, List.getLast?_concat, hlast]
  · intro hlast
    have haddressable : Addressable cs [] := fun hreturn => absurd hreturn hlast
    obtain ⟨line, shown, hspot⟩ := exists_spot haddressable
    rw [List.append_nil] at hspot
    exact ⟨_, position_of_offset hspot.offset, hspot.offset⟩

end

/-- What the lines of a text show makes up the text, each line but the last with what ends it, less a
carriage return at the very end of the text. So the lines make up the text exactly when it does not end in
a carriage return, and exactly then its end has a position. A character that is no part of what ends a line
has a position, and it is shown there unless it is a carriage return at the very end. -/
theorem lines_make_up_text (cs : List Char) :
    MakeUp (contents cs) (content cs) ∧
    (MakeUp (contents cs) cs ↔ cs.getLast? ≠ some '\r') ∧
    (∀ front c back, cs = front ++ c :: back → ¬ EndsLine c back →
      (∃ p, offset cs p = .ok (Text.byteLength front)) ∧
      ((∃ p, Shows cs p front c) ↔ ¬ (c = '\r' ∧ back = []))) ∧
    ((∃ p, position cs (Text.byteLength cs) = .ok p ∧ offset cs p = .ok (Text.byteLength cs)) ↔
      cs.getLast? ≠ some '\r') := by
  refine ⟨makeUp_content cs, makeUp_iff cs, fun front c back hcs hends => ⟨?_, ?_⟩,
    exists_position_of_end cs⟩
  · rw [hcs]
    exact exists_offset_of_not_endsLine hends
  · exact exists_shows_iff hcs hends

/-- A carriage return that no line feed follows has a position, but no line shows it at the end of the
text. -/
theorem second_return_not_shown :
    MakeUp (contents ['é', '\r', '\n', '\r', '\r']) ['é', '\r', '\n', '\r'] ∧
    ¬ EndsLine '\r' [] ∧
    (∃ p, offset ['é', '\r', '\n', '\r', '\r'] p = .ok 5) ∧
    ¬ ∃ p, Shows ['é', '\r', '\n', '\r', '\r'] p ['é', '\r', '\n', '\r'] '\r' := by
  obtain ⟨hlines, -, hcharacters, -⟩ := lines_make_up_text ['é', '\r', '\n', '\r', '\r']
  have hends : ¬ EndsLine '\r' [] := by simp [EndsLine]
  obtain ⟨hposition, hshown⟩ := hcharacters ['é', '\r', '\n', '\r'] '\r' [] rfl hends
  exact ⟨hlines, hends, hposition, fun h => hshown.mp h ⟨rfl, rfl⟩⟩

/-- A carriage return at the end of a text belongs to no line and ends none, and the end of the text has no
position. -/
theorem return_at_end_lost :
    ¬ MakeUp (contents ['a', 'b', '\r']) ['a', 'b', '\r'] ∧
    ¬ ∃ p, position ['a', 'b', '\r'] 3 = .ok p ∧ offset ['a', 'b', '\r'] p = .ok 3 :=
  ⟨fun h => (makeUp_iff _).mp h rfl, fun h => (exists_position_of_end ['a', 'b', '\r']).mp h rfl⟩

end CodeIntel.Lines
