import CodeIntel.Proofs.Text.Pieces
import CodeIntel.Proofs.Text.Strung
import CodeIntel.Source.CodeLines

/-! Lines of code against the comments of the whole text. A scan from left to right finds the comments of a
text, and a line holds code if something that is not blank is left of it without them. The count looks at one
line at a time and at its ends only, and it sees the same on every line exactly when each comment keeps to
itself: code is never followed by a block comment that goes on to the next line, and a line without code has
one comment at most, which does not take the star that opens it for one that closes it. -/

namespace CodeIntel.CodeLines

/-- Where a scan of a text is. -/
inductive Zone where
  | code
  | lineComment
  | blockComment
deriving DecidableEq, Repr

/-- A text with a blank in the place of every character of a comment. A scan from left to right finds the
comments: one goes to the end of its line or to the first close behind its opening, and neither kind is
looked for inside the other. The ends of lines stay. -/
@[simp]
def erase : Zone → List Char → List Char
  | _, [] => []
  | .code, '/' :: '/' :: cs => ' ' :: ' ' :: erase .lineComment cs
  | .code, '/' :: '*' :: cs => ' ' :: ' ' :: erase .blockComment cs
  | .code, c :: cs => c :: erase .code cs
  | .lineComment, '\n' :: cs => '\n' :: erase .code cs
  | .lineComment, _ :: cs => ' ' :: erase .lineComment cs
  | .blockComment, '*' :: '/' :: cs => ' ' :: ' ' :: erase .code cs
  | .blockComment, '\n' :: cs => '\n' :: erase .blockComment cs
  | .blockComment, _ :: cs => ' ' :: erase .blockComment cs

/-- Where the scan is behind a text. -/
@[simp]
def after : Zone → List Char → Zone
  | zone, [] => zone
  | .code, '/' :: '/' :: cs => after .lineComment cs
  | .code, '/' :: '*' :: cs => after .blockComment cs
  | .code, _ :: cs => after .code cs
  | .lineComment, '\n' :: cs => after .code cs
  | .lineComment, _ :: cs => after .lineComment cs
  | .blockComment, '*' :: '/' :: cs => after .code cs
  | .blockComment, _ :: cs => after .blockComment cs

/-- How many lines of a text have something on them that is not blank and no part of a comment. -/
def countOutside (text : String) : Nat :=
  (Lines.lines (erase .code text.toList)).countP fun line => !Text.allBlank line

/-- The zone in which a line starts. -/
def Zone.ofStart (inComment : Bool) : Zone := if inComment then .blockComment else .code

@[simp]
theorem Zone.ofStart_true : Zone.ofStart true = .blockComment := rfl

@[simp]
theorem Zone.ofStart_false : Zone.ofStart false = .code := rfl

/-- The scan of one line: whether it holds code, and whether a block comment is open behind it. -/
def scanLine (inComment : Bool) (cs : List Char) : Bool × Bool :=
  (!Text.allBlank (erase (.ofStart inComment) cs), after (.ofStart inComment) cs == .blockComment)

/-- What is seen on each of some lines, where the sight of a line depends on whether it starts inside a block
comment. -/
def sights (see : Bool → List Char → Bool × Bool) : Bool → List (List Char) → List (Bool × Bool)
  | _, [] => []
  | inComment, cs :: rest => see inComment cs :: sights see (see inComment cs).2 rest

/-- A comment that has all its line, or what is left of it, to itself: only blanks follow where it is closed.
One that starts on the line does not start with `/*/`. -/
def StandsAlone (inComment : Bool) (cs : List Char) : Prop :=
  if inComment then ∀ front back, Text.find? ['*', '/'] (Text.trim cs) = some (front, back) →
    Text.allBlank back = true
  else ∀ body, Text.trim cs = '/' :: '*' :: body → body.head? ≠ some '/' ∧
    ∀ front back, Text.find? ['*', '/'] body = some (front, back) → Text.allBlank back = true

/-- A line with code leaves no block comment open, and the comment of a line without code stands alone. -/
def SetApart (inComment : Bool) (cs : List Char) : Prop :=
  if (scanLine inComment cs).1 then (scanLine inComment cs).2 = false else StandsAlone inComment cs

/-- All of some lines set their comments apart. -/
def AllSetApart : Bool → List (List Char) → Prop
  | _, [] => True
  | inComment, cs :: rest => SetApart inComment cs ∧ AllSetApart (scanLine inComment cs).2 rest

section

variable {cs front back body : List Char} {c : Char} {zone : Zone} {inComment : Bool}

/-! ### The scan -/

/-- A character of code that opens no comment is left as it is. -/
theorem erase_code_cons (h : c = '/' → cs.head? ≠ some '/' ∧ cs.head? ≠ some '*') :
    erase .code (c :: cs) = c :: erase .code cs ∧ after .code (c :: cs) = after .code cs := by
  have hline : ∀ rest, c = '/' → cs = '/' :: rest → False := by
    rintro rest hc rfl
    exact (h hc).1 rfl
  have hblock : ∀ rest, c = '/' → cs = '*' :: rest → False := by
    rintro rest hc rfl
    exact (h hc).2 rfl
  exact ⟨by rw [erase] <;> assumption, by rw [after] <;> assumption⟩

/-- A character of a block comment that does not close it becomes a blank, or stays if it ends a line. -/
theorem erase_block_cons (h : c = '*' → cs.head? ≠ some '/') :
    erase .blockComment (c :: cs) = (if c = '\n' then c else ' ') :: erase .blockComment cs ∧
      after .blockComment (c :: cs) = after .blockComment cs := by
  have hclose : ∀ rest, c = '*' → cs = '/' :: rest → False := by
    rintro rest hc rfl
    exact h hc rfl
  refine ⟨?_, by rw [after]; assumption⟩
  split
  · rename_i hc
    subst hc
    rw [erase]
  · rename_i hc
    rw [erase] <;> assumption

theorem erase_line_cons (h : c ≠ '\n') :
    erase .lineComment (c :: cs) = ' ' :: erase .lineComment cs ∧
      after .lineComment (c :: cs) = after .lineComment cs :=
  ⟨by rw [erase]; assumption, by rw [after]; assumption⟩

theorem head?_ne {d : Char} (h : ∀ rest, cs = d :: rest → False) : cs.head? ≠ some d := fun hhead =>
  (List.head?_eq_some_iff.mp hhead).elim h

/-- A text can be scanned in two parts if the second begins with no character of a mark. -/
theorem erase_append (h : back.head? ≠ some '/' ∧ back.head? ≠ some '*') (zone : Zone) (front : List Char) :
    erase zone (front ++ back) = erase zone front ++ erase (after zone front) back ∧
      after zone (front ++ back) = after (after zone front) back := by
  have hhead : ∀ {cs : List Char} {d : Char}, d = '/' ∨ d = '*' → cs.head? ≠ some d →
      (cs ++ back).head? ≠ some d := by
    rintro cs d hd hcs
    cases cs with
    | nil => rcases hd with rfl | rfl <;> simp [h]
    | cons => exact hcs
  fun_induction erase zone front with
  | case1 zone => exact ⟨rfl, by simp⟩
  | case2 cs ih | case3 cs ih | case5 cs ih | case7 cs ih | case8 cs ih => simp [ih]
  | case4 c cs hline hblock ih =>
      have hopen : c = '/' → cs.head? ≠ some '/' ∧ cs.head? ≠ some '*' := fun hc =>
        ⟨head?_ne fun rest => hline rest hc, head?_ne fun rest => hblock rest hc⟩
      have hopen' : c = '/' → (cs ++ back).head? ≠ some '/' ∧ (cs ++ back).head? ≠ some '*' := fun hc =>
        ⟨hhead (.inl rfl) (hopen hc).1, hhead (.inr rfl) (hopen hc).2⟩
      rw [List.cons_append, (erase_code_cons hopen').1, (erase_code_cons hopen').2, (erase_code_cons hopen).2,
        ih.1, ih.2]
      exact ⟨rfl, rfl⟩
  | case6 c cs hc ih =>
      rw [List.cons_append, (erase_line_cons hc).1, (erase_line_cons hc).2, (erase_line_cons hc).2, ih.1, ih.2]
      exact ⟨rfl, rfl⟩
  | case9 c cs hclose hc ih =>
      have hclose : c = '*' → cs.head? ≠ some '/' := fun hc => head?_ne fun rest => hclose rest hc
      have hclose' : c = '*' → (cs ++ back).head? ≠ some '/' := fun hc => hhead (.inl rfl) (hclose hc)
      rw [List.cons_append, (erase_block_cons hclose').1, (erase_block_cons hclose').2,
        (erase_block_cons hclose).2, if_neg hc, ih.1, ih.2]
      exact ⟨rfl, rfl⟩

/-- The zone behind the end of a line. -/
def Zone.atLine (zone : Zone) : Zone := if zone = .lineComment then .code else zone

theorem erase_newline (zone : Zone) (cs : List Char) :
    erase zone ('\n' :: cs) = '\n' :: erase zone.atLine cs := by
  cases zone with
  | code => exact (erase_code_cons (by simp)).1
  | lineComment => rfl
  | blockComment => exact (erase_block_cons (by simp)).1

/-! ### Blanks -/

theorem ne_of_isBlank (h : Text.isBlank c = true) : c ≠ '/' ∧ c ≠ '*' := by
  constructor <;> rintro rfl <;> exact absurd h (by decide)

theorem head?_ne_of_allBlank (h : Text.allBlank cs = true) : cs.head? ≠ some '/' ∧ cs.head? ≠ some '*' := by
  constructor <;> intro hhead <;> obtain ⟨rest, rfl⟩ := List.head?_eq_some_iff.mp hhead
  · exact (ne_of_isBlank (List.all_eq_true.mp h _ List.mem_cons_self)).1 rfl
  · exact (ne_of_isBlank (List.all_eq_true.mp h _ List.mem_cons_self)).2 rfl

theorem erase_blank_cons (h : Text.isBlank c = true) (hline : c ≠ '\n') (zone : Zone) (cs : List Char) :
    ∃ d, Text.isBlank d = true ∧ erase zone (c :: cs) = d :: erase zone cs ∧
      after zone (c :: cs) = after zone cs := by
  obtain ⟨hslash, hstar⟩ := ne_of_isBlank h
  cases zone with
  | code => exact ⟨c, h, erase_code_cons fun hc => absurd hc hslash⟩
  | lineComment => exact ⟨' ', rfl, erase_line_cons hline⟩
  | blockComment =>
      have hopen : c = '*' → cs.head? ≠ some '/' := fun hc => absurd hc hstar
      obtain ⟨herase, hafter⟩ := erase_block_cons hopen
      exact ⟨' ', rfl, by rw [herase, if_neg hline], hafter⟩

/-- Blanks on one line open and close no comment. -/
theorem erase_blank_append (h : Text.allBlank front = true) (hline : '\n' ∉ front) (zone : Zone)
    (back : List Char) :
    Text.allBlank (erase zone (front ++ back)) = Text.allBlank (erase zone back) ∧
      after zone (front ++ back) = after zone back := by
  induction front with
  | nil => exact ⟨rfl, rfl⟩
  | cons c front ih =>
      obtain ⟨hc, hfront⟩ := Bool.and_eq_true_iff.mp ((List.all_cons ..).symm.trans h)
      rw [List.mem_cons, not_or] at hline
      obtain ⟨hblank, hafter⟩ := ih hfront hline.2
      obtain ⟨d, hd, herase, hafter'⟩ := erase_blank_cons hc (Ne.symm hline.1) zone (front ++ back)
      rw [List.cons_append, herase, hafter', hafter, Text.allBlank, List.all_cons, hd]
      exact ⟨hblank, rfl⟩

theorem erase_of_allBlank (h : Text.allBlank cs = true) (hline : '\n' ∉ cs) (zone : Zone) :
    Text.allBlank (erase zone cs) = true ∧ after zone cs = zone := by
  have hscan := erase_blank_append h hline zone []
  rwa [List.append_nil, erase, after] at hscan

/-- The scan of a line does not depend on the blanks at its ends. -/
theorem scanLine_trim (hline : '\n' ∉ cs) (inComment : Bool) :
    scanLine inComment (Text.trim cs) = scanLine inComment cs := by
  obtain ⟨gap, rest, hgap, hrest, hcs⟩ := Text.trim_append cs
  generalize Text.trim cs = shown at hcs ⊢
  subst hcs
  rw [List.mem_append, List.mem_append, not_or, not_or] at hline
  obtain ⟨hgapLine, -, hrestLine⟩ := hline
  have hzone : ∀ zone, Text.allBlank (erase zone (gap ++ (shown ++ rest))) = Text.allBlank (erase zone shown) ∧
      after zone (gap ++ (shown ++ rest)) = after zone shown := by
    intro zone
    obtain ⟨hfront, hafter⟩ := erase_blank_append hgap hgapLine zone (shown ++ rest)
    obtain ⟨hback, hafter'⟩ := erase_append (head?_ne_of_allBlank hrest) zone shown
    obtain ⟨hblank, hsame⟩ := erase_of_allBlank hrest hrestLine (after zone shown)
    rw [hfront, hafter, hback, hafter', hsame, Text.allBlank, List.all_append, ← Text.allBlank, ← Text.allBlank,
      hblank, Bool.and_true]
    exact ⟨rfl, rfl⟩
  unfold scanLine
  simp only [hzone]

/-! ### The close of a comment -/

theorem isPrefixOf_pair {first second : Char} :
    [first, second].isPrefixOf (c :: cs) = true ↔ c = first ∧ cs.head? = some second := by
  rw [List.isPrefixOf_iff_prefix, List.cons_prefix_cons, List.head?_eq_some_iff]
  refine and_congr eq_comm ⟨?_, ?_⟩
  · rintro ⟨rest, rfl⟩
    exact ⟨rest, rfl⟩
  · rintro ⟨rest, rfl⟩
    exact ⟨rest, rfl⟩

theorem allBlank_erase_block_cons (h : c = '*' → cs.head? ≠ some '/') :
    Text.allBlank (erase .blockComment (c :: cs)) = Text.allBlank (erase .blockComment cs) := by
  rw [(erase_block_cons h).1, Text.allBlank, List.all_cons]
  split
  · rename_i hc
    rw [hc]
    rfl
  · rfl

/-- Without a close all of a text is in the block comment before it. -/
theorem erase_of_find?_eq_none (h : Text.find? ['*', '/'] cs = none) :
    Text.allBlank (erase .blockComment cs) = true ∧ after .blockComment cs = .blockComment := by
  induction cs with
  | nil => exact ⟨by rw [erase]; rfl, by rw [after]⟩
  | cons c cs ih =>
      rw [Text.find?] at h
      split at h
      · cases h
      · rename_i hclose
        rw [isPrefixOf_pair, not_and] at hclose
        rw [allBlank_erase_block_cons hclose, (erase_block_cons hclose).2]
        exact ih (Option.map_eq_none_iff.mp h)

/-- Behind the first close the scan goes on with code. -/
theorem erase_of_find?_eq_some (h : Text.find? ['*', '/'] cs = some (front, back)) :
    Text.allBlank (erase .blockComment cs) = Text.allBlank (erase .code back) ∧
      after .blockComment cs = after .code back := by
  induction cs generalizing front with
  | nil => cases h
  | cons c cs ih =>
      rw [Text.find?] at h
      split at h
      · rename_i hclose
        obtain ⟨rfl, hhead⟩ := isPrefixOf_pair.mp hclose
        obtain ⟨rest, rfl⟩ := List.head?_eq_some_iff.mp hhead
        obtain ⟨-, rfl⟩ := Prod.mk.inj (Option.some.inj h)
        exact ⟨by rw [erase]; rfl, by rw [after]; rfl⟩
      · rename_i hclose
        rw [isPrefixOf_pair, not_and] at hclose
        obtain ⟨⟨before, behind⟩, hfound, hsame⟩ := Option.map_eq_some_iff.mp h
        obtain ⟨-, rfl⟩ := Prod.mk.inj hsame
        rw [allBlank_erase_block_cons hclose, (erase_block_cons hclose).2]
        exact ih hfound

/-! ### One line -/

theorem scanLine_of_find?_eq_none (h : Text.find? ['*', '/'] cs = none) : scanLine true cs = (false, true) := by
  obtain ⟨hblank, hafter⟩ := erase_of_find?_eq_none h
  simp [scanLine, hblank, hafter]

theorem scanLine_of_find?_eq_some (h : Text.find? ['*', '/'] cs = some (front, back)) :
    scanLine true cs = scanLine false back := by
  obtain ⟨hblank, hafter⟩ := erase_of_find?_eq_some h
  simp [scanLine, hblank, hafter]

theorem scanLine_of_allBlank (h : Text.allBlank cs = true) (hline : '\n' ∉ cs) :
    scanLine false cs = (false, false) := by
  obtain ⟨hblank, hafter⟩ := erase_of_allBlank h hline .code
  simp [scanLine, hblank, hafter]

theorem scanLine_lineComment (hline : '\n' ∉ cs) : scanLine false ('/' :: '/' :: cs) = (false, false) := by
  have hzone : Text.allBlank (erase .lineComment cs) = true ∧ after .lineComment cs = .lineComment := by
    induction cs with
    | nil => exact ⟨by rw [erase]; rfl, by rw [after]⟩
    | cons c cs ih =>
        rw [List.mem_cons, not_or] at hline
        rw [(erase_line_cons (Ne.symm hline.1)).1, (erase_line_cons (Ne.symm hline.1)).2]
        exact ih hline.2
  obtain ⟨hblank, hafter⟩ := hzone
  simp [scanLine, Text.allBlank, Text.isBlank, hafter] at hblank ⊢
  exact hblank

theorem scanLine_blockComment : scanLine false ('/' :: '*' :: cs) = scanLine true cs := by
  simp [scanLine, Text.allBlank, Text.isBlank]

/-- A line that begins with code holds code. -/
theorem holds_of_code (hc : Text.isBlank c = false)
    (hopen : c = '/' → cs.head? ≠ some '/' ∧ cs.head? ≠ some '*') : (scanLine false (c :: cs)).1 = true := by
  simp [scanLine, (erase_code_cons hopen).1, Text.allBlank, hc]

/-- What is seen of a line, or of what is left of it, that begins in a block comment. -/
def sightInComment (cs : List Char) : Bool × Bool :=
  match Text.find? ['*', '/'] cs with
  | some (_, rest) => (!(Text.trim rest).isEmpty, false)
  | none => (false, true)

theorem sightInComment_eq_iff (hline : '\n' ∉ cs) :
    sightInComment cs = scanLine true cs ↔
      if (scanLine true cs).1 then (scanLine true cs).2 = false
      else ∀ front back, Text.find? ['*', '/'] cs = some (front, back) → Text.allBlank back = true := by
  unfold sightInComment
  cases hfind : Text.find? ['*', '/'] cs with
  | none => simp [scanLine_of_find?_eq_none hfind]
  | some found =>
      obtain ⟨front, back⟩ := found
      have hback : '\n' ∉ back := by
        rw [Text.append_of_find? hfind] at hline
        exact fun hmem => hline (List.mem_append_right _ (List.mem_append_right _ hmem))
      dsimp only
      rw [scanLine_of_find?_eq_some hfind, Text.isEmpty_trim]
      cases hblank : Text.allBlank back with
      | true =>
          rw [scanLine_of_allBlank hblank hback]
          refine iff_of_true rfl ?_
          rintro _ _ ⟨⟩
          exact hblank
      | false =>
          obtain ⟨holds, inside⟩ := scanLine false back
          cases holds with
          | true => simp [eq_comm]
          | false =>
              refine iff_of_false nofun fun h => ?_
              exact Bool.false_ne_true (hblank.symm.trans (h front back rfl))

/-- What is seen of a line that begins with a block comment: a star may open and close the comment. -/
theorem line_of_blockComment (htrim : Text.trim cs = '/' :: '*' :: body) :
    line false cs = if body.head? = some '/' then (!Text.allBlank body.tail, false) else sightInComment body := by
  have hline : ¬ (['/', '/'].isPrefixOf ('/' :: '*' :: body) = true) := by simp
  have hblock : ['/', '*'].isPrefixOf ('/' :: '*' :: body) = true := isPrefixOf_pair.mpr ⟨rfl, rfl⟩
  have hstart : ¬ (['*', '/'].isPrefixOf ('/' :: '*' :: body) = true) := by simp
  simp only [line, htrim, Bool.false_eq_true, if_false, List.isEmpty_cons, Bool.false_or, hline, hblock, if_true]
  rw [Text.find?, if_neg hstart, Text.find?]
  by_cases hshared : body.head? = some '/'
  · rw [if_pos hshared, if_pos (isPrefixOf_pair.mpr ⟨rfl, hshared⟩)]
    obtain ⟨rest, rfl⟩ := List.head?_eq_some_iff.mp hshared
    exact congrArg (fun blank => (!blank, false)) (Text.isEmpty_trim rest)
  · rw [if_neg hshared, if_neg fun hstar => hshared (isPrefixOf_pair.mp hstar).2]
    unfold sightInComment
    cases Text.find? ['*', '/'] body <;> rfl

/-- The star that opens a comment is taken for one that closes it. -/
theorem sharedStar_eq_iff (hline : '\n' ∉ back) :
    (!Text.allBlank back, false) = scanLine true ('/' :: back) ↔
      (scanLine true ('/' :: back)).1 = true ∧ (scanLine true ('/' :: back)).2 = false := by
  have hzone : scanLine true ('/' :: back) = scanLine true back := by
    have hslash : '/' = '*' → back.head? ≠ some '/' := nofun
    rw [scanLine, Zone.ofStart_true, allBlank_erase_block_cons hslash, (erase_block_cons hslash).2]
    rfl
  rw [hzone]
  cases hblank : Text.allBlank back with
  | true =>
      obtain ⟨herase, hafter⟩ := erase_of_allBlank hblank hline .blockComment
      simp [scanLine, herase, hafter]
  | false =>
      obtain ⟨holds, inside⟩ := scanLine true back
      simp [eq_comm]

/-- A line that begins with a block comment is seen as it is scanned if no comment is left open behind code on
it, or if there is no code and the comment stands alone. -/
theorem line_eq_iff_of_blockComment (htrim : Text.trim cs = '/' :: '*' :: body) (hline : '\n' ∉ body) :
    line false cs = scanLine true body ↔
      if (scanLine true body).1 then (scanLine true body).2 = false else StandsAlone false cs := by
  rw [line_of_blockComment htrim]
  by_cases hshared : body.head? = some '/'
  · obtain ⟨back, rfl⟩ := List.head?_eq_some_iff.mp hshared
    have hback : '\n' ∉ back := fun hmem => hline (List.mem_cons_of_mem _ hmem)
    rw [if_pos hshared, List.tail_cons, sharedStar_eq_iff hback]
    split
    · rename_i hholds
      rw [hholds, and_iff_right rfl]
    · rename_i hholds
      exact iff_of_false (fun h => hholds h.1) fun h => (h _ htrim).1 rfl
  · rw [if_neg hshared, sightInComment_eq_iff hline]
    split
    · exact Iff.rfl
    · rw [StandsAlone, if_neg Bool.false_ne_true, htrim]
      constructor
      · rintro h _ ⟨⟩
        exact ⟨hshared, h⟩
      · exact fun h => (h body rfl).2

/-- A line that begins with code holds code, and no comment is seen on it. -/
theorem line_of_code {shown : List Char} (htrim : Text.trim cs = c :: shown)
    (hopen : c = '/' → shown.head? ≠ some '/' ∧ shown.head? ≠ some '*') : line false cs = (true, false) := by
  have hcomment : ¬ (['/', '/'].isPrefixOf (c :: shown) = true) := fun h =>
    (hopen (isPrefixOf_pair.mp h).1).1 (isPrefixOf_pair.mp h).2
  have hblock : ¬ (['/', '*'].isPrefixOf (c :: shown) = true) := fun h =>
    (hopen (isPrefixOf_pair.mp h).1).2 (isPrefixOf_pair.mp h).2
  simp [line, htrim, hcomment, hblock]

/-- A line is seen as it is scanned if it sets its comments apart, and only then. -/
theorem line_eq_iff (hline : '\n' ∉ cs) : line inComment cs = scanLine inComment cs ↔ SetApart inComment cs := by
  have hshown : '\n' ∉ Text.trim cs := by
    obtain ⟨gap, rest, -, -, hcs⟩ := Text.trim_append cs
    rw [hcs, List.mem_append, List.mem_append, not_or, not_or] at hline
    exact hline.2.1
  rw [SetApart, ← scanLine_trim hline]
  cases inComment with
  | true => exact sightInComment_eq_iff hshown
  | false =>
      cases htrim : Text.trim cs with
      | nil =>
          refine iff_of_true ?_ ?_
          · simp [line, htrim, scanLine, Text.allBlank]
          · simp [scanLine, Text.allBlank, StandsAlone, htrim]
      | cons c shown =>
          rw [htrim, List.mem_cons, not_or] at hshown
          by_cases hcomment : c = '/' ∧ shown.head? = some '/'
          · obtain ⟨rfl, hhead⟩ := hcomment
            obtain ⟨rest, rfl⟩ := List.head?_eq_some_iff.mp hhead
            have hrest : '\n' ∉ rest := fun hmem => hshown.2 (List.mem_cons_of_mem _ hmem)
            rw [scanLine_lineComment hrest]
            refine iff_of_true ?_ ?_
            · simp [line, htrim]
            · simp [StandsAlone, htrim]
          by_cases hblock : c = '/' ∧ shown.head? = some '*'
          · obtain ⟨rfl, hhead⟩ := hblock
            obtain ⟨body, rfl⟩ := List.head?_eq_some_iff.mp hhead
            have hbody : '\n' ∉ body := fun hmem => hshown.2 (List.mem_cons_of_mem _ hmem)
            rw [scanLine_blockComment]
            exact line_eq_iff_of_blockComment htrim hbody
          · have hopen : c = '/' → shown.head? ≠ some '/' ∧ shown.head? ≠ some '*' := fun hc =>
              ⟨fun hhead => hcomment ⟨hc, hhead⟩, fun hhead => hblock ⟨hc, hhead⟩⟩
            have hfirst : (Text.trim cs).head? = some c := by rw [htrim]; rfl
            have hholds := holds_of_code (Text.isBlank_of_head?_trim hfirst) hopen
            rw [line_of_code htrim hopen, if_pos hholds]
            generalize scanLine false (c :: shown) = scan at hholds ⊢
            obtain ⟨holds, inside⟩ := scan
            obtain rfl : holds = true := hholds
            simp [eq_comm]

/-! ### All lines -/

/-- Some lines scanned one by one. -/
def eraseLines : Zone → List (List Char) → List (List Char)
  | _, [] => []
  | zone, cs :: rest => erase zone cs :: eraseLines (after zone cs).atLine rest

theorem newline_notMem_erase (hline : '\n' ∉ cs) (zone : Zone) : '\n' ∉ erase zone cs := by
  fun_induction erase zone cs <;> simp_all

/-- The lines of a scanned text are its lines, scanned one by one. -/
theorem lines_erase {all : List (List Char)} (hne : all ≠ []) (hall : ∀ cs ∈ all, '\n' ∉ cs) (zone : Zone) :
    Lines.lines (erase zone (Text.joined ['\n'] all)) = eraseLines zone all := by
  induction all generalizing zone with
  | nil => exact absurd rfl hne
  | cons cs rest ih =>
      have hcs := hall cs List.mem_cons_self
      cases rest with
      | nil => exact Text.pieces_of_notMem (newline_notMem_erase hcs zone)
      | cons next rest =>
          have hjoined : Text.joined ['\n'] (cs :: next :: rest) =
              cs ++ '\n' :: Text.joined ['\n'] (next :: rest) := by
            rw [Text.joined, List.append_assoc]
            · rfl
            · simp
          rw [hjoined, (erase_append (by simp) zone cs).1, erase_newline, Lines.lines, Text.pieces_append_cons,
            Text.pieces_of_notMem (newline_notMem_erase hcs zone), ← Lines.lines,
            ih (List.cons_ne_nil _ _) (fun other hother => hall other (List.mem_cons_of_mem _ hother))]
          rfl

theorem countP_eraseLines (inComment : Bool) (all : List (List Char)) :
    (eraseLines (.ofStart inComment) all).countP (fun cs => !Text.allBlank cs) =
      (sights scanLine inComment all).countP Prod.fst := by
  induction all generalizing inComment with
  | nil => rfl
  | cons cs rest ih =>
      have hzone : (after (.ofStart inComment) cs).atLine = .ofStart (scanLine inComment cs).2 := by
        rw [scanLine]
        cases after (.ofStart inComment) cs <;> rfl
      rw [eraseLines, sights, List.countP_cons, List.countP_cons, hzone, ih]
      rfl

/-- The lines that hold code in a scan of the whole text are those that hold code in a scan line by line. -/
theorem countOutside_eq (text : String) :
    countOutside text = (sights scanLine false (Lines.lines text.toList)).countP Prod.fst := by
  have hlines := lines_erase (Text.pieces_ne_nil '\n' text.toList)
    (fun cs hcs => Text.notMem_of_mem_pieces hcs) .code
  rw [Text.joined_pieces] at hlines
  rw [countOutside, hlines]
  exact countP_eraseLines false _

theorem countFrom_eq (inComment : Bool) (all : List (List Char)) :
    countFrom inComment all = (sights line inComment all).countP Prod.fst := by
  induction all generalizing inComment with
  | nil => rfl
  | cons cs rest ih =>
      rw [countFrom, sights, List.countP_cons, ← ih]

theorem sights_eq_iff {all : List (List Char)} (hall : ∀ cs ∈ all, '\n' ∉ cs) (inComment : Bool) :
    sights line inComment all = sights scanLine inComment all ↔ AllSetApart inComment all := by
  induction all generalizing inComment with
  | nil => exact iff_of_true rfl trivial
  | cons cs rest ih =>
      rw [sights, sights, List.cons.injEq, AllSetApart, line_eq_iff (hall cs List.mem_cons_self)]
      refine and_congr_right fun hapart => ?_
      rw [(line_eq_iff (hall cs List.mem_cons_self)).mpr hapart]
      exact ih (fun other hother => hall other (List.mem_cons_of_mem _ hother)) _

end

/-- Line by line the count of lines sees what a scan of the whole text sees, which lines hold code and behind
which a block comment is open, exactly if the text sets its comments apart. In such a text it counts the lines
that have something on them that is not blank and no part of a comment. -/
theorem count_outside_comments (text : String) :
    (sights line false (Lines.lines text.toList) = sights scanLine false (Lines.lines text.toList) ↔
      AllSetApart false (Lines.lines text.toList)) ∧
    (AllSetApart false (Lines.lines text.toList) → count text = countOutside text) := by
  have hall : ∀ cs ∈ Lines.lines text.toList, '\n' ∉ cs := fun cs hcs => Text.notMem_of_mem_pieces hcs
  have hiff := sights_eq_iff hall false
  refine ⟨hiff, fun hapart => ?_⟩
  rw [count, countFrom_eq, hiff.mpr hapart, countOutside_eq]

/-- A method with comments on lines of their own and one behind code. -/
def documentedMethod : String :=
  "void M()\n\x7b\n    // note\n\n    /* block\n       comment */\n    Call(); // go\n\x7d"

/-- Comments that keep to themselves are left out. -/
theorem comments_of_method_left_out :
    AllSetApart false (Lines.lines documentedMethod.toList) ∧
      count documentedMethod = countOutside documentedMethod := by
  obtain ⟨hiff, hcount⟩ := count_outside_comments documentedMethod
  have hapart := hiff.mp (by decide +kernel)
  exact ⟨hapart, hcount hapart⟩

/-- A block comment that is opened behind code is not seen: the rest of it counts as code. -/
theorem comment_behind_code_counted :
    count "a /* b\nc */" = 2 ∧ countOutside "a /* b\nc */" = 1 := by
  decide +kernel

end CodeIntel.CodeLines
