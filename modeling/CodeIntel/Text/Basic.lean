/-! Text as a list of characters measured in UTF-8 bytes. Offsets into a text count bytes; a cut is
possible only between two characters, and every function here says so by returning an option. -/

namespace CodeIntel.Text

/-- The bytes that a run of characters takes in UTF-8. -/
def byteLength : List Char → Nat
  | [] => 0
  | c :: cs => c.utf8Size + byteLength cs

@[simp]
theorem byteLength_nil : byteLength [] = 0 := rfl

@[simp]
theorem byteLength_cons (c : Char) (cs : List Char) :
    byteLength (c :: cs) = c.utf8Size + byteLength cs := rfl

@[simp]
theorem byteLength_append (front back : List Char) :
    byteLength (front ++ back) = byteLength front + byteLength back := by
  induction front with
  | nil => simp
  | cons c cs ih => simp [ih, Nat.add_assoc]

/-- The text before and after the first `n` bytes; nothing when that is inside a character or past
the end. -/
def cut? : List Char → Nat → Option (List Char × List Char)
  | cs, 0 => some ([], cs)
  | [], _ + 1 => none
  | c :: cs, n + 1 =>
    if c.utf8Size ≤ n + 1 then
      (cut? cs (n + 1 - c.utf8Size)).map fun (front, back) => (c :: front, back)
    else none

/-- The text between two byte offsets; nothing unless both lie between characters of the text and
the first does not exceed the second. -/
def slice? (cs : List Char) (start stop : Nat) : Option (List Char) :=
  if start ≤ stop then do
    let (_, rest) ← cut? cs start
    let (piece, _) ← cut? rest (stop - start)
    return piece
  else none

/-- A cut loses nothing and falls where it was asked for. -/
theorem cut?_eq_some {cs front back : List Char} {n : Nat} (h : cut? cs n = some (front, back)) :
    cs = front ++ back ∧ byteLength front = n := by
  fun_induction cut? cs n generalizing front back with
  | case1 cs =>
      simp only [Option.some.injEq, Prod.mk.injEq] at h
      obtain ⟨rfl, rfl⟩ := h
      simp
  | case2 n => simp at h
  | case3 c cs n fits ih =>
      obtain ⟨⟨before, after⟩, found, same⟩ := Option.map_eq_some_iff.1 h
      simp only [Prod.mk.injEq] at same
      obtain ⟨rfl, rfl⟩ := same
      obtain ⟨rfl, size⟩ := ih found
      exact ⟨rfl, by simp [size]; omega⟩
  | case4 c cs n tooWide => simp at h

/-- The end of any front part is a place to cut. -/
theorem cut?_append (front back : List Char) :
    cut? (front ++ back) (byteLength front) = some (front, back) := by
  induction front with
  | nil => simp [cut?]
  | cons c cs ih =>
      have positive := c.utf8Size_pos
      obtain ⟨n, sum⟩ : ∃ n, c.utf8Size + byteLength cs = n + 1 := ⟨_, (Nat.succ_pred (by omega)).symm⟩
      rw [List.cons_append, byteLength_cons, sum, cut?, if_pos (by omega)]
      rw [show n + 1 - c.utf8Size = byteLength cs by omega, ih]
      rfl

/-- The pieces of a text between the occurrences of a separating character; there is always at
least one piece. -/
def pieces (separator : Char) : List Char → List (List Char)
  | [] => [[]]
  | c :: cs =>
    if c = separator then [] :: pieces separator cs
    else
      match pieces separator cs with
      | [] => [[c]]
      | piece :: rest => (c :: piece) :: rest

/-- Puts pieces together with a separator between neighbours. -/
def joined (separator : List Char) : List (List Char) → List Char
  | [] => []
  | [piece] => piece
  | piece :: rest => piece ++ separator ++ joined separator rest

theorem pieces_ne_nil (separator : Char) (cs : List Char) : pieces separator cs ≠ [] := by
  cases cs with
  | nil => simp [pieces]
  | cons c cs =>
      unfold pieces
      split
      · simp
      · split <;> simp

/-- Cutting at a separator and joining with it gives the text back. -/
theorem joined_pieces (separator : Char) (cs : List Char) :
    joined [separator] (pieces separator cs) = cs := by
  induction cs with
  | nil => simp [pieces, joined]
  | cons c cs ih =>
      have some_piece := pieces_ne_nil separator cs
      unfold pieces
      split
      · rename_i same
        cases tail : pieces separator cs with
        | nil => exact absurd tail some_piece
        | cons piece rest =>
            rw [tail] at ih
            rw [joined, ih, same]
            · simp
            · simp
      · split
        · rename_i none_left
          exact absurd none_left some_piece
        · rename_i piece rest tail
          rw [tail] at ih
          cases rest with
          | nil => simpa [joined] using ih
          | cons next rest => simpa [joined] using ih

/-- The text before and after the first occurrence of a pattern. -/
def find? (pattern : List Char) : List Char → Option (List Char × List Char)
  | [] => if pattern.isEmpty then some ([], []) else none
  | c :: cs =>
    if pattern.isPrefixOf (c :: cs) then some ([], (c :: cs).drop pattern.length)
    else (find? pattern cs).map fun (front, back) => (c :: front, back)

/-- Drops a leading pattern as often as it occurs. -/
def dropRepeated (pattern cs : List Char) : List Char :=
  match pattern with
  | [] => cs
  | p :: ps => go p ps cs cs.length
where
  /-- Each round drops at least one character, so the text's length bounds the rounds. -/
  go (p : Char) (ps cs : List Char) : Nat → List Char
    | 0 => cs
    | rounds + 1 =>
      if (p :: ps).isPrefixOf cs then go p ps (cs.drop (ps.length + 1)) rounds else cs

/-- The first line of a text: up to a line feed, less a carriage return right before it. -/
def firstLine (cs : List Char) : List Char :=
  match find? ['\n'] cs with
  | none => cs
  | some (line, _) => if line.getLast? = some '\r' then line.dropLast else line

/-- Equality up to the case of ASCII letters. -/
def sameIgnoringCase (a b : String) : Bool :=
  a.toList.map Char.toLower == b.toList.map Char.toLower

end CodeIntel.Text
