import CodeIntel.Text.Basic

/-! Text for a terminal, and text without what only a terminal understands: control sequences and
control characters other than blanks. A sequence starts with an escape character, and its second
character tells how it goes on and where it ends. -/

namespace CodeIntel.Text

/-- Where a terminal is in a control sequence. -/
inductive TerminalState where
  | outside
  /-- After the escape character. -/
  | started
  /-- After characters that stand between the escape character and the last one. -/
  | intermediate
  /-- In the numbers of a sequence that ends with a letter or the like. -/
  | parameters
  /-- At the start of a device string, in its numbers, and after them. -/
  | deviceStart
  | deviceNumbers
  | deviceIntermediate
  /-- In a string that a string terminator ends. -/
  | string
  /-- In a command that a bell ends. -/
  | command
deriving DecidableEq, Repr

namespace TerminalState

/-- Whether a number lies between two others. -/
def isBetween (low high n : Nat) : Bool := low ≤ n && n ≤ high

/-- The byte that ends a string, also where it is a part of a longer character. -/
def stringEnd : UInt8 := 0x9C

/-- The state after the second character of a sequence. -/
def afterSecond (n : Nat) : TerminalState :=
  if isBetween 0x20 0x2F n then .intermediate
  else if n = 0x5B then .parameters
  else if n = 0x5D then .command
  else if n = 0x50 then .deviceStart
  else if n = 0x58 ∨ n = 0x5E ∨ n = 0x5F then .string
  else if isBetween 0x30 0x7E n then .outside
  else .started

/-- The state after one more character. An escape character starts a new sequence anywhere, and two
control characters end every sequence. -/
def next (state : TerminalState) (c : Char) : TerminalState :=
  let n := c.toNat
  if n = 0x1B then .started
  else if n = 0x18 ∨ n = 0x1A then .outside
  else
    match state with
    | .outside => .outside
    | .started => afterSecond n
    | .intermediate => if isBetween 0x30 0x7E n then .outside else state
    | .parameters => if isBetween 0x40 0x7E n then .outside else state
    | .deviceStart =>
      if isBetween 0x20 0x2F n then .deviceIntermediate
      else if isBetween 0x30 0x3F n then .deviceNumbers
      else if isBetween 0x40 0x7E n then .string
      else state
    | .deviceNumbers =>
      if isBetween 0x20 0x2F n then .deviceIntermediate
      else if isBetween 0x3C 0x7E n then .string
      else state
    | .deviceIntermediate => if isBetween 0x30 0x7E n then .string else state
    | .string => if (String.utf8EncodeChar c).contains stringEnd then .outside else state
    | .command => if n = 0x07 then .outside else state

/-- Whether a character is one of the control characters that set text apart. -/
def isSpacing (c : Char) : Bool := c = '\t' || c = '\n' || c = '\x0c' || c = '\r'

/-- Whether a character is shown. Spacing is shown also in the middle of the sequences that are not
strings. -/
def isShown (state : TerminalState) (c : Char) : Bool :=
  match state with
  | .outside => isSpacing c || isBetween 0x20 0x7E c.toNat || 0x80 ≤ c.toNat
  | .started | .intermediate | .parameters => isSpacing c
  | _ => false

end TerminalState

/-- The characters that are shown. Where one was shown, characters are shown up to the next that
cannot be; only then does the sequence that it interrupted go on. -/
def shownChars (isShowing : Bool) (state : TerminalState) : List Char → List Char
  | [] => []
  | c :: rest =>
    if (if isShowing then TerminalState.outside else state).isShown c then
      c :: shownChars true (if 0x80 ≤ c.toNat then .outside else state) rest
    else shownChars false (state.next c) rest

/-- A text without control sequences. -/
def withoutControls (s : String) : String :=
  String.ofList (shownChars false .outside s.toList)

end CodeIntel.Text
