import CodeIntel.Json.Basic

/-! Reading JSON text. A text is first read by the grammar alone into a `Draft`, which keeps the
members of objects as written and marks what no value can hold: a string with half of a surrogate
pair, or a number beyond the doubles. A draft becomes a value only if it has no such mark and is not
nested too deep. Readers that ignore a part of a text ignore its draft. -/

namespace CodeIntel.Json

open CodeIntel.Decimal (Binary64)

/-- A text read by the grammar alone. -/
inductive Draft where
  | null
  | bool (value : Bool)
  | number (value : Option Number)
  | string (value : Option String)
  | array (items : List Draft)
  | object (members : List (Option String × Draft))
deriving Repr, Inhabited

namespace Draft

/-- The blanks between the parts of a text. -/
def skipBlanks : List Char → List Char :=
  List.dropWhile fun c => c = ' ' || c = '\n' || c = '\t' || c = '\r'

/-- The value of a hexadecimal digit. -/
def hexDigit? (c : Char) : Option Nat :=
  if '0' ≤ c ∧ c ≤ '9' then some (c.toNat - '0'.toNat)
  else if 'a' ≤ c ∧ c ≤ 'f' then some (c.toNat - 'a'.toNat + 10)
  else if 'A' ≤ c ∧ c ≤ 'F' then some (c.toNat - 'A'.toNat + 10)
  else none

/-- The number that four hexadecimal digits stand for. -/
def hexUnit? (a b c d : Char) : Option Nat := do
  return (← hexDigit? a) * 4096 + (← hexDigit? b) * 256 + (← hexDigit? c) * 16 + (← hexDigit? d)

/-- The character of an escape of one letter. -/
def escape? (c : Char) : Option Char :=
  if c = '"' then some '"'
  else if c = '\\' then some '\\'
  else if c = '/' then some '/'
  else if c = 'b' then some (Char.ofNat 8)
  else if c = 'f' then some (Char.ofNat 12)
  else if c = 'n' then some '\n'
  else if c = 'r' then some '\r'
  else if c = 't' then some '\t'
  else none

/-- A unit of text inside a string: a character or half of a surrogate pair. -/
inductive Piece where
  | char (c : Char)
  | half (unit : Nat)

/-- The pieces of a string after its opening quote, and the text after its closing quote. -/
def stringPieces : List Char → Option (List Piece × List Char)
  | [] => none
  | '"' :: rest => some ([], rest)
  | '\\' :: 'u' :: a :: b :: c :: d :: rest => do
    let unit ← hexUnit? a b c d
    let (pieces, rest) ← stringPieces rest
    let piece : Piece := if 0xD800 ≤ unit ∧ unit ≤ 0xDFFF then .half unit else .char (Char.ofNat unit)
    return (piece :: pieces, rest)
  | '\\' :: c :: rest => do
    let char ← escape? c
    let (pieces, rest) ← stringPieces rest
    return (.char char :: pieces, rest)
  | c :: rest =>
    if c.toNat < 32 ∨ c = '\\' then none
    else do
      let (pieces, rest) ← stringPieces rest
      return (.char c :: pieces, rest)

/-- The characters of pieces whose halves pair up, a high one before a low one. -/
def paired? : List Piece → Option (List Char)
  | [] => some []
  | .char c :: rest => (paired? rest).map (c :: ·)
  | .half high :: .half low :: rest =>
    if high < 0xDC00 ∧ 0xDC00 ≤ low then
      (paired? rest).map (Char.ofNat (0x10000 + (high - 0xD800) * 0x400 + (low - 0xDC00)) :: ·)
    else none
  | .half _ :: _ => none

/-- A string after its opening quote; it has no value when a surrogate stands alone. -/
def string? (cs : List Char) : Option (Option String × List Char) := do
  let (pieces, rest) ← stringPieces cs
  return ((paired? pieces).map String.ofList, rest)

/-- The digits at the front of a text. -/
def digits (cs : List Char) : List Nat × List Char :=
  ((cs.takeWhile Char.isDigit).map fun c => c.toNat - '0'.toNat, cs.dropWhile Char.isDigit)

/-- The largest number of 64 bits. -/
def largest : Nat := UInt64.size - 1

/-- Takes up digits as long as the number fits 64 bits: the number and how many digits are left. -/
def takeUp (start : Nat) : List Nat → Nat × Nat
  | [] => (start, 0)
  | digit :: rest =>
    if start * 10 + digit ≤ largest then takeUp (start * 10 + digit) rest
    else (start, rest.length + 1)

/-- The double of a decimal: its leading digits that fit 64 bits, scaled by a power of ten. -/
def float? (negative : Bool) (whole fraction : List Nat) (exponent : Int) : Option Number := do
  let (start, more) := takeUp 0 whole
  let (significand, dropped) := takeUp start fraction
  let places : Int := more - (fraction.length - dropped : Nat) + exponent
  let value ← (← Binary64.nearest? significand 1).scaledByTen? places
  return .float (value.signed negative)

/-- The number that decimal digits stand for. -/
def decimal (digits : List Nat) : Nat := digits.foldl (fun n digit => n * 10 + digit) 0

/-- An integer stays one if it fits 64 bits; negative zero is a double. -/
def integer? (negative : Bool) (whole : List Nat) : Option Number :=
  let value := decimal whole
  if ¬ negative ∧ value ≤ largest then some (.int value)
  else if negative ∧ 0 < value ∧ value ≤ UInt64.size / 2 then some (.int (-value))
  else float? negative whole [] 0

/-- The exponent of a number, if there is one. -/
def exponent? : List Char → Option (Option Int × List Char)
  | c :: rest =>
    if c = 'e' ∨ c = 'E' then
      let (negative, rest) : Bool × List Char :=
        match rest with
        | '+' :: rest => (false, rest)
        | '-' :: rest => (true, rest)
        | rest => (false, rest)
      match digits rest with
      | ([], _) => none
      | (ds, rest) =>
        let value : Int := decimal ds
        some (some (if negative then -value else value), rest)
    else some (none, c :: rest)
  | [] => some (none, [])

/-- The fraction of a number after its point, if there is one. -/
def fraction? : List Char → Option (Option (List Nat) × List Char)
  | '.' :: rest =>
    match digits rest with
    | ([], _) => none
    | (ds, rest) => some (some ds, rest)
  | rest => some (none, rest)

/-- A number without its sign: no leading zero before another digit. -/
def number? (negative : Bool) (cs : List Char) : Option (Option Number × List Char) :=
  match digits cs with
  | ([], _) => none
  | (0 :: _ :: _, _) => none
  | (whole, rest) => do
    let (fraction, rest) ← fraction? rest
    let (exponent, rest) ← exponent? rest
    match fraction, exponent with
    | none, none => return (integer? negative whole, rest)
    | _, _ => return (float? negative whole (fraction.getD []) (exponent.getD 0), rest)

mutual

/-- A value at the front of a text; the fuel bounds the nesting and the number of parts. -/
def value? : Nat → List Char → Option (Draft × List Char)
  | 0, _ => none
  | fuel + 1, cs =>
    match skipBlanks cs with
    | 'n' :: 'u' :: 'l' :: 'l' :: rest => some (.null, rest)
    | 't' :: 'r' :: 'u' :: 'e' :: rest => some (.bool true, rest)
    | 'f' :: 'a' :: 'l' :: 's' :: 'e' :: rest => some (.bool false, rest)
    | '"' :: rest => (string? rest).map fun (s, rest) => (.string s, rest)
    | '[' :: rest =>
      match skipBlanks rest with
      | ']' :: rest => some (.array [], rest)
      | rest => (items? fuel rest).map fun (items, rest) => (.array items, rest)
    | '\x7b' :: rest =>
      match skipBlanks rest with
      | '\x7d' :: rest => some (.object [], rest)
      | rest => (members? fuel rest).map fun (members, rest) => (.object members, rest)
    | '-' :: rest => (number? true rest).map fun (n, rest) => (.number n, rest)
    | rest => (number? false rest).map fun (n, rest) => (.number n, rest)

/-- The items of an array up to its closing bracket, at least one. -/
def items? : Nat → List Char → Option (List Draft × List Char)
  | 0, _ => none
  | fuel + 1, cs => do
    let (item, rest) ← value? fuel cs
    match skipBlanks rest with
    | ']' :: rest => return ([item], rest)
    | ',' :: rest => do
      let (items, rest) ← items? fuel rest
      return (item :: items, rest)
    | _ => none

/-- The members of an object up to its closing brace, at least one. -/
def members? : Nat → List Char → Option (List (Option String × Draft) × List Char)
  | 0, _ => none
  | fuel + 1, cs =>
    match skipBlanks cs with
    | '"' :: rest => do
      let (key, rest) ← string? rest
      match skipBlanks rest with
      | ':' :: rest => do
        let (value, rest) ← value? fuel rest
        match skipBlanks rest with
        | '\x7d' :: rest => return ([(key, value)], rest)
        | ',' :: rest => do
          let (members, rest) ← members? fuel rest
          return ((key, value) :: members, rest)
        | _ => none
      | _ => none
    | _ => none

end

/-- The draft of a text that holds one value and nothing else but blanks. Every part takes up at
least one character, so the text's length is fuel enough. -/
def ofText? (text : String) : Option Draft := do
  let cs := text.toList
  let (draft, rest) ← value? (2 * cs.length + 2) cs
  if (skipBlanks rest).isEmpty then return draft else none

mutual

/-- The value of a draft, with at most `depth` containers inside each other. -/
def toJson? (depth : Nat) : Draft → Option Json
  | .null => some .null
  | .bool value => some (.bool value)
  | .number value => value.map .number
  | .string value => value.map .string
  | .array items =>
    match depth with
    | 0 => none
    | depth + 1 => (itemsToJson? depth items).map .array
  | .object members =>
    match depth with
    | 0 => none
    | depth + 1 => (membersToJson? depth members).map ofMembers

/-- The values of the items of an array. -/
def itemsToJson? (depth : Nat) : List Draft → Option (List Json)
  | [] => some []
  | item :: rest => do
    let value ← toJson? depth item
    return value :: (← itemsToJson? depth rest)

/-- The values of the members of an object, as written. -/
def membersToJson? (depth : Nat) : List (Option String × Draft) → Option (List (String × Json))
  | [] => some []
  | (key, item) :: rest => do
    let key ← key
    let value ← toJson? depth item
    return (key, value) :: (← membersToJson? depth rest)

end

end Draft

/-- How many containers may stand inside each other in a text that others send. -/
def deepest : Nat := 127

end CodeIntel.Json
