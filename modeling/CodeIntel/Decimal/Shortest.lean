import CodeIntel.Decimal.Binary64

/-! The shortest decimal text of a double: the fewest digits that read back as the same number,
and of those the nearest. Exponents up to 16 are written positionally and always with a point. -/

namespace CodeIntel.Decimal

/-- A positive decimal `digits · 10 ^ exponent`. -/
structure Scaled where
  digits : Nat
  exponent : Int
deriving DecidableEq, Repr

namespace Binary64

/-- The ends of the interval of fractions that round to a positive double, over a common
denominator: least, value, greatest, denominator. Below a power of two the gap is half as wide. -/
def interval (x : Binary64) : Nat × Nat × Nat × Nat :=
  let (num, den) := x.fraction
  let unit := if 0 ≤ x.exponent then Nat.pow 2 x.exponent.toNat else 1
  let narrow := x.mantissa == Nat.pow 2 52 && -1074 < x.exponent
  (4 * num - (if narrow then unit else 2 * unit), 4 * num, 4 * num + 2 * unit, 4 * den)

/-- The greatest exponent of a power of ten that does not exceed `num / den`. -/
def decimalOrder (num den : Nat) : Int :=
  if den ≤ num then ((Nat.toDigits 10 (num / den)).length : Int) - 1
  else
    match (List.range 400).find? fun j => den ≤ num * Nat.pow 10 (j + 1) with
    | some j => -((j : Int) + 1)
    | none => -400

/-- The best decimal on the grid `10 ^ grid`, if one of the value's two neighbours there reads
back: of two the nearer, and the even one of two equally near. -/
def onGrid? (x : Binary64) (grid : Int) : Option Scaled :=
  let (least, value, greatest, den) := x.interval
  let (up, down) : Nat × Nat :=
    if 0 ≤ grid then (1, Nat.pow 10 grid.toNat) else (Nat.pow 10 (-grid).toNat, 1)
  let below := value * up / (den * down)
  let reads (d : Nat) : Bool :=
    let point := d * den * down
    if x.mantissa % 2 = 0 then least * up ≤ point && point ≤ greatest * up
    else least * up < point && point < greatest * up
  let gapBelow := value * up - below * den * down
  let gapAbove := (below + 1) * den * down - value * up
  match reads below, reads (below + 1) with
  | false, false => none
  | true, false => some ⟨below, grid⟩
  | false, true => some ⟨below + 1, grid⟩
  | true, true =>
    if gapBelow < gapAbove ∨ (gapBelow = gapAbove ∧ below % 2 = 0) then some ⟨below, grid⟩
    else some ⟨below + 1, grid⟩

/-- The shortest decimal of a positive double: the coarsest grid that has one. -/
def shortest (x : Binary64) : Scaled :=
  let (num, den) := x.fraction
  let order := decimalOrder num den
  ((List.range 17).findSome? fun (n : Nat) => x.onGrid? (order - n)).getD ⟨num / den, 0⟩

end Binary64

namespace Scaled

/-- The same decimal without trailing zeros in its digits. -/
def stripped (d : Scaled) : Scaled := go d.digits d.exponent d.digits
where
  /-- A positive number has fewer trailing zeros than its own value. -/
  go (digits : Nat) (exponent : Int) : Nat → Scaled
    | 0 => ⟨digits, exponent⟩
    | rounds + 1 =>
      if digits % 10 = 0 ∧ digits ≠ 0 then go (digits / 10) (exponent + 1) rounds
      else ⟨digits, exponent⟩

/-- An exponent with its mark; the sign is always written. -/
def exponentText (exponent : Int) : List Char :=
  ['e', if exponent < 0 then '-' else '+'] ++ Nat.toDigits 10 exponent.natAbs

/-- Positional up to the sixteenth place before the point and the fifth after it, otherwise with
an exponent; a positional number always shows a point. -/
def text (d : Scaled) : String :=
  let digits := Nat.toDigits 10 d.digits
  let point : Int := digits.length + d.exponent
  let zeros (n : Int) : List Char := List.replicate n.toNat '0'
  if 0 ≤ d.exponent ∧ point ≤ 16 then String.ofList (digits ++ zeros d.exponent ++ ['.', '0'])
  else if 0 < point ∧ point ≤ 16 then
    String.ofList (digits.take point.toNat ++ ['.'] ++ digits.drop point.toNat)
  else if -5 < point ∧ point ≤ 0 then String.ofList (['0', '.'] ++ zeros (-point) ++ digits)
  else
    let mark := exponentText (point - 1)
    match digits with
    | first :: second :: rest => String.ofList ([first, '.'] ++ (second :: rest) ++ mark)
    | short => String.ofList (short ++ mark)

end Scaled

/-- The text of a double. -/
def Binary64.text (x : Binary64) : String :=
  let sign := if x.negative then "-" else ""
  sign ++ if x.isZero then "0.0" else x.shortest.stripped.text

end CodeIntel.Decimal
