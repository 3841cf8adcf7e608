import SchemaDoc.Number.Double

/-!
# Shortest decimal text

The text of a double shows the fewest digits that lie nearer to it than to any other double, and
of those the nearest. The search walks the decimal grids from one digit up and looks at the two
neighbours of the number on each.
-/

namespace SchemaDoc

/-- The decimal `digits * 10 ^ exponent`. -/
structure Decimal where
  /-- The significand. -/
  digits : Nat
  /-- The power of ten. -/
  exponent : Int
deriving DecidableEq, Repr

/-- The decimal digits of a natural number as characters. -/
def decimalDigits (n : Nat) : List Char := Nat.toDigits 10 n

namespace Decimal

/-- The same decimal without zeros at the end of its digits; `fuel` bounds how many are
dropped. -/
def strip : Nat → Decimal → Decimal
  | 0, d => d
  | fuel + 1, d =>
    if d.digits ≠ 0 ∧ d.digits % 10 = 0 then strip fuel ⟨d.digits / 10, d.exponent + 1⟩ else d

/-- Where a layout writes a number in full. -/
structure Layout where
  /-- The least exponent of the first digit that is written in full. -/
  least : Int
  /-- The greatest exponent of the first digit that is written in full. -/
  greatest : Int
deriving DecidableEq, Repr

/-- The text of a decimal without its sign. In full there is at least one place after the point;
otherwise one digit stands before the point, a point only if more digits follow, and the exponent
always has a sign. -/
def text (layout : Layout) (d : Decimal) : List Char :=
  let ds := decimalDigits d.digits
  let first := d.exponent + (ds.length - 1 : Nat)
  if layout.least ≤ first ∧ first ≤ layout.greatest then
    if first < 0 then
      ['0', '.'] ++ List.replicate (first.natAbs - 1) '0' ++ ds
    else if d.exponent < 0 then
      ds.take (first.natAbs + 1) ++ ['.'] ++ ds.drop (first.natAbs + 1)
    else ds ++ List.replicate d.exponent.natAbs '0' ++ ['.', '0']
  else
    ds.take 1 ++ (if 1 < ds.length then '.' :: ds.drop 1 else []) ++ ['e'] ++
      [if first < 0 then '-' else '+'] ++ decimalDigits first.natAbs

end Decimal

namespace Double

/-- Twice the magnitude halfway between a rank and the one above, in units. -/
def halfway (rank : Nat) : Nat := unitsAt rank + unitsAt (rank + 1)

/-- Whether a magnitude of `n / d` units rounds to `rank`; the two halfway points round to the
even rank. -/
def roundsTo (rank n d : Nat) : Bool :=
  let low := halfway (rank - 1) * d
  let high := halfway rank * d
  if rank % 2 = 0 then low ≤ 2 * n && 2 * n ≤ high else low < 2 * n && 2 * n < high

/-- The exponent of the first decimal digit of a rank above zero. -/
def firstExponent (rank : Nat) : Int :=
  let scaled := unitsAt rank * Nat.pow 10 330 / one
  ((decimalDigits scaled).length : Int) - 331

/-- The multiple of `10 ^ exponent` that rounds to `rank` and is nearest to it, if one does; the
even multiple of two equally near. -/
def onGrid? (rank : Nat) (exponent : Int) : Option Decimal :=
  let up := if 0 ≤ exponent then Nat.pow 10 exponent.natAbs else 1
  let down := if 0 ≤ exponent then 1 else Nat.pow 10 exponent.natAbs
  let value := unitsAt rank * down
  let step := one * up
  let below := value / step
  let rest := value % step
  let belowFits := roundsTo rank (below * step) down
  let aboveFits := roundsTo rank ((below + 1) * step) down
  let belowNearer := 2 * rest < step || (2 * rest == step && below % 2 == 0)
  if belowFits && (belowNearer || !aboveFits) then some ⟨below, exponent⟩
  else if aboveFits then some ⟨below + 1, exponent⟩
  else none

/-- The first hit on the grids that show `first`, `first + 1`, … digits, `count` grids in all. -/
def searchGrids (rank : Nat) (exponent : Int) : Nat → Option Decimal
  | 0 => none
  | count + 1 =>
    match onGrid? rank exponent with
    | some d => some d
    | none => searchGrids rank (exponent - 1) count

/-- The shortest decimal that rounds to a rank; seventeen digits always suffice. -/
def shortest (rank : Nat) : Decimal :=
  if rank = 0 then ⟨0, 0⟩
  else ((searchGrids rank (firstExponent rank) 17).getD ⟨0, 0⟩).strip 17

/-- Numbers from `0.00001` to below `10 ^ 16` are written in full. -/
def layout : Decimal.Layout := ⟨-5, 15⟩

/-- The text of a double. -/
def text (x : Double) : List Char :=
  (if x.negative then ['-'] else []) ++ (shortest x.rank).text layout

end Double

end SchemaDoc
