/-!
# Finite doubles

A finite binary64 number is a sign and a rank. The finite magnitudes stand in increasing order,
zero first, and the rank is the place in that order; it is also the number's encoding without the
sign bit. A magnitude is counted in units of `2 ^ -1074`, the smallest of them all, so every
operation here is one exact division of natural numbers followed by one rounding.
-/

namespace SchemaDoc

/-- The number of magnitudes in a binade, `2 ^ 52`. -/
def binade : Nat := 0x10000000000000

/-- A finite binary64 number. -/
structure Double where
  /-- The sign bit, which zero has too. -/
  negative : Bool
  /-- The place of the magnitude among all finite magnitudes. -/
  rank : Nat
  /-- There are 2047 binades. -/
  rank_lt : rank < 2047 * binade
deriving DecidableEq, Repr

namespace Double

/-- The number of finite magnitudes. -/
def rankCount : Nat := 2047 * binade

/-- The number of units in one. -/
def one : Nat := 1 <<< 1074

/-- The magnitude of a rank in units. The first two binades share a spacing of one unit and each
later binade doubles it. -/
def unitsAt (rank : Nat) : Nat :=
  if rank < binade then rank else (binade + rank % binade) <<< (rank / binade - 1)

/-- The rank nearest to `n / d` units, and of two equally near ranks the even one. A result of
`rankCount` or more means that the quotient is beyond the finite magnitudes. -/
def nearestRank (n d : Nat) : Nat :=
  let whole := n / d
  let shift := if whole < 2 * binade then 0 else whole.log2 - 52
  let step := d <<< shift
  let below := n / step
  let rest := n % step
  let up := step < 2 * rest || (2 * rest == step && below % 2 == 1)
  shift * binade + (if up then below + 1 else below)

/-- Zero, with either sign. -/
def zero (negative : Bool) : Double := ⟨negative, 0, by decide⟩

/-- The number of a sign and a rank, if the rank is finite. -/
def ofRank? (negative : Bool) (rank : Nat) : Option Double :=
  if h : rank < 2047 * binade then some ⟨negative, rank, h⟩ else none

/-- The rank of the double nearest to a natural number. -/
def rankOfNat (n : Nat) : Nat := nearestRank (n * one) 1

/-- The rank of the rounded product of two ranks' magnitudes. -/
def mulRank (a b : Nat) : Nat := nearestRank (unitsAt a * unitsAt b) one

/-- The rank of the rounded quotient of two ranks' magnitudes. -/
def divRank (a b : Nat) : Nat := nearestRank (unitsAt a * one) (unitsAt b)

/-! ## Reading a decimal

A decimal is read from its significand in a fixed number of rounding steps, so the result is not
always the nearest double. -/

/-- The greatest power of ten that is a finite double. -/
def greatestPower : Nat := 308

/-- Divides by the greatest power of ten, `times` times over or until nothing is left. -/
def shrink : Nat → Nat → Nat
  | 0, rank => rank
  | times + 1, rank =>
    if rank = 0 then 0 else shrink times (divRank rank (rankOfNat (Nat.pow 10 greatestPower)))

/-- The rank that `significand * 10 ^ exponent` is read as: the significand is rounded, then
multiplied or divided by one rounded power of ten, with further divisions first where the
exponent is below the least such power. Nothing if the result is not finite. -/
def rankOfDecimal? (significand : Nat) (exponent : Int) : Option Nat :=
  let start := rankOfNat significand
  let size := exponent.natAbs
  if 0 ≤ exponent then
    if size ≤ greatestPower then
      let rank := mulRank start (rankOfNat (Nat.pow 10 size))
      if rank < rankCount then some rank else none
    else if start = 0 then some 0
    else none
  else
    let rounds := (size - 1) / greatestPower
    let rank := shrink rounds start
    some (divRank rank (rankOfNat (Nat.pow 10 (size - rounds * greatestPower))))

/-- The double that a sign, a significand and a power of ten are read as. -/
def ofDecimal? (negative : Bool) (significand : Nat) (exponent : Int) : Option Double :=
  (rankOfDecimal? significand exponent).bind (ofRank? negative)

end Double

end SchemaDoc
