import SchemaDoc.Number.Shortest

/-!
# Numbers

A number is an integer of 64 bits, with or without a sign, or a finite double.
-/

namespace SchemaDoc

/-- An integer that fits 64 bits, either signed or unsigned. -/
structure Integer where
  /-- The value. -/
  val : Int
  /-- No less than the least signed integer. -/
  le_val : -0x8000000000000000 ≤ val
  /-- No more than the greatest unsigned integer. -/
  val_lt : val < 0x10000000000000000
deriving DecidableEq, Repr

namespace Integer

/-- The integer of a value, if it fits. -/
def ofInt? (i : Int) : Option Integer :=
  if h : -0x8000000000000000 ≤ i ∧ i < 0x10000000000000000 then some ⟨i, h.1, h.2⟩ else none

/-- The integer of a signed one. -/
def ofInt64 (i : Int64) : Integer :=
  ⟨i.toInt, Int64.le_toInt i, Int.lt_trans (Int64.toInt_lt i) (by decide)⟩

/-- The integer of a natural number below the bound of the unsigned ones. -/
def ofNat (n : Nat) (h : n < 0x10000000000000000) : Integer := ⟨n, by omega, by omega⟩

/-- The text of an integer, without a point. -/
def text (i : Integer) : List Char :=
  (if i.val < 0 then ['-'] else []) ++ decimalDigits i.val.natAbs

end Integer

/-- A number as it is written: an integer, or a number with a fraction or an exponent. -/
inductive Number where
  /-- A number that is written without point and exponent. -/
  | integer (i : Integer)
  /-- Any other finite number. -/
  | double (x : Double)
deriving DecidableEq, Repr

namespace Number

/-- The text of a number. -/
def text : Number → List Char
  | integer i => i.text
  | double x => x.text

/-- The nearest double, as a sign and a rank. -/
def toSignedRank : Number → Bool × Nat
  | integer i => (i.val < 0, Double.rankOfNat i.val.natAbs)
  | double x => (x.negative, x.rank)

/-- The nearest whole number of 64 bits with a sign to a whole number. -/
def clampInt64 (i : Int) : Int := max (-0x8000000000000000) (min i 0x7FFFFFFFFFFFFFFF)

/-- The number as a signed 64-bit integer. An integer that fits is kept; every other number is
taken as a double, loses its fraction and stops at the ends of the range. -/
def toInt64 (n : Number) : Int :=
  let throughDouble : Int :=
    let (negative, rank) := n.toSignedRank
    let whole : Int := Double.unitsAt rank / Double.one
    clampInt64 (if negative then -whole else whole)
  match n with
  | integer i => if i.val < 0x8000000000000000 then i.val else throughDouble
  | double _ => throughDouble

end Number

end SchemaDoc
