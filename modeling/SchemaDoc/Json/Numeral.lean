import SchemaDoc.Json.Token

/-!
# Reading numbers

A numeral is read into a significand of 64 bits and a power of ten. Digits that the significand
has no room for are dropped, and an integer digit that is dropped raises the power. A numeral
without point and exponent is an integer if it fits; every other numeral is a double.
-/

namespace SchemaDoc.Json

/-- The value of a decimal digit. -/
def digit? (b : UInt8) : Option Nat :=
  if 0x30 ≤ b.toNat ∧ b.toNat ≤ 0x39 then some (b.toNat - 0x30) else none

/-- Whether a byte is a decimal digit. -/
def isDigit (b : UInt8) : Bool := (digit? b).isSome

/-- A significand never reaches this bound. -/
def significandBound : Nat := 0x10000000000000000

/-- Reads digits into a significand as long as it stays below its bound. Returns the significand,
how many digits went into it on top of `count`, and the rest, which starts with a digit if the
bound was met. -/
def readSignificand (significand count : Nat) : Bytes → Nat × Nat × Bytes
  | [] => (significand, count, [])
  | b :: rest =>
    match digit? b with
    | some d =>
      if significand * 10 + d < significandBound then
        readSignificand (significand * 10 + d) (count + 1) rest
      else (significand, count, b :: rest)
    | none => (significand, count, b :: rest)

/-- The input from its first byte that is no digit. -/
def skipDigits (bs : Bytes) : Bytes := bs.dropWhile isDigit

/-- The double of the parts of a numeral, or a fault if it is not finite. -/
def doubleOf (negative : Bool) (significand : Nat) (exponent : Int) (rest : Bytes) :
    Except Fault (Number × Bytes) :=
  match Double.ofDecimal? negative significand exponent with
  | some x => .ok (.double x, rest)
  | none => .error (.behind .numberTooLarge rest)

/-- A written exponent never exceeds this bound. -/
def exponentBound : Nat := 0x7FFFFFFF

/-- The exponent that is written with or without a minus sign. -/
def signedExponent (below : Bool) (exponent : Nat) : Int :=
  if below then -exponent else exponent

/-- Reads the digits of an exponent after those in `exponent`. A digit that takes it beyond its
bound is a fault if the number would be infinite, and otherwise the number is zero. -/
def readExponentDigits (negative : Bool) (significand : Nat) (start : Int) (below : Bool)
    (exponent : Nat) : Bytes → Except Fault (Number × Bytes)
  | [] => doubleOf negative significand (start + signedExponent below exponent) []
  | b :: rest =>
    match digit? b with
    | some d =>
      if exponent * 10 + d ≤ exponentBound then
        readExponentDigits negative significand start below (exponent * 10 + d) rest
      else if significand ≠ 0 ∧ !below then .error (.behind .numberTooLarge rest)
      else .ok (.double (.zero negative), skipDigits rest)
    | none => doubleOf negative significand (start + signedExponent below exponent) (b :: rest)

/-- Reads an exponent behind its letter; `start` is added to it. -/
def readExponent (negative : Bool) (significand : Nat) (start : Int) (bs : Bytes) :
    Except Fault (Number × Bytes) :=
  let (below, bs) : Bool × Bytes :=
    match bs with
    | b :: rest =>
      if b = ascii '+' then (false, rest) else if b = ascii '-' then (true, rest)
      else (false, bs)
    | [] => (false, [])
  match bs with
  | [] => .error (.behind .endInValue [])
  | b :: rest =>
    match digit? b with
    | some d => readExponentDigits negative significand start below d rest
    | none => .error (.behind .badNumber rest)

/-- Whether a byte starts an exponent. -/
def isExponentSign (b : UInt8) : Bool := b = ascii 'e' || b = ascii 'E'

/-- Reads an exponent if there is one, after the digits of a number that has a point or too many
digits for an integer. -/
def readScale (negative : Bool) (significand : Nat) (exponent : Int) (bs : Bytes) :
    Except Fault (Number × Bytes) :=
  match bs with
  | b :: rest =>
    if isExponentSign b then readExponent negative significand exponent rest
    else doubleOf negative significand exponent bs
  | [] => doubleOf negative significand exponent []

/-- Reads a fraction behind its point. Digits that do not fit into the significand are dropped. -/
def readFraction (negative : Bool) (significand : Nat) (exponent : Int) (bs : Bytes) :
    Except Fault (Number × Bytes) :=
  match bs with
  | [] => .error (.ahead .endInValue [])
  | b :: _ =>
    if isDigit b then
      let (significand, count, rest) := readSignificand significand 0 bs
      readScale negative significand (exponent - count) (skipDigits rest)
    else .error (.ahead .badNumber bs)

/-- The number of a significand without point and exponent: an integer if it fits, and not for a
negative zero. -/
def wholeNumber (negative : Bool) (significand : Nat) (rest : Bytes) :
    Except Fault (Number × Bytes) :=
  let integer? := if negative ∧ significand = 0 then none
    else Integer.ofInt? (if negative then -significand else significand)
  match integer? with
  | some i => .ok (.integer i, rest)
  | none => doubleOf negative significand 0 rest

/-- Reads what follows the integer digits that fitted into `significand`. Further integer digits
only raise the exponent. -/
def readTail (negative : Bool) (significand : Nat) (bs : Bytes) :
    Except Fault (Number × Bytes) :=
  let extra := (bs.takeWhile isDigit).length
  let rest := skipDigits bs
  match rest with
  | [] =>
    if extra = 0 then wholeNumber negative significand []
    else doubleOf negative significand extra []
  | b :: after =>
    if b = ascii '.' then readFraction negative significand extra after
    else if isExponentSign b then readExponent negative significand extra after
    else if extra = 0 then wholeNumber negative significand rest
    else doubleOf negative significand extra rest

/-- Reads a number behind its minus sign, if it had one. -/
def readNumber (negative : Bool) : Bytes → Except Fault (Number × Bytes)
  | [] => .error (.behind .endInValue [])
  | b :: rest =>
    match digit? b with
    | none => .error (.behind .badNumber rest)
    | some 0 =>
      match rest with
      | c :: _ => if isDigit c then .error (.ahead .badNumber rest) else readTail negative 0 rest
      | [] => readTail negative 0 []
    | some d =>
      let (significand, _, rest) := readSignificand d 1 rest
      readTail negative significand rest

end SchemaDoc.Json
