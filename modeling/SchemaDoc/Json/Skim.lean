import SchemaDoc.Json.Reader

/-!
# Skimming JSON texts

Skimming finds the end of a value without reading it. Brackets, separators and the grammar of
strings and numerals are checked; the size of a number, surrogates and the depth of nesting are
not. The brackets that stand open are kept in a list, so any depth is skimmed.
-/

namespace SchemaDoc.Json

/-- Skims an escape behind its backslash; returns how many bytes it has. -/
def skimEscape : Bytes → Except Fault Nat
  | [] => .error (.behind .endInString [])
  | b :: rest =>
    if (escaped? b).isSome then .ok 1
    else if b = ascii 'u' then (readHex rest).map fun _ ↦ 5
    else .error (.behind .badEscape rest)

/-- Skims a string to behind its closing quote, after `skip` bytes of an escape. A control
character is a fault before it is passed. -/
def skimString : Nat → Bytes → Except Fault Bytes
  | _, [] => .error (.behind .endInString [])
  | skip + 1, _ :: rest => skimString skip rest
  | 0, b :: rest =>
    if b = ascii '"' then .ok rest
    else if b = ascii '\\' then
      match skimEscape rest with
      | .error f => .error f
      | .ok size => skimString size rest
    else if b.toNat < 0x20 then .error (.behind .controlCharacter (b :: rest))
    else skimString 0 rest

/-- Skims an exponent behind its letter. -/
def skimExponent (bs : Bytes) : Except Fault Bytes :=
  let bs := match bs with
    | b :: rest => if b = ascii '+' ∨ b = ascii '-' then rest else bs
    | [] => []
  match bs with
  | [] => .error (.behind .badNumber [])
  | b :: rest => if isDigit b then .ok (skipDigits rest) else .error (.behind .badNumber rest)

/-- Skims a fraction behind its point. -/
def skimFraction (bs : Bytes) : Except Fault Bytes :=
  match bs with
  | [] => .error (.ahead .badNumber [])
  | b :: _ =>
    if isDigit b then
      match skipDigits bs with
      | [] => .ok []
      | c :: rest => if isExponentSign c then skimExponent rest else .ok (c :: rest)
    else .error (.ahead .badNumber bs)

/-- Skims what may follow the integer digits of a numeral. -/
def skimTail : Bytes → Except Fault Bytes
  | [] => .ok []
  | b :: rest =>
    if b = ascii '.' then skimFraction rest
    else if isExponentSign b then skimExponent rest
    else .ok (b :: rest)

/-- Skims a numeral behind its minus sign, if it had one. -/
def skimNumber : Bytes → Except Fault Bytes
  | [] => .error (.behind .badNumber [])
  | b :: rest =>
    if b = ascii '0' then
      match rest with
      | c :: _ => if isDigit c then .error (.ahead .badNumber rest) else skimTail rest
      | [] => .ok []
    else if isDigit b then skimTail (skipDigits rest)
    else .error (.behind .badNumber rest)

/-- An open bracket. -/
inductive Bracket where
  /-- The bracket of an array. -/
  | list
  /-- The bracket of an object. -/
  | table
deriving DecidableEq, Repr

namespace Bracket

/-- The byte that closes a bracket. -/
def closing : Bracket → UInt8
  | list => ascii ']'
  | table => ascii '\x7d'

/-- The cause if the input ends inside a bracket. -/
def endInside : Bracket → Cause
  | list => .endInList
  | table => .endInTable

/-- The cause if no separator follows a part. -/
def expectedSeparator : Bracket → Cause
  | list => .expectedListSeparator
  | table => .expectedTableSeparator

end Bracket

/-- Skims a scalar, or steps over an opening bracket and tells which. -/
def skimStart (bs : Bytes) : Except Fault (Option Bracket × Bytes) :=
  match skipBlank bs with
  | [] => .error (.ahead .endInValue [])
  | b :: rest =>
    if b = ascii '[' then .ok (some .list, rest)
    else if b = ascii '\x7b' then .ok (some .table, rest)
    else if b = ascii 'n' then (readWord ['u', 'l', 'l'] rest).map (none, ·)
    else if b = ascii 't' then (readWord ['r', 'u', 'e'] rest).map (none, ·)
    else if b = ascii 'f' then (readWord ['a', 'l', 's', 'e'] rest).map (none, ·)
    else if b = ascii '"' then (skimString 0 rest).map (none, ·)
    else if b = ascii '-' then (skimNumber rest).map (none, ·)
    else if isDigit b then (skimNumber (b :: rest)).map (none, ·)
    else .error (.ahead .expectedValue (b :: rest))

/-- Skims what precedes a value inside a bracket: in an object, a key and its colon. -/
def skimKey (bracket : Bracket) (bs : Bytes) : Except Fault Bytes :=
  match bracket with
  | .list => .ok bs
  | .table => do
    let bs ← openKey (skipBlank bs)
    let bs ← skimString 0 bs
    readColon bs

/-- What a skimmer comes to next. -/
inductive Expectation where
  /-- A value. -/
  | value
  /-- The first part inside the innermost bracket, or its end. -/
  | first
  /-- A comma and another part inside the innermost bracket, or its end. -/
  | next
deriving DecidableEq, Repr

/-- Skims to the end of the outermost value, inside the open brackets, innermost first. No byte
takes more than two steps. -/
def skimFrom : Nat → Expectation → List Bracket → Bytes → Except Fault Bytes
  | 0, _, _, bs => .error (.ahead .endInValue bs)
  | steps + 1, .value, stack, bs =>
    match skimStart bs with
    | .error f => .error f
    | .ok (none, rest) => skimFrom steps .next stack rest
    | .ok (some bracket, rest) => skimFrom steps .first (bracket :: stack) rest
  | _ + 1, _, [], bs => .ok bs
  | steps + 1, expect, bracket :: stack, bs =>
    match skipBlank bs with
    | [] => .error (.ahead bracket.endInside [])
    | b :: rest =>
      if b = bracket.closing then skimFrom steps .next stack rest
      else if expect = .next ∧ b ≠ ascii ',' then
        .error (.ahead bracket.expectedSeparator (b :: rest))
      else
        match skimKey bracket (if expect = .next then rest else b :: rest) with
        | .error f => .error f
        | .ok bs => skimFrom steps .value (bracket :: stack) bs

/-- Skims one value. -/
def skimValue (limit : Nat) (bs : Bytes) : Except Fault Bytes :=
  skimFrom (2 * limit + 2) .value [] bs

/-- Skims one value and keeps its text, which has to be UTF-8. A stray byte is a fault right
behind it. -/
def skimText (limit : Nat) : Reader Bytes := fun bs ↦ do
  let bs := skipBlank bs
  let rest ← skimValue limit bs
  let kept := bs.take (bs.length - rest.length)
  match Utf8.decode kept with
  | .ok _ => .ok (kept, rest)
  | .error f =>
    .error { cause := .badCodePoint, left := rest.length + (kept.length - (f.index + 1)) }

/-- The text of the one value in a byte string, without the blanks around it. -/
def textOf (input : Bytes) : Except Error Bytes := readWhole skimText input

end SchemaDoc.Json
