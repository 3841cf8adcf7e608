import SchemaDoc.Json.Token

/-!
# Reading strings

A string is read as bytes first, its escapes replaced by what they stand for, and has to be UTF-8
as a whole.
-/

namespace SchemaDoc.Json

/-- The value of a hexadecimal digit. -/
def hexDigit? (b : UInt8) : Option Nat :=
  let n := b.toNat
  if 0x30 ≤ n ∧ n ≤ 0x39 then some (n - 0x30)
  else if 0x61 ≤ n ∧ n ≤ 0x66 then some (n - 0x57)
  else if 0x41 ≤ n ∧ n ≤ 0x46 then some (n - 0x37)
  else none

/-- The value of four hexadecimal digits. -/
def hexFour? (a b c d : UInt8) : Option Nat :=
  match hexDigit? a, hexDigit? b, hexDigit? c, hexDigit? d with
  | some a, some b, some c, some d => some (((a * 16 + b) * 16 + c) * 16 + d)
  | _, _, _, _ => none

/-- Reads four hexadecimal digits. -/
def readHex : Bytes → Except Fault (Nat × Bytes)
  | a :: b :: c :: d :: rest =>
    match hexFour? a b c d with
    | some n => .ok (n, rest)
    | none => .error (.behind .badEscape rest)
  | _ => .error (.behind .endInString [])

/-- The byte that a one-letter escape stands for. -/
def escaped? (b : UInt8) : Option UInt8 :=
  if b = ascii '"' then some 0x22
  else if b = ascii '\\' then some 0x5C
  else if b = ascii '/' then some 0x2F
  else if b = ascii 'b' then some 0x08
  else if b = ascii 'f' then some 0x0C
  else if b = ascii 'n' then some 0x0A
  else if b = ascii 'r' then some 0x0D
  else if b = ascii 't' then some 0x09
  else none

/-- Reads the second half of a surrogate pair, from its backslash on, to the first half
`high`. -/
def readLowSurrogate (high : Nat) : Bytes → Except Fault (Char × Bytes)
  | [] => .error (.behind .endInString [])
  | b :: rest =>
    if b ≠ ascii '\\' then .error (.behind .unpairedSurrogate rest)
    else match rest with
      | [] => .error (.behind .endInString [])
      | c :: rest =>
        if c ≠ ascii 'u' then .error (.behind .unpairedSurrogate rest)
        else do
          let (low, rest) ← readHex rest
          if low < 0xDC00 ∨ 0xDFFF < low then .error (.behind .loneSurrogate rest)
          else .ok (Char.ofNat (0x10000 + (high - 0xD800) * 0x400 + (low - 0xDC00)), rest)

/-- Reads the digits of a `\u` escape, and a second escape if the first is half of a pair. -/
def readCodePoint (bs : Bytes) : Except Fault (Char × Bytes) := do
  let (n, rest) ← readHex bs
  if 0xDC00 ≤ n ∧ n ≤ 0xDFFF then .error (.behind .loneSurrogate rest)
  else if 0xD800 ≤ n ∧ n ≤ 0xDBFF then readLowSurrogate n rest
  else .ok (Char.ofNat n, rest)

/-- What an escape spells and how many bytes it has after its backslash. -/
structure Escape where
  /-- The bytes that the escape stands for. -/
  content : Bytes
  /-- The number of bytes after the backslash. -/
  size : Nat
deriving DecidableEq, Repr

/-- Reads an escape behind its backslash. -/
def readEscape : Bytes → Except Fault Escape
  | [] => .error (.behind .endInString [])
  | b :: rest =>
    match escaped? b with
    | some e => .ok ⟨[e], 1⟩
    | none =>
      if b = ascii 'u' then do
        let (c, _) ← readCodePoint rest
        .ok ⟨Utf8.encodeChar c, if c.toNat < 0x10000 then 5 else 11⟩
      else .error (.behind .badEscape rest)

/-- Reads a string up to its closing quote, after `skip` bytes that belong to an escape already
read; `done` is what was read before, in reverse. -/
def readContent (done : Bytes) : Nat → Bytes → Except Fault (Bytes × Bytes)
  | _, [] => .error (.behind .endInString [])
  | skip + 1, _ :: rest => readContent done skip rest
  | 0, b :: rest =>
    if b = ascii '"' then .ok (done.reverse, rest)
    else if b = ascii '\\' then
      match readEscape rest with
      | .error f => .error f
      | .ok e => readContent (e.content.reverse ++ done) e.size rest
    else if b.toNat < 0x20 then .error (.behind .controlCharacter rest)
    else readContent (b :: done) 0 rest

/-- Reads a string behind its opening quote. A string that is not UTF-8 is a fault at its end, as
many bytes back as its content has from the first stray byte on. -/
def readString (bs : Bytes) : Except Fault (String × Bytes) := do
  let (content, rest) ← readContent [] 0 bs
  match Utf8.decode content with
  | .ok s => .ok (s, rest)
  | .error f => .error { cause := .badCodePoint, left := rest.length + (content.length - f.index) }

end SchemaDoc.Json
