import SchemaDoc.Document.Shape

/-!
# Document errors

Everything that can go wrong with a document. Each error leaves the document usable.
-/

namespace SchemaDoc

/-- What is wrong with a document or with what was asked of it. -/
inductive DocumentError where
  /-- Raw bytes are not JSON of the shape. -/
  | undecodable (shape : Shape) (error : Json.Error)
  /-- The first byte is not that of the shape, or there is none. -/
  | wrongOpening (shape : Shape) (found : Option UInt8)
  /-- A store handed over something that is neither text nor bytes. -/
  | unscannable (source : String)
  /-- A value violates the schema. -/
  | violation (v : Violation)
  /-- An item is not of the type that was asked for. -/
  | wrongItem (index : Nat) (expected actual : String)
deriving DecidableEq, Repr

namespace DocumentError

/-- How an error names the first byte: a visible character as itself, any other byte by its
number. -/
def describeOpening : Option UInt8 → String
  | none => "empty input"
  | some b =>
    if 0x21 ≤ b.toNat ∧ b.toNat ≤ 0x7E then
      String.ofList ['\'', Char.ofNat b.toNat, '\'']
    else
      String.ofList ("byte 0x".toList ++ [hexChar (b.toNat / 16), hexChar (b.toNat % 16)])
where
  /-- A hexadecimal digit. -/
  hexChar (n : Nat) : Char := Char.ofNat (Json.hexDigit n).toNat

/-- The code of an error. -/
def code : DocumentError → String
  | undecodable _ _ => "JSONSHAPE_DECODE_FAILED"
  | wrongOpening _ _ => "JSONSHAPE_TYPE_MISMATCH"
  | unscannable _ => "JSONSHAPE_INVALID_SCAN_TYPE"
  | violation _ => "JSONSHAPE_SCHEMA_VIOLATION"
  | wrongItem _ _ _ => "JSONSHAPE_UNEXPECTED_TYPE"

/-- The wording of an error. -/
def message : DocumentError → String
  | undecodable shape e => s!"failed to decode JSON {shape.name}: {e.message}"
  | wrongOpening shape found =>
    s!"expected JSON {shape.name}, found {describeOpening found}"
  | unscannable source => s!"cannot scan a {source} value into a JSON document"
  | violation v => s!"schema violation at {v.message}"
  | wrongItem index expected actual => s!"element {index} is {actual}, expected {expected}"

/-- The violation behind an error, if that is what it is. -/
def violation? : DocumentError → Option Violation
  | violation v => some v
  | _ => none

end DocumentError

end SchemaDoc
