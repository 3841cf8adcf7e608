import SchemaDoc.Json.Error

/-!
# Bytes, blanks and words

Readers of the parts of a JSON text that have no parts of their own take the input that is left
and return what they read with the input that is left after it. Here are the bytes that they look
at, the blanks between them and the three words.
-/

namespace SchemaDoc.Json

/-- The byte of an ASCII character. -/
abbrev ascii (c : Char) : UInt8 := UInt8.ofNat c.toNat

/-- Whether a byte is space, tab, line feed or carriage return. -/
def isBlank (b : UInt8) : Bool := b = 0x20 || b = 0x09 || b = 0x0A || b = 0x0D

/-- The input from its first byte that is not blank. -/
def skipBlank (bs : Bytes) : Bytes := bs.dropWhile isBlank

/-- Reads what is left of a word. -/
def readWord : List Char → Bytes → Except Fault Bytes
  | [], bs => .ok bs
  | _ :: _, [] => .error (.behind .endInValue [])
  | c :: word, b :: bs =>
    if b = ascii c then readWord word bs else .error (.behind .expectedWord bs)

end SchemaDoc.Json
