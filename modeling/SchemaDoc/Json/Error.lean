import SchemaDoc.Number.Basic
import SchemaDoc.Text.Quoted
import SchemaDoc.Text.Utf8

/-!
# Errors of reading JSON

A cause says what is wrong; its place is the number of bytes of input still left behind it, which
a reader knows without knowing where it started. `Error` has the place as a line and a column, if
it has one: what is found out about a value after its text was read has none.
-/

namespace SchemaDoc.Json

/-- What stands where something else was expected. -/
inductive Found where
  /-- The value `null`. -/
  | null
  /-- A truth value. -/
  | bool (b : Bool)
  /-- A number. -/
  | number (n : Number)
  /-- A text. -/
  | string (s : String)
  /-- An array. -/
  | list
  /-- An object. -/
  | table
deriving DecidableEq, Repr

/-- How an error names what it found. -/
def Found.text : Found → String
  | null => "null"
  | bool b => s!"boolean `{b}`"
  | number (.integer i) => s!"integer `{String.ofList i.text}`"
  | number (.double x) => s!"floating point `{String.ofList x.text}`"
  | string s => s!"string {Quoted.quote s}"
  | list => "sequence"
  | table => "map"

/-- What is wrong with a text. -/
inductive Cause where
  /-- The input ends where a value should stand. -/
  | endInValue
  /-- The input ends inside an array. -/
  | endInList
  /-- The input ends inside an object. -/
  | endInTable
  /-- The input ends inside a string. -/
  | endInString
  /-- A key is not followed by a colon. -/
  | expectedColon
  /-- An item is followed neither by a comma nor by the end of the array. -/
  | expectedListSeparator
  /-- A member is followed neither by a comma nor by the end of the object. -/
  | expectedTableSeparator
  /-- A word other than the three of the language. -/
  | expectedWord
  /-- No value starts here. -/
  | expectedValue
  /-- A comma is followed by a closing bracket. -/
  | trailingComma
  /-- A member starts with something other than a string. -/
  | keyNotString
  /-- Something follows the value. -/
  | trailingText
  /-- Too many brackets stand open. -/
  | tooDeep
  /-- A number breaks off or goes on in a wrong way. -/
  | badNumber
  /-- A number is beyond the finite doubles. -/
  | numberTooLarge
  /-- An escape that does not exist. -/
  | badEscape
  /-- A control character stands in a string. -/
  | controlCharacter
  /-- The first half of a surrogate pair is not followed by another escape. -/
  | unpairedSurrogate
  /-- Two halves of a surrogate pair that do not belong together. -/
  | loneSurrogate
  /-- A string is not UTF-8. -/
  | badCodePoint
  /-- A value of the wrong type. -/
  | wrongType (found : Found) (expected : String)
  /-- A value of the right type that is not allowed. -/
  | wrongValue (found : Found) (expected : String)
  /-- An array of the wrong length. -/
  | wrongLength (length : Nat) (expected : String)
  /-- A name outside a closed set of alternatives. -/
  | unknownVariant (name : String) (known : List String)
  /-- A name outside a closed set of members. -/
  | unknownField (name : String) (known : List String)
  /-- A member that has to be there is not. -/
  | missingField (name : String)
  /-- A member that may be there once is there again. -/
  | duplicateField (name : String)
  /-- Something that the caller found wrong. -/
  | other (message : String)
deriving DecidableEq, Repr

namespace Cause

/-- Some names, each between backticks. -/
def listed (names : List String) : String :=
  String.intercalate ", " (names.map fun name ↦ s!"`{name}`")

/-- The wording of a cause. -/
def message : Cause → String
  | endInValue => "EOF while parsing a value"
  | endInList => "EOF while parsing a list"
  | endInTable => "EOF while parsing an object"
  | endInString => "EOF while parsing a string"
  | expectedColon => "expected `:`"
  | expectedListSeparator => "expected `,` or `]`"
  | expectedTableSeparator => "expected `,` or `\x7d`"
  | expectedWord => "expected ident"
  | expectedValue => "expected value"
  | trailingComma => "trailing comma"
  | keyNotString => "key must be a string"
  | trailingText => "trailing characters"
  | tooDeep => "recursion limit exceeded"
  | badNumber => "invalid number"
  | numberTooLarge => "number out of range"
  | badEscape => "invalid escape"
  | controlCharacter => "control character (\\u0000-\\u001F) found while parsing a string"
  | unpairedSurrogate => "unexpected end of hex escape"
  | loneSurrogate => "lone leading surrogate in hex escape"
  | badCodePoint => "invalid unicode code point"
  | wrongType found expected => s!"invalid type: {found.text}, expected {expected}"
  | wrongValue found expected => s!"invalid value: {found.text}, expected {expected}"
  | wrongLength length expected => s!"invalid length {length}, expected {expected}"
  | unknownVariant name known => s!"unknown variant `{name}`, expected one of {listed known}"
  | unknownField name known => s!"unknown field `{name}`, expected one of {listed known}"
  | missingField name => s!"missing field `{name}`"
  | duplicateField name => s!"duplicate field `{name}`"
  | other message => message

end Cause

/-- A place in a text. -/
structure Position where
  /-- The line, counted from one. -/
  line : Nat
  /-- The number of bytes on that line before the place. -/
  column : Nat
deriving DecidableEq, Repr

/-- The position after some bytes. -/
def Position.after (bs : Bytes) : Position :=
  bs.foldl (fun p b ↦ if b = 0x0A then ⟨p.line + 1, 0⟩ else ⟨p.line, p.column + 1⟩) ⟨1, 0⟩

/-- A cause and its place, as the number of bytes of input that come after the place. -/
structure Fault where
  /-- What is wrong. -/
  cause : Cause
  /-- The number of bytes after the place. -/
  left : Nat
  /-- The place in a text inside the input, if the fault was met while that was read for itself. -/
  inside? : Option Position := none
deriving DecidableEq, Repr

namespace Fault

/-- A fault in what was just read, with `rest` still to read. -/
def behind (cause : Cause) (rest : Bytes) : Fault := { cause, left := rest.length }

/-- A fault in the next byte, or at the end of input if there is none. -/
def ahead (cause : Cause) (rest : Bytes) : Fault := { cause, left := rest.length - 1 }

end Fault

/-- What is wrong with a text, and where, if that is known. -/
structure Error where
  /-- What is wrong. -/
  cause : Cause
  /-- Where. -/
  position? : Option Position
deriving DecidableEq, Repr

namespace Error

/-- An error without a place. -/
def unplaced (cause : Cause) : Error := ⟨cause, none⟩

/-- The error of a fault that was met in an input. A fault in a text inside keeps its place
there. -/
def ofFault (input : Bytes) (f : Fault) : Error :=
  ⟨f.cause, some (f.inside?.getD (Position.after (input.take (input.length - f.left))))⟩

/-- The fault that an error in a text inside the input is, with `rest` still to read behind that
text. -/
def asFault (e : Error) (rest : Bytes) : Fault :=
  { cause := e.cause, left := rest.length, inside? := e.position? }

/-- The wording of an error. -/
def message (e : Error) : String :=
  match e.position? with
  | some p => s!"{e.cause.message} at line {p.line} column {p.column}"
  | none => e.cause.message

end Error

end SchemaDoc.Json
