import SchemaDoc.Json.Token
import SchemaDoc.Json.Value

/-!
# Printing JSON values

The compact text of a value has no blanks; the pretty text has one item or member a line, each
level indented by two spaces. Tables are printed in the order of their members, so the text of a
normal value has sorted keys.
-/

namespace SchemaDoc.Json

/-- The bytes of an ASCII text. -/
def asciiBytes (cs : List Char) : Bytes := cs.map ascii

/-- The letter of the escape that stands for a character, for those that have one. -/
def escapeLetter? (c : Char) : Option Char :=
  if c = '"' then some '"'
  else if c = '\\' then some '\\'
  else if c.toNat = 0x08 then some 'b'
  else if c.toNat = 0x0C then some 'f'
  else if c = '\n' then some 'n'
  else if c = '\r' then some 'r'
  else if c = '\t' then some 't'
  else none

/-- A hexadecimal digit below sixteen. -/
def hexDigit (n : Nat) : UInt8 := if n < 10 then UInt8.ofNat (0x30 + n) else UInt8.ofNat (0x57 + n)

/-- One character between quotes. Quotes, backslashes and control characters are escaped. -/
def printChar (c : Char) : Bytes :=
  match escapeLetter? c with
  | some letter => [ascii '\\', ascii letter]
  | none =>
    if c.toNat < 0x20 then
      [ascii '\\', ascii 'u', ascii '0', ascii '0', hexDigit (c.toNat / 16),
        hexDigit (c.toNat % 16)]
    else Utf8.encodeChar c

/-- A text between quotes. -/
def printString (s : String) : Bytes :=
  ascii '"' :: (s.toList.flatMap printChar ++ [ascii '"'])

/-- A number. -/
def printNumber (n : Number) : Bytes := asciiBytes n.text

/-- The text of a value that has no parts, and of an empty list or table. -/
def printScalar : Value → Bytes
  | .null => asciiBytes ['n', 'u', 'l', 'l']
  | .bool true => asciiBytes ['t', 'r', 'u', 'e']
  | .bool false => asciiBytes ['f', 'a', 'l', 's', 'e']
  | .number n => printNumber n
  | .string s => printString s
  | .list _ => asciiBytes ['[', ']']
  | .table _ => asciiBytes ['\x7b', '\x7d']

mutual
/-- The compact text of a value. -/
def print : Value → Bytes
  | .list items => ascii '[' :: (printItems items ++ [ascii ']'])
  | .table members => ascii '\x7b' :: (printMembers members ++ [ascii '\x7d'])
  | .null => printScalar .null
  | .bool b => printScalar (.bool b)
  | .number n => printScalar (.number n)
  | .string s => printScalar (.string s)
termination_by structural v => v

/-- Some items between commas. -/
def printItems : List Value → Bytes
  | [] => []
  | [v] => print v
  | v :: w :: items => print v ++ ascii ',' :: printItems (w :: items)
termination_by structural items => items

/-- Some members between commas. -/
def printMembers : List (String × Value) → Bytes
  | [] => []
  | [(k, v)] => printString k ++ ascii ':' :: print v
  | (k, v) :: m :: members =>
    printString k ++ ascii ':' :: (print v ++ ascii ',' :: printMembers (m :: members))
termination_by structural members => members
end

/-- A new line at a level of indentation. -/
def newLine (level : Nat) : Bytes := 0x0A :: List.replicate (2 * level) 0x20

mutual
/-- The pretty text of a value that stands at a level of indentation. -/
def printPretty (level : Nat) : Value → Bytes
  | .list [] => printScalar (.list [])
  | .list (v :: items) =>
    ascii '[' :: (printPrettyItems (level + 1) (v :: items) ++ newLine level ++ [ascii ']'])
  | .table [] => printScalar (.table [])
  | .table (m :: members) =>
    ascii '\x7b' ::
      (printPrettyMembers (level + 1) (m :: members) ++ newLine level ++ [ascii '\x7d'])
  | .null => printScalar .null
  | .bool b => printScalar (.bool b)
  | .number n => printScalar (.number n)
  | .string s => printScalar (.string s)
termination_by structural v => v

/-- Some items, each on a line of its own. -/
def printPrettyItems (level : Nat) : List Value → Bytes
  | [] => []
  | [v] => newLine level ++ printPretty level v
  | v :: w :: items =>
    newLine level ++ printPretty level v ++ ascii ',' :: printPrettyItems level (w :: items)
termination_by structural items => items

/-- Some members, each on a line of its own. -/
def printPrettyMembers (level : Nat) : List (String × Value) → Bytes
  | [] => []
  | [(k, v)] =>
    newLine level ++ printString k ++ ascii ':' :: ascii ' ' :: printPretty level v
  | (k, v) :: m :: members =>
    newLine level ++ printString k ++ ascii ':' :: ascii ' ' ::
      (printPretty level v ++ ascii ',' :: printPrettyMembers level (m :: members))
termination_by structural members => members
end

end SchemaDoc.Json
