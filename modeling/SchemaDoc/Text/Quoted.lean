import SchemaDoc.Text.Unprintable

/-!
# Quoted text

Text between double quotes as it is shown in an error message, on one line and in visible
characters only.
-/

namespace SchemaDoc.Quoted

/-- One character between the quotes: the short escapes, `\u` with the code point in braces for
what cannot be seen, and every other character as itself. -/
def escape (c : Char) : List Char :=
  if c = '\x00' then ['\\', '0']
  else if c = '\t' then ['\\', 't']
  else if c = '\r' then ['\\', 'r']
  else if c = '\n' then ['\\', 'n']
  else if c = '"' then ['\\', '"']
  else if c = '\\' then ['\\', '\\']
  else if Unprintable.contains c then
    ['\\', 'u', '\x7b'] ++ Nat.toDigits 16 c.toNat ++ ['\x7d']
  else [c]

/-- A text between double quotes. -/
def quote (s : String) : String :=
  String.ofList ('"' :: s.toList.flatMap escape ++ ['"'])

end SchemaDoc.Quoted
