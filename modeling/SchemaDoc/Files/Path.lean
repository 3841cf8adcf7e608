import SchemaDoc.Text.Utf8

/-!
# Paths

A path is a byte string in which slashes separate names. It is used and shown as it was given.
-/

namespace SchemaDoc.Files

/-- The name of a file or directory. -/
abbrev Name := Bytes

/-- A path as it was given. -/
abbrev Path := Bytes

/-- The byte between two names. -/
def slash : UInt8 := 0x2F

/-- The byte before an extension. -/
def dot : UInt8 := 0x2E

/-- The name of a directory inside itself. -/
def here : Name := [dot]

/-- The name of the directory around a directory. -/
def above : Name := [dot, dot]

namespace Path

/-- The path of a text. -/
def ofText (s : String) : Path := Utf8.encode s

/-- The names of a path in order; `name` is what was read of the first, in reverse. -/
def namesFrom (name : Name) : Path → List Name
  | [] => if name = [] then [] else [name.reverse]
  | b :: rest =>
    if b = slash then
      if name = [] then namesFrom [] rest else name.reverse :: namesFrom [] rest
    else namesFrom (b :: name) rest

/-- The names of a path in order. -/
def names (path : Path) : List Name := namesFrom [] path

/-- Whether a path ends in a slash, and so can only be that of a directory. -/
def endsInSlash (path : Path) : Bool := path.getLast? = some slash

/-- The path of a name in the directory of a path. -/
def join (path : Path) (name : Name) : Path :=
  if path = [] ∨ path.endsInSlash then path ++ name else path ++ slash :: name

/-- A path as it is shown. -/
def text (path : Path) : String := Utf8.decodeLossy path

/-- The names of the directory around a path: a name that stays where it is counts only at the
front. -/
def parentNames : List Name → List Name
  | [] => []
  | first :: names => (first :: names.filter (· ≠ here)).dropLast

end Path

namespace Name

/-- What stands before and behind the last dot of a name, if there is one that is not at its
start. -/
def splitAtDot (name : Name) : Name × Option Name :=
  let behind := (name.reverse.takeWhile (· ≠ dot)).reverse
  let before := (name.reverse.dropWhile (· ≠ dot)).reverse.dropLast
  if name = above ∨ behind.length = name.length ∨ before = [] then (name, none)
  else (before, some behind)

/-- A name without its extension. -/
def stem (name : Name) : Name := (splitAtDot name).1

/-- The extension of a name. -/
def extension? (name : Name) : Option Name := (splitAtDot name).2

end Name

end SchemaDoc.Files
