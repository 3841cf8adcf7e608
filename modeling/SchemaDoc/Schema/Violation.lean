/-!
# Violations

Where a value breaks its schema, and how. The place is a path of keys and indices, written as
text: a field of the root stands by its name alone, and every other step is written behind what it
starts from.
-/

namespace SchemaDoc

namespace Path

/-- The path of the whole value. -/
def root : String := "$root"

/-- The path of the item at an index. -/
def item (path : String) (index : Nat) : String := s!"{path}[{index}]"

/-- The path of a field. -/
def field (path name : String) : String :=
  if path = root then name else s!"{path}.{name}"

end Path

/-- A place in a value, what its schema asks there and what stands there. -/
structure Violation where
  /-- The path of the place. -/
  path : String
  /-- What the schema asks. -/
  expected : String
  /-- What stands there. -/
  actual : String
deriving DecidableEq, Repr

namespace Violation

/-- A key that is not among the fields. -/
def extraField (path : String) : Violation :=
  ⟨path, "no undeclared fields", "undeclared field present"⟩

/-- A value of another type. -/
def wrongType (path expected actual : String) : Violation := ⟨path, expected, actual⟩

/-- A list of more items than its bound. -/
def tooLong (path : String) (bound length : Nat) : Violation :=
  ⟨path, s!"at most {bound} entries", s!"{length} entries"⟩

/-- A text of more characters than its bound. -/
def tooManyCharacters (path : String) (bound length : Nat) : Violation :=
  ⟨path, s!"at most {bound} characters", s!"{length} characters"⟩

/-- The wording of a violation. -/
def message (v : Violation) : String :=
  s!"'{v.path}': expected {v.expected}, got {v.actual}"

end Violation

end SchemaDoc
