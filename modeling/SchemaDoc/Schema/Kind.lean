/-!
# Kinds

The closed set of things that a schema can ask of a value, with the names by which texts refer to
them.
-/

namespace SchemaDoc

/-- What a schema asks of a value at its root. -/
inductive Kind where
  /-- An object with declared fields. -/
  | table
  /-- An array of items of one schema. -/
  | list
  /-- A number of any form. -/
  | number
  /-- A text. -/
  | string
  /-- A truth value. -/
  | bool
  /-- Anything. -/
  | any
deriving DecidableEq, Repr

namespace Kind

/-- Every kind, in the order in which they are counted. -/
def all : List Kind := [table, list, number, string, bool, any]

/-- The name of a kind. -/
def name : Kind → String
  | table => "table"
  | list => "list"
  | number => "number"
  | string => "string"
  | bool => "bool"
  | any => "any"

/-- The kind of a name. -/
def ofName? (name : String) : Option Kind := all.find? fun k ↦ k.name = name

/-- The place of a kind among all of them. -/
def index (k : Kind) : Nat := all.idxOf k

/-- The names of all kinds. -/
def names : List String := all.map Kind.name

/-- A kind is found by its name. -/
theorem ofName?_name (k : Kind) : ofName? k.name = some k := by
  cases k <;> decide

end Kind

end SchemaDoc
