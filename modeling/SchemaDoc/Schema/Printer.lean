import SchemaDoc.Json.Printer
import SchemaDoc.Schema.Basic

/-!
# Schemas as JSON

A schema is written as an object whose first member is its kind. A table has its fields, even if
there are none; a bound is written only if it bounds something.
-/

namespace SchemaDoc

namespace Schema

/-- The member for a bound, if it bounds something. -/
def boundMember (bound : Int64) : List (String × Value) :=
  if 0 < bound.toInt then [("max_length", .number (.integer (.ofInt64 bound)))] else []

/-- The member for a kind. -/
def kindMember (k : Kind) : String × Value := ("kind", .string k.name)

mutual
/-- The object for a schema. -/
def toValue : Schema → Value
  | table fields => .table [kindMember .table, ("fields", .table (valuesOfFields fields))]
  | list element bound =>
    .table (kindMember .list :: ("element", toValue element) :: boundMember bound)
  | number => .table [kindMember .number]
  | string bound => .table (kindMember .string :: boundMember bound)
  | bool => .table [kindMember .bool]
  | any => .table [kindMember .any]
termination_by structural s => s

/-- The members for some fields. -/
def valuesOfFields : List (String × Schema) → List (String × Value)
  | [] => []
  | (name, s) :: fields => (name, toValue s) :: valuesOfFields fields
termination_by structural fields => fields
end

/-- The compact text of a schema. -/
def toJson (s : Schema) : Bytes := Json.print s.toValue

/-- The text of a schema on several lines. -/
def toPrettyJson (s : Schema) : Bytes := Json.printPretty 0 s.toValue

end Schema

end SchemaDoc
