import SchemaDoc.Dictionary
import SchemaDoc.Schema.Kind

/-!
# Schemas

A schema describes the shape of a value. It is immutable, and its fields are kept in name order.
-/

namespace SchemaDoc

/-- The shape of a value. A bound of zero or less bounds nothing. -/
inductive Schema where
  /-- An object whose keys are among the fields; none of them has to be there. -/
  | table (fields : List (String × Schema))
  /-- An array of at most `bound` items of one schema. -/
  | list (element : Schema) (bound : Int64)
  /-- Any number. -/
  | number
  /-- A text of at most `bound` characters. -/
  | string (bound : Int64)
  /-- A truth value. -/
  | bool
  /-- Anything, `null` included. -/
  | any
deriving Repr, Inhabited

namespace Schema

/-- The bound that a written bound sets, if it sets one. -/
def effective? (bound : Int64) : Option Nat :=
  if 0 < bound.toInt then some bound.toInt.toNat else none

/-- The schema of an object with the given fields, of which the last of one name counts. -/
def ofFields (fields : List (String × Schema)) : Schema := table (Dictionary.ofList fields)

/-- What the schema asks at its root. -/
def kind : Schema → Kind
  | table _ => .table
  | list _ _ => .list
  | number => .number
  | string _ => .string
  | bool => .bool
  | any => .any

/-- The schema of the items of a list. -/
def element? : Schema → Option Schema
  | list element _ => some element
  | _ => none

/-- The greatest length of a list or text, if there is one. -/
def maxLength? : Schema → Option Nat
  | list _ bound | string bound => effective? bound
  | _ => none

/-- The fields of a table, or of the tables in a list of tables. -/
def fields? : Schema → Option (Dictionary Schema)
  | table fields | list (table fields) _ => some fields
  | _ => none

/-- The schema of a field. -/
def field? (s : Schema) (name : String) : Option Schema :=
  s.fields?.bind (Dictionary.find? name)

mutual
/-- The number of levels of the schema, of which a scalar has one. -/
def depth : Schema → Nat
  | table fields => 1 + depthOfFields fields
  | list element _ => 1 + depth element
  | number | string _ | bool | any => 1
termination_by structural s => s

/-- The number of levels of the deepest of some fields. -/
def depthOfFields : List (String × Schema) → Nat
  | [] => 0
  | (_, s) :: fields => max (depth s) (depthOfFields fields)
termination_by structural fields => fields
end

mutual
/-- The schema with zero for every bound that bounds nothing. -/
def settleBounds : Schema → Schema
  | table fields => table (settleBoundsOfFields fields)
  | list element bound => list (settleBounds element) (if 0 < bound.toInt then bound else 0)
  | string bound => string (if 0 < bound.toInt then bound else 0)
  | number => number
  | bool => bool
  | any => any
termination_by structural s => s

/-- The fields with zero for every bound that bounds nothing. -/
def settleBoundsOfFields : List (String × Schema) → List (String × Schema)
  | [] => []
  | (name, s) :: fields => (name, settleBounds s) :: settleBoundsOfFields fields
termination_by structural fields => fields
end

mutual
/-- Every table in the schema has its fields in name order. -/
def Normal : Schema → Prop
  | table fields => Dictionary.Sorted fields ∧ NormalFields fields
  | list element _ => Normal element
  | number | string _ | bool | any => True
termination_by structural s => s

/-- The schema of every field is normal. -/
def NormalFields : List (String × Schema) → Prop
  | [] => True
  | (_, s) :: fields => Normal s ∧ NormalFields fields
termination_by structural fields => fields
end

/-! ## Equality -/

mutual
/-- Decides whether two schemas are the same. -/
def decEq : (s t : Schema) → Decidable (s = t)
  | table fs, table gs =>
    match decEqFields fs gs with
    | isTrue h => isTrue (by rw [h])
    | isFalse h => isFalse (by simpa using h)
  | list s m, list t n =>
    match decEq s t with
    | isTrue h => if k : m = n then isTrue (by rw [h, k]) else isFalse (by simp [k])
    | isFalse h => isFalse (by simp [h])
  | string m, string n => if k : m = n then isTrue (by rw [k]) else isFalse (by simp [k])
  | number, number | bool, bool | any, any => isTrue rfl
  | table _, list _ _ | table _, number | table _, string _ | table _, bool | table _, any
  | list _ _, table _ | list _ _, number | list _ _, string _ | list _ _, bool | list _ _, any
  | number, table _ | number, list _ _ | number, string _ | number, bool | number, any
  | string _, table _ | string _, list _ _ | string _, number | string _, bool | string _, any
  | bool, table _ | bool, list _ _ | bool, number | bool, string _ | bool, any
  | any, table _ | any, list _ _ | any, number | any, string _ | any, bool => isFalse (by simp)
termination_by structural s => s

/-- Decides whether two lists of fields are the same. -/
def decEqFields : (fs gs : List (String × Schema)) → Decidable (fs = gs)
  | [], [] => isTrue rfl
  | [], _ :: _ | _ :: _, [] => isFalse (by simp)
  | (m, s) :: fs, (n, t) :: gs =>
    if k : m = n then
      match decEq s t, decEqFields fs gs with
      | isTrue h, isTrue hs => isTrue (by rw [k, h, hs])
      | isFalse h, _ => isFalse (by simp [h])
      | _, isFalse h => isFalse (by simp [h])
    else isFalse (by simp [k])
termination_by structural fs => fs
end

instance : DecidableEq Schema := decEq

end Schema

end SchemaDoc
