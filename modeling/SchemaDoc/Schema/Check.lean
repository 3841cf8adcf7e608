import SchemaDoc.Json.Value
import SchemaDoc.Schema.Basic
import SchemaDoc.Schema.Violation

/-!
# Checking values

`check` finds the first violation of a schema in a value. It goes down the schema and never
further, so a value may be nested more deeply than anything here.
-/

namespace SchemaDoc

/-- Nothing, or the first violation found. -/
abbrev Verdict := Except Violation Unit

namespace Schema

/-- Checks the length of a list. -/
def checkLength (bound : Int64) (length : Nat) (path : String) : Verdict :=
  match effective? bound with
  | some max => if max < length then .error (.tooLong path max length) else .ok ()
  | none => .ok ()

/-- Checks the items of a list in order, the first of them being at `index`. -/
def checkItems (checkItem : Value → String → Verdict) (path : String) :
    Nat → List Value → Verdict
  | _, [] => .ok ()
  | index, v :: items =>
    match checkItem v (Path.item path index) with
    | .error e => .error e
    | .ok () => checkItems checkItem path (index + 1) items

/-- Checks the length of a list and then its items. -/
def checkListWith (checkItem : Value → String → Verdict) (bound : Int64) (items : List Value)
    (path : String) : Verdict :=
  match checkLength bound items.length path with
  | .error e => .error e
  | .ok () => checkItems checkItem path 0 items

/-- Checks that every key is among the fields. -/
def checkKeys (fields : Dictionary Schema) (path : String) : Dictionary Value → Verdict
  | [] => .ok ()
  | (key, _) :: members =>
    if Dictionary.contains key fields then checkKeys fields path members
    else .error (.extraField (Path.field path key))

mutual
/-- Checks the value at a path. -/
def checkAt : Schema → Value → String → Verdict
  | table fields, v, path =>
    match v with
    | .table members =>
      match checkKeys fields path members with
      | .error e => .error e
      | .ok () => checkFields fields members path
    | _ => .error (.wrongType path Kind.table.name v.typeName)
  | list element bound, v, path =>
    match v with
    | .list items => checkListWith (checkAt element) bound items path
    | _ => .error (.wrongType path Kind.list.name v.typeName)
  | number, v, path =>
    match v with
    | .number _ => .ok ()
    | _ => .error (.wrongType path Kind.number.name v.typeName)
  | string bound, v, path =>
    match v with
    | .string s =>
      match effective? bound with
      | some max =>
        if max < s.length then .error (.tooManyCharacters path max s.length) else .ok ()
      | none => .ok ()
    | _ => .error (.wrongType path Kind.string.name v.typeName)
  | bool, v, path =>
    match v with
    | .bool _ => .ok ()
    | _ => .error (.wrongType path Kind.bool.name v.typeName)
  | any, _, _ => .ok ()
termination_by structural s => s

/-- Checks, in name order, the fields that are there. -/
def checkFields : List (String × Schema) → Dictionary Value → String → Verdict
  | [], _, _ => .ok ()
  | (name, s) :: fields, members, path =>
    match Dictionary.find? name members with
    | none => checkFields fields members path
    | some v =>
      match checkAt s v (Path.field path name) with
      | .error e => .error e
      | .ok () => checkFields fields members path
termination_by structural fields => fields
end

/-- Checks a whole value. -/
def check (s : Schema) (v : Value) : Verdict := s.checkAt v Path.root

/-- Whether a value has no violation. -/
def accepts (s : Schema) (v : Value) : Bool := (s.check v).toBool

/-- Checks the items of a whole list. -/
def checkList (s : Schema) (items : List Value) : Verdict :=
  match s with
  | list element bound => checkListWith element.checkAt bound items Path.root
  | any => .ok ()
  | table _ | number | string _ | bool =>
    .error (.wrongType Path.root s.kind.name Kind.list.name)

/-- Checks the members of a whole table. -/
def checkTable (s : Schema) (members : Dictionary Value) : Verdict :=
  match s with
  | table fields =>
    match checkKeys fields Path.root members with
    | .error e => .error e
    | .ok () => checkFields fields members Path.root
  | any => .ok ()
  | list _ _ | number | string _ | bool =>
    .error (.wrongType Path.root s.kind.name Kind.table.name)

end Schema

end SchemaDoc
