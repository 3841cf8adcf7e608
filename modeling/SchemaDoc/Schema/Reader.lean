import SchemaDoc.Json.Reader
import SchemaDoc.Schema.Basic

/-!
# Reading schemas

A schema is written as an object with a member `kind`, or as an array whose first item is the
kind. At the top of a text the kind is read at once, so a wrong one is refused where it stands; all
else is read first as plain values and judged afterwards, without a place in the text.
-/

namespace SchemaDoc

namespace Kind

/-- The kind that a text names. -/
def ofText (s : String) : Except Json.Cause Kind :=
  match ofName? s with
  | some k => .ok k
  | none => .error (.unknownVariant s names)

/-- The kind that a value below the top stands for: its name, or its place among all kinds. -/
def ofValue : Value → Except Json.Cause Kind
  | .string s => ofText s
  | .number (.integer i) =>
    if i.val < 0 then .error (.wrongType (.number (.integer i)) "variant identifier")
    else match all[i.val.toNat]? with
      | some k => .ok k
      | none => .error (.wrongValue (.number (.integer i)) "variant index 0 <= i < 6")
  | v => .error (.wrongType (.ofValue v) "variant identifier")

/-- The kind among the members of an object, which has to be there once; `found?` was found
before. -/
def ofMembers (found? : Option Kind) : List (String × Value) → Except Json.Cause Kind
  | [] =>
    match found? with
    | some k => .ok k
    | none => .error (.missingField "kind")
  | (key, v) :: members =>
    if key = "kind" then
      if found?.isSome then .error (.duplicateField "kind")
      else
        match ofValue v with
        | .error e => .error e
        | .ok k => ofMembers (some k) members
    else ofMembers found? members

end Kind

namespace Schema

/-- The bound that a value stands for. -/
def boundOfValue : Value → Except Json.Cause Int64
  | .number (.integer i) =>
    if h : i.val < 0x8000000000000000 then
      .ok (Int64.ofIntLE i.val i.le_val (Int.le_sub_one_of_lt h))
    else .error (.wrongValue (.number (.integer i)) "i64")
  | v => .error (.wrongType (.ofValue v) "i64")

/-- What the members of an object have said so far. -/
structure Parts where
  /-- The schema of the items. -/
  element? : Option Schema := none
  /-- The bound. -/
  bound? : Option Int64 := none
  /-- The fields. -/
  fields? : Option (Dictionary Schema) := none
deriving Inhabited

/-- The schema of a kind with some parts. Only the schema of the items has to be there. -/
def Parts.finish (parts : Parts) : Kind → Except Json.Cause Schema
  | .table => .ok (table (parts.fields?.getD []))
  | .list =>
    match parts.element? with
    | some element => .ok (list element (parts.bound?.getD 0))
    | none => .error (.missingField "element")
  | .number => .ok number
  | .string => .ok (string (parts.bound?.getD 0))
  | .bool => .ok bool
  | .any => .ok any

/-- Refuses items beyond those that a kind has. -/
def noneBeyond (count : Nat) (length : Nat) : Except Json.Cause Unit :=
  if length ≤ count then .ok ()
  else .error (.wrongLength length
    (if count = 1 then "1 element in sequence" else s!"{count} elements in sequence"))

mutual
/-- The schema that a value stands for. -/
def ofValue : Value → Except Json.Cause Schema
  | .table members =>
    match Kind.ofMembers none members with
    | .error e => .error e
    | .ok kind => ofMembers kind {} members
  | .list [] => .error (.missingField "kind")
  | .list (tag :: items) =>
    match Kind.ofValue tag with
    | .error e => .error e
    | .ok kind => ofItems kind items
  | .null => .error (.wrongType .null "internally tagged enum Type")
  | .bool b => .error (.wrongType (.bool b) "internally tagged enum Type")
  | .number n => .error (.wrongType (.number n) "internally tagged enum Type")
  | .string s => .error (.wrongType (.string s) "internally tagged enum Type")
termination_by structural v => v

/-- The schema of a kind that the members of an object stand for, after those in `parts`. Each
member that the kind has may be there once; all others are passed over. -/
def ofMembers (kind : Kind) (parts : Parts) : List (String × Value) → Except Json.Cause Schema
  | [] => parts.finish kind
  | (key, v) :: members =>
    if kind = .list ∧ key = "element" then
      if parts.element?.isSome then .error (.duplicateField key)
      else match ofValue v with
        | .error e => .error e
        | .ok s => ofMembers kind { parts with element? := some s } members
    else if (kind = .list ∨ kind = .string) ∧ key = "max_length" then
      if parts.bound?.isSome then .error (.duplicateField key)
      else match boundOfValue v with
        | .error e => .error e
        | .ok bound => ofMembers kind { parts with bound? := some bound } members
    else if kind = .table ∧ key = "fields" then
      if parts.fields?.isSome then .error (.duplicateField key)
      else match fieldsOfValue v with
        | .error e => .error e
        | .ok fields => ofMembers kind { parts with fields? := some fields } members
    else ofMembers kind parts members
termination_by structural members => members

/-- The schema of a kind that the items behind the kind stand for. -/
def ofItems (kind : Kind) : List Value → Except Json.Cause Schema
  | [] =>
    if kind = .list then
      .error (.wrongLength 0 "struct variant Type::List with 2 elements")
    else Parts.finish {} kind
  | v :: items =>
    match kind with
    | .number | .bool | .any => do
      noneBeyond 0 (items.length + 1)
      Parts.finish {} kind
    | .string => do
      let bound ← boundOfValue v
      noneBeyond 1 (items.length + 1)
      return string bound
    | .table => do
      let fields ← fieldsOfValue v
      noneBeyond 1 (items.length + 1)
      return table fields
    | .list => do
      let element ← ofValue v
      match items with
      | [] => return list element 0
      | w :: rest => do
        let bound ← boundOfValue w
        noneBeyond 2 (rest.length + 2)
        return list element bound
termination_by structural items => items

/-- The fields that a value stands for. -/
def fieldsOfValue : Value → Except Json.Cause (Dictionary Schema)
  | .table members => fieldsOfMembers [] members
  | .null => .error (.wrongType .null "a map")
  | .bool b => .error (.wrongType (.bool b) "a map")
  | .number n => .error (.wrongType (.number n) "a map")
  | .string s => .error (.wrongType (.string s) "a map")
  | .list _ => .error (.wrongType .list "a map")
termination_by structural v => v

/-- The fields that some members stand for, on top of those in `fields`; the last of one name
counts. -/
def fieldsOfMembers (fields : Dictionary Schema) :
    List (String × Value) → Except Json.Cause (Dictionary Schema)
  | [] => .ok fields
  | (name, v) :: members =>
    match ofValue v with
    | .error e => .error e
    | .ok s => fieldsOfMembers (Dictionary.insert name s fields) members
termination_by structural members => members
end

/-! ## The top of a text -/

/-- A schema that was read but not yet judged: its kind, and an object or array with the rest. -/
structure Draft where
  /-- The kind. -/
  kind : Kind
  /-- The other members, or the items behind the kind. -/
  body : List (String × Value) ⊕ List Value

/-- The schema that a draft stands for. -/
def Draft.finish (draft : Draft) : Except Json.Cause Schema :=
  match draft.body with
  | .inl members => ofMembers draft.kind {} members
  | .inr items => ofItems draft.kind items

open Json in
/-- Reads the name of a kind. -/
def readKind : Reader Kind := fun bs ↦ do
  let (s, rest) ← readStringOnly "variant identifier" bs
  match Kind.ofText s with
  | .ok k => .ok (k, rest)
  | .error cause => .error (.behind cause rest)

open Json in
/-- Reads the members of a schema up to the closing bracket; `kind?` and `done` were read
before, the latter in reverse. -/
def readDraftMembers (value : Reader Value) :
    Nat → Bool → Option Kind → List (String × Value) → Reader Draft
  | 0, _, _, _, bs => .error (.ahead .endInTable bs)
  | limit + 1, first, kind?, done, bs => do
    match ← nextKey first bs with
    | none =>
      match kind? with
      | none => .error (.behind (.missingField "kind") (leaveTable bs))
      | some kind => return (⟨kind, .inl done.reverse⟩, ← closeTable bs)
    | some bs =>
      let (key, bs) ← readString bs
      if key = "kind" then
        if kind?.isSome then .error (.behind (.duplicateField "kind") (leaveTable bs))
        else
          let (kind, bs) ← readKind (← readColon bs)
          readDraftMembers value limit false (some kind) done bs
      else
        let (v, bs) ← value (← readColon bs)
        readDraftMembers value limit false kind? ((key, v) :: done) bs

open Json in
/-- Reads the items of a schema that is written as an array. -/
def readDraftItems (limit : Nat) (value : Reader Value) : Reader Draft := fun bs ↦ do
  match ← nextItem true bs with
  | none => .error (.behind (.missingField "kind") (leaveList bs))
  | some bs =>
    let (kind, bs) ← readKind bs
    let (items, bs) ← readItems value limit false [] bs
    return (⟨kind, .inr items⟩, ← closeList bs)

open Json in
/-- Reads a schema without judging it. -/
def readDraft (limit : Nat) : Reader Draft := fun bs ↦
  let value := readValue limit (depthLimit - 1)
  match skipBlank bs with
  | [] => .error (.ahead .endInValue [])
  | b :: rest =>
    if b = ascii '\x7b' then readDraftMembers value limit true none [] rest
    else if b = ascii '[' then readDraftItems limit value rest
    else .error (wrongType "internally tagged enum Type" (b :: rest))

/-- The schema that a text says. -/
def ofJson (input : Bytes) : Except Json.Error Schema :=
  Json.readWholeAs readDraft Draft.finish input

end Schema

end SchemaDoc
