import SchemaDoc.Json.Numeral
import SchemaDoc.Json.Text
import SchemaDoc.Json.Value

/-!
# Reading JSON values

The steps through an array and an object are readers of their own (`nextItem`, `nextKey`,
`readColon`, `closeList`, `closeTable`), shared by every reader that takes a particular shape.
`readValue` reads any value, with a limit on the brackets that stand open at once.
-/

namespace SchemaDoc.Json

/-! ## Arrays and objects -/

/-- Steps to the next item of an array, past the comma unless it is the `first`; nothing if the
array ends here. -/
def nextItem (first : Bool) (bs : Bytes) : Except Fault (Option Bytes) :=
  match skipBlank bs with
  | [] => .error (.ahead .endInList [])
  | b :: rest =>
    if b = ascii ']' then .ok none
    else if first then .ok (some (b :: rest))
    else if b = ascii ',' then
      match skipBlank rest with
      | [] => .error (.ahead .endInValue [])
      | c :: rest =>
        if c = ascii ']' then .error (.ahead .trailingComma (c :: rest))
        else .ok (some (c :: rest))
    else .error (.ahead .expectedListSeparator (b :: rest))

/-- Steps over the opening quote of a key. -/
def openKey : Bytes → Except Fault Bytes
  | [] => .error (.ahead .endInTable [])
  | b :: rest => if b = ascii '"' then .ok rest else .error (.ahead .keyNotString (b :: rest))

/-- Steps behind the opening quote of the next key of an object, past the comma unless it is the
`first`; nothing if the object ends here. -/
def nextKey (first : Bool) (bs : Bytes) : Except Fault (Option Bytes) :=
  match skipBlank bs with
  | [] => .error (.ahead .endInTable [])
  | b :: rest =>
    if b = ascii '\x7d' then .ok none
    else if first then (openKey (b :: rest)).map some
    else if b = ascii ',' then
      match skipBlank rest with
      | [] => .error (.ahead .endInValue [])
      | c :: rest =>
        if c = ascii '\x7d' then .error (.ahead .trailingComma (c :: rest))
        else (openKey (c :: rest)).map some
    else .error (.ahead .expectedTableSeparator (b :: rest))

/-- Steps over the colon between a key and its value. -/
def readColon (bs : Bytes) : Except Fault Bytes :=
  match skipBlank bs with
  | [] => .error (.ahead .endInTable [])
  | b :: rest =>
    if b = ascii ':' then .ok rest else .error (.ahead .expectedColon (b :: rest))

/-- Steps over the closing bracket of an array. -/
def closeList (bs : Bytes) : Except Fault Bytes :=
  match skipBlank bs with
  | [] => .error (.ahead .endInList [])
  | b :: rest =>
    if b = ascii ']' then .ok rest
    else if b = ascii ',' then
      match skipBlank rest with
      | [] => .error (.ahead .trailingText [])
      | c :: rest =>
        if c = ascii ']' then .error (.ahead .trailingComma (c :: rest))
        else .error (.ahead .trailingText (c :: rest))
    else .error (.ahead .trailingText (b :: rest))

/-- Steps over the closing bracket of an object. -/
def closeTable (bs : Bytes) : Except Fault Bytes :=
  match skipBlank bs with
  | [] => .error (.ahead .endInTable [])
  | b :: rest =>
    if b = ascii '\x7d' then .ok rest
    else if b = ascii ',' then .error (.ahead .trailingComma (b :: rest))
    else .error (.ahead .trailingText (b :: rest))

/-- Where an array is left whose contents were refused: behind its bracket or a comma, if one of
them comes next. -/
def leaveList (bs : Bytes) : Bytes :=
  match skipBlank bs with
  | [] => []
  | b :: rest =>
    if b = ascii ']' then rest else if b = ascii ',' then skipBlank rest else b :: rest

/-- Where an object is left whose contents were refused: behind its bracket, if that comes
next. -/
def leaveTable (bs : Bytes) : Bytes :=
  match skipBlank bs with
  | [] => []
  | b :: rest => if b = ascii '\x7d' then rest else b :: rest

/-! ## Values -/

/-- Reads a value that has no parts. -/
def readScalar : Bytes → Except Fault (Value × Bytes)
  | [] => .error (.ahead .endInValue [])
  | b :: rest =>
    if b = ascii 'n' then (readWord ['u', 'l', 'l'] rest).map (.null, ·)
    else if b = ascii 't' then (readWord ['r', 'u', 'e'] rest).map (.bool true, ·)
    else if b = ascii 'f' then (readWord ['a', 'l', 's', 'e'] rest).map (.bool false, ·)
    else if b = ascii '"' then (readString rest).map fun (s, rest) ↦ (.string s, rest)
    else if b = ascii '-' then (readNumber true rest).map fun (n, rest) ↦ (.number n, rest)
    else if isDigit b then (readNumber false (b :: rest)).map fun (n, rest) ↦ (.number n, rest)
    else .error (.ahead .expectedValue (b :: rest))

/-- A reader of one thing from the front of the input. -/
abbrev Reader (α : Type) := Bytes → Except Fault (α × Bytes)

/-- Reads the items of an array up to its closing bracket, the next of them being the `first` or
not; `done` holds those already read, in reverse. No array has more than `limit` items, the length
of the input. -/
def readItems {α : Type} (item : Reader α) : Nat → Bool → List α → Reader (List α)
  | 0, _, _, bs => .error (.ahead .endInList bs)
  | limit + 1, first, done, bs =>
    match nextItem first bs with
    | .error f => .error f
    | .ok none => .ok (done.reverse, bs)
    | .ok (some bs) =>
      match item bs with
      | .error f => .error f
      | .ok (x, bs) => readItems item limit false (x :: done) bs

/-- Reads the members of an object up to its closing bracket, the next of them being the `first`
or not; `done` holds those already read, in reverse. -/
def readMembers {α : Type} (value : Reader α) :
    Nat → Bool → List (String × α) → Reader (List (String × α))
  | 0, _, _, bs => .error (.ahead .endInTable bs)
  | limit + 1, first, done, bs =>
    match nextKey first bs with
    | .error f => .error f
    | .ok none => .ok (done.reverse, bs)
    | .ok (some bs) =>
      match readString bs with
      | .error f => .error f
      | .ok (key, bs) =>
        match readColon bs with
        | .error f => .error f
        | .ok bs =>
          match value bs with
          | .error f => .error f
          | .ok (v, bs) => readMembers value limit false ((key, v) :: done) bs

/-- Reads an array behind its opening bracket. -/
def readList (limit : Nat) (value : Reader Value) : Reader (List Value) := fun bs ↦ do
  let (items, bs) ← readItems value limit true [] bs
  return (items, ← closeList bs)

/-- Reads an object behind its opening bracket. -/
def readTable (limit : Nat) (value : Reader Value) : Reader (List (String × Value)) := fun bs ↦ do
  let (members, bs) ← readMembers value limit true [] bs
  return (members, ← closeTable bs)

/-- Reads a value whose parts, if it may have any, are read by `inner?`. -/
def readValueWith (limit : Nat) (inner? : Option (Reader Value)) : Reader Value := fun bs ↦
  match skipBlank bs with
  | [] => .error (.ahead .endInValue [])
  | b :: rest =>
    if b = ascii '[' then
      match inner? with
      | none => .error (.ahead .tooDeep (b :: rest))
      | some inner => (readList limit inner rest).map fun (items, rest) ↦ (.list items, rest)
    else if b = ascii '\x7b' then
      match inner? with
      | none => .error (.ahead .tooDeep (b :: rest))
      | some inner => (readTable limit inner rest).map fun (members, rest) ↦ (.table members, rest)
    else readScalar (b :: rest)

/-- Reads a value with at most `depth` brackets open at once. -/
def readValue (limit : Nat) : Nat → Reader Value
  | 0 => readValueWith limit none
  | depth + 1 => readValueWith limit (some (readValue limit depth))

/-- The number of brackets that may be open at once. -/
def depthLimit : Nat := 127

/-! ## Values of a particular type -/

/-- What a value is, as an error names it. -/
def Found.ofValue : Value → Found
  | .null => .null
  | .bool b => .bool b
  | .number n => .number n
  | .string s => .string s
  | .list _ => .list
  | .table _ => .table

/-- The fault of a value that is not what was `expected`, at the value's first byte. A scalar is
read whole and may have a fault of its own; brackets are not entered. -/
def wrongType (expected : String) (bs : Bytes) : Fault :=
  match bs with
  | [] => .ahead .endInValue []
  | b :: _ =>
    if b = ascii '[' then .behind (.wrongType .list expected) bs
    else if b = ascii '\x7b' then .behind (.wrongType .table expected) bs
    else match readScalar bs with
      | .error f => f
      | .ok (v, rest) => .behind (.wrongType (.ofValue v) expected) rest

/-- Reads an array whose items, if it may have any, are read by `inner?`. -/
def readListOnly (limit : Nat) (inner? : Option (Reader Value)) : Reader (List Value) := fun bs ↦
  match skipBlank bs with
  | [] => .error (.ahead .endInValue [])
  | b :: rest =>
    if b = ascii '[' then
      match inner? with
      | none => .error (.ahead .tooDeep (b :: rest))
      | some inner => readList limit inner rest
    else .error (wrongType "a sequence" (b :: rest))

/-- Reads an object whose values, if it may have any, are read by `inner?`. -/
def readTableOnly (limit : Nat) (inner? : Option (Reader Value)) :
    Reader (List (String × Value)) := fun bs ↦
  match skipBlank bs with
  | [] => .error (.ahead .endInValue [])
  | b :: rest =>
    if b = ascii '\x7b' then
      match inner? with
      | none => .error (.ahead .tooDeep (b :: rest))
      | some inner => readTable limit inner rest
    else .error (wrongType "a map" (b :: rest))

/-- Reads a string. -/
def readStringOnly (expected : String) : Reader String := fun bs ↦
  match skipBlank bs with
  | [] => .error (.ahead .endInValue [])
  | b :: rest =>
    if b = ascii '"' then readString rest else .error (wrongType expected (b :: rest))

/-- Reads a whole number below `bound`, and nothing below zero. -/
def readUnsigned (bound : Nat) (expected : String) : Reader Nat := fun bs ↦
  match skipBlank bs with
  | [] => .error (.ahead .endInValue [])
  | b :: rest =>
    let number? : Option (Except Fault (Number × Bytes)) :=
      if b = ascii '-' then some (readNumber true rest)
      else if isDigit b then some (readNumber false (b :: rest))
      else none
    match number? with
    | none => .error (wrongType expected (b :: rest))
    | some (.error f) => .error f
    | some (.ok (.double x, rest)) =>
      .error (.behind (.wrongType (.number (.double x)) expected) rest)
    | some (.ok (.integer i, rest)) =>
      if 0 ≤ i.val ∧ i.val < bound then .ok (i.val.toNat, rest)
      else .error (.behind (.wrongValue (.number (.integer i)) expected) rest)

/-! ## Whole texts -/

/-- Refuses anything but blanks. -/
def readEnd (bs : Bytes) : Except Fault Unit :=
  match skipBlank bs with
  | [] => .ok ()
  | b :: rest => .error (.ahead .trailingText (b :: rest))

/-- Reads a whole text and then makes something of what was read. The reader is told the length of
the text. What is wrong with the result has no place, and it is found before anything that follows
the value in the text. -/
def readWholeAs {α β : Type} (reader : Nat → Reader α) (finish : α → Except Cause β)
    (input : Bytes) : Except Error β :=
  match reader input.length input with
  | .error f => .error (.ofFault input f)
  | .ok (x, rest) =>
    match finish x with
    | .error cause => .error (.unplaced cause)
    | .ok y =>
      match readEnd rest with
      | .error f => .error (.ofFault input f)
      | .ok () => .ok y

/-- Reads a whole text. -/
def readWhole {α : Type} (reader : Nat → Reader α) (input : Bytes) : Except Error α :=
  readWholeAs reader .ok input

/-- The value that a text says, its tables as written. -/
def parse (input : Bytes) : Except Error Value :=
  readWhole (fun limit ↦ readValue limit depthLimit) input

end SchemaDoc.Json
