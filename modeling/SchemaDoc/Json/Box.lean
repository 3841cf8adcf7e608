import SchemaDoc.Json.Reader

/-!
# Boxes

An object whose first key is `boxKey` is a box: it stands for the value that the text behind the key
says. A box has no other members, and its text is read for itself, with as many brackets allowed as
in any text. Boxes are opened wherever a value of any type is read.
-/

namespace SchemaDoc.Json

/-- The key of a box. -/
def boxKey : String := "$serde_json::private::RawValue"

/-- Steps behind the key of a box, if a box comes next. -/
def openBox? (bs : Bytes) : Option Bytes :=
  match skipBlank bs with
  | [] => none
  | b :: rest =>
    if b = ascii '\x7b' then
      match nextKey true rest with
      | .ok (some keyed) =>
        match readString keyed with
        | .ok (key, rest) => if key = boxKey then some rest else none
        | .error _ => none
      | .ok none | .error _ => none
    else none

/-- Reads a box behind its key. A fault in its text is reported with its place there. -/
def readBox (unbox : Bytes → Except Error Value) : Reader Value := fun bs ↦ do
  let bs ← readColon bs
  let (text, rest) ← readStringOnly "raw value" bs
  match unbox (Utf8.encode text) with
  | .error e => .error (e.asFault rest)
  | .ok v => return (v, ← closeTable rest)

/-- Reads a value with at most `depth` brackets open at once, opening every box. -/
def readOpened (unbox : Bytes → Except Error Value) (limit : Nat) : Nat → Reader Value
  | 0 => readValueWith limit none
  | depth + 1 => fun bs ↦
    match openBox? bs with
    | some rest => readBox unbox rest
    | none => readValueWith limit (some (readOpened unbox limit depth)) bs

/-- The value that a text says, every box opened, if no more than `boxes` texts stand in one
another. -/
def unboxWithin : Nat → Bytes → Except Error Value
  | 0, _ => .error (.unplaced .tooDeep)
  | boxes + 1, text =>
    readWhole (fun limit ↦ readOpened (unboxWithin boxes) limit depthLimit) text

/-- The value that a text says, every box opened. The text of a box is shorter than the text around
it, so that there are no more in one another than the text has bytes. -/
def unbox (text : Bytes) : Except Error Value := unboxWithin (text.length + 1) text

/-- Reads a value in a text of `limit` bytes, opening every box. -/
def readUnboxed (limit depth : Nat) : Reader Value := readOpened (unboxWithin limit) limit depth

/-- The reader of what stands in a bracket, if `depth` allows one. -/
def partReader? (limit : Nat) : Nat → Option (Reader Value)
  | 0 => none
  | depth + 1 => some (readUnboxed limit depth)

end SchemaDoc.Json

namespace SchemaDoc.Value

/-- The value behind the key of a box and the members after that, if the first key is one. -/
def box? : List (String × Value) → Option (Value × List (String × Value))
  | [] => none
  | (key, v) :: members => if key = Json.boxKey then some (v, members) else none

/-- Opens a box that is a value already. -/
def openBox (unbox : Bytes → Except Json.Error Value) (v : Value)
    (others : List (String × Value)) : Except Json.Error Value :=
  match v with
  | string text => do
    let w ← unbox (Utf8.encode text)
    if others.isEmpty then return w
    else .error (.unplaced (.wrongLength (others.length + 1) "fewer elements in map"))
  | v => .error (.unplaced (.wrongType (.ofValue v) "raw value"))

mutual
/-- The value with every box in it opened. -/
def opened (unbox : Bytes → Except Json.Error Value) : Value → Except Json.Error Value
  | null => .ok null
  | bool b => .ok (bool b)
  | number n => .ok (number n)
  | string s => .ok (string s)
  | list items => (openedItems unbox items).map list
  | table members =>
    match box? members with
    | some (v, others) => openBox unbox v others
    | none => (openedMembers unbox members).map table
termination_by structural v => v

/-- Opens every box in some items. -/
def openedItems (unbox : Bytes → Except Json.Error Value) :
    List Value → Except Json.Error (List Value)
  | [] => .ok []
  | v :: items => do
    let w ← opened unbox v
    return w :: (← openedItems unbox items)
termination_by structural items => items

/-- Opens every box in the values of some members. -/
def openedMembers (unbox : Bytes → Except Json.Error Value) :
    List (String × Value) → Except Json.Error (List (String × Value))
  | [] => .ok []
  | (key, v) :: members => do
    let w ← opened unbox v
    return (key, w) :: (← openedMembers unbox members)
termination_by structural members => members
end

end SchemaDoc.Value
