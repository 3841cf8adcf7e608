import SchemaDoc.Embedding.Splice

/-!
# Rows

A row has a number, a list and a table of its own. It shows how documents stand as members in a
larger JSON object.
-/

namespace SchemaDoc

/-- An object with a number and two documents. -/
structure Row where
  /-- The number. -/
  id : UInt32
  /-- A list of tags. -/
  tags : Document .list
  /-- A table of attributes. -/
  attrs : Document .table

namespace Row

open Json

/-- Reads a number of 32 bits without a sign. -/
def readId : Reader UInt32 := fun bs ↦
  (readUnsigned 0x100000000 "u32" bs).map fun (n, rest) ↦ (UInt32.ofNat n, rest)

/-- The members that were read so far. -/
structure Draft where
  /-- The number. -/
  id? : Option UInt32 := none
  /-- The tags. -/
  tags? : Option (Document .list) := none
  /-- The attributes. -/
  attrs? : Option (Document .table) := none

/-- The row of a draft, in which nothing may be missing. -/
def Draft.finish (draft : Draft) : Except Cause Row :=
  match draft.id?, draft.tags?, draft.attrs? with
  | none, _, _ => .error (.missingField "id")
  | _, none, _ => .error (.missingField "tags")
  | _, _, none => .error (.missingField "attrs")
  | some id, some tags, some attrs => .ok ⟨id, tags, attrs⟩

/-- Reads the members of a row up to the closing bracket, after those in `draft`. Unknown members
are skimmed. -/
def readMembers (limit depth : Nat) : Nat → Bool → Draft → Reader Row
  | 0, _, _, bs => .error (.ahead .endInTable bs)
  | rounds + 1, first, draft, bs => do
    let refuse (cause : Cause) (bs : Bytes) : Except Fault (Row × Bytes) :=
      .error (.behind cause (leaveTable bs))
    match ← nextKey first bs with
    | none =>
      match draft.finish with
      | .error cause => refuse cause bs
      | .ok row => return (row, ← closeTable bs)
    | some bs =>
      let (key, bs) ← readString bs
      if key = "id" then
        if draft.id?.isSome then refuse (.duplicateField key) bs
        else
          let (id, bs) ← readId (← readColon bs)
          readMembers limit depth rounds false { draft with id? := some id } bs
      else if key = "tags" then
        if draft.tags?.isSome then refuse (.duplicateField key) bs
        else
          let (tags, bs) ← Document.read .list limit depth (← readColon bs)
          readMembers limit depth rounds false { draft with tags? := some tags } bs
      else if key = "attrs" then
        if draft.attrs?.isSome then refuse (.duplicateField key) bs
        else
          let (attrs, bs) ← Document.read .table limit depth (← readColon bs)
          readMembers limit depth rounds false { draft with attrs? := some attrs } bs
      else
        let bs ← skimValue limit (← readColon bs)
        readMembers limit depth rounds false draft bs

/-- Reads a row that is written as an array of its members. -/
def readItems (limit depth : Nat) : Reader Row := fun bs ↦ do
  let refuse (count : Nat) (bs : Bytes) : Except Fault (Row × Bytes) :=
    .error (.behind (.wrongLength count "struct Row with 3 elements") (leaveList bs))
  match ← nextItem true bs with
  | none => refuse 0 bs
  | some bs =>
    let (id, bs) ← readId bs
    match ← nextItem false bs with
    | none => refuse 1 bs
    | some bs =>
      let (tags, bs) ← Document.read .list limit depth bs
      match ← nextItem false bs with
      | none => refuse 2 bs
      | some bs =>
        let (attrs, bs) ← Document.read .table limit depth bs
        return (⟨id, tags, attrs⟩, ← closeList bs)

/-- Reads a row. -/
def read (limit : Nat) : Reader Row := fun bs ↦
  match skipBlank bs with
  | [] => .error (.ahead .endInValue [])
  | b :: rest =>
    if b = ascii '\x7b' then readMembers limit (depthLimit - 1) (limit + 1) true {} rest
    else if b = ascii '[' then readItems limit (depthLimit - 1) rest
    else .error (wrongType "struct Row" (b :: rest))

/-- The row that a text says. -/
def ofJson (input : Bytes) : Except Error Row := readWhole read input

/-- The number as a value. -/
def idValue (row : Row) : Value :=
  .number (.integer (.ofNat row.id.toNat (Nat.lt_trans row.id.toNat_lt (by decide))))

/-- The compact text of a row. -/
def toJson (row : Row) : Except Error Bytes := do
  let tags ← row.tags.splice
  let attrs ← row.attrs.splice
  return ascii '\x7b' :: (printString "id" ++ ascii ':' :: print row.idValue ++
    ascii ',' :: printString "tags" ++ ascii ':' :: tags ++
    ascii ',' :: printString "attrs" ++ ascii ':' :: attrs ++ [ascii '\x7d'])

/-- The text of a row on several lines. -/
def toPrettyJson (row : Row) : Except Error Bytes := do
  let tags ← row.tags.splicePretty 1
  let attrs ← row.attrs.splicePretty 1
  let member (name : String) (text : Bytes) : Bytes :=
    newLine 1 ++ printString name ++ ascii ':' :: ascii ' ' :: text
  return ascii '\x7b' :: (member "id" (print row.idValue) ++ ascii ',' :: member "tags" tags ++
    ascii ',' :: member "attrs" attrs ++ newLine 0 ++ [ascii '\x7d'])

/-- The row as a value. -/
def toValue (row : Row) : Except Error Value := do
  let tags ← row.tags.toValue
  let attrs ← row.attrs.toValue
  return .table [("attrs", attrs), ("id", row.idValue), ("tags", tags)]

end Row

end SchemaDoc
