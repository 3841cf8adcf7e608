import SchemaDoc.Config
import SchemaDoc.Schema.Error
import SchemaDoc.Schema.Printer
import SchemaDoc.Schema.Reader

/-!
# Registries

A registry knows schemas by name. It loads them from a directory with one file for each, and a
name once given is never given anew.
-/

namespace SchemaDoc

/-- Schemas by name. -/
structure Registry where
  /-- The directory of the schema files. -/
  directory : Files.Path
  /-- The greatest depth of a schema. -/
  maxDepth : Nat
  /-- The schemas. -/
  types : Dictionary Schema

namespace Registry

open Files

variable {σ : Type}

/-- The greatest depth of a schema unless another is set. -/
def defaultMaxDepth : Nat := ({} : Config).maxSchemaDepth.toNat

/-- The empty registry of a directory. -/
def ofDirectory (directory : Path) : Registry := ⟨directory, defaultMaxDepth, []⟩

/-- The same registry with another greatest depth. -/
def withMaxDepth (r : Registry) (maxDepth : Nat) : Registry := { r with maxDepth := maxDepth }

/-- The schema of a name. -/
def find? (r : Registry) (name : String) : Option Schema := Dictionary.find? name r.types

/-- Whether there is a schema of a name. -/
def contains (r : Registry) (name : String) : Bool := Dictionary.contains name r.types

/-- The names in order. -/
def names (r : Registry) : List String := Dictionary.keys r.types

/-- The number of schemas. -/
def size (r : Registry) : Nat := r.types.length

/-- Whether there are no schemas. -/
def isEmpty (r : Registry) : Bool := r.types.isEmpty

/-- Gives a schema a name, if the name is free and the schema not too deep. -/
def register (name : String) (s : Schema) : Action Registry SchemaError Schema := do
  let r ← Action.state
  if r.contains name then Action.fail (.alreadyThere name)
  else if r.maxDepth < s.depth then Action.fail (.tooDeep name s.depth r.maxDepth)
  else
    Action.reportEvent .typeRegistered [("kind", s.kind.name), ("name", name)]
    Action.become { r with types := Dictionary.insert name s r.types }
    return s

/-! ## Files -/

/-- The extension of a schema file. -/
def extension : Name := Path.ofText "json"

/-- The names of the schema files among some names, in byte order. -/
def fileNames (names : List Name) : List Name :=
  (names.filter fun name ↦ name.extension? = some extension).mergeSort fun a b ↦ a ≤ b

/-- The name and the schema that a file of a directory defines. -/
def readDefinition (t : Tree) (directory : Path) (file : Name) :
    Except SchemaError (String × Schema) := do
  let path := Path.join directory file
  let name ← match Utf8.decode? file.stem with
    | some name => .ok name
    | none => .error (.malformed path.text "file name is not valid UTF-8")
  let text ← (t.textAt path).mapError (.unreadable path.text)
  let s ← (Schema.ofJson (Utf8.encode text)).mapError (.unparsable path.text)
  return (name, s)

/-- Registers what some files define, in order, up to the first that is no good. -/
def loadFiles (t : Tree) : List Name → Action Registry SchemaError Unit
  | [] => pure ()
  | file :: files => do
    let r ← Action.state
    let (name, s) ← Action.ofExcept (readDefinition t r.directory file)
    let _ ← register name s
    loadFiles t files

/-- Registers what the files of the directory define, in byte order, however they are listed, and
answers their number. A directory that is not there has no files. -/
def loadAll (t : Tree) : Action Registry SchemaError Nat := do
  let r ← Action.state
  if t.contains r.directory then
    let names ← Action.ofExcept
      ((t.namesAt r.directory).mapError (.unreadable r.directory.text))
    let files := fileNames names
    loadFiles t files
    Action.reportEvent .registryLoaded
      [("dir", r.directory.text), ("types", toString files.length)]
    return files.length
  else return 0

/-- The registry of a configuration, loaded from its directory if it has one. -/
def ofConfig (t : Tree) (c : Config) : Action σ SchemaError Registry := fun state ↦
  match c.schemaDir? with
  | none => ⟨.ok ((ofDirectory []).withMaxDepth c.maxSchemaDepth.toNat), state, []⟩
  | some dir =>
    let o := loadAll t ((ofDirectory (Path.ofText dir)).withMaxDepth c.maxSchemaDepth.toNat)
    ⟨o.answer.map fun _ ↦ o.state, state, o.records⟩

/-- Whether a text has two dots in a row. -/
def hasTwoDots : List Char → Bool
  | '.' :: '.' :: _ => true
  | _ :: cs => hasTwoDots cs
  | [] => false

/-- Whether a name can be that of a file in any directory, without leaving it. -/
def isPlainStem (name : String) : Bool :=
  name ≠ "" && !hasTwoDots name.toList && !name.toList.contains '/'

/-- The path of the file for a name. -/
def filePath (r : Registry) (name : String) : Path :=
  Path.join r.directory (Path.ofText name ++ dot :: extension)

/-- Writes the file for a name, which must not be there yet, and answers its path. The schema is
not registered. -/
def save (r : Registry) (name : String) (s : Schema) : Action Tree SchemaError Path := fun t ↦
  let path := r.filePath name
  if !isPlainStem name then ⟨.error (.badName name), t, []⟩
  else if t.contains path then ⟨.error (.alreadyThere name), t, []⟩
  else
    match t.ensureDirectory r.directory with
    | (.error e, t) => ⟨.error (.unwritable path.text e), t, []⟩
    | (.ok (), t) =>
      match t.writeAt path s.toPrettyJson with
      | .error e => ⟨.error (.unwritable path.text e), t, []⟩
      | .ok t => ⟨.ok path, t, []⟩

end Registry

end SchemaDoc
