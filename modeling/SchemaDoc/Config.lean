import SchemaDoc.Action
import SchemaDoc.Files.Tree

/-!
# Configuration

What can be set: the log threshold, the greatest depth of a registered schema and the directory of
schemas. Every setting has a default, and nothing else can be set.
-/

namespace SchemaDoc

/-- The settings. -/
structure Config where
  /-- The log threshold. -/
  logLevel : Severity := Log.defaultThreshold
  /-- The greatest depth of a registered schema. -/
  maxSchemaDepth : UInt64 := 64
  /-- The directory of schemas. -/
  schemaDir? : Option String := none
deriving DecidableEq, Repr

/-- What is wrong with a configuration. -/
inductive ConfigError where
  /-- The file could not be read. -/
  | unreadable (path : Files.Path) (cause : Files.Error)
  /-- The text is no configuration. -/
  | unparsable (cause : Json.Error)
  /-- No schema would be shallow enough. -/
  | depthNotPositive
deriving DecidableEq, Repr

/-- The wording of an error. -/
def ConfigError.message : ConfigError → String
  | unreadable path cause => s!"failed to read config '{path.text}': {cause.message}"
  | unparsable cause => s!"invalid config: {cause.message}"
  | depthNotPositive =>
    "invalid config value for 'max_schema_depth': must be at least 1"

namespace Config

open Json

/-- The names of the settings. -/
def fieldNames : List String := ["log_level", "max_schema_depth", "schema_dir"]

/-- Refuses settings that no schema could meet. -/
def validate (c : Config) : Except ConfigError Unit :=
  if c.maxSchemaDepth = 0 then .error .depthNotPositive else .ok ()

/-- The members that were read so far. -/
structure Draft where
  /-- The log threshold. -/
  logLevel? : Option Severity := none
  /-- The greatest depth. -/
  maxSchemaDepth? : Option UInt64 := none
  /-- The directory, which may be set to none. -/
  schemaDir? : Option (Option String) := none

/-- The settings of a draft, with the defaults for what was not set. -/
def Draft.finish (d : Draft) : Config :=
  { logLevel := d.logLevel?.getD Log.defaultThreshold
    maxSchemaDepth := d.maxSchemaDepth?.getD 64
    schemaDir? := d.schemaDir?.getD none }

/-- Reads a depth. -/
def readDepth : Reader UInt64 := fun bs ↦
  (readUnsigned 0x10000000000000000 "usize" bs).map fun (n, rest) ↦ (UInt64.ofNat n, rest)

/-- Reads a directory or `null`. -/
def readDir : Reader (Option String) := fun bs ↦
  match skipBlank bs with
  | b :: rest =>
    if b = ascii 'n' then (readWord ['u', 'l', 'l'] rest).map (none, ·)
    else (readStringOnly "path string" (b :: rest)).map fun (s, rest) ↦ (some s, rest)
  | [] => (readStringOnly "path string" []).map fun (s, rest) ↦ (some s, rest)

/-- Reads the settings up to the closing bracket, after those in `draft`. Each may be there
once. -/
def readMembers : Nat → Bool → Draft → Reader Config
  | 0, _, _, bs => .error (.ahead .endInTable bs)
  | rounds + 1, first, draft, bs => do
    let refuse (cause : Cause) (bs : Bytes) : Except Fault (Config × Bytes) :=
      .error (.behind cause (leaveTable bs))
    match ← nextKey first bs with
    | none => return (draft.finish, ← closeTable bs)
    | some bs =>
      let (key, bs) ← readString bs
      if key = "log_level" then
        if draft.logLevel?.isSome then refuse (.duplicateField key) bs
        else
          let (level, bs) ← Severity.read (← readColon bs)
          readMembers rounds false { draft with logLevel? := some level } bs
      else if key = "max_schema_depth" then
        if draft.maxSchemaDepth?.isSome then refuse (.duplicateField key) bs
        else
          let (depth, bs) ← readDepth (← readColon bs)
          readMembers rounds false { draft with maxSchemaDepth? := some depth } bs
      else if key = "schema_dir" then
        if draft.schemaDir?.isSome then refuse (.duplicateField key) bs
        else
          let (dir?, bs) ← readDir (← readColon bs)
          readMembers rounds false { draft with schemaDir? := some dir? } bs
      else refuse (.unknownField key fieldNames) bs

/-- Reads settings that are written as an array in their order, the last of which may be
missing. -/
def readItems : Reader Config := fun bs ↦ do
  match ← nextItem true bs with
  | none => return (({} : Draft).finish, ← closeList bs)
  | some bs =>
    let (level, bs) ← Severity.read bs
    let draft : Draft := { logLevel? := some level }
    match ← nextItem false bs with
    | none => return (draft.finish, ← closeList bs)
    | some bs =>
      let (depth, bs) ← readDepth bs
      let draft := { draft with maxSchemaDepth? := some depth }
      match ← nextItem false bs with
      | none => return (draft.finish, ← closeList bs)
      | some bs =>
        let (dir?, bs) ← readDir bs
        return ({ draft with schemaDir? := some dir? }.finish, ← closeList bs)

/-- Reads settings. -/
def read (limit : Nat) : Reader Config := fun bs ↦
  match skipBlank bs with
  | [] => .error (.ahead .endInValue [])
  | b :: rest =>
    if b = ascii '\x7b' then readMembers (limit + 1) true {} rest
    else if b = ascii '[' then readItems rest
    else .error (wrongType "struct ShapeConfig" (b :: rest))

/-- The configuration that a text says. -/
def ofJson (input : Bytes) : Except ConfigError Config := do
  let c ← (readWhole read input).mapError .unparsable
  c.validate
  return c

/-- The configuration as a value. -/
def toValue (c : Config) : Value :=
  .table (("log_level", .string c.logLevel.name) ::
    ("max_schema_depth",
      .number (.integer (.ofNat c.maxSchemaDepth.toNat c.maxSchemaDepth.toNat_lt))) ::
    (match c.schemaDir? with
    | some dir => [("schema_dir", .string dir)]
    | none => []))

/-- The text of a configuration. -/
def toJson (c : Config) : Bytes := print c.toValue

/-- The configuration in a file. -/
def load {σ : Type} (t : Files.Tree) (path : Files.Path) : Action σ ConfigError Config := do
  let text ← Action.ofExcept ((t.textAt path).mapError (.unreadable path))
  let c ← Action.ofExcept (ofJson (Utf8.encode text))
  Action.reportEvent .configLoaded [("path", path.text)]
  return c

end Config

end SchemaDoc
