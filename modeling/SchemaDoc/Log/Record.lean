import SchemaDoc.Json.Printer
import SchemaDoc.Log.Severity

/-!
# Log records

What operations report. Every record is kept as it comes; only when the log is written does the
threshold decide which records become lines. A line is a JSON object that starts with the event
and the severity and goes on with the fields by key.
-/

namespace SchemaDoc

/-- Something that operations report by themselves. -/
inductive Event where
  /-- A named schema was registered. -/
  | typeRegistered
  /-- A directory of schemas was loaded. -/
  | registryLoaded
  /-- A configuration was loaded. -/
  | configLoaded
  /-- Raw bytes were taken as a document. -/
  | documentScanned
  /-- The raw bytes of a document were decoded. -/
  | documentDecoded
  /-- The payload of a document was encoded. -/
  | documentEncoded
  /-- The first byte was not that of the document's shape. -/
  | shapeMismatch
  /-- Raw bytes could not be decoded. -/
  | decodeFailed
  /-- A value violates its schema. -/
  | schemaViolation
deriving DecidableEq, Repr

namespace Event

/-- Every event. -/
def all : List Event :=
  [typeRegistered, registryLoaded, configLoaded, documentScanned, documentDecoded,
    documentEncoded, shapeMismatch, decodeFailed, schemaViolation]

/-- The name of an event. -/
def name : Event → String
  | typeRegistered => "TYPE_REGISTERED"
  | registryLoaded => "REGISTRY_LOADED"
  | configLoaded => "CONFIG_LOADED"
  | documentScanned => "DOCUMENT_SCANNED"
  | documentDecoded => "DOCUMENT_DECODED"
  | documentEncoded => "DOCUMENT_ENCODED"
  | shapeMismatch => "SHAPE_MISMATCH"
  | decodeFailed => "DECODE_FAILED"
  | schemaViolation => "SCHEMA_VIOLATION"

/-- The event of a name. -/
def ofName? (name : String) : Option Event := all.find? fun e ↦ e.name = name

/-- How much an event matters. What is returned to the caller anyway matters least. -/
def severity : Event → Severity
  | typeRegistered | registryLoaded | configLoaded => .info
  | documentScanned | documentDecoded | documentEncoded | shapeMismatch | decodeFailed
  | schemaViolation => .trace

end Event

/-- One report. -/
structure Record where
  /-- How much it matters. -/
  severity : Severity
  /-- What happened. -/
  event : String
  /-- The particulars, in any order. -/
  fields : List (String × String)
deriving DecidableEq, Repr

namespace Record

/-- The report of an event. -/
def ofEvent (e : Event) (fields : List (String × String)) : Record :=
  ⟨e.severity, e.name, fields⟩

/-- The fields by key; those of one key keep their order. -/
def sortFields (fields : List (String × String)) : List (String × String) :=
  fields.mergeSort fun m n ↦ m.1 ≤ n.1

/-- The members of a line. -/
def members (r : Record) : List (String × Value) :=
  ("event", .string r.event) :: ("severity", .string r.severity.name) ::
    (sortFields r.fields).map fun (key, s) ↦ (key, .string s)

/-- The line of a record, with its line feed. -/
def line (r : Record) : Bytes := Json.print (.table r.members) ++ [0x0A]

end Record

namespace Log

/-- What a log writes to its two streams. -/
structure Output where
  /-- The standard stream. -/
  standard : Bytes := []
  /-- The stream for failures. -/
  failures : Bytes := []
deriving DecidableEq, Repr

/-- The threshold that is in force until another is set. -/
def defaultThreshold : Severity := .warn

/-- The records that pass a threshold. -/
def passing (threshold : Severity) (records : List Record) : List Record :=
  records.filter fun r ↦ r.severity.passes threshold

/-- Writes the lines of the records that pass a threshold, failures to a stream of their own. -/
def write (threshold : Severity) (records : List Record) : Output :=
  let (failures, others) := (passing threshold records).partition fun r ↦ r.severity = .error
  ⟨others.flatMap Record.line, failures.flatMap Record.line⟩

end Log

end SchemaDoc
