import SchemaDoc.Json.Reader

/-!
# Severities

How much a log line matters. A threshold is a severity, and lets through what matters no less.
-/

namespace SchemaDoc

/-- How much a log line matters. -/
inductive Severity where
  /-- Detail of single calls. -/
  | trace
  /-- Activity of the registry and the configuration. -/
  | info
  /-- Something worth a look. -/
  | warn
  /-- A failure. -/
  | error
deriving DecidableEq, Repr

namespace Severity

/-- Every severity, from the least on. -/
def all : List Severity := [trace, info, warn, error]

/-- The name of a severity. -/
def name : Severity → String
  | trace => "TRACE"
  | info => "INFO"
  | warn => "WARN"
  | error => "ERROR"

/-- The severity of a name. -/
def ofName? (name : String) : Option Severity := all.find? fun s ↦ s.name = name

/-- The place of a severity among all of them. -/
def rank : Severity → Nat
  | trace => 0
  | info => 1
  | warn => 2
  | error => 3

/-- Whether a line of this severity passes a threshold. -/
def passes (s threshold : Severity) : Bool := threshold.rank ≤ s.rank

/-- The severity that a text names. -/
def ofText (s : String) : Except Json.Cause Severity :=
  match ofName? s with
  | some severity => .ok severity
  | none => .error (.unknownVariant s (all.map name))

/-- The severity that a value stands for: its name, or an object with the name as its only key and
`null` as the value. -/
def ofValue : Value → Except Json.Cause Severity
  | .string s => ofText s
  | .table [(key, v)] => do
    let severity ← ofText key
    match v with
    | .null => return severity
    | _ => .error (.wrongType (.ofValue v) "unit")
  | .table _ => .error (.wrongValue .table "map with a single key")
  | v => .error (.wrongType (.ofValue v) "string or map")

open Json in
/-- Reads the name of a severity behind its opening quote. -/
def readName : Reader Severity := fun bs ↦ do
  let (s, rest) ← readString bs
  match ofText s with
  | .ok severity => .ok (severity, rest)
  | .error cause => .error (.behind cause rest)

open Json in
/-- Reads a severity that is written as an object, behind its opening bracket. -/
def readObject : Reader Severity := fun bs ↦ do
  let bs ← match skipBlank bs with
    | [] => .error (.ahead .endInTable [])
    | b :: rest =>
      if b = ascii '\x7d' then .error (.ahead .expectedValue (b :: rest))
      else openKey (b :: rest)
  let (severity, bs) ← readName bs
  let bs ← readColon bs
  let bs ← match skipBlank bs with
    | [] => .error (.ahead .endInValue [])
    | b :: rest =>
      if b = ascii 'n' then readWord ['u', 'l', 'l'] rest
      else .error (wrongType "unit" (b :: rest))
  match skipBlank bs with
  | [] => .error (.behind .endInTable [])
  | b :: rest =>
    if b = ascii '\x7d' then .ok (severity, rest)
    else .error (.behind .expectedValue (b :: rest))

open Json in
/-- Reads a severity: its name, or an object with the name as its only key and `null` as the
value. -/
def read : Reader Severity := fun bs ↦
  match skipBlank bs with
  | [] => .error (.ahead .endInValue [])
  | b :: rest =>
    if b = ascii '"' then readName rest
    else if b = ascii '\x7b' then readObject rest
    else .error (.ahead .expectedValue (b :: rest))

end Severity

end SchemaDoc
