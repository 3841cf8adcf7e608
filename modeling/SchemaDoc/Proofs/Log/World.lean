import SchemaDoc.Proofs.Document.Operations
import SchemaDoc.Proofs.Log.Events
import SchemaDoc.Proofs.Log.Output

/-!
# Worlds

A world is all that a program works on: documents, checked documents, registries and configurations
by name, the files, and the threshold of the log. A call is any one thing that a program does with
it. A run carries out calls one after the other and collects their answers; what a call reports is
written by the threshold that is in force at that moment.
-/

namespace SchemaDoc

/-! ## What there is -/

/-- What a name can stand for. -/
inductive Role where
  /-- A document. -/
  | document (s : Shape)
  /-- A checked document. -/
  | checked (s : Shape)
  /-- A registry. -/
  | registry
  /-- A configuration. -/
  | config
deriving DecidableEq

/-- The things of a role. -/
def Role.Content : Role → Type
  | document s => Document s
  | checked s => CheckedDocument s
  | registry => Registry
  | config => Config

/-- All that a program works on. -/
structure World where
  /-- What the names stand for. -/
  named : (k : Role) → String → Option k.Content
  /-- The files. -/
  files : Files.Tree
  /-- The threshold of the log. -/
  threshold : Severity

/-- Why a call fails. -/
inductive Failure where
  /-- The name stands for nothing. -/
  | missing (name : String)
  /-- A document was refused or refused something. -/
  | document (e : DocumentError)
  /-- A column was refused. -/
  | column (e : ColumnError)
  /-- A text or a value is not what it should be. -/
  | json (e : Json.Error)
  /-- Bytes are not UTF-8. -/
  | utf8 (f : Utf8.Fault)
  /-- A schema was refused or could not be had. -/
  | schema (e : SchemaError)
  /-- A configuration was refused or could not be had. -/
  | config (e : ConfigError)

/-- What a call answers. -/
inductive Finding where
  /-- What a document can answer. -/
  | answer (a : Answer)
  /-- Integers. -/
  | integers (is : List Int)
  /-- Texts. -/
  | texts (ss : List String)
  /-- What a column gets. -/
  | column (c : ColumnOutput)
  /-- The sides of a document that are there. -/
  | sides (c : CacheState)
  /-- The schema of a name, if it has one. -/
  | schema? (s? : Option Schema)
  /-- A path. -/
  | path (p : Files.Path)
  /-- A configuration. -/
  | config (c : Config)
  /-- A severity. -/
  | severity (s : Severity)

namespace World

variable {ε α : Type} {k : Role}

/-- The world without names and files. -/
def start : World := ⟨fun _ _ ↦ none, .empty, Log.defaultThreshold⟩

/-- The same world with another threshold. -/
def withThreshold (w : World) (threshold : Severity) : World := { w with threshold := threshold }

/-- The same world in which a name stands for something else. -/
def put (w : World) (name : String) (a : k.Content) : World :=
  { w with named := fun k' n ↦ if h : k = k' ∧ n = name then some (h.1 ▸ a) else w.named k' n }

/-- The same world in which a name stands for nothing. -/
def drop (w : World) (k : Role) (name : String) : World :=
  { w with named := fun k' n ↦ if k' = k ∧ n = name then none else w.named k' n }

/-! ## Ways to work on it -/

/-- Does something that needs nothing of the world. -/
def apart (cause : ε → Failure) (x : Action Unit ε α) : Action World Failure α := fun w ↦
  let o := x.run ()
  ⟨o.answer.mapError cause, w, o.records⟩

/-- Works on what a name stands for. -/
def on (k : Role) (name : String) (cause : ε → Failure) (x : Action k.Content ε α) :
    Action World Failure α := fun w ↦
  match w.named k name with
  | none => ⟨.error (.missing name), w, []⟩
  | some a =>
    let o := x.run a
    ⟨o.answer.mapError cause, w.put name o.state, o.records⟩

/-- Works on the files. -/
def onFiles (cause : ε → Failure) (x : Action Files.Tree ε α) : Action World Failure α := fun w ↦
  let o := x.run w.files
  ⟨o.answer.mapError cause, { w with files := o.state }, o.records⟩

/-- Looks at the files first. -/
def withFiles (x : Files.Tree → Action World ε α) : Action World ε α := fun w ↦ (x w.files).run w

/-- Gives what is made a name. -/
def make (k : Role) (name : String) (x : Action World Failure k.Content) :
    Action World Failure Finding := do
  let a ← x
  fun w ↦ ⟨.ok (.answer .done), w.put name a, []⟩

/-- Takes a name away. -/
def forget (k : Role) (name : String) : Action World Failure Finding := fun w ↦
  ⟨.ok (.answer .done), w.drop k name, []⟩

/-- Puts another threshold in force. -/
def setThreshold (threshold : Severity) : Action World ε Finding := fun w ↦
  ⟨.ok (.answer .done), w.withThreshold threshold, []⟩

/-- Answers something about the threshold that is in force. -/
def askThreshold (f : Severity → Finding) : Action World ε Finding := fun w ↦
  ⟨.ok (f w.threshold), w, []⟩

end World

/-! ## Requests -/

/-- Answers something about a state. -/
def Action.look {σ ε α : Type} (f : σ → Except ε α) : Action σ ε α := do
  Action.ofExcept (f (← Action.state))

namespace Document

variable {s : Shape}

/-- Where a document comes from. -/
inductive Origin (s : Shape) where
  /-- From nothing. -/
  | empty
  /-- From raw bytes. -/
  | raw (bytes : Bytes)
  /-- From a payload. -/
  | payload (p : s.Payload)
  /-- From a JSON text. -/
  | text (input : Bytes)
  /-- From the beginning of a text that goes on. -/
  | part (limit depth : Nat) (input : Bytes)
  /-- From a value. -/
  | value (v : Value)
  /-- From a column. -/
  | column (column : Column)

/-- Makes a document. -/
def Origin.action : Origin s → Action World Failure (Document s)
  | empty => pure Document.empty
  | raw bytes => World.apart .document (Document.ofRaw s bytes)
  | payload p => pure (Document.ofPayload p)
  | text input => World.apart .json (.ofExcept (Document.ofJson s input))
  | part limit depth input => World.apart (fun f ↦ .json (.ofFault input f))
      (.ofExcept ((Document.read s limit depth input).map Prod.fst))
  | value v => World.apart .json (.ofExcept (Document.ofValue s v))
  | column c => World.apart .column (Document.ofColumn s c)

/-- What a look finds. -/
def Look.finding (d : Document s) : Look → Except Failure Finding
  | splice => (d.splice.mapError .json).map fun bs ↦ .answer (.bytes bs)
  | splicePretty level => ((d.splicePretty level).mapError .json).map fun bs ↦ .answer (.bytes bs)
  | toValue => (d.toValue.mapError .json).map fun v ↦ .answer (.payload v)
  | toColumn => (d.toColumn.mapError .utf8).map .column
  | asTypeUnchecked _ => .ok (.answer .done)

end Document

/-- What is asked of a registry. -/
inductive Registry.Request where
  /-- To set another greatest depth. -/
  | withMaxDepth (maxDepth : Nat)
  /-- To register what the files of the directory define. -/
  | loadAll
  /-- To give a schema a name. -/
  | register (name : String) (schema : Schema)
  /-- The schema of a name. -/
  | find? (name : String)
  /-- Whether there is a schema of a name. -/
  | contains (name : String)
  /-- The names. -/
  | names
  /-- The number of schemas. -/
  | size
  /-- Whether there are no schemas. -/
  | isEmpty
  /-- The directory. -/
  | directory

/-- The action that a request asks for. -/
def Registry.Request.action (t : Files.Tree) :
    Registry.Request → Action Registry SchemaError Finding
  | withMaxDepth maxDepth => do
    Action.become ((← Action.state).withMaxDepth maxDepth)
    return .answer .done
  | loadAll => (Registry.loadAll t).answering fun n ↦ .answer (.length n)
  | register name schema => (Registry.register name schema).answering fun s ↦ .schema? (some s)
  | find? name => Action.look fun r ↦ .ok (.schema? (r.find? name))
  | contains name => Action.look fun r ↦ .ok (.answer (.truth (r.contains name)))
  | names => Action.look fun r ↦ .ok (.texts r.names)
  | size => Action.look fun r ↦ .ok (.answer (.length r.size))
  | isEmpty => Action.look fun r ↦ .ok (.answer (.truth r.isEmpty))
  | directory => Action.look fun r ↦ .ok (.path r.directory)

/-- What is asked of a configuration. -/
inductive Config.Request where
  /-- To be another. -/
  | assign (c : Config)
  /-- Whether there are schemas that meet it. -/
  | validate
  /-- All of it. -/
  | read
  /-- The text. -/
  | text

/-- The action that a request asks for. -/
def Config.Request.action : Config.Request → Action Config ConfigError Finding
  | assign c => do
    Action.become c
    return .answer .done
  | validate => Action.look fun c ↦ c.validate.map fun () ↦ .answer .done
  | read => Action.look fun c ↦ .ok (.config c)
  | text => Action.look fun c ↦ .ok (.answer (.bytes c.toJson))

/-! ## Calls -/

/-- One thing that a program does. -/
inductive World.Call where
  /-- Makes a document. -/
  | document {s : Shape} (origin : Document.Origin s) (name : String)
  /-- Asks something of a document. -/
  | ask {s : Shape} (name : String) (request : Document.Request s)
  /-- Looks at a document. -/
  | look (s : Shape) (name : String) (look : Document.Look)
  /-- Asks which sides of a document are there. -/
  | sides (s : Shape) (name : String)
  /-- Makes an empty document under a schema. -/
  | checked (s : Shape) (schema : Schema) (name : String)
  /-- Makes a copy of a document under a schema, if it has no violation. -/
  | asType (s : Shape) (source : String) (schema : Schema) (name : String)
  /-- Makes a copy of a document under a schema, without a check. -/
  | asTypeUnchecked (s : Shape) (source : String) (schema : Schema) (name : String)
  /-- Makes a copy of a checked document without its schema. -/
  | asDocument (s : Shape) (source name : String)
  /-- Asks something of a checked document. -/
  | askChecked {s : Shape} (name : String) (request : CheckedDocument.Request s)
  /-- Reads a list as integers. -/
  | int64Values (name : String)
  /-- Reads a list as texts. -/
  | stringValues (name : String)
  /-- Looks at a checked document. -/
  | lookChecked (s : Shape) (name : String) (look : Document.Look)
  /-- Asks which sides of a checked document are there. -/
  | sidesChecked (s : Shape) (name : String)
  /-- Asks for the schema of a checked document. -/
  | schema (s : Shape) (name : String)
  /-- Makes an empty registry. -/
  | registry (directory : Files.Path) (name : String)
  /-- Makes the registry of a configuration. -/
  | configured (config name : String)
  /-- Asks something of a registry. -/
  | askRegistry (name : String) (request : Registry.Request)
  /-- Writes the file for a name in the directory of a registry. -/
  | save (source name : String) (schema : Schema)
  /-- Makes the configuration of defaults. -/
  | defaults (name : String)
  /-- Makes the configuration that a text says. -/
  | parseConfig (input : Bytes) (name : String)
  /-- Makes the configuration that a file says. -/
  | loadConfig (path : Files.Path) (name : String)
  /-- Asks something of a configuration. -/
  | askConfig (name : String) (request : Config.Request)
  /-- Makes a copy. -/
  | copy (k : Role) (source name : String)
  /-- Takes a name away. -/
  | forget (k : Role) (name : String)
  /-- Reports something. -/
  | log (r : Record)
  /-- Reports an event. -/
  | logEvent (e : Event) (fields : List (String × String))
  /-- Puts another threshold in force. -/
  | setThreshold (threshold : Severity)
  /-- Puts the threshold of a configuration in force. -/
  | applyConfig (name : String)
  /-- Asks for the threshold. -/
  | threshold
  /-- Asks whether a severity passes the threshold. -/
  | passes (s : Severity)

namespace World

/-- The action that a call is. -/
def Call.action : Call → Action World Failure Finding
  | document (s := s) origin name => make (.document s) name origin.action
  | ask (s := s) name request => (on (.document s) name .document request.action).answering .answer
  | look s name l => on (.document s) name id (Action.look fun d ↦ l.finding d)
  | sides s name => on (.document s) name id (Action.look fun d ↦ .ok (.sides (Document.state d)))
  | checked s ty name => make (.checked s) name (pure (CheckedDocument.empty ty))
  | asType s source ty name =>
    make (.checked s) name (on (.document s) source .document (Document.asType ty))
  | asTypeUnchecked s source ty name => make (.checked s) name
      (on (.document s) source id (Action.look fun d ↦ .ok (Document.asTypeUnchecked ty d)))
  | asDocument s source name => make (.document s) name
      (on (.checked s) source id (Action.look fun c ↦ .ok (CheckedDocument.document c)))
  | askChecked (s := s) name request =>
    (on (.checked s) name .document request.action).answering .answer
  | int64Values name =>
    (on (.checked .list) name .document CheckedDocument.int64Values).answering .integers
  | stringValues name =>
    (on (.checked .list) name .document CheckedDocument.stringValues).answering .texts
  | lookChecked s name l =>
    on (.checked s) name id (Action.look fun c ↦ l.finding (CheckedDocument.document c))
  | sidesChecked s name =>
    on (.checked s) name id (Action.look fun c ↦ .ok (.sides (CheckedDocument.document c).state))
  | schema s name =>
    on (.checked s) name id (Action.look fun c ↦ .ok (.schema? (some (CheckedDocument.schema c))))
  | registry directory name => make .registry name (pure (Registry.ofDirectory directory))
  | configured config name => make .registry name (withFiles fun t ↦
      on .config config .schema (Action.state >>= fun c ↦ Registry.ofConfig t c))
  | askRegistry name request => withFiles fun t ↦ on .registry name .schema (request.action t)
  | save source name ty => do
    let r : Registry ← on .registry source id Action.state
    (onFiles .schema (r.save name ty)).answering .path
  | defaults name => make .config name (pure ({} : Config))
  | parseConfig input name => make .config name (apart .config (.ofExcept (Config.ofJson input)))
  | loadConfig path name =>
    make .config name (withFiles fun t ↦ apart .config (Config.load t path))
  | askConfig name request => on .config name .config request.action
  | copy k source name => make k name (on k source id Action.state)
  | forget k name => World.forget k name
  | log r => (Action.report r).answering fun () ↦ .answer .done
  | logEvent e fields => (Action.reportEvent e fields).answering fun () ↦ .answer .done
  | setThreshold t => World.setThreshold t
  | applyConfig name => do
    let c : Config ← on .config name id Action.state
    World.setThreshold c.logLevel
  | threshold => askThreshold .severity
  | passes s => askThreshold fun t ↦ .answer (.truth (s.passes t))

/-! ## Runs -/

/-- What a run leaves behind. -/
structure Run where
  /-- The answers, and why there is none where a call failed. -/
  replies : List (Except Failure Finding)
  /-- The world afterwards. -/
  world : World
  /-- What was written. -/
  output : Log.Output

/-- Carries out calls one after the other. -/
def run : List Call → World → Run
  | [], w => ⟨[], w, {}⟩
  | c :: calls, w =>
    let o := c.action.run w
    let rest := run calls o.state
    ⟨o.answer :: rest.replies, rest.world, Log.write w.threshold o.records ++ rest.output⟩

end World

end SchemaDoc
