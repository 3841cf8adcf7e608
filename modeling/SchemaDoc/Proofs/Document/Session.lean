import SchemaDoc.Proofs.Document.Payload
import SchemaDoc.Proofs.Document.Steps

/-!
# Sessions

A session holds documents and checked documents by name and carries out one command after the
other. A command that fails changes nothing but what the failing step itself left behind, and the
session goes on. How documents are kept is left to a realization, so that two ways of keeping them
can be compared on the same commands.
-/

namespace SchemaDoc

/-- What is asked of a document. -/
inductive Document.Request : Shape → Type where
  /-- To take what a store hands over. -/
  | scan {s : Shape} (source : Source) : Request s
  /-- The payload. -/
  | decode {s : Shape} : Request s
  /-- The bytes. -/
  | encode {s : Shape} : Request s
  /-- The JSON text. -/
  | marshal {s : Shape} : Request s
  /-- What a store gets. -/
  | bind {s : Shape} : Request s
  /-- The number of items or members. -/
  | length {s : Shape} : Request s
  /-- Whether there are no items or members. -/
  | isEmpty {s : Shape} : Request s
  /-- To take the payload that a text says. -/
  | unmarshal {s : Shape} (text : Bytes) : Request s
  /-- The value of a key. -/
  | get (key : String) : Request .table

/-- What is asked of a checked document. -/
inductive CheckedDocument.Request : Shape → Type where
  /-- The payload. -/
  | decode {s : Shape} : Request s
  /-- The bytes. -/
  | encode {s : Shape} : Request s
  /-- The JSON text. -/
  | marshal {s : Shape} : Request s
  /-- What a store gets. -/
  | bind {s : Shape} : Request s
  /-- The number of items or members. -/
  | length {s : Shape} : Request s
  /-- Whether there are no items or members. -/
  | isEmpty {s : Shape} : Request s
  /-- To take the payload that a text says. -/
  | unmarshal {s : Shape} (text : Bytes) : Request s
  /-- To add an item. -/
  | append (v : Value) : Request .list
  /-- The items. -/
  | values : Request .list
  /-- To set a field. -/
  | set (key : String) (v : Value) : Request .table
  /-- The value of a key. -/
  | get (key : String) : Request .table
  /-- To remove a key. -/
  | remove (key : String) : Request .table

/-- What is answered. -/
inductive Answer where
  /-- That something was done. -/
  | done
  /-- That there is no such document. -/
  | nothing
  /-- A payload. -/
  | payload (v : Value)
  /-- The value of a key, if it has one. -/
  | value? (v? : Option Value)
  /-- Bytes. -/
  | bytes (bs : Bytes)
  /-- What a store gets. -/
  | bound (b : Bound)
  /-- A number of items or members. -/
  | length (n : Nat)
  /-- A truth value. -/
  | truth (b : Bool)
deriving DecidableEq, Repr

/-- An answer, or the error that takes its place. -/
abbrev Reply := Except DocumentError Answer

/-- A step of a session. -/
inductive Command where
  /-- Makes an empty document. -/
  | new (s : Shape) (name : String)
  /-- Makes the document of raw bytes. -/
  | ofRaw (s : Shape) (bytes : Bytes) (name : String)
  /-- Makes the document of a payload. -/
  | ofPayload {s : Shape} (p : s.Payload) (name : String)
  /-- Asks something of a document. -/
  | ask {s : Shape} (name : String) (request : Document.Request s)
  /-- Copies a document. -/
  | copy (s : Shape) (source name : String)
  /-- Makes an empty document under a schema. -/
  | newChecked (s : Shape) (schema : Schema) (name : String)
  /-- Makes a copy of a document under a schema, if it has no violation. -/
  | asType (s : Shape) (source : String) (schema : Schema) (name : String)
  /-- Asks something of a checked document. -/
  | askChecked {s : Shape} (name : String) (request : CheckedDocument.Request s)
  /-- Copies a checked document. -/
  | copyChecked (s : Shape) (source name : String)

/-- A way of keeping documents. -/
structure Realization (D C : Shape → Type) where
  /-- The empty document. -/
  empty (s : Shape) : D s
  /-- The document of raw bytes. -/
  ofRaw (s : Shape) (bytes : Bytes) : Except DocumentError (D s)
  /-- The document of a payload. -/
  ofPayload {s : Shape} (p : s.Payload) : D s
  /-- The reply of a document, and the document behind it. -/
  ask {s : Shape} (request : Document.Request s) (d : D s) : Reply × D s
  /-- The empty document under a schema. -/
  emptyChecked (s : Shape) (schema : Schema) : C s
  /-- A copy under a schema, and the document behind it. -/
  asType {s : Shape} (schema : Schema) (d : D s) : Except DocumentError (C s) × D s
  /-- The reply of a checked document, and the document behind it. -/
  askChecked {s : Shape} (request : CheckedDocument.Request s) (c : C s) : Reply × C s

/-- The documents by shape and name. -/
structure Session (D C : Shape → Type) where
  /-- Those without a schema. -/
  documents : (s : Shape) → String → Option (D s)
  /-- Those with a schema. -/
  checked : (s : Shape) → String → Option (C s)

/-! ## Named things -/

namespace Slots

variable {α β : Shape → Type} {s : Shape}

/-- Puts something under a name. -/
def put (slots : (s : Shape) → String → Option (α s)) (name : String) (a : α s) :
    (s : Shape) → String → Option (α s) := fun t n ↦
  if h : s = t ∧ n = name then some (h.1 ▸ a) else slots t n

private theorem forall_put {P : {s : Shape} → α s → Prop}
    {slots : (s : Shape) → String → Option (α s)}
    (h : ∀ t n b, slots t n = some b → P b) (name : String) {a : α s} (ha : P a) :
    ∀ t n b, put slots name a t n = some b → P b := by
  intro t n b hb
  unfold put at hb
  split at hb
  · next he =>
    obtain ⟨rfl, rfl⟩ := he
    obtain rfl := Option.some.inj hb
    exact ha
  · exact h t n b hb

/-- Options that are related are both empty or hold related things. -/
theorem rel_cases {γ δ : Type} {R : γ → δ → Prop} {a? : Option γ} {b? : Option δ}
    (h : Option.Rel R a? b?) :
    (a? = none ∧ b? = none) ∨ ∃ a b, a? = some a ∧ b? = some b ∧ R a b := by
  cases h with
  | none => exact .inl ⟨rfl, rfl⟩
  | some h => exact .inr ⟨_, _, rfl, rfl, h⟩

/-- Related things that are put under the same name leave everything related. -/
theorem rel_put {R : {s : Shape} → α s → β s → Prop} {as : (s : Shape) → String → Option (α s)}
    {bs : (s : Shape) → String → Option (β s)} (h : ∀ t n, Option.Rel R (as t n) (bs t n))
    (name : String) {a : α s} {b : β s} (hab : R a b) :
    ∀ t n, Option.Rel R (put as name a t n) (put bs name b t n) := by
  intro t n
  unfold put
  split
  · next he =>
    obtain ⟨rfl, rfl⟩ := he
    exact .some hab
  · exact h t n

end Slots

/-! ## Steps -/

namespace Session

variable {D C : Shape → Type} {s : Shape}

/-- The session without documents. -/
def start : Session D C := ⟨fun _ _ ↦ none, fun _ _ ↦ none⟩

/-- Puts a document under a name. -/
def putDocument (σ : Session D C) (name : String) (d : D s) : Session D C :=
  { σ with documents := Slots.put σ.documents name d }

/-- Puts a checked document under a name. -/
def putChecked (σ : Session D C) (name : String) (c : C s) : Session D C :=
  { σ with checked := Slots.put σ.checked name c }

end Session

namespace Realization

variable {D C : Shape → Type}

/-- Carries out a command. -/
def step (R : Realization D C) : Command → Session D C → Reply × Session D C
  | .new s name, σ => (.ok .done, σ.putDocument name (R.empty s))
  | .ofRaw s bytes name, σ =>
    match R.ofRaw s bytes with
    | .ok d => (.ok .done, σ.putDocument name d)
    | .error e => (.error e, σ)
  | .ofPayload p name, σ => (.ok .done, σ.putDocument name (R.ofPayload p))
  | .ask (s := s) name request, σ =>
    match σ.documents s name with
    | none => (.ok .nothing, σ)
    | some d => ((R.ask request d).1, σ.putDocument name (R.ask request d).2)
  | .copy s source name, σ =>
    match σ.documents s source with
    | none => (.ok .nothing, σ)
    | some d => (.ok .done, σ.putDocument name d)
  | .newChecked s schema name, σ => (.ok .done, σ.putChecked name (R.emptyChecked s schema))
  | .asType s source schema name, σ =>
    match σ.documents s source with
    | none => (.ok .nothing, σ)
    | some d =>
      match R.asType schema d with
      | (.ok c, d) => (.ok .done, (σ.putDocument source d).putChecked name c)
      | (.error e, d) => (.error e, σ.putDocument source d)
  | .askChecked (s := s) name request, σ =>
    match σ.checked s name with
    | none => (.ok .nothing, σ)
    | some c => ((R.askChecked request c).1, σ.putChecked name (R.askChecked request c).2)
  | .copyChecked s source name, σ =>
    match σ.checked s source with
    | none => (.ok .nothing, σ)
    | some c => (.ok .done, σ.putChecked name c)

/-- Carries out commands one after the other and collects the replies. -/
def run (R : Realization D C) : List Command → Session D C → List Reply × Session D C
  | [], σ => ([], σ)
  | c :: cs, σ =>
    ((R.step c σ).1 :: (R.run cs (R.step c σ).2).1, (R.run cs (R.step c σ).2).2)

end Realization

/-! ## Invariants -/

/-- The schema that a command hands over is normal, if it hands over one. -/
def Command.Normal : Command → Prop
  | .newChecked _ schema _ | .asType _ _ schema _ => schema.Normal
  | .new _ _ | .ofRaw _ _ _ | .ofPayload _ _ | .ask _ _ | .copy _ _ _ | .askChecked _ _
  | .copyChecked _ _ _ => True

/-- Every value that a request hands over has a property. -/
def CheckedDocument.Request.Hands (V : Value → Prop) {s : Shape} :
    CheckedDocument.Request s → Prop
  | .append v | .set _ v => V v
  | .decode | .encode | .marshal | .bind | .length | .isEmpty | .unmarshal _ | .values | .get _
  | .remove _ => True

/-- Every value that a command hands over has a property, each of a payload too. -/
def Command.Hands (V : Value → Prop) : Command → Prop
  | .ofPayload p _ => Payload.Each V p
  | .askChecked _ request => request.Hands V
  | .new _ _ | .ofRaw _ _ _ | .ask _ _ | .copy _ _ _ | .newChecked _ _ _ | .asType _ _ _ _
  | .copyChecked _ _ _ => True

/-- Something holds of every document and something of every checked document. -/
structure Session.All {D C : Shape → Type} (P : {s : Shape} → D s → Prop)
    (Q : {s : Shape} → C s → Prop) (σ : Session D C) : Prop where
  /-- The documents without a schema. -/
  documents : ∀ s name (d : D s), σ.documents s name = some d → P d
  /-- The documents with a schema. -/
  checked : ∀ s name (c : C s), σ.checked s name = some c → Q c

/-- Whatever is made has a property, and whatever is asked of a document, it keeps it, if the values
that are handed over have a property. -/
structure Realization.Keeps {D C : Shape → Type} (R : Realization D C) (V : Value → Prop)
    (P : {s : Shape} → D s → Prop) (Q : {s : Shape} → C s → Prop) : Prop where
  /-- The empty document. -/
  empty (s : Shape) : P (R.empty s)
  /-- The document of raw bytes. -/
  ofRaw {s : Shape} {bytes : Bytes} {d : D s} (h : R.ofRaw s bytes = .ok d) : P d
  /-- The document of a payload. -/
  ofPayload {s : Shape} {p : s.Payload} (h : Payload.Each V p) : P (R.ofPayload p)
  /-- A document that was asked something. -/
  ask {s : Shape} (request : Document.Request s) {d : D s} (h : P d) : P (R.ask request d).2
  /-- The empty document under a schema. -/
  emptyChecked (s : Shape) {schema : Schema} (h : schema.Normal) : Q (R.emptyChecked s schema)
  /-- A copy under a schema. -/
  asType {s : Shape} {schema : Schema} (hs : schema.Normal) {d d' : D s} {c : C s} (h : P d)
    (hc : R.asType schema d = (.ok c, d')) : Q c
  /-- The document that was copied, or not, under a schema. -/
  source {s : Shape} (schema : Schema) {d : D s} (h : P d) : P (R.asType schema d).2
  /-- A checked document that was asked something. -/
  askChecked {s : Shape} {request : CheckedDocument.Request s} (hr : request.Hands V) {c : C s}
    (h : Q c) : Q (R.askChecked request c).2

namespace Realization.Keeps

variable {D C : Shape → Type} {R : Realization D C} {V : Value → Prop}
  {P : {s : Shape} → D s → Prop} {Q : {s : Shape} → C s → Prop} {σ : Session D C}

/-- A command keeps what holds of all documents. -/
theorem step (keeps : R.Keeps V P Q) {c : Command} (hc : c.Normal) (hv : c.Hands V)
    (h : σ.All P Q) :
    (R.step c σ).2.All P Q := by
  have putDocument {σ : Session D C} (h : σ.All P Q) {s : Shape} (name : String) {d : D s}
      (hd : P d) : (σ.putDocument name d).All P Q :=
    ⟨Slots.forall_put h.documents name hd, h.checked⟩
  have putChecked {σ : Session D C} (h : σ.All P Q) {s : Shape} (name : String) {c : C s}
      (hc : Q c) : (σ.putChecked name c).All P Q :=
    ⟨h.documents, Slots.forall_put h.checked name hc⟩
  cases c with
  | new s name => exact putDocument h name (keeps.empty s)
  | ofRaw s bytes name =>
    rw [Realization.step]
    split
    · next d hd => exact putDocument h name (keeps.ofRaw hd)
    · exact h
  | ofPayload p name => exact putDocument h name (keeps.ofPayload hv)
  | @ask s name request =>
    rw [Realization.step]
    split
    · exact h
    · next d hd => exact putDocument h name (keeps.ask request (h.documents s name d hd))
  | copy s source name =>
    rw [Realization.step]
    split
    · exact h
    · next d hd => exact putDocument h name (h.documents s source d hd)
  | newChecked s schema name => exact putChecked h name (keeps.emptyChecked s hc)
  | asType s source schema name =>
    rw [Realization.step]
    split
    · exact h
    · next d hd =>
      have hp := h.documents s source d hd
      have left := keeps.source schema hp
      split
      · next c d' he =>
        rw [he] at left
        exact putChecked (putDocument h source left) name (keeps.asType hc hp he)
      · next e d' he =>
        rw [he] at left
        exact putDocument h source left
  | @askChecked s name request =>
    rw [Realization.step]
    split
    · exact h
    · next c hc => exact putChecked h name (keeps.askChecked hv (h.checked s name c hc))
  | copyChecked s source name =>
    rw [Realization.step]
    split
    · exact h
    · next c hc => exact putChecked h name (h.checked s source c hc)

/-- Commands keep what holds of all documents, whatever they are and however many. -/
theorem run (keeps : R.Keeps V P Q) {commands : List Command} (hc : ∀ c ∈ commands, c.Normal)
    (hv : ∀ c ∈ commands, c.Hands V) (h : σ.All P Q) : (R.run commands σ).2.All P Q := by
  induction commands generalizing σ with
  | nil => exact h
  | cons c commands ih =>
    exact ih (fun c' h' ↦ hc c' (List.mem_cons_of_mem _ h'))
      (fun c' h' ↦ hv c' (List.mem_cons_of_mem _ h'))
      (keeps.step (hc c List.mem_cons_self) (hv c List.mem_cons_self) h)

/-- Whatever is done from the start, the documents have the properties. -/
theorem run_start (keeps : R.Keeps V P Q) {commands : List Command}
    (hc : ∀ c ∈ commands, c.Normal) (hv : ∀ c ∈ commands, c.Hands V) :
    (R.run commands .start).2.All P Q := by
  have start : Session.start.All (D := D) (C := C) P Q := by
    constructor
    · intro s name d h
      cases h
    · intro s name c h
      cases h
  exact keeps.run hc hv start

end Realization.Keeps

/-! ## Documents that decode and encode when asked -/

/-- The reply of an action, and the state behind it. -/
def Action.reply {σ α : Type} (x : DocumentAction σ α) (f : α → Answer) (t : σ) : Reply × σ :=
  ((x.result t).1.map f, (x.result t).2)

/-- What a document replies to a request. -/
def Document.reply {s : Shape} : Document.Request s → Document s → Reply × Document s
  | .scan source => (Document.scan source).reply fun () ↦ .done
  | .decode => Document.decode.reply fun p ↦ .payload (Payload.toValue p)
  | .encode => Document.encode.reply .bytes
  | .marshal => Document.marshal.reply .bytes
  | .bind => Document.bind.reply .bound
  | .length => Document.length.reply .length
  | .isEmpty => Document.isEmpty.reply .truth
  | .unmarshal text => (Document.unmarshal text).reply fun () ↦ .done
  | .get key => (Document.get key).reply .value?

/-- What a checked document replies to a request. -/
def CheckedDocument.reply {s : Shape} :
    CheckedDocument.Request s → CheckedDocument s → Reply × CheckedDocument s
  | .decode => CheckedDocument.decode.reply fun p ↦ .payload (Payload.toValue p)
  | .encode => CheckedDocument.encode.reply .bytes
  | .marshal => CheckedDocument.marshal.reply .bytes
  | .bind => CheckedDocument.bind.reply .bound
  | .length => CheckedDocument.length.reply .length
  | .isEmpty => CheckedDocument.isEmpty.reply .truth
  | .unmarshal text => (CheckedDocument.unmarshal text).reply fun () ↦ .done
  | .append v => (CheckedDocument.append v).reply fun () ↦ .done
  | .values => CheckedDocument.values.reply fun items ↦ .payload (.list items)
  | .set key v => (CheckedDocument.set key v).reply fun () ↦ .done
  | .get key => (CheckedDocument.get key).reply .value?
  | .remove key => (CheckedDocument.remove key).reply .value?

/-- Documents as they are: decoded and encoded when that is asked for. -/
def Realization.lazy : Realization Document CheckedDocument where
  empty _ := Document.empty
  ofRaw s bytes := ((Document.ofRaw s bytes).run ()).answer
  ofPayload := Document.ofPayload
  ask := Document.reply
  emptyChecked _ := CheckedDocument.empty
  asType schema := (Document.asType schema).result
  askChecked := CheckedDocument.reply

end SchemaDoc
