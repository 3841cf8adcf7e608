import SchemaDoc.Store.Source

/-!
# What each step does

One equation for each thing that can be done with a document: what it answers and what document it
leaves. Everything is said by what the document reads as, which its payload or else its bytes
decide, and by what reading and encoding leave of it.
-/

namespace SchemaDoc

namespace Action

variable {σ ε α β : Type}

/-- The answer of an action and the state behind it. -/
def result (x : Action σ ε α) (t : σ) : Except ε α × σ := ((x.run t).answer, (x.run t).state)

private theorem result_bind_ok {x : Action σ ε α} {f : α → Action σ ε β} {t t' : σ} {a : α}
    (h : x.result t = (.ok a, t')) : (x >>= f).result t = (f a).result t' := by
  obtain ⟨ha, rfl⟩ := Prod.mk.inj h
  rw [result, run_bind_ok (show x.run t = ⟨.ok a, (x.run t).state, (x.run t).records⟩ by
    rw [← ha])]
  rfl

private theorem result_bind_error {x : Action σ ε α} {f : α → Action σ ε β} {t t' : σ} {e : ε}
    (h : x.result t = (.error e, t')) : (x >>= f).result t = (.error e, t') := by
  obtain ⟨he, rfl⟩ := Prod.mk.inj h
  rw [result, run_bind_error (show x.run t = ⟨.error e, (x.run t).state, (x.run t).records⟩ by
    rw [← he])]

private theorem result_bind (x : Action σ ε α) (f : α → Action σ ε β) (t : σ) : (x >>= f).result t =
    match x.result t with
    | (.ok a, t') => (f a).result t'
    | (.error e, t') => (.error e, t') := by
  cases h : (x.result t).1 with
  | ok a =>
    have hx : x.result t = (.ok a, (x.result t).2) := Prod.ext h rfl
    rw [result_bind_ok hx, hx]
  | error e =>
    have hx : x.result t = (.error e, (x.result t).2) := Prod.ext h rfl
    rw [result_bind_error hx, hx]

private theorem result_ofExcept (a : Except ε α) (t : σ) :
    (ofExcept a : Action σ ε α).result t = (a, t) := by
  cases a <;> rfl

private theorem result_map (x : Action σ ε α) (f : α → β) (t : σ) :
    (x >>= fun a ↦ pure (f a)).result t = ((x.result t).1.map f, (x.result t).2) := by
  rw [result_bind]
  rcases x.result t with ⟨_ | _, t'⟩ <;> rfl

end Action

namespace Document

variable {s : Shape}

/-! ## Views -/

/-- What a document reads as. -/
def reading : Document s → Except DocumentError s.Payload
  | raw bytes => (Payload.decode s bytes).mapError (.undecodable s)
  | decoded p | both _ p => .ok p

/-- A document of raw bytes reads as what these say. -/
theorem reading_raw_ok {bytes : Bytes} {p : s.Payload} (h : Payload.decode s bytes = .ok p) :
    (raw bytes : Document s).reading = .ok p := by
  rw [reading, h]
  rfl

/-- A document of raw bytes that say nothing fails to be read. -/
theorem reading_raw_error {bytes : Bytes} {e : Json.Error}
    (h : Payload.decode s bytes = .error e) :
    (raw bytes : Document s).reading = .error (.undecodable s e) := by
  rw [reading, h]
  rfl

/-- Raw bytes read as what they say. -/
theorem reading_raw_eq_ok_iff {bytes : Bytes} {p : s.Payload} :
    (raw bytes : Document s).reading = .ok p ↔ Payload.decode s bytes = .ok p := by
  cases h : Payload.decode s bytes with
  | ok q => simp [reading_raw_ok h]
  | error e => simp [reading_raw_error h]

/-- What reading leaves: raw bytes with the payload that they say. -/
def afterReading : Document s → Document s
  | raw bytes =>
    match Payload.decode s bytes with
    | .ok p => both bytes p
    | .error _ => raw bytes
  | decoded p => decoded p
  | both bytes p => both bytes p

/-- What encoding leaves: the bytes, and the payload only if these were there before. -/
def afterEncoding : Document s → Document s
  | raw bytes => raw bytes
  | decoded p => raw (Payload.encode p)
  | both bytes p => both bytes p

/-- Reading once more reads the same. -/
theorem reading_afterReading (d : Document s) : d.afterReading.reading = d.reading := by
  cases d with
  | raw bytes =>
    cases h : Payload.decode s bytes with
    | ok p => rw [afterReading, h, reading_raw_ok h]; rfl
    | error e => rw [afterReading, h]
  | decoded p | both bytes p => rfl

/-- Reading leaves the bytes as they are. -/
theorem bytes_afterReading (d : Document s) : d.afterReading.bytes = d.bytes := by
  cases d with
  | raw bs => cases h : Payload.decode s bs <;> simp [afterReading, bytes, h]
  | decoded p | both bytes p => rfl

/-- Raw bytes that say a payload are kept beside it. -/
theorem afterReading_raw_ok {bytes : Bytes} {p : s.Payload} (h : Payload.decode s bytes = .ok p) :
    (raw bytes : Document s).afterReading = both bytes p := by
  simp [afterReading, h]

/-- Nothing changes if there is nothing to read. -/
theorem afterReading_of_error {d : Document s} {e : DocumentError} (h : d.reading = .error e) :
    d.afterReading = d := by
  cases d with
  | raw bytes =>
    cases hd : Payload.decode s bytes with
    | ok p =>
      rw [reading_raw_ok hd] at h
      cases h
    | error f => simp [afterReading, hd]
  | decoded p | both bytes p => rfl

/-- Reading a document once more changes nothing. -/
theorem afterReading_afterReading (d : Document s) :
    d.afterReading.afterReading = d.afterReading := by
  cases hr : d.reading with
  | error e => rw [afterReading_of_error hr, afterReading_of_error hr]
  | ok p =>
    cases d with
    | decoded q | both bytes q => rfl
    | raw bytes =>
      cases hd : Payload.decode s bytes with
      | error e => simp [reading_raw_error hd] at hr
      | ok q => rw [afterReading_raw_ok hd, afterReading]

/-! ## Documents -/

private theorem result_parse {σ : Type} (bytes : Bytes) (t : σ) :
    (parse s bytes : DocumentAction σ s.Payload).result t =
      ((Payload.decode s bytes).mapError (.undecodable s), t) := by
  cases h : Payload.decode s bytes with
  | ok p => rw [Action.result, run_parse_ok h]; rfl
  | error e => rw [Action.result, run_parse_error h]; rfl

private theorem result_parse_bind {σ α : Type} (bytes : Bytes) (f : s.Payload → DocumentAction σ α)
    (t : σ) : (parse s bytes >>= f).result t =
      match Payload.decode s bytes with
      | .ok p => (f p).result t
      | .error e => (.error (.undecodable s e), t) := by
  rw [Action.result_bind, result_parse]
  cases Payload.decode s bytes <;> rfl

private theorem result_require_bind {σ α : Type} (verdict : Verdict) (f : Unit → DocumentAction σ α)
    (t : σ) : (require verdict >>= f).result t =
      match verdict with
      | .ok () => (f ()).result t
      | .error v => (.error (.violation v), t) := by
  cases verdict with
  | ok u => exact Action.result_bind_ok rfl
  | error v => exact Action.result_bind_error rfl

/-- Decoding answers what the document reads as. -/
theorem result_decode (d : Document s) : decode.result d = (d.reading, d.afterReading) := by
  cases d with
  | decoded p | both bytes p => rfl
  | raw bytes =>
    cases h : Payload.decode s bytes with
    | ok p =>
      rw [Action.result, run_decode_raw_ok h, reading_raw_ok h, afterReading, h]
    | error e =>
      rw [Action.result, run_decode_raw_error h, reading_raw_error h, afterReading, h]

/-- What decoding answers is what the document reads as. -/
theorem answer_decode (d : Document s) : (decode.run d).answer = d.reading :=
  congrArg Prod.fst (result_decode d)

private theorem result_decode_bind {α : Type} (f : s.Payload → DocumentAction (Document s) α)
    (d : Document s) : (decode >>= f).result d =
      match d.reading with
      | .ok p => (f p).result d.afterReading
      | .error e => (.error e, d) := by
  rw [Action.result_bind, result_decode]
  cases h : d.reading with
  | ok p => rfl
  | error e => rw [afterReading_of_error h]

/-- Encoding answers the bytes. -/
theorem result_encode (d : Document s) : encode.result d = (.ok d.bytes, d.afterEncoding) := by
  cases d <;> rfl

/-- A store gets the bytes. -/
theorem result_bind (d : Document s) : bind.result d = (.ok ⟨d.bytes⟩, d.afterEncoding) := by
  rw [bind, Action.result_map, result_encode]
  rfl

/-- The length is that of what the document reads as. -/
theorem result_length (d : Document s) :
    length.result d = (d.reading.map Payload.length, d.afterReading) := by
  rw [length, Action.result_map, result_decode]

/-- A document is empty if what it reads as has no items or members. -/
theorem result_isEmpty (d : Document s) : isEmpty.result d =
    (d.reading.map fun p ↦ decide (Payload.length p = 0), d.afterReading) := by
  rw [isEmpty, Action.result_map, result_length]
  cases d.reading <;> rfl

/-- The value of a key is that in what the document reads as. -/
theorem result_get (key : String) (d : Document .table) :
    (get key).result d = (d.reading.map (Dictionary.find? key), d.afterReading) := by
  rw [get, Action.result_map, result_decode]

/-- A document of what a text says, or the document that was there. -/
theorem result_unmarshal (text : Bytes) (d : Document s) : (unmarshal text).result d =
    match Payload.decode s text with
    | .ok p => (.ok (), decoded p)
    | .error e => (.error (.undecodable s e), d) := by
  rw [unmarshal, result_parse_bind]
  cases Payload.decode s text <;> rfl

/-- Bytes are taken by their first. -/
theorem result_scanBytes (bytes : Bytes) (d : Document s) : (scanBytes bytes).result d =
    if bytes.head? = some s.opening then (.ok (), raw bytes)
    else (.error (.wrongOpening s bytes.head?), d) := by
  by_cases h : bytes.head? = some s.opening
  · have passed : (sniff s bytes : DocumentAction (Document s) Unit).result d = (.ok (), d) := by
      rw [sniff, if_pos h]
      rfl
    rw [if_pos h, scanBytes, Action.result_bind_ok passed]
    rfl
  · have stopped : (sniff s bytes : DocumentAction (Document s) Unit).result d =
        (.error (.wrongOpening s bytes.head?), d) := by
      rw [sniff, if_neg h]
      rfl
    rw [if_neg h, scanBytes, Action.result_bind_error stopped]

/-- The document of raw bytes is one that took them. -/
theorem answer_ofRaw {σ : Type} (bytes : Bytes) (t : σ) : ((ofRaw s bytes).run t).answer =
    if bytes.head? = some s.opening then .ok (raw bytes)
    else .error (.wrongOpening s bytes.head?) := by
  have scanned := result_scanBytes bytes (empty : Document s)
  have he : ((ofRaw s bytes).run t).answer =
      ((scanBytes bytes).result (empty : Document s)).1.map fun () ↦
        ((scanBytes bytes).result (empty : Document s)).2 := rfl
  rw [he, scanned]
  split <;> rfl

/-- Text and bytes are taken by their first byte, and nothing else is taken. -/
theorem result_scan (source : Source) (d : Document s) : (scan source).result d =
    match source.bytes? with
    | some bytes => (scanBytes bytes).result d
    | none => (.error (.unscannable source.name), d) := by
  rw [scan]
  cases source.bytes? <;> rfl

private theorem result_edit (f : s.Payload → s.Payload) (d : Document s) : (edit f).result d =
    match d.reading with
    | .ok p => (.ok (), decoded (f p))
    | .error e => (.error e, d) := by
  cases d with
  | decoded p | both bytes p => rfl
  | raw bytes =>
    have he : (edit f).result (raw bytes) = (parse s bytes >>= fun p ↦ do
        Action.become (decoded (f p))
        Action.reportEvent .documentDecoded [("shape", s.name)] :
      DocumentAction (Document s) Unit).result (raw bytes) := rfl
    rw [he, result_parse_bind, reading]
    cases Payload.decode s bytes <;> rfl

/-- A copy under a schema is one of what was read, if that has no violation. -/
theorem result_asType (schema : Schema) (d : Document s) : (asType schema).result d =
    match d.reading with
    | .ok p => ((Payload.check schema p).mapError DocumentError.violation |>.map fun () ↦
        ⟨d.afterReading, schema⟩, d.afterReading)
    | .error e => (.error e, d) := by
  rw [asType, result_decode_bind]
  cases d.reading with
  | error e => rfl
  | ok p =>
    dsimp only
    rw [result_require_bind]
    cases Payload.check schema p <;> rfl

end Document

namespace CheckedDocument

variable {s : Shape}

/-- What is done with the document alone leaves the schema. -/
theorem result_onDocument {α : Type} (x : DocumentAction (Document s) α)
    (c : CheckedDocument s) : (onDocument x).result c =
      ((x.result c.document).1, ⟨(x.result c.document).2, c.schema⟩) := rfl

/-- Decoding answers what the document reads as. -/
theorem result_decode (c : CheckedDocument s) :
    decode.result c = (c.document.reading, ⟨c.document.afterReading, c.schema⟩) := by
  rw [decode, result_onDocument, Document.result_decode]

/-- What decoding answers is what the document reads as. -/
theorem answer_decode (c : CheckedDocument s) : (decode.run c).answer = c.document.reading :=
  congrArg Prod.fst (result_decode c)

private theorem result_decode_bind {α : Type} (f : s.Payload → DocumentAction (CheckedDocument s) α)
    (c : CheckedDocument s) : (decode >>= f).result c =
      match c.document.reading with
      | .ok p => (f p).result ⟨c.document.afterReading, c.schema⟩
      | .error e => (.error e, c) := by
  rw [Action.result_bind, result_decode]
  cases h : c.document.reading with
  | ok p => rfl
  | error e => rw [Document.afterReading_of_error h]

private theorem result_state_bind {α : Type}
    (f : CheckedDocument s → DocumentAction (CheckedDocument s) α)
    (c : CheckedDocument s) : (Action.state >>= f).result c = (f c).result c :=
  Action.result_bind_ok rfl

/-- The items are what the document reads as. -/
theorem result_values (c : CheckedDocument .list) :
    values.result c = (c.document.reading, ⟨c.document.afterReading, c.schema⟩) :=
  result_decode c

/-- The integers are what the items are converted to. -/
theorem result_int64Values (c : CheckedDocument .list) : int64Values.result c =
    match c.document.reading with
    | .ok (items : List Value) =>
      (convertItems int64? "number" 0 items, ⟨c.document.afterReading, c.schema⟩)
    | .error e => (.error e, c) := by
  rw [int64Values, result_decode_bind]
  cases c.document.reading with
  | error e => rfl
  | ok items => exact Action.result_ofExcept _ _

/-- The texts are what the items are converted to. -/
theorem result_stringValues (c : CheckedDocument .list) : stringValues.result c =
    match c.document.reading with
    | .ok (items : List Value) =>
      (convertItems string? "string" 0 items, ⟨c.document.afterReading, c.schema⟩)
    | .error e => (.error e, c) := by
  rw [stringValues, result_decode_bind]
  cases c.document.reading with
  | error e => rfl
  | ok items => exact Action.result_ofExcept _ _

/-- A text is taken if it says a payload without violation. -/
theorem result_unmarshal (text : Bytes) (c : CheckedDocument s) : (unmarshal text).result c =
    match Payload.decode s text with
    | .ok p =>
      match Payload.check c.schema p with
      | .ok () => (.ok (), ⟨.decoded p, c.schema⟩)
      | .error v => (.error (.violation v), c)
    | .error e => (.error (.undecodable s e), c) := by
  rw [unmarshal, Document.result_parse_bind]
  cases Payload.decode s text with
  | error e => rfl
  | ok p =>
    dsimp only
    rw [result_state_bind, Document.result_require_bind]
    cases Payload.check c.schema p <;> rfl

/-- An item is added to what was read, if it has no violation there. -/
theorem result_append (v : Value) (c : CheckedDocument .list) : (append v).result c =
    match c.document.reading with
    | .ok (items : List Value) =>
      match checkAppend c.schema items.length v.normalize with
      | .ok () => (.ok (), ⟨.decoded (items ++ [v.normalize] : List Value), c.schema⟩)
      | .error violation => (.error (.violation violation), ⟨c.document.afterReading, c.schema⟩)
    | .error e => (.error e, c) := by
  rw [append, result_decode_bind]
  cases h : c.document.reading with
  | error e => rfl
  | ok items =>
    dsimp only
    rw [result_state_bind, Document.result_require_bind]
    dsimp only
    cases checkAppend c.schema (List.length items) v.normalize with
    | error violation => rfl
    | ok u =>
      dsimp only
      rw [result_onDocument, Document.result_edit, Document.reading_afterReading, h]

/-- A field is set in what was read, if that makes no violation. -/
theorem result_set (key : String) (v : Value) (c : CheckedDocument .table) :
    (set key v).result c =
      match checkSet c.schema key v.normalize with
      | .ok () =>
        match c.document.reading with
        | .ok (members : Dictionary Value) =>
          (.ok (), ⟨.decoded (Dictionary.insert key v.normalize members), c.schema⟩)
        | .error e => (.error e, c)
      | .error violation => (.error (.violation violation), c) := by
  rw [set, result_state_bind, Document.result_require_bind]
  cases checkSet c.schema key v.normalize with
  | error violation => rfl
  | ok u =>
    dsimp only
    rw [result_onDocument, Document.result_edit]
    cases c.document.reading <;> rfl

/-- A key is removed from what was read, if it is there. -/
theorem result_remove (key : String) (c : CheckedDocument .table) : (remove key).result c =
    match c.document.reading with
    | .ok (members : Dictionary Value) =>
      match Dictionary.find? key members with
      | some v => (.ok (some v), ⟨.decoded (Dictionary.erase key members), c.schema⟩)
      | none => (.ok none, ⟨c.document.afterReading, c.schema⟩)
    | .error e => (.error e, c) := by
  rw [remove, result_decode_bind]
  cases h : c.document.reading with
  | error e => rfl
  | ok members =>
    dsimp only
    cases hf : Dictionary.find? key members with
    | none => rfl
    | some v =>
      have edited : (onDocument (Document.edit fun (members : Dictionary Value) ↦
          Dictionary.erase key members)).result (⟨c.document.afterReading, c.schema⟩ :
            CheckedDocument .table) =
          (.ok (), ⟨.decoded (Dictionary.erase key members), c.schema⟩) := by
        rw [result_onDocument, Document.result_edit, Document.reading_afterReading, h]
      exact Action.result_bind_ok edited

end CheckedDocument

end SchemaDoc
