import SchemaDoc.Proofs.Document.Contents
import SchemaDoc.Proofs.Document.Session

/-!
# Documents that always hold their contents

An eager document parses at once what it is given, always holds its contents, a sequence or a finite
map, and remembers bytes it was given until the contents change. A session cannot tell it from a
document that decodes and encodes when asked. The two are related by what they read as and by their
bytes; that the bytes of a payload say the payload again is what carries the relation over an
encoding.
-/

namespace SchemaDoc

/-! ## Eager documents -/

/-- Contents and, while they say them, the bytes they came in. -/
structure EagerDocument (s : Shape) where
  /-- The contents. -/
  contents : Contents s
  /-- The bytes that were given. -/
  verbatim? : Option Bytes

namespace EagerDocument

variable {s : Shape}

/-- The byte that a text of a shape starts with, a square or a curly bracket. -/
def firstByte : Shape → UInt8
  | .list => 0x5B
  | .table => 0x7B

/-- The bytes that were given, or else the text of the contents. -/
def bytes (e : EagerDocument s) : Bytes := e.verbatim?.getD (Json.print e.contents.toValue)

/-- The document of contents alone. -/
def holding (contents : Contents s) : EagerDocument s := ⟨contents, none⟩

/-- The document of raw bytes, which have to start as the shape does and are parsed at once. -/
def ofRaw (s : Shape) (bytes : Bytes) : Except DocumentError (EagerDocument s) :=
  if bytes.head? = some (firstByte s) then
    match Payload.decode s bytes with
    | .ok p => .ok ⟨.ofPayload p, some bytes⟩
    | .error e => .error (.undecodable s e)
  else .error (.wrongOpening s bytes.head?)

/-- Takes raw bytes in place of the document. -/
def scan (bytes : Bytes) (e : EagerDocument s) : Reply × EagerDocument s :=
  match ofRaw s bytes with
  | .ok e' => (.ok .done, e')
  | .error error => (.error error, e)

/-- What an eager document replies to a request. -/
def reply : {s : Shape} → Document.Request s → EagerDocument s → Reply × EagerDocument s
  | _, .scan (.text t), e => scan (Utf8.encode t) e
  | _, .scan (.bytes bytes), e => scan bytes e
  | _, .scan .null, e => (.error (.unscannable "null"), e)
  | _, .scan (.integer _), e => (.error (.unscannable "integer"), e)
  | _, .scan (.real _), e => (.error (.unscannable "real"), e)
  | _, .decode, e => (.ok (.payload e.contents.toValue), e)
  | _, .encode, e | _, .marshal, e => (.ok (.bytes e.bytes), e)
  | _, .bind, e => (.ok (.bound ⟨e.bytes⟩), e)
  | _, .length, e => (.ok (.length e.contents.length), e)
  | _, .isEmpty, e => (.ok (.truth (e.contents.length = 0)), e)
  | s, .unmarshal text, e =>
    match Payload.decode s text with
    | .ok p => (.ok .done, holding (.ofPayload p))
    | .error error => (.error (.undecodable s error), e)
  | .table, .get key, e => (.ok (.value? (Finmap.lookup key e.contents)), e)

end EagerDocument

/-- An eager document and the schema that its changes are checked against. -/
structure EagerChecked (s : Shape) where
  /-- The document. -/
  document : EagerDocument s
  /-- The schema. -/
  schema : Schema

namespace EagerChecked

variable {s : Shape}

/-- The same schema over changed contents. -/
def replace (e : EagerChecked s) (contents : Contents s) : EagerChecked s :=
  ⟨.holding contents, e.schema⟩

/-- Whether an item may be added behind `length` others: nothing is wrong with it where it would
stand, and there is room for it. -/
def admitItem (schema : Schema) (length : Nat) (v : Value) : Except Violation Unit :=
  match schema with
  | .list element bound =>
    match element.checkAt v s!"$root[{length}]" with
    | .error violation => .error violation
    | .ok () =>
      if 0 < bound.toInt ∧ bound.toInt < length + 1 then
        .error ⟨"$root", s!"at most {bound.toInt.toNat} entries", s!"{length + 1} entries"⟩
      else .ok ()
  | .any => .ok ()
  | .table _ => .error ⟨"$root", "table", "list"⟩
  | .number => .error ⟨"$root", "number", "list"⟩
  | .string _ => .error ⟨"$root", "string", "list"⟩
  | .bool => .error ⟨"$root", "bool", "list"⟩

/-- Whether a field may be set: it is declared, and nothing is wrong with its value. -/
def admitField (schema : Schema) (key : String) (v : Value) : Except Violation Unit :=
  match schema with
  | .table fields =>
    match fields.find? fun field ↦ field.1 = key with
    | none => .error ⟨key, "no undeclared fields", "undeclared field present"⟩
    | some (_, field) => field.checkAt v key
  | .any => .ok ()
  | .list _ _ => .error ⟨"$root", "list", "table"⟩
  | .number => .error ⟨"$root", "number", "table"⟩
  | .string _ => .error ⟨"$root", "string", "table"⟩
  | .bool => .error ⟨"$root", "bool", "table"⟩

/-- Changes the contents, if that is admitted. -/
def change (admitted : Except Violation Unit) (contents : Contents s) (e : EagerChecked s) :
    Reply × EagerChecked s :=
  match admitted with
  | .ok () => (.ok .done, e.replace contents)
  | .error violation => (.error (.violation violation), e)

/-- What an eager checked document replies to a request. -/
def reply : {s : Shape} → CheckedDocument.Request s → EagerChecked s → Reply × EagerChecked s
  | _, .decode, e => (.ok (.payload e.document.contents.toValue), e)
  | _, .encode, e | _, .marshal, e => (.ok (.bytes e.document.bytes), e)
  | _, .bind, e => (.ok (.bound ⟨e.document.bytes⟩), e)
  | _, .length, e => (.ok (.length e.document.contents.length), e)
  | _, .isEmpty, e => (.ok (.truth (e.document.contents.length = 0)), e)
  | s, .unmarshal text, e =>
    match Payload.decode s text with
    | .error error => (.error (.undecodable s error), e)
    | .ok p =>
      let contents := Contents.ofPayload p
      match e.schema.check contents.toValue with
      | .ok () => (.ok .done, e.replace contents)
      | .error v => (.error (.violation v), e)
  | .list, .append v, e =>
    let items : List Value := e.document.contents
    e.change (admitItem e.schema items.length v.normalize) (items ++ [v.normalize])
  | .list, .values, e => (.ok (.payload (.list e.document.contents)), e)
  | .table, .set key v, e =>
    e.change (admitField e.schema key v.normalize)
      (Finmap.insert key v.normalize e.document.contents)
  | .table, .get key, e => (.ok (.value? (Finmap.lookup key e.document.contents)), e)
  | .table, .remove key, e =>
    match Finmap.lookup key e.document.contents with
    | none => (.ok (.value? none), e)
    | some v => (.ok (.value? (some v)), e.replace (Finmap.erase key e.document.contents))

end EagerChecked

/-- Documents that always hold their contents. -/
def Realization.eager : Realization EagerDocument EagerChecked where
  empty s := .holding (Contents.empty s)
  ofRaw := EagerDocument.ofRaw
  ofPayload p := .holding (Contents.ofGiven p)
  ask := EagerDocument.reply
  emptyChecked s schema := ⟨.holding (Contents.empty s), schema⟩
  asType schema e :=
    match schema.check e.contents.toValue with
    | .ok () => (.ok ⟨e, schema⟩, e)
    | .error v => (.error (.violation v), e)
  askChecked := EagerChecked.reply

/-! ## Admissible runs -/

/-- Bytes say a payload if they start as the shape does. -/
def Readable (s : Shape) (bytes : Bytes) : Prop :=
  bytes.head? = some s.opening → ∃ p, Payload.decode s bytes = .ok p

/-- The text of a settled payload without doubles may be given out if it is not nested too deeply
and nothing in it is marked. -/
theorem readable_encode_iff {s : Shape} {p : s.Payload} (hp : Payload.Settled p)
    (hf : Payload.DoubleFree p) :
    Readable s (Payload.encode p) ↔ Payload.Shallow p ∧ Payload.Unmarked p := by
  rw [← Payload.decode_encode_iff hp.normal hf]
  constructor
  · intro h
    obtain ⟨q, hq⟩ := h (Payload.head?_encode p)
    rw [hq, Payload.eq_of_decode_encode hp hf hq]
  · intro h _
    exact ⟨p, h⟩

/-- No payload that bytes say has a double. -/
def Exact (s : Shape) (bytes : Bytes) : Prop :=
  ∀ p, Payload.decode s bytes = .ok p → Payload.DoubleFree p

/-- A request brings no double in, and bytes that start as the shape does say a payload, those that
come in and those that are given out. -/
def Document.Request.Admissible {s : Shape} (e : EagerDocument s) : Document.Request s → Prop
  | .scan source => ∀ bytes, source.bytes? = some bytes → Readable s bytes ∧ Exact s bytes
  | .encode | .marshal | .bind => Readable s e.bytes
  | .unmarshal text => Exact s text
  | .decode | .length | .isEmpty | .get _ => True

/-- A request brings no double and no key of a box in, and bytes that are given out and start as the
shape does say a payload. -/
def CheckedDocument.Request.Admissible {s : Shape} (e : EagerDocument s) :
    CheckedDocument.Request s → Prop
  | .encode | .marshal | .bind => Readable s e.bytes
  | .unmarshal text => Exact s text
  | .append v | .set _ v => v.DoubleFree ∧ v.Keyless
  | .decode | .length | .isEmpty | .values | .get _ | .remove _ => True

/-- A command hands over nothing that is not admissible. -/
def Command.Admissible (τ : Session EagerDocument EagerChecked) : Command → Prop
  | .ofRaw s bytes _ => Readable s bytes ∧ Exact s bytes
  | .ofPayload p _ => Payload.DoubleFree p ∧ Payload.Keyless p
  | .ask (s := s) name request => ∀ e, τ.documents s name = some e → request.Admissible e
  | .askChecked (s := s) name request =>
    ∀ e, τ.checked s name = some e → request.Admissible e.document
  | .new _ _ | .copy _ _ _ | .newChecked _ _ _ | .asType _ _ _ _ | .copyChecked _ _ _ => True

/-- Every command is admissible where it is carried out. -/
def Admissible : List Command → Session EagerDocument EagerChecked → Prop
  | [], _ => True
  | c :: cs, τ => c.Admissible τ ∧ Admissible cs (Realization.eager.step c τ).2

/-! ## Agreement of documents -/

/-- Contents are what a settled payload without doubles stands for. -/
structure StandsFor {s : Shape} (p : s.Payload) (contents : Contents s) : Prop where
  /-- The payload stands for the contents. -/
  contents_eq : contents = .ofPayload p
  /-- The payload is settled. -/
  settled : Payload.Settled p
  /-- The payload has no double. -/
  doubleFree : Payload.DoubleFree p

namespace StandsFor

variable {s : Shape} {p : s.Payload} {contents : Contents s}

private theorem toValue_eq (h : StandsFor p contents) : contents.toValue = Payload.toValue p := by
  rw [h.contents_eq, Contents.toValue_ofPayload h.settled.normal]

private theorem length_eq (h : StandsFor p contents) : contents.length = Payload.length p := by
  rw [h.contents_eq, Contents.length_ofPayload h.settled.normal]

private theorem print_eq (h : StandsFor p contents) :
    Json.print contents.toValue = Payload.encode p := by
  rw [h.toValue_eq, Payload.encode]

private theorem lookup_eq {members : Dictionary Value} {contents : Contents .table}
    (h : StandsFor (s := .table) members contents) (key : String) :
    Finmap.lookup key contents = Dictionary.find? key members := by
  rw [h.contents_eq]
  exact ValueMap.lookup_ofMembers h.settled.normal.1 key

private theorem of_decode {bytes : Bytes} (hp : Payload.decode s bytes = .ok p)
    (hf : Payload.DoubleFree p) : StandsFor p (.ofPayload p) :=
  ⟨rfl, Payload.settled_of_decode hp, hf⟩

private theorem empty (s : Shape) : StandsFor (Payload.empty s) (Contents.empty s) :=
  ⟨(Contents.ofPayload_empty s).symm, Payload.settled_empty, Payload.doubleFree_empty⟩

private theorem given (hf : Payload.DoubleFree p) (hk : Payload.Keyless p) :
    StandsFor (Payload.normalize p) (Contents.ofGiven p) :=
  ⟨(Contents.ofPayload_normalize p).symm,
    ⟨Payload.normal_normalize p, hk.unmarked.boxless_normalize⟩, hf.normalize⟩

private theorem append {items : List Value} {contents : Contents .list}
    (h : StandsFor (s := .list) items contents) {v : Value} (hf : v.DoubleFree)
    (hk : v.Keyless) :
    StandsFor (s := .list) (items ++ [v.normalize] : List Value)
      ((contents : List Value) ++ [v.normalize] : List Value) :=
  ⟨by rw [h.contents_eq]; rfl, h.settled.append hk.unmarked.boxless_normalize,
    h.doubleFree.append hf.normalize⟩

private theorem insert {members : Dictionary Value} {contents : Contents .table}
    (h : StandsFor (s := .table) members contents) (key : String) {v : Value} (hf : v.DoubleFree)
    (hk : v.Keyless) :
    StandsFor (s := .table) (Dictionary.insert key v.normalize members)
      (Finmap.insert key v.normalize contents) :=
  ⟨by rw [h.contents_eq]; exact (ValueMap.ofMembers_insert h.settled.normal.1 key _).symm,
    h.settled.insert key hk.unmarked.boxless_normalize, h.doubleFree.insert key hf.normalize⟩

private theorem erase {members : Dictionary Value} {contents : Contents .table}
    (h : StandsFor (s := .table) members contents) (key : String) :
    StandsFor (s := .table) (Dictionary.erase key members) (Finmap.erase key contents) :=
  ⟨by rw [h.contents_eq]; exact (ValueMap.ofMembers_erase h.settled.normal.1 key).symm,
    h.settled.erase key, h.doubleFree.erase key⟩

end StandsFor

/-- A document reads as a payload that stands for the contents of an eager one and has its bytes. -/
structure Agree {s : Shape} (d : Document s) (e : EagerDocument s) : Prop where
  /-- It reads as a payload that stands for the contents. -/
  reading : ∃ p, d.reading = .ok p ∧ StandsFor p e.contents
  /-- It has the bytes. -/
  bytes : d.bytes = e.bytes

namespace Agree

variable {s : Shape} {d : Document s} {e : EagerDocument s}

private theorem holding {p : s.Payload} {contents : Contents s} (h : StandsFor p contents) :
    Agree (.decoded p) (.holding contents) := ⟨⟨p, rfl, h⟩, h.print_eq.symm⟩

private theorem afterReading (h : Agree d e) : Agree d.afterReading e := by
  obtain ⟨⟨p, hp, stands⟩, hb⟩ := h
  exact ⟨⟨p, (Document.reading_afterReading d).trans hp, stands⟩,
    (Document.bytes_afterReading d).trans hb⟩

private theorem afterEncoding (h : Agree d e) (hr : Readable s e.bytes) :
    Agree d.afterEncoding e := by
  cases d with
  | raw bytes | both bytes p => exact h
  | decoded p =>
    obtain ⟨⟨p', hp, stands⟩, text⟩ := h
    obtain rfl : p = p' := Except.ok.inj hp
    change Payload.encode p = e.bytes at text
    obtain ⟨q, hq⟩ := hr (text ▸ Payload.head?_encode p)
    rw [← text] at hq
    obtain rfl := Payload.eq_of_decode_encode stands.settled stands.doubleFree hq
    exact ⟨⟨_, Document.reading_raw_ok hq, stands⟩, text⟩

private theorem raw {bytes : Bytes} {p : s.Payload} (hp : Payload.decode s bytes = .ok p)
    (hx : Exact s bytes) : Agree (.raw bytes) ⟨.ofPayload p, some bytes⟩ :=
  ⟨⟨p, Document.reading_raw_ok hp, .of_decode hp (hx p hp)⟩, rfl⟩

private theorem opening_eq_firstByte (s : Shape) : s.opening = EagerDocument.firstByte s := by
  cases s <;> rfl

private theorem scan (h : Agree d e) {bytes : Bytes} (readable : Readable s bytes)
    (noDouble : Exact s bytes) :
    ((Document.scanBytes bytes).result d).1.map (fun () ↦ Answer.done) =
        (EagerDocument.scan bytes e).1 ∧
      Agree ((Document.scanBytes bytes).result d).2 (EagerDocument.scan bytes e).2 := by
  rw [Document.result_scanBytes, EagerDocument.scan, EagerDocument.ofRaw, opening_eq_firstByte]
  by_cases hh : bytes.head? = some (EagerDocument.firstByte s)
  · obtain ⟨p, hp⟩ := readable (hh.trans (congrArg some (opening_eq_firstByte s).symm))
    rw [if_pos hh, if_pos hh, hp]
    exact ⟨rfl, raw hp noDouble⟩
  · rw [if_neg hh, if_neg hh]
    exact ⟨rfl, h⟩

/-- Whatever is asked of them, documents that agree reply the same and agree afterwards. -/
theorem reply (h : Agree d e) {request : Document.Request s} (hr : request.Admissible e) :
    (Document.reply request d).1 = (EagerDocument.reply request e).1 ∧
      Agree (Document.reply request d).2 (EagerDocument.reply request e).2 := by
  obtain ⟨p, reading, stands⟩ := h.reading
  cases request with
  | decode | length | isEmpty =>
    simp only [Document.reply, Action.reply, Document.result_decode, Document.result_length,
      Document.result_isEmpty, EagerDocument.reply, reading, stands.toValue_eq, stands.length_eq]
    exact ⟨rfl, h.afterReading⟩
  | get key =>
    simp only [Document.reply, Action.reply, Document.result_get, EagerDocument.reply, reading,
      stands.lookup_eq]
    exact ⟨rfl, h.afterReading⟩
  | encode | marshal | bind =>
    simp only [Document.reply, Action.reply, Document.marshal, Document.result_encode,
      Document.result_bind, h.bytes]
    exact ⟨rfl, h.afterEncoding hr⟩
  | unmarshal text =>
    simp only [Document.reply, Action.reply, Document.result_unmarshal, EagerDocument.reply]
    cases hp : Payload.decode s text with
    | ok p => exact ⟨rfl, holding (.of_decode hp (hr p hp))⟩
    | error error => exact ⟨rfl, h⟩
  | scan source =>
    simp only [Document.reply, Action.reply, Document.result_scan]
    cases source with
    | text t => exact h.scan (hr _ rfl).1 (hr _ rfl).2
    | bytes bytes => exact h.scan (hr _ rfl).1 (hr _ rfl).2
    | null | integer | real => exact ⟨rfl, h⟩

end Agree

private theorem EagerChecked.admitItem_eq (schema : Schema) (length : Nat) (v : Value) :
    admitItem schema length v = CheckedDocument.checkAppend schema length v := by
  cases schema with
  | list element bound =>
    have place : s!"$root[{length}]" = Path.item Path.root length := rfl
    rw [admitItem, CheckedDocument.checkAppend, place]
    cases element.checkAt v (Path.item Path.root length) with
    | error violation => rfl
    | ok u =>
      by_cases hb : 0 < bound.toInt
      · have full : bound.toInt < length + 1 ↔ bound.toInt.toNat ≤ length := by omega
        simp only [Schema.effective?, hb, if_true, true_and, full]
        rfl
      · simp only [Schema.effective?, hb, if_false, false_and]
        rfl
  | table | number | string | bool | any => rfl

private theorem find?_eq (fields : List (String × Schema)) (key : String) :
    (fields.find? fun field ↦ field.1 = key).map Prod.snd = Dictionary.find? key fields := by
  induction fields with
  | nil => rfl
  | cons field fields ih =>
    by_cases same : field.1 = key
    · simp [Dictionary.find?, same]
    · simp [Dictionary.find?, same, ih]

private theorem EagerChecked.admitField_eq (schema : Schema) (key : String) (v : Value) :
    admitField schema key v = CheckedDocument.checkSet schema key v := by
  have here : Path.field Path.root key = key := if_pos rfl
  cases schema with
  | table fields =>
    rw [admitField, CheckedDocument.checkSet, ← find?_eq, here]
    cases fields.find? fun field ↦ field.1 = key <;> rfl
  | list | number | string | bool | any => rfl

/-- A checked document agrees with an eager one, and the schemas are the same. -/
structure AgreeChecked {s : Shape} (c : CheckedDocument s) (e : EagerChecked s) : Prop where
  /-- The documents agree. -/
  document : Agree c.document e.document
  /-- The schemas are the same. -/
  schema : c.schema = e.schema

namespace AgreeChecked

variable {s : Shape} {c : CheckedDocument s} {e : EagerChecked s}

/-- Whatever is asked of them, checked documents that agree reply the same and agree
afterwards. -/
theorem reply (h : AgreeChecked c e) {request : CheckedDocument.Request s}
    (hr : request.Admissible e.document) :
    (CheckedDocument.reply request c).1 = (EagerChecked.reply request e).1 ∧
      AgreeChecked (CheckedDocument.reply request c).2 (EagerChecked.reply request e).2 := by
  obtain ⟨document, schema⟩ := c
  obtain ⟨hd, rfl⟩ := h
  obtain ⟨p, reading, stands⟩ := hd.reading
  have read : AgreeChecked ⟨document.afterReading, e.schema⟩ e := ⟨hd.afterReading, rfl⟩
  have changed {p : s.Payload} {contents : Contents s} (stands : StandsFor p contents) :
      AgreeChecked ⟨.decoded p, e.schema⟩ (e.replace contents) := ⟨.holding stands, rfl⟩
  cases request with
  | decode | length | isEmpty =>
    simp only [CheckedDocument.reply, Action.reply, CheckedDocument.result_decode,
      CheckedDocument.length, CheckedDocument.isEmpty, CheckedDocument.result_onDocument,
      Document.result_length, Document.result_isEmpty, EagerChecked.reply, reading,
      stands.toValue_eq, stands.length_eq]
    exact ⟨rfl, read⟩
  | get key =>
    simp only [CheckedDocument.reply, Action.reply, CheckedDocument.get,
      CheckedDocument.result_onDocument, Document.result_get, EagerChecked.reply, reading,
      stands.lookup_eq]
    exact ⟨rfl, read⟩
  | values =>
    simp only [CheckedDocument.reply, Action.reply, CheckedDocument.result_values,
      EagerChecked.reply, reading, stands.contents_eq]
    exact ⟨rfl, read⟩
  | encode | marshal | bind =>
    simp only [CheckedDocument.reply, Action.reply, CheckedDocument.encode,
      CheckedDocument.marshal, CheckedDocument.bind, Document.marshal,
      CheckedDocument.result_onDocument, Document.result_encode, Document.result_bind, hd.bytes]
    exact ⟨rfl, hd.afterEncoding hr, rfl⟩
  | unmarshal text =>
    simp only [CheckedDocument.reply, Action.reply, CheckedDocument.result_unmarshal,
      EagerChecked.reply]
    cases hp : Payload.decode s text with
    | error error => exact ⟨rfl, hd, rfl⟩
    | ok p =>
      have stands : StandsFor p (.ofPayload p) := .of_decode hp (hr p hp)
      simp only [stands.toValue_eq, Payload.check_eq]
      cases hc : e.schema.check (Payload.toValue p) with
      | ok u => exact ⟨rfl, changed stands⟩
      | error v => exact ⟨rfl, hd, rfl⟩
  | append v =>
    have length : List.length e.document.contents = List.length p := stands.length_eq
    simp only [CheckedDocument.reply, Action.reply, CheckedDocument.result_append,
      EagerChecked.reply, EagerChecked.admitItem_eq, reading, length]
    cases hc : CheckedDocument.checkAppend e.schema (List.length p) v.normalize with
    | ok u => exact ⟨rfl, changed (stands.append hr.1 hr.2)⟩
    | error violation => exact ⟨rfl, read⟩
  | set key v =>
    simp only [CheckedDocument.reply, Action.reply, CheckedDocument.result_set,
      EagerChecked.reply, EagerChecked.admitField_eq, reading]
    cases hc : CheckedDocument.checkSet e.schema key v.normalize with
    | ok u => exact ⟨rfl, changed (stands.insert key hr.1 hr.2)⟩
    | error violation => exact ⟨rfl, hd, rfl⟩
  | remove key =>
    simp only [CheckedDocument.reply, Action.reply, CheckedDocument.result_remove,
      EagerChecked.reply, reading, stands.lookup_eq]
    cases hf : Dictionary.find? key p with
    | none => exact ⟨rfl, read⟩
    | some v => exact ⟨rfl, changed (stands.erase key)⟩

end AgreeChecked

/-! ## Sessions -/

/-- Two sessions have documents under the same names, and these agree. -/
structure AgreeSessions (σ : Session Document CheckedDocument)
    (τ : Session EagerDocument EagerChecked) : Prop where
  /-- The documents without a schema. -/
  documents : ∀ s name, Option.Rel Agree (σ.documents s name) (τ.documents s name)
  /-- The documents with a schema. -/
  checked : ∀ s name, Option.Rel AgreeChecked (σ.checked s name) (τ.checked s name)

namespace AgreeSessions

variable {σ : Session Document CheckedDocument} {τ : Session EagerDocument EagerChecked}

private theorem start : AgreeSessions .start .start := ⟨fun _ _ ↦ .none, fun _ _ ↦ .none⟩

private theorem putDocument (h : AgreeSessions σ τ) {s : Shape} (name : String) {d : Document s}
    {e : EagerDocument s} (hd : Agree d e) :
    AgreeSessions (σ.putDocument name d) (τ.putDocument name e) :=
  ⟨Slots.rel_put h.documents name hd, h.checked⟩

private theorem putChecked (h : AgreeSessions σ τ) {s : Shape} (name : String)
    {c : CheckedDocument s} {e : EagerChecked s} (hc : AgreeChecked c e) :
    AgreeSessions (σ.putChecked name c) (τ.putChecked name e) :=
  ⟨h.documents, Slots.rel_put h.checked name hc⟩

/-- Sessions that agree reply the same to a command and agree afterwards. -/
theorem step (h : AgreeSessions σ τ) {c : Command} (hc : c.Admissible τ) :
    (Realization.lazy.step c σ).1 = (Realization.eager.step c τ).1 ∧
      AgreeSessions (Realization.lazy.step c σ).2 (Realization.eager.step c τ).2 := by
  cases c with
  | new s name =>
    exact ⟨rfl, h.putDocument name (.holding (.empty s))⟩
  | ofRaw s bytes name =>
    obtain ⟨readable, noDouble⟩ := hc
    have opening := Agree.opening_eq_firstByte s
    simp only [Realization.step, Realization.lazy, Realization.eager, Document.answer_ofRaw,
      EagerDocument.ofRaw, opening]
    by_cases hh : bytes.head? = some (EagerDocument.firstByte s)
    · obtain ⟨p, hp⟩ := readable (opening ▸ hh)
      rw [if_pos hh, if_pos hh, hp]
      exact ⟨rfl, h.putDocument name (.raw hp noDouble)⟩
    · rw [if_neg hh, if_neg hh]
      exact ⟨rfl, h⟩
  | ofPayload p name =>
    exact ⟨rfl, h.putDocument name (.holding (.given hc.1 hc.2))⟩
  | @ask s name request =>
    simp only [Realization.step]
    rcases Slots.rel_cases (h.documents s name) with ⟨hd, he⟩ | ⟨d, e, hd, he, agree⟩
    · rw [hd, he]
      exact ⟨rfl, h⟩
    · rw [hd, he]
      obtain ⟨same, after⟩ := agree.reply (hc e he)
      exact ⟨same, h.putDocument name after⟩
  | copy s source name =>
    simp only [Realization.step]
    rcases Slots.rel_cases (h.documents s source) with ⟨hd, he⟩ | ⟨d, e, hd, he, agree⟩
    · rw [hd, he]
      exact ⟨rfl, h⟩
    · rw [hd, he]
      exact ⟨rfl, h.putDocument name agree⟩
  | newChecked s schema name =>
    exact ⟨rfl, h.putChecked name ⟨.holding (.empty s), rfl⟩⟩
  | asType s source schema name =>
    simp only [Realization.step]
    rcases Slots.rel_cases (h.documents s source) with ⟨hd, he⟩ | ⟨d, e, hd, he, agree⟩
    · rw [hd, he]
      exact ⟨rfl, h⟩
    · rw [hd, he]
      obtain ⟨p, reading, stands⟩ := agree.reading
      simp only [Realization.lazy, Realization.eager, Document.result_asType, reading,
        stands.toValue_eq, Payload.check_eq]
      have left := h.putDocument source agree.afterReading
      cases hv : schema.check (Payload.toValue p) with
      | ok u => exact ⟨rfl, left.putChecked name ⟨agree.afterReading, rfl⟩⟩
      | error v => exact ⟨rfl, left⟩
  | @askChecked s name request =>
    simp only [Realization.step]
    rcases Slots.rel_cases (h.checked s name) with ⟨hd, he⟩ | ⟨d, e, hd, he, agree⟩
    · rw [hd, he]
      exact ⟨rfl, h⟩
    · rw [hd, he]
      obtain ⟨same, after⟩ := agree.reply (hc e he)
      exact ⟨same, h.putChecked name after⟩
  | copyChecked s source name =>
    simp only [Realization.step]
    rcases Slots.rel_cases (h.checked s source) with ⟨hd, he⟩ | ⟨d, e, hd, he, agree⟩
    · rw [hd, he]
      exact ⟨rfl, h⟩
    · rw [hd, he]
      exact ⟨rfl, h.putChecked name agree⟩

/-- Sessions that agree reply the same to all commands and agree afterwards. -/
theorem run (h : AgreeSessions σ τ) {commands : List Command} (hc : Admissible commands τ) :
    (Realization.lazy.run commands σ).1 = (Realization.eager.run commands τ).1 ∧
      AgreeSessions (Realization.lazy.run commands σ).2 (Realization.eager.run commands τ).2 := by
  induction commands generalizing σ τ with
  | nil => exact ⟨rfl, h⟩
  | cons c commands ih =>
    obtain ⟨same, after⟩ := h.step hc.1
    obtain ⟨all, last⟩ := ih after hc.2
    exact ⟨List.cons_eq_cons.mpr ⟨same, all⟩, last⟩

end AgreeSessions

/-- Documents that decode and encode when asked reply to every command as documents that always
hold their payload. -/
theorem lazy_replies_as_eager (commands : List Command) (h : Admissible commands .start) :
    (Realization.lazy.run commands .start).1 = (Realization.eager.run commands .start).1 :=
  (AgreeSessions.start.run h).1

/-- A list is given as bytes, copied under a schema, added to, encoded and read again. The copy is
full then, and the list still has the bytes that were given. A field that is not declared is not set
in a table, and one that is set twice is one member, until it is removed. -/
theorem replies_of_added_item :
    (Realization.lazy.run
      [.ofRaw .list (Json.asciiBytes ['[', ' ', 't', 'r', 'u', 'e', ']']) "given",
        .asType .list "given" (.list .bool 2) "copy",
        .askChecked "copy" (.append (.bool false)),
        .askChecked (s := .list) "copy" .encode,
        .askChecked "copy" (.append .null),
        .askChecked "copy" (.append (.bool true)),
        .askChecked "copy" .values,
        .ask (s := .list) "given" .encode,
        .newChecked .table (.table [("a", .any)]) "fields",
        .askChecked "fields" (.set "b" .null),
        .askChecked "fields" (.set "a" .null),
        .askChecked "fields" (.set "a" (.bool true)),
        .askChecked (s := .table) "fields" .length,
        .askChecked "fields" (.remove "a"),
        .askChecked "fields" (.get "a")] .start).1 =
      [.ok .done, .ok .done, .ok .done,
        .ok (.bytes (Json.asciiBytes
          ['[', 't', 'r', 'u', 'e', ',', 'f', 'a', 'l', 's', 'e', ']'])),
        .error (.violation ⟨"$root[2]", "bool", "null"⟩),
        .error (.violation ⟨"$root", "at most 2 entries", "3 entries"⟩),
        .ok (.payload (.list [.bool true, .bool false])),
        .ok (.bytes (Json.asciiBytes ['[', ' ', 't', 'r', 'u', 'e', ']'])),
        .ok .done,
        .error (.violation ⟨"b", "no undeclared fields", "undeclared field present"⟩),
        .ok .done, .ok .done, .ok (.length 1), .ok (.value? (some (.bool true))),
        .ok (.value? none)] := by
  have given : Payload.decode .list (Json.asciiBytes ['[', ' ', 't', 'r', 'u', 'e', ']']) =
      .ok [.bool true] := by rfl
  have scalar {v : Value} (hf : v.DoubleFree) (flat : v.nesting = 0) :
      v.DoubleFree ∧ v.Keyless := ⟨hf, .of_nesting flat⟩
  refine (lazy_replies_as_eager _ ?_).trans (by rfl)
  refine ⟨⟨fun _ ↦ ⟨_, given⟩, fun p hp ↦ ?_⟩, trivial, fun _ _ ↦ scalar trivial rfl,
    fun e he ↦ ?_, fun _ _ ↦ scalar trivial rfl, fun _ _ ↦ scalar trivial rfl, fun _ _ ↦ trivial,
    fun e he ↦ ?_, trivial, fun _ _ ↦ scalar trivial rfl, fun _ _ ↦ scalar trivial rfl,
    fun _ _ ↦ scalar trivial rfl, fun _ _ ↦ trivial, fun _ _ ↦ trivial, fun _ _ ↦ trivial,
    trivial⟩
  · obtain rfl := Except.ok.inj (given.symm.trans hp)
    exact ⟨trivial, trivial⟩
  · obtain rfl : ⟨.holding ([.bool true, .bool false] : List Value), .list .bool 2⟩ = e :=
      Option.some.inj he
    intro _
    exact ⟨[.bool true, .bool false], by rfl⟩
  · obtain rfl : ⟨([.bool true] : List Value), some _⟩ = e := Option.some.inj he
    intro _
    exact ⟨[.bool true], given⟩

end SchemaDoc
