import SchemaDoc.Proofs.Document.Session
import SchemaDoc.Proofs.Log.Line
import SchemaDoc.Store.Column

/-!
# What operations report

At the lowest threshold the log tells of every operation what it took, what it decoded or encoded
and why it failed, each once and in this order. Reports are made in several places, which the
operations combine. An operation that only reads or changes the payload never goes back to raw
bytes, and of such operations the reports of two in a row are those of both together.

A look by shared reference is no action and reports nothing.
-/

namespace SchemaDoc

variable {s : Shape} {σ ε α β : Type}

/-! ## What there is to report -/

/-- How the log names a shape. -/
def Shape.logged : Shape → String
  | list => "list"
  | table => "table"

/-- How the log tells the first byte: a visible character between quotes, another byte as two
hexadecimal digits. -/
def loggedByte : Option UInt8 → String
  | none => "empty input"
  | some b =>
    if 0x21 ≤ b.toNat ∧ b.toNat ≤ 0x7E then "'" ++ String.singleton (Char.ofNat b.toNat) ++ "'"
    else "byte 0x" ++
      String.ofList [Nat.digitChar (b.toNat / 16), Nat.digitChar (b.toNat % 16)]

/-- The report of an error: only what was found in bytes or values is reported. -/
def DocumentError.records : DocumentError → List Record
  | undecodable shape e =>
    [⟨.trace, "DECODE_FAILED", [("reason", e.message), ("shape", shape.logged)]⟩]
  | wrongOpening shape found =>
    [⟨.trace, "SHAPE_MISMATCH", [("found", loggedByte found), ("shape", shape.logged)]⟩]
  | violation v =>
    [⟨.trace, "SCHEMA_VIOLATION",
      [("details", s!"'{v.path}': expected {v.expected}, got {v.actual}")]⟩]
  | unscannable _ | wrongItem _ _ _ => []

/-- The report of an error of a column. -/
def ColumnError.records : ColumnError → List Record
  | wrongType => []
  | refused e => e.records

/-- The report of a failure. -/
def rejections : Except DocumentError α → List Record
  | .ok _ => []
  | .error e => e.records

/-- The report of a failure with a column. -/
def columnRejections : Except ColumnError α → List Record
  | .ok _ => []
  | .error e => e.records

/-- The report of bytes that were offered and taken. -/
def scannings (s : Shape) : Option Bytes → Except ε α → List Record
  | some bytes, .ok _ =>
    [⟨.trace, "DOCUMENT_SCANNED", [("bytes", toString bytes.length), ("shape", s.logged)]⟩]
  | _, _ => []

namespace Document

/-- The report of raw bytes that were turned into a payload. -/
def decodings (d d' : Document s) : List Record :=
  if d.state = .raw ∧ d'.state ≠ .raw then [⟨.trace, "DOCUMENT_DECODED", [("shape", s.logged)]⟩]
  else []

/-- The report of a payload that was turned into raw bytes. -/
def encodings (d d' : Document s) : List Record :=
  if d.state = .decoded ∧ d'.state = .raw then
    [⟨.trace, "DOCUMENT_ENCODED", [("shape", s.logged)]⟩]
  else []

/-- What an operation has to report: the bytes that it took, what it turned into the other side
unless it replaced both, and its failure. -/
def audit (replaces : Bool) (offered? : Option Bytes) (d d' : Document s)
    (answer : Except DocumentError α) : List Record :=
  scannings s offered? answer ++
    (if replaces then [] else decodings d d' ++ encodings d d') ++ rejections answer

end Document

/-! ## How it is told -/

private theorem hexChar_eq_digitChar : ∀ n < 16, DocumentError.describeOpening.hexChar n =
    Nat.digitChar n := by decide

private theorem describeOpening_eq_loggedByte (found : Option UInt8) :
    DocumentError.describeOpening found = loggedByte found := by
  cases found with
  | none => rfl
  | some b =>
    have high : b.toNat / 16 < 16 := Nat.div_lt_of_lt_mul b.toNat_lt
    have low : b.toNat % 16 < 16 := Nat.mod_lt _ (by decide)
    rw [DocumentError.describeOpening, loggedByte]
    split
    · apply String.toList_injective
      simp
    · rw [hexChar_eq_digitChar _ high, hexChar_eq_digitChar _ low]
      apply String.toList_injective
      simp

/-! ## Actions that read or change the payload -/

/-- An action reports what it decodes and why it fails, and does not go back to raw bytes. -/
structure Reads (document : σ → Document s) (x : DocumentAction σ α) : Prop where
  /-- What is reported. -/
  records : ∀ t, (x.run t).records =
    Document.decodings (document t) (document (x.run t).state) ++ rejections (x.run t).answer
  /-- A payload stays. -/
  keeps : ∀ t, (document t).state ≠ .raw → (document (x.run t).state).state ≠ .raw

/-- Nothing is decoded where nothing changes. -/
@[simp] theorem Document.decodings_self (d : Document s) : decodings d d = [] :=
  if_neg fun h ↦ h.2 h.1

private theorem Document.decodings_append {d d' d'' : Document s}
    (first : d.state ≠ .raw → d'.state ≠ .raw) (second : d'.state ≠ .raw → d''.state ≠ .raw) :
    decodings d d' ++ decodings d' d'' = decodings d d'' := by
  unfold decodings
  by_cases hd : d.state = .raw
  · by_cases hd' : d'.state = .raw
    · simp [hd, hd']
    · simp [hd, hd', second hd']
  · simp [hd, first hd]

namespace Reads

variable {document : σ → Document s} {x : DocumentAction σ α} {f : α → DocumentAction σ β}

private theorem of_state (state : ∀ t, (x.run t).state = t)
    (records : ∀ t, (x.run t).records = rejections (x.run t).answer) : Reads document x where
  records t := by rw [state, Document.decodings_self, records, List.nil_append]
  keeps t h := by rwa [state]

private theorem pure (a : α) : Reads document (Pure.pure a : DocumentAction σ α) :=
  of_state (fun _ ↦ rfl) fun _ ↦ rfl

private theorem state : Reads document (Action.state : DocumentAction σ σ) :=
  of_state (fun _ ↦ rfl) fun _ ↦ rfl

private theorem ofExcept {a : Except DocumentError α} (h : rejections a = []) :
    Reads document (Action.ofExcept a : DocumentAction σ α) := by
  cases a with
  | ok a => exact pure a
  | error e => exact of_state (fun _ ↦ rfl) fun _ ↦ h.symm

private theorem bind (hx : Reads document x) (hf : ∀ a, Reads document (f a)) :
    Reads document (x >>= f) := by
  have both (t : σ) : ((x >>= f).run t).records = Document.decodings (document t)
        (document ((x >>= f).run t).state) ++ rejections ((x >>= f).run t).answer ∧
      ((document t).state ≠ .raw → (document ((x >>= f).run t).state).state ≠ .raw) := by
    have first := hx.records t
    have kept := hx.keeps t
    cases ho : x.run t with
    | mk answer t' records =>
      rw [ho] at first kept
      dsimp only at first kept
      cases answer with
      | error e =>
        rw [Action.run_bind_error ho]
        exact ⟨first, kept⟩
      | ok a =>
        rw [Action.run_bind_ok ho]
        refine ⟨?_, fun h ↦ (hf a).keeps t' (kept h)⟩
        dsimp only
        rw [first, (hf a).records t', rejections, List.append_nil, ← List.append_assoc,
          Document.decodings_append kept ((hf a).keeps t')]
  exact ⟨fun t ↦ (both t).1, fun t ↦ (both t).2⟩

private theorem require (verdict : Verdict) : Reads document (Document.require verdict) := by
  cases verdict with
  | ok u => exact pure u
  | error v => exact of_state (fun _ ↦ rfl) fun _ ↦ rfl

private theorem decode : Reads (fun d : Document s ↦ d) Document.decode where
  records d := by
    cases d with
    | decoded p | both bytes p => rfl
    | raw bytes =>
      cases h : Payload.decode s bytes with
      | ok p => rw [Document.run_decode_raw_ok h]; rfl
      | error e => rw [Document.run_decode_raw_error h]; rfl
  keeps d h := by
    cases d with
    | raw bytes => exact absurd rfl h
    | decoded p | both bytes p => exact h

private theorem edit (g : s.Payload → s.Payload) :
    Reads (fun d : Document s ↦ d) (Document.edit g) where
  records d := by
    cases d with
    | decoded p | both bytes p => rfl
    | raw bytes =>
      have run : (Document.edit g).run (.raw bytes) = (Document.parse s bytes >>= fun p ↦ do
          Action.become (.decoded (g p))
          Action.reportEvent .documentDecoded [("shape", s.name)] :
        DocumentAction (Document s) Unit).run (.raw bytes) := rfl
      cases h : Payload.decode s bytes with
      | ok p => rw [run, Action.run_bind_ok (Document.run_parse_ok h _)]; rfl
      | error e => rw [run, Action.run_bind_error (Document.run_parse_error h _)]; rfl
  keeps d h := by
    cases d with
    | raw bytes => exact absurd rfl h
    | decoded p | both bytes p => exact CacheState.noConfusion

private theorem onDocument {x : DocumentAction (Document s) α} (h : Reads (fun d ↦ d) x) :
    Reads CheckedDocument.document (CheckedDocument.onDocument x) where
  records c := h.records c.document
  keeps c := h.keeps c.document

end Reads

namespace Document

private theorem reads_length : Reads (fun d : Document s ↦ d) length :=
  .bind .decode fun _ ↦ .pure _

private theorem reads_isEmpty : Reads (fun d : Document s ↦ d) isEmpty :=
  .bind reads_length fun _ ↦ .pure _

private theorem reads_get (key : String) : Reads (fun d ↦ d) (get key) :=
  .bind .decode fun _ ↦ .pure _

private theorem reads_asType (schema : Schema) : Reads (fun d : Document s ↦ d) (asType schema) :=
  .bind .decode fun _ ↦ .bind (.require _) fun _ ↦ .bind .state fun _ ↦ .pure _

end Document

namespace CheckedDocument

private theorem rejections_convertItems (convert : Value → Option α) (expected : String)
    (index : Nat)
    (items : List Value) : rejections (convertItems convert expected index items) = [] := by
  induction items generalizing index with
  | nil => rfl
  | cons v items ih =>
    rw [convertItems]
    cases convert v with
    | none => rfl
    | some a =>
      have := ih (index + 1)
      dsimp only
      cases h : convertItems convert expected (index + 1) items with
      | ok as => rfl
      | error e =>
        rw [h] at this
        exact this

private theorem reads_decode :
    Reads CheckedDocument.document (decode (s := s)) := .onDocument .decode

private theorem reads_int64Values : Reads CheckedDocument.document int64Values :=
  .bind reads_decode fun _ ↦ .ofExcept (rejections_convertItems _ _ _ _)

private theorem reads_stringValues : Reads CheckedDocument.document stringValues :=
  .bind reads_decode fun _ ↦ .ofExcept (rejections_convertItems _ _ _ _)

private theorem reads_append (v : Value) : Reads CheckedDocument.document (append v) :=
  .bind reads_decode fun _ ↦ .bind .state fun _ ↦ .bind (.require _) fun _ ↦ .onDocument (.edit _)

private theorem reads_set (key : String) (v : Value) : Reads CheckedDocument.document (set key v) :=
  .bind .state fun _ ↦ .bind (.require _) fun _ ↦ .onDocument (.edit _)

private theorem reads_remove (key : String) : Reads CheckedDocument.document (remove key) := by
  apply Reads.bind reads_decode
  intro members
  cases Dictionary.find? key members with
  | none => exact .pure none
  | some v => exact .bind (.onDocument (.edit _)) fun _ ↦ .pure (some v)

end CheckedDocument

/-! ## Operations -/

/-- An action with something made of its answer. -/
def Action.answering (x : Action σ ε α) (f : α → β) : Action σ ε β := fun t ↦
  ⟨(x.run t).answer.map f, (x.run t).state, (x.run t).records⟩

/-- The action that a request asks for. -/
def Document.Request.action : Document.Request s → DocumentAction (Document s) Answer
  | scan source => (Document.scan source).answering fun () ↦ .done
  | decode => Document.decode.answering fun p ↦ .payload (Payload.toValue p)
  | encode => Document.encode.answering .bytes
  | marshal => Document.marshal.answering .bytes
  | bind => Document.bind.answering .bound
  | length => Document.length.answering .length
  | isEmpty => Document.isEmpty.answering .truth
  | unmarshal text => (Document.unmarshal text).answering fun () ↦ .done
  | get key => (Document.get key).answering .value?

/-- The action that a request asks for. -/
def CheckedDocument.Request.action {s : Shape} :
    CheckedDocument.Request s → DocumentAction (CheckedDocument s) Answer
  | decode => CheckedDocument.decode.answering fun p ↦ .payload (Payload.toValue p)
  | encode => CheckedDocument.encode.answering .bytes
  | marshal => CheckedDocument.marshal.answering .bytes
  | bind => CheckedDocument.bind.answering .bound
  | length => CheckedDocument.length.answering .length
  | isEmpty => CheckedDocument.isEmpty.answering .truth
  | unmarshal text => (CheckedDocument.unmarshal text).answering fun () ↦ .done
  | append v => (CheckedDocument.append v).answering fun () ↦ .done
  | values => CheckedDocument.values.answering fun items ↦ .payload (.list items)
  | set key v => (CheckedDocument.set key v).answering fun () ↦ .done
  | get key => (CheckedDocument.get key).answering .value?
  | remove key => (CheckedDocument.remove key).answering .value?

private theorem Document.reply_eq (request : Document.Request s) (d : Document s) :
    Document.reply request d = ((request.action.run d).answer, (request.action.run d).state) := by
  cases request <;> rfl

private theorem CheckedDocument.reply_eq (request : CheckedDocument.Request s)
    (c : CheckedDocument s) :
    CheckedDocument.reply request c =
      ((request.action.run c).answer, (request.action.run c).state) := by
  cases request <;> rfl

/-- The bytes that a request offers to a document. -/
def Document.Request.offered? : Document.Request s → Option Bytes
  | scan source => source.bytes?
  | _ => none

/-- Whether a request is to replace a document by something else. -/
def Document.Request.replaces : Document.Request s → Bool
  | scan _ | unmarshal _ => true
  | _ => false

/-- Whether a request is to replace a document by something else. -/
def CheckedDocument.Request.replaces {s : Shape} : CheckedDocument.Request s → Bool
  | unmarshal _ => true
  | _ => false

/-! ## The log -/

private theorem Log.write_trace {records : List Record} (h : ∀ r ∈ records, r.severity = .trace) :
    Log.write .trace records = ⟨records.flatMap Record.line, []⟩ := by
  have passing : Log.passing .trace records = records := by
    apply List.filter_eq_self.mpr
    intro r hr
    rw [h r hr]
    rfl
  have failures : records.filter (fun r ↦ decide (r.severity = .error)) = [] := by
    apply List.filter_eq_nil_iff.mpr
    intro r hr
    rw [h r hr]
    decide
  have others : records.filter (not ∘ fun r ↦ decide (r.severity = .error)) = records := by
    apply List.filter_eq_self.mpr
    intro r hr
    simp [h r hr]
  rw [Log.write, passing, List.partition_eq_filter_filter, failures, others]
  rfl

private theorem Document.severity_audit {replaces : Bool} {offered? : Option Bytes}
    {d d' : Document s} {answer : Except DocumentError α} :
    ∀ r ∈ audit replaces offered? d d' answer, r.severity = .trace := by
  have taken : ∀ r ∈ scannings s offered? answer, r.severity = .trace := by
    cases offered? <;> cases answer <;> simp [scannings]
  have turned : ∀ r ∈ decodings d d' ++ encodings d d', r.severity = .trace := by
    unfold decodings encodings
    split <;> split <;> simp
  have refused : ∀ r ∈ rejections answer, r.severity = .trace := by
    cases answer with
    | ok a => simp [rejections]
    | error e => cases e <;> simp [rejections, DocumentError.records]
  intro r hr
  rcases List.mem_append.mp hr with hr | hr
  · rcases List.mem_append.mp hr with hr | hr
    · exact taken r hr
    · cases replaces with
      | true => cases hr
      | false => exact turned r hr
  · exact refused r hr

/-- The lines that an action writes are those of what it has to report. -/
def Audited (document : σ → Document s) (replaces : Bool) (offered? : Option Bytes)
    (x : DocumentAction σ α) : Prop :=
  ∀ t, Log.write .trace (x.run t).records =
    ⟨(Document.audit replaces offered? (document t) (document (x.run t).state)
      (x.run t).answer).flatMap Record.line, []⟩

namespace Audited

variable {document : σ → Document s} {replaces : Bool} {offered? : Option Bytes}
  {x : DocumentAction σ α}

private theorem of_records (h : ∀ t, (x.run t).records =
    Document.audit replaces offered? (document t) (document (x.run t).state) (x.run t).answer) :
    Audited document replaces offered? x := by
  intro t
  rw [h t]
  exact Log.write_trace Document.severity_audit

private theorem of_reads (h : Reads document x) : Audited document false none x := by
  apply of_records
  intro t
  have same : Document.encodings (document t) (document (x.run t).state) = [] := by
    apply if_neg
    rintro ⟨before, after⟩
    exact h.keeps t (by simp [before]) after
  rw [h.records t, Document.audit, same]
  simp [scannings]

private theorem answering (h : Audited document replaces offered? x) (f : α → β) :
    Audited document replaces offered? (x.answering f) := by
  intro t
  have same : Document.audit replaces offered? (document t) (document (x.run t).state)
      ((x.run t).answer.map f) =
        Document.audit replaces offered? (document t) (document (x.run t).state)
          (x.run t).answer := by
    cases (x.run t).answer <;> cases offered? <;> rfl
  exact same ▸ h t

private theorem encode : Audited (fun d : Document s ↦ d) false none Document.encode := by
  apply of_records
  intro d
  cases d <;> rfl

private theorem bind : Audited (fun d : Document s ↦ d) false none Document.bind := by
  apply of_records
  intro d
  cases d <;> rfl

private theorem scanBytes (bytes : Bytes) :
    Audited (fun d : Document s ↦ d) true (some bytes) (Document.scanBytes bytes) := by
  apply of_records
  intro d
  by_cases h : bytes.head? = some s.opening
  · have passed : (Document.sniff s bytes : DocumentAction (Document s) Unit).run d =
        ⟨.ok (), d, []⟩ := by
      rw [Document.sniff, if_pos h]
      rfl
    rw [Document.scanBytes, Action.run_bind_ok passed]
    rfl
  · have stopped : (Document.sniff s bytes : DocumentAction (Document s) Unit).run d =
        ⟨.error (.wrongOpening s bytes.head?), d,
          DocumentError.records (.wrongOpening s bytes.head?)⟩ := by
      rw [Document.sniff, if_neg h, describeOpening_eq_loggedByte]
      rfl
    rw [Document.scanBytes, Action.run_bind_error stopped]
    rfl

private theorem scan (source : Source) :
    Audited (fun d : Document s ↦ d) true source.bytes? (Document.scan source) := by
  rw [Document.scan]
  cases source.bytes? with
  | some bytes => exact scanBytes bytes
  | none => exact of_records fun _ ↦ rfl

private theorem unmarshal (text : Bytes) :
    Audited (fun d : Document s ↦ d) true none (Document.unmarshal text) := by
  apply of_records
  intro d
  cases h : Payload.decode s text with
  | ok p => rw [Document.unmarshal, Action.run_bind_ok (Document.run_parse_ok h d)]; rfl
  | error e => rw [Document.unmarshal, Action.run_bind_error (Document.run_parse_error h d)]; rfl

private theorem unmarshal_checked (text : Bytes) :
    Audited CheckedDocument.document true none (CheckedDocument.unmarshal (s := s) text) := by
  apply of_records
  intro c
  cases h : Payload.decode s text with
  | error e =>
    rw [CheckedDocument.unmarshal, Action.run_bind_error (Document.run_parse_error h c)]
    rfl
  | ok p =>
    rw [CheckedDocument.unmarshal, Action.run_bind_ok (Document.run_parse_ok h c),
      Action.run_bind_ok (Action.run_state c)]
    cases Payload.check c.schema p <;> rfl

private theorem ofRaw (bytes : Bytes) : let o := (Document.ofRaw s bytes).run ()
    Log.write .trace o.records =
      ⟨(scannings s (some bytes) o.answer ++ rejections o.answer).flatMap Record.line, []⟩ := by
  have h := scanBytes (s := s) bytes .empty
  rw [Action.run] at h ⊢
  dsimp only [Document.ofRaw]
  rw [h, Document.audit, if_pos rfl, List.append_nil]
  cases (Document.scanBytes bytes (Document.empty : Document s)).answer <;> rfl

private theorem ofColumn (column : Column) : let o := (Document.ofColumn s column).run ()
    Log.write .trace o.records = ⟨(scannings s column.source.bytes? o.answer ++
      columnRejections o.answer).flatMap Record.line, []⟩ := by
  have h := scan (s := s) column.source .empty
  rw [Action.run] at h ⊢
  dsimp only [Document.ofColumn]
  rw [h, Document.audit, if_pos rfl, List.append_nil]
  cases (Document.scan column.source (Document.empty : Document s)).answer with
  | ok u => cases column.source.bytes? <;> rfl
  | error e => cases column.source.bytes? <;> cases e <;> rfl

private theorem onDocument {x : DocumentAction (Document s) α}
    (h : Audited (fun d ↦ d) replaces offered? x) :
    Audited CheckedDocument.document replaces offered? (CheckedDocument.onDocument x) :=
  fun c ↦ h c.document

end Audited

/-- At the lowest threshold every operation on a document or a checked document, and every way to
make a document of raw bytes, writes exactly the lines that tell, in this order, the bytes that it
took, the raw bytes that it turned into a payload, the payload that it turned into raw bytes, and
the failure that was found in bytes or values. An operation that replaces the document by what it is
given turns nothing, whatever the document was before. -/
theorem log_is_exact_audit :
    (∀ request : Document.Request s,
      Audited (fun d ↦ d) request.replaces request.offered? request.action) ∧
    (∀ schema, Audited (fun d : Document s ↦ d) false none (Document.asType schema)) ∧
    (∀ request : CheckedDocument.Request s,
      Audited CheckedDocument.document request.replaces none request.action) ∧
    Audited CheckedDocument.document false none CheckedDocument.int64Values ∧
    Audited CheckedDocument.document false none CheckedDocument.stringValues ∧
    (∀ bytes, let o := (Document.ofRaw s bytes).run ()
      Log.write .trace o.records = ⟨(scannings s (some bytes) o.answer ++
        rejections o.answer).flatMap Record.line, []⟩) ∧
    (∀ column : Column, let o := (Document.ofColumn s column).run ()
      Log.write .trace o.records = ⟨(scannings s column.source.bytes? o.answer ++
        columnRejections o.answer).flatMap Record.line, []⟩) := by
  refine ⟨?_, fun schema ↦ .of_reads (Document.reads_asType schema), ?_,
    .of_reads CheckedDocument.reads_int64Values, .of_reads CheckedDocument.reads_stringValues,
    ?_, ?_⟩
  · intro request
    cases request with
    | scan source => exact (Audited.scan source).answering _
    | decode => exact (Audited.of_reads .decode).answering _
    | encode | marshal => exact Audited.encode.answering _
    | bind => exact Audited.bind.answering _
    | length => exact (Audited.of_reads Document.reads_length).answering _
    | isEmpty => exact (Audited.of_reads Document.reads_isEmpty).answering _
    | unmarshal text => exact (Audited.unmarshal text).answering _
    | get key => exact (Audited.of_reads (Document.reads_get key)).answering _
  · intro request
    cases request with
    | decode | values => exact (Audited.of_reads CheckedDocument.reads_decode).answering _
    | encode | marshal => exact Audited.encode.onDocument.answering _
    | bind => exact Audited.bind.onDocument.answering _
    | length => exact (Audited.of_reads (.onDocument Document.reads_length)).answering _
    | isEmpty => exact (Audited.of_reads (.onDocument Document.reads_isEmpty)).answering _
    | unmarshal text => exact (Audited.unmarshal_checked text).answering _
    | append v => exact (Audited.of_reads (CheckedDocument.reads_append v)).answering _
    | set key v => exact (Audited.of_reads (CheckedDocument.reads_set key v)).answering _
    | get key => exact (Audited.of_reads (.onDocument (Document.reads_get key))).answering _
    | remove key => exact (Audited.of_reads (CheckedDocument.reads_remove key)).answering _
  · exact Audited.ofRaw
  · exact Audited.ofColumn

/-- The lines of a list that is taken, of one that is not, of one that ends inside and of an item
that is not of the type that the schema asks. -/
theorem lines_of_taken_and_refused_lists :
    Log.write .trace ((Document.Request.scan (.text "[]")).action.run
        (.empty : Document .list)).records =
      ⟨Utf8.encode ("\x7b\"event\":\"DOCUMENT_SCANNED\",\"severity\":\"TRACE\"," ++
        "\"bytes\":\"2\",\"shape\":\"list\"\x7d\n"), []⟩ ∧
    Log.write .trace ((Document.ofRaw .list [0x31]).run ()).records =
      ⟨Utf8.encode ("\x7b\"event\":\"SHAPE_MISMATCH\",\"severity\":\"TRACE\"," ++
        "\"found\":\"'1'\",\"shape\":\"list\"\x7d\n"), []⟩ ∧
    Log.write .trace (Document.Request.length.action.run (.raw [0x5B] : Document .list)).records =
      ⟨Utf8.encode ("\x7b\"event\":\"DECODE_FAILED\",\"severity\":\"TRACE\"," ++
        "\"reason\":\"EOF while parsing a list at line 1 column 1\"," ++
        "\"shape\":\"list\"\x7d\n"), []⟩ ∧
    Log.write .trace ((CheckedDocument.Request.append .null).action.run
        (.empty (.list .bool 0))).records =
      ⟨Utf8.encode ("\x7b\"event\":\"SCHEMA_VIOLATION\",\"severity\":\"TRACE\"," ++
        "\"details\":\"'$root[0]': expected bool, got null\"\x7d\n"), []⟩ := by
  obtain ⟨ask, -, askChecked, -, -, ofRaw, -⟩ := log_is_exact_audit (s := .list)
  have line (event : String) (fields : List (String × String)) {text : Bytes}
      (sorted : fields.Pairwise (·.1 ≤ ·.1))
      (written : Json.print (.table (("event", .string event) :: ("severity", .string "TRACE") ::
        fields.map fun m ↦ (m.1, .string m.2))) ++ [0x0A] = text) :
      (⟨[⟨.trace, event, fields⟩].flatMap Record.line, []⟩ : Log.Output) = ⟨text, []⟩ := by
    rw [List.flatMap_singleton, Record.line_of_pairwise sorted]
    exact congrArg (Log.Output.mk · []) written
  refine ⟨(ask (.scan (.text "[]")) .empty).trans ?_, (ofRaw [0x31]).trans ?_,
    (ask .length (.raw [0x5B])).trans ?_,
    (askChecked (.append .null) (.empty (.list .bool 0))).trans ?_⟩
  · exact line "DOCUMENT_SCANNED" [("bytes", "2"), ("shape", "list")] (by decide)
      (by decide +kernel)
  · exact line "SHAPE_MISMATCH" [("found", "'1'"), ("shape", "list")] (by decide)
      (by decide +kernel)
  · exact line "DECODE_FAILED" [("reason", "EOF while parsing a list at line 1 column 1"),
      ("shape", "list")] (by decide) (by decide +kernel)
  · exact line "SCHEMA_VIOLATION" [("details", "'$root[0]': expected bool, got null")] (by decide)
      (by decide +kernel)

/-- A document goes from a payload to raw bytes without the payload being encoded, if it takes the
raw bytes in place of it. -/
theorem scanned_payload_is_not_encoded :
    let o := (Document.scan (.text "[]")).run (.empty : Document .list)
    (Document.empty : Document .list).state = .decoded ∧ o.answer = .ok () ∧
      o.state.state = .raw ∧ ¬∃ r ∈ o.records, r.event = "DOCUMENT_ENCODED" := by
  refine ⟨rfl, rfl, rfl, ?_⟩
  rintro ⟨r, hr, encoded⟩
  obtain rfl := List.mem_singleton.mp hr
  exact absurd encoded (by decide)

end SchemaDoc
