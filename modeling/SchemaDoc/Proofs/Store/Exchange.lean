import SchemaDoc.Proofs.Document.Serialization
import SchemaDoc.Store.Column

/-!
# Documents in stores

A store gets the bytes of a document, whether it is encoded for that, bound or put into a column.
It can hand them back by any way in: they start as the shape demands, and nothing more is asked of
them. What is read from them then is what the document said before, or failed with.
-/

namespace SchemaDoc

variable {s : Shape}

/-! ## Bytes that are UTF-8 -/

private theorem Payload.isText_of_decode {input : Bytes} {p : s.Payload}
    (h : decode s input = .ok p) :
    Utf8.IsText input := by
  obtain ⟨v, hv, -⟩ := decode_eq_ok_iff.mp h
  exact Json.isText_of_parse hv

namespace Document

private theorem InStep.head?_bytes {d : Document s} (h : d.InStep) :
    d.bytes.head? = some s.opening := by
  cases d with
  | decoded p => exact Payload.head?_encode p
  | raw bytes | both bytes p => exact h.opening bytes rfl

private theorem InStep.isText_bytes {d : Document s} (h : d.InStep) {p : s.Payload}
    (hp : d.reading = .ok p) : Utf8.IsText d.bytes := by
  cases d with
  | decoded q => exact (Json.plain_print (Payload.toValue q)).text
  | both bytes q => exact Payload.isText_of_decode (h.agree bytes q rfl)
  | raw bytes =>
    cases hd : Payload.decode s bytes with
    | error e => simp [reading_raw_error hd] at hp
    | ok q => exact Payload.isText_of_decode hd

end Document

/-! ## Columns -/

/-- The bytes that a column gets. -/
def ColumnOutput.bytes : ColumnOutput → Bytes
  | shared bs => bs
  | made s => Utf8.encode s

namespace Document

private theorem toColumn_eq_ok (d : Document s) :
    ∃ out, d.toColumn = .ok out ∧ out.bytes = d.bytes := by
  cases d with
  | raw bytes | both bytes p => exact ⟨.shared bytes, rfl, rfl⟩
  | decoded p =>
    obtain ⟨text, ht⟩ := Utf8.isText_iff.mp (Json.plain_print (Payload.toValue p)).text
    refine ⟨.made text, ?_, (Utf8.decode_eq_ok_iff.mp ht).symm⟩
    change (Utf8.decode (Json.print (Payload.toValue p))).map ColumnOutput.made = _
    rw [ht]
    rfl

private theorem answer_ofColumn {σ : Type} (column : Column) (t : σ) :
    ((ofColumn s column).run t).answer =
      (((scan column.source).result (empty : Document s)).1.map fun () ↦
        ((scan column.source).result (empty : Document s)).2).mapError .ofDocumentError := rfl

/-! ## Ways back -/

/-- What is made of bytes by every way into a document. -/
structure Taken (bytes : Bytes) (d : Document s) : Prop where
  /-- The bytes make the document. -/
  made : ((ofRaw s bytes).run ()).answer = .ok d
  /-- Any document becomes it when a store hands over the bytes. -/
  scanned : ∀ before : Document s, (scan (.bytes bytes)).result before = (.ok (), d)
  /-- The bytes make it as the text of a column. -/
  text : ((ofColumn s (.text bytes)).run ()).answer = .ok d
  /-- The bytes make it as a blob in a column. -/
  blob : ((ofColumn s (.blob bytes)).run ()).answer = .ok d

private theorem taken_raw {bytes : Bytes} (h : bytes.head? = some s.opening) :
    Taken bytes (raw bytes : Document s) := by
  have scanned (before : Document s) :
      (scan (.bytes bytes)).result before = (.ok (), raw bytes) := by
    rw [result_scan]
    change (scanBytes bytes).result before = _
    rw [result_scanBytes, if_pos h]
  refine ⟨?_, scanned, ?_, ?_⟩
  · rw [answer_ofRaw, if_pos h]
  all_goals
    rw [answer_ofColumn, Column.source, scanned]
    rfl

private theorem InStep.reading_raw_bytes {d : Document s} (h : d.InStep)
    (free : ∀ p, d = decoded p → Payload.DoubleFree p ∧ Payload.Shallow p ∧ Payload.Unmarked p) :
    (raw d.bytes : Document s).reading = d.reading := by
  cases d with
  | raw bytes => rfl
  | both bytes p => exact reading_raw_ok (h.agree bytes p rfl)
  | decoded p =>
    obtain ⟨hf, hd⟩ := free p rfl
    exact reading_raw_ok ((Payload.decode_encode_iff (h.normal p rfl) hf).mpr hd)

/-! ## There and back -/

/-- What becomes of the bytes that a document is sent as, by what the document answers when it is
read. -/
structure Exchanged (d : Document s) (bytes : Bytes)
    (answer : Except DocumentError s.Payload) : Prop where
  /-- A column gets the same bytes. -/
  column : ∃ out, d.toColumn = .ok out ∧ out.bytes = bytes
  /-- The bytes are taken back, as a document that is sent as them too and answers the same when it
  is read; if the document has no raw bytes, its payload has to have no doubles, not to be nested
  too deeply and to have nothing marked in it for that. -/
  back : ∃ d', Taken bytes d' ∧ (encode.run d').answer = .ok bytes ∧
    ((∀ p, d = decoded p →
      Payload.DoubleFree p ∧ Payload.Shallow p ∧ Payload.Unmarked p) →
        (decode.run d').answer = answer)
  /-- The bytes are a text if the document can be read. -/
  text : ∀ p, answer = .ok p → ∃ text, (Bound.mk bytes).text = .ok text

private theorem InStep.exchanged {d : Document s} (h : d.InStep) :
    d.Exchanged d.bytes d.reading := by
  refine ⟨d.toColumn_eq_ok, ⟨_, taken_raw h.head?_bytes, answer_encode _, ?_⟩, ?_⟩
  · intro free
    exact (answer_decode _).trans (h.reading_raw_bytes free)
  · intro p hp
    exact Utf8.isText_iff.mp (h.isText_bytes hp)

end Document

/-- Encoding, marshalling, binding and a column hand over the same bytes of every document, which
are taken back by every way in and read as the document did. -/
theorem sent_bytes_are_taken_back :
    (∀ d : Document s, d.Reachable → ∃ bytes,
      Sent bytes (Document.encode.run d).answer (Document.marshal.run d).answer
        (Document.bind.run d).answer ∧
      d.Exchanged bytes (Document.decode.run d).answer) ∧
    ∀ c : CheckedDocument s, c.Reachable → ∃ bytes,
      Sent bytes (CheckedDocument.encode.run c).answer (CheckedDocument.marshal.run c).answer
        (CheckedDocument.bind.run c).answer ∧
      c.document.Exchanged bytes (CheckedDocument.decode.run c).answer := by
  constructor
  · intro d reached
    exact ⟨d.bytes, d.sent, d.answer_decode ▸ reached.inStep.exchanged⟩
  · intro c reached
    exact ⟨c.document.bytes, c.sent, c.answer_decode ▸ reached.inStep.exchanged⟩

/-- A list that ends inside its first item is taken back and fails again, and an item that was added
is read back. -/
theorem broken_list_and_added_item_are_taken_back :
    (∃ d d' : Document .list, d.bytes = Json.asciiBytes ['[', 'n'] ∧
      Document.Taken (Json.asciiBytes ['[', 'n']) d' ∧
      (Document.decode.run d').answer = (Document.decode.run d).answer ∧
      ∃ e, (Document.decode.run d).answer = .error e) ∧
    ∃ d' : Document .list, Document.Taken (Json.print (.list [.null])) d' ∧
      (Document.decode.run d').answer = .ok ([.null] : List Value) := by
  constructor
  · have reached : Document.Reachable (.raw (Json.asciiBytes ['[', 'n']) : Document .list) :=
      @Document.Reachable.ofRaw .list (Json.asciiBytes ['[', 'n']) _ (by rfl)
    obtain ⟨bytes, sent, exchanged⟩ := (sent_bytes_are_taken_back (s := .list)).1 _ reached
    obtain rfl : Json.asciiBytes ['[', 'n'] = bytes := Except.ok.inj sent.encoded
    obtain ⟨d', taken, -, again⟩ := exchanged.back
    exact ⟨_, d', rfl, taken, again (by rintro p ⟨⟩), _, rfl⟩
  · have reached : CheckedDocument.Reachable (CheckedDocument.perform (.ask (.append .null))
        (.empty (.list .any 0) : CheckedDocument .list)).2 :=
      .perform (.ask (.append .null)) (.empty (.list .any 0))
    obtain ⟨bytes, sent, exchanged⟩ := (sent_bytes_are_taken_back (s := .list)).2 _ reached
    obtain rfl : Json.print (.list [.null]) = bytes := Except.ok.inj sent.encoded
    obtain ⟨d', taken, -, again⟩ := exchanged.back
    refine ⟨d', taken, again ?_⟩
    intro p hp
    obtain rfl : ([.null] : List Value) = p := Document.decoded.inj hp
    refine ⟨⟨trivial, trivial⟩, ?_, List.forall_mem_singleton.mpr rfl⟩
    simp [Payload.Shallow, Payload.toValue, Value.nesting, Value.nestingItems, Json.depthLimit]

end SchemaDoc
