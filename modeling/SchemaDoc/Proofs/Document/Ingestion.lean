import SchemaDoc.Proofs.Document.Conforming
import SchemaDoc.Proofs.Document.Splicing

/-!
# Bytes that are taken and bytes that are read

Bytes are taken on the word of the first and read when they are asked for, or they are read at once.
Either way they say the same payload, fail for the same reason and break a schema in the same place;
of what can be read, only a text with blanks in front is not taken.
-/

namespace SchemaDoc

variable {s : Shape}

/-! ## First bytes -/

namespace Json

/-- The text has a blank in front. -/
def StartsBlank (bs : Bytes) : Prop := ∃ b, bs.head? = some b ∧ isBlank b = true

end Json

private theorem Shape.isBlank_opening (s : Shape) : Json.isBlank s.opening = false := by
  cases s <;> decide

namespace Payload

private theorem nesting_pos (p : s.Payload) : 0 < (toValue p).nesting := by
  cases s <;> simp [toValue, Value.nesting]

private theorem head?_skipBlank_of_decode {input : Bytes} {p : s.Payload}
    (h : decode s input = .ok p) :
    (Json.skipBlank input).head? = some s.opening := by
  obtain ⟨q, hq, -⟩ := decode_eq_ok_iff.mp h
  obtain ⟨left, hr, -⟩ := Json.readWhole_eq_ok_iff.mp hq
  obtain ⟨b, rest, hs, hv | ⟨inner, -, ⟨rfl, items, he, -⟩ | ⟨rfl, members, he, -⟩⟩⟩ :=
    Json.readValueWith_cases hr
  · -- A value without parts is not nested, but every payload is.
    have flat := Json.nesting_of_readScalar hv
    exact absurd flat (Nat.ne_of_gt (nesting_pos q))
  · rw [hs]
    cases s with
    | list => rfl
    | table => cases he
  · rw [hs]
    cases s with
    | list => cases he
    | table => rfl

private theorem head?_eq_opening_iff {input : Bytes} {p : s.Payload} (h : decode s input = .ok p) :
    input.head? = some s.opening ↔ ¬Json.StartsBlank input := by
  have opening := head?_skipBlank_of_decode h
  constructor
  · rintro head ⟨b, hb, blank⟩
    obtain rfl := Option.some.inj (hb.symm.trans head)
    rw [s.isBlank_opening] at blank
    cases blank
  · intro bare
    cases input with
    | nil => cases opening
    | cons b rest =>
      cases hb : Json.isBlank b with
      | true => exact absurd ⟨b, rfl, hb⟩ bare
      | false =>
        rw [Json.skipBlank_cons hb] at opening
        exact opening

end Payload

namespace Document

/-! ## Bytes that are taken -/

/-- A document that took bytes and has not read them. -/
inductive Took (bytes : Bytes) : Document s → Prop where
  /-- The document was made of them. -/
  | made {d : Document s} (h : ((ofRaw s bytes).run ()).answer = .ok d) : Took bytes d
  /-- A store handed them over. -/
  | scanned {source : Source} {before d : Document s} (hs : source.bytes? = some bytes)
    (h : (scan source).result before = (.ok (), d)) : Took bytes d

private theorem Took.eq_raw {bytes : Bytes} {d : Document s} (h : Took bytes d) :
    d = raw bytes := by
  cases h with
  | made h =>
    rw [answer_ofRaw] at h
    split at h <;> cases h
    rfl
  | scanned hs h =>
    rw [result_scan, hs] at h
    dsimp only at h
    rw [result_scanBytes] at h
    split at h <;> cases h
    rfl

private theorem answer_ofRaw_eq_ok_iff {bytes : Bytes} :
    (∃ d, ((ofRaw s bytes).run ()).answer = .ok d) ↔ bytes.head? = some s.opening := by
  rw [answer_ofRaw]
  split
  · next head => simpa using head
  · next other => simpa using other

private theorem answer_scan_eq_ok_iff {source : Source} {bytes : Bytes}
    (hs : source.bytes? = some bytes) (before : Document s) :
    ((scan source).run before).answer = .ok () ↔ bytes.head? = some s.opening := by
  change ((scan source).result before).1 = .ok () ↔ _
  rw [result_scan, hs]
  dsimp only
  rw [result_scanBytes]
  split
  · next head => simpa using head
  · next other => simpa using other

/-! ## Bytes that are read at once -/

/-- What comes of reading bytes at once, by the payload that they say or the reason why they say
none. -/
def replaced (before : Document s) : Except DocumentError s.Payload →
    Except DocumentError Unit × Document s
  | .ok p => (.ok (), decoded p)
  | .error e => (.error e, before)

private theorem result_unmarshal_eq_replaced (bytes : Bytes) (before : Document s) :
    (unmarshal bytes).result before = before.replaced (raw bytes : Document s).reading := by
  rw [result_unmarshal, reading]
  cases Payload.decode s bytes <;> rfl

private theorem exists_decode_of_unmarshal {bytes : Bytes} {before : Document s}
    (h : ((unmarshal bytes).run before).answer = .ok ()) :
    ∃ p, Payload.decode s bytes = .ok p := by
  change ((unmarshal bytes).result before).1 = .ok () at h
  rw [result_unmarshal] at h
  cases hd : Payload.decode s bytes with
  | ok p => exact ⟨p, rfl⟩
  | error e =>
    rw [hd] at h
    cases h

private theorem result_unmarshal_checked (bytes : Bytes) (c : CheckedDocument s) :
    (CheckedDocument.unmarshal bytes).result c =
      match (raw bytes : Document s).reading with
      | .ok p =>
        match c.schema.check (Payload.toValue p) with
        | .ok () => (.ok (), ⟨decoded p, c.schema⟩)
        | .error v => (.error (.violation v), c)
      | .error e => (.error e, c) := by
  rw [CheckedDocument.result_unmarshal, reading]
  cases Payload.decode s bytes with
  | error e => rfl
  | ok p =>
    dsimp only
    rw [Payload.check_eq]
    rfl

/-! ## Copies under a schema -/

/-- A copy under a schema is made of what is read and has no violation. -/
theorem answer_asType_eq_ok_iff {schema : Schema} {d : Document s} {c : CheckedDocument s} :
    ((asType schema).run d).answer = .ok c ↔ c = ⟨d.afterReading, schema⟩ ∧
      ∃ p, d.reading = .ok p ∧ schema.check (Payload.toValue p) = .ok () := by
  change ((asType schema).result d).1 = .ok c ↔ _
  rw [result_asType]
  cases hr : d.reading with
  | error e => simp
  | ok p =>
    dsimp only
    rw [Payload.check_eq]
    cases hv : schema.check (Payload.toValue p) with
    | error v =>
      change Except.error _ = Except.ok c ↔ _
      simp [hv]
    | ok u =>
      change Except.ok _ = Except.ok c ↔ _
      simp [hv, eq_comm]

private theorem answer_asType_eq_error_iff {schema : Schema} {d : Document s} {e : DocumentError} :
    ((asType schema).run d).answer = .error e ↔ d.reading = .error e ∨
      ∃ p v, d.reading = .ok p ∧ schema.check (Payload.toValue p) = .error v ∧
        e = .violation v := by
  change ((asType schema).result d).1 = .error e ↔ _
  rw [result_asType]
  cases hr : d.reading with
  | error f => simp
  | ok p =>
    dsimp only
    rw [Payload.check_eq]
    cases hv : schema.check (Payload.toValue p) with
    | error v =>
      change Except.error _ = Except.error e ↔ _
      simp [hv, eq_comm]
    | ok u =>
      change Except.ok _ = Except.error e ↔ _
      simp [hv]

/-- How a schema is put on the document `d` that took bytes, and on bytes that are read at once. -/
structure CheckedAlike (schema : Schema) (bytes : Bytes) (d : Document s) : Prop where
  /-- A copy under the schema says the payload that is read at once. -/
  accepted : ∀ c, ((asType schema).run d).answer = .ok c → c.schema = schema ∧
    ∃ p, (CheckedDocument.decode.run c).answer = .ok p ∧
      (CheckedDocument.unmarshal bytes).result (.empty schema) = (.ok (), ⟨decoded p, schema⟩)
  /-- Where no copy is made, nothing is read at once for the same reason. -/
  refused : ∀ e, ((asType schema).run d).answer = .error e →
    (CheckedDocument.unmarshal bytes).result (.empty schema) =
      (.error e, (.empty schema : CheckedDocument s))
  /-- Of what is read a copy is made, or else a violation is found in it, by the verdict on it as a
  value. -/
  verdict : ∀ p, (decode.run d).answer = .ok p →
    ((asType schema).run d).answer.map (fun _ ↦ ()) =
      (schema.check (Payload.toValue p)).mapError .violation

private theorem checkedAlike_raw (schema : Schema) (bytes : Bytes) :
    CheckedAlike schema bytes (raw bytes : Document s) := by
  constructor
  · intro c hc
    obtain ⟨rfl, p, read, passed⟩ := answer_asType_eq_ok_iff.mp hc
    refine ⟨rfl, p, ?_, ?_⟩
    · rw [CheckedDocument.answer_decode]
      exact (reading_afterReading _).trans read
    · rw [result_unmarshal_checked, read]
      dsimp only [CheckedDocument.empty]
      rw [passed]
  · intro e he
    rw [result_unmarshal_checked]
    rcases answer_asType_eq_error_iff.mp he with read | ⟨p, v, read, found, rfl⟩
    · rw [read]
    · rw [read]
      dsimp only [CheckedDocument.empty]
      rw [found]
  · intro p hp
    have read : (raw bytes : Document s).reading = .ok p := (answer_decode _).symm.trans hp
    cases hv : schema.check (Payload.toValue p) with
    | error v =>
      rw [answer_asType_eq_error_iff.mpr (.inr ⟨p, v, read, hv, rfl⟩)]
      rfl
    | ok u =>
      rw [answer_asType_eq_ok_iff.mpr ⟨rfl, p, read, hv⟩]
      rfl

end Document

/-! ## Both ways in -/

/-- Bytes that can be read are taken unless they have a blank in front. Whatever took them says the
payload that they say when they are read at once, or fails for the same reason, and so it is under
any schema. -/
theorem taken_bytes_say_what_they_say_at_once (bytes : Bytes) :
    (∀ before : Document s, ((Document.unmarshal bytes).run before).answer = .ok () →
      ((∃ d, ((Document.ofRaw s bytes).run ()).answer = .ok d) ↔ ¬Json.StartsBlank bytes) ∧
      ∀ (source : Source) (other : Document s), source.bytes? = some bytes →
        (((Document.scan source).run other).answer = .ok () ↔ ¬Json.StartsBlank bytes)) ∧
    ∀ d : Document s, Document.Took bytes d →
      (∀ before : Document s,
        (Document.unmarshal bytes).result before = before.replaced (Document.decode.run d).answer) ∧
      ∀ schema, Document.CheckedAlike schema bytes d := by
  constructor
  · intro before h
    obtain ⟨p, hp⟩ := Document.exists_decode_of_unmarshal h
    rw [Document.answer_ofRaw_eq_ok_iff, Payload.head?_eq_opening_iff hp]
    refine ⟨Iff.rfl, ?_⟩
    intro source other hs
    rw [Document.answer_scan_eq_ok_iff hs, Payload.head?_eq_opening_iff hp]
  · intro d took
    obtain rfl := took.eq_raw
    refine ⟨?_, fun schema ↦ Document.checkedAlike_raw schema bytes⟩
    intro before
    rw [Document.answer_decode, Document.result_unmarshal_eq_replaced]

/-- A list whose item breaks a schema is taken and not copied under it, and a list with a blank in
front is not taken. -/
theorem broken_item_is_found_either_way :
    (∃ (d : Document .list) (v : Violation),
      ((Document.ofRaw .list (Json.asciiBytes ['[', 't', 'r', 'u', 'e', ']'])).run ()).answer =
        .ok d ∧
      (Schema.list .number 0).check (.list [.bool true]) = .error v ∧
      ((Document.asType (.list .number 0)).run d).answer = .error (.violation v) ∧
      ((CheckedDocument.unmarshal (Json.asciiBytes ['[', 't', 'r', 'u', 'e', ']'])).run
        (.empty (.list .number 0) : CheckedDocument .list)).answer = .error (.violation v)) ∧
    ¬∃ d : Document .list,
      ((Document.ofRaw .list (Json.asciiBytes [' ', '[', ']'])).run ()).answer = .ok d := by
  constructor
  · obtain ⟨-, agree⟩ := taken_bytes_say_what_they_say_at_once (s := .list)
      (Json.asciiBytes ['[', 't', 'r', 'u', 'e', ']'])
    obtain ⟨-, checked⟩ := agree (.raw (Json.asciiBytes ['[', 't', 'r', 'u', 'e', ']']))
      (.made (by rfl))
    refine ⟨_, .wrongType (Path.item Path.root 0) Kind.number.name (Value.bool true).typeName,
      rfl, by rfl, by rfl, ?_⟩
    exact congrArg Prod.fst ((checked (.list .number 0)).refused _ (by rfl))
  · obtain ⟨takes, -⟩ := taken_bytes_say_what_they_say_at_once (s := .list)
      (Json.asciiBytes [' ', '[', ']'])
    obtain ⟨made, -⟩ := takes .empty (by rfl)
    exact fun taken ↦ made.mp taken ⟨_, rfl, by decide⟩

end SchemaDoc
