import SchemaDoc.Proofs.Document.Reachable

/-!
# Payloads that are encoded and read again

Encoding drops the payload and keeps its text alone. A payload without doubles comes back from that
text if it is not nested more deeply than a reader allows and nothing in it is marked. Otherwise it
is lost, or another comes in its place: nothing that puts a payload in place looks at its nesting or
for boxes.
-/

namespace SchemaDoc

variable {s : Shape}

/-! ## Documents -/

/-- What becomes of a payload without doubles that is encoded: the answer, the document that is left
and what that answers when it is read. -/
structure Document.Encoded (p : s.Payload) (answer : Except DocumentError Bytes)
    (left : Document s) (again : Except DocumentError s.Payload) : Prop where
  /-- The text of the payload is answered. -/
  answered : answer = .ok (Payload.encode p)
  /-- The text takes the place of the payload. -/
  replaced : left = .raw (Payload.encode p)
  /-- The payload is read again if it is not nested too deeply and nothing in it is marked. -/
  restored : again = .ok p ↔ Payload.Shallow p ∧ Payload.Unmarked p
  /-- If it is nested too deeply and nothing in it is marked, then reading fails for the nesting. -/
  lost : Payload.Unmarked p → ¬Payload.Shallow p →
    ∃ e, again = .error (.undecodable s e) ∧ e.cause = .tooDeep
  /-- If it is not nested too deeply, then what is read is the payload with its boxes opened. -/
  opened : Payload.Shallow p → ∀ q, again = .ok q ↔
    ∃ r, Payload.opened Json.unbox p = .ok r ∧ Payload.normalize r = q

private theorem Document.encoded_decoded {p : s.Payload} (hp : Payload.Normal p)
    (hf : Payload.DoubleFree p) :
    Encoded p (encode.run (decoded p)).answer (encode.run (decoded p)).state
      (decode.run (encode.run (decoded p)).state).answer := by
  have again (q : s.Payload) : (decode.run (raw (Payload.encode p))).answer = .ok q ↔
      Payload.decode s (Payload.encode p) = .ok q := by
    rw [answer_decode]
    exact reading_raw_eq_ok_iff
  rw [run_encode_decoded]
  refine ⟨rfl, rfl, ?_, ?_, ?_⟩
  · exact (again p).trans (Payload.decode_encode_iff hp hf)
  · intro hu hd
    obtain ⟨e, he, hc⟩ := Payload.decode_encode_of_not_shallow hf hu hd
    rw [run_decode_raw_error he]
    exact ⟨e, rfl, hc⟩
  · intro hd q
    exact (again q).trans (Payload.decode_encode_eq_ok_iff hf hd)

/-- A payload without doubles in a document or a checked document is encoded for certain. It is read
again if it is not nested too deeply and nothing in it is marked, and not otherwise. -/
theorem encoded_payload_is_read_again_iff_shallow_and_unmarked {p : s.Payload}
    (hf : Payload.DoubleFree p) :
    (∀ d : Document s, d.Reachable → d = .decoded p →
      Document.Encoded p (Document.encode.run d).answer (Document.encode.run d).state
        (Document.decode.run (Document.encode.run d).state).answer) ∧
    ∀ c : CheckedDocument s, c.Reachable → c.document = .decoded p →
      Document.Encoded p (CheckedDocument.encode.run c).answer
        (CheckedDocument.encode.run c).state.document
        (CheckedDocument.decode.run (CheckedDocument.encode.run c).state).answer := by
  constructor
  · rintro d reached rfl
    exact Document.encoded_decoded (reached.inStep.normal p rfl) hf
  · rintro ⟨d, schema⟩ reached rfl
    exact Document.encoded_decoded (reached.inStep.normal p rfl) hf

/-- An item that is added, encoded and read again. -/
theorem added_item_is_read_again :
    (CheckedDocument.decode.run (CheckedDocument.encode.run
      (CheckedDocument.perform (.ask (.append .null))
        (.empty (.list .any 0) : CheckedDocument .list)).2).state).answer =
          .ok ([.null] : List Value) := by
  have encoded := (encoded_payload_is_read_again_iff_shallow_and_unmarked (s := .list)
    (p := ([.null] : List Value)) ⟨trivial, trivial⟩).2 _
    (.perform (.ask (.append .null)) (.empty (.list .any 0))) (by rfl)
  refine encoded.restored.mpr ⟨?_, List.forall_mem_singleton.mpr rfl⟩
  simp [Payload.Shallow, Payload.toValue, Value.nesting, Value.nestingItems, Json.depthLimit]

private theorem item_is_lost_of_deep {v : Value} (hv : v.Normal) (hf : v.DoubleFree)
    (hu : v.Unmarked) (hn : Json.depthLimit ≤ v.nesting) :
    ∃ c : CheckedDocument .list, c.Reachable ∧ c.document = .decoded ([v] : List Value) ∧
      (CheckedDocument.encode.run c).answer = .ok (Json.print (.list [v])) ∧
      ∃ e, e.cause = .tooDeep ∧
        (CheckedDocument.decode.run (CheckedDocument.encode.run c).state).answer =
          .error (.undecodable .list e) := by
  have made : (CheckedDocument.perform (.ask (.append v))
      (.empty (.list .any 0) : CheckedDocument .list)).2.document =
        .decoded ([v.normalize] : List Value) := rfl
  have deep : ¬Payload.Shallow (s := .list) [v] := by
    simp only [Payload.Shallow, Payload.toValue, Value.nesting, Value.nestingItems]
    omega
  rw [hv.normalize_eq] at made
  have encoded := Document.encoded_decoded (s := .list) (p := [v]) ⟨hv, trivial⟩ ⟨hf, trivial⟩
  rw [← made] at encoded
  obtain ⟨e, he, hc⟩ := encoded.lost (List.forall_mem_singleton.mpr hu) deep
  exact ⟨_, .perform (.ask (.append v)) (.empty (.list .any 0)), made, encoded.answered, e, hc, he⟩

/-- The empty list inside 126 others is lost once it was added to a list of any items and that was
encoded. -/
theorem nested_lists_are_lost_once_encoded :
    ∃ c : CheckedDocument .list, c.Reachable ∧
      c.document = .decoded ([.nest (.list []) 126] : List Value) ∧
      (CheckedDocument.encode.run c).answer = .ok (Json.print (.list [.nest (.list []) 126])) ∧
      ∃ e, e.cause = .tooDeep ∧
        (CheckedDocument.decode.run (CheckedDocument.encode.run c).state).answer =
          .error (.undecodable .list e) := by
  have normal : (Value.list []).Normal := trivial
  have doubleFree : (Value.list []).DoubleFree := trivial
  have keyless : (Value.list []).Keyless := ⟨by rintro members ⟨⟩, trivial⟩
  have nesting := Value.nesting_nest (.list []) 126
  exact item_is_lost_of_deep (normal.nest 126) (doubleFree.nest 126) (keyless.nest 126).unmarked
    (Nat.le_of_eq nesting.symm)

end SchemaDoc
