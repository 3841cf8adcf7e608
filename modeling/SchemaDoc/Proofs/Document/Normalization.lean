import SchemaDoc.Proofs.Document.Payload
import SchemaDoc.Proofs.Document.Steps

/-!
# Normal texts

A document that takes over a text and is then encoded answers the normal text of what it took over.
Whatever the document was before does not matter. The normal text says what was taken over, unless
that is nested too deeply, which it may be if it came out of a box.
-/

namespace SchemaDoc.Document

variable {s : Shape}

/-- A document takes over a text and then answers a payload without doubles. -/
def TakesOver (d : Document s) (text : Bytes) (p : s.Payload) : Prop :=
  ((unmarshal text).run d).answer = .ok () ∧
    (decode.run ((unmarshal text).run d).state).answer = .ok p ∧ Payload.DoubleFree p

/-- What a document answers that took over a text and is then encoded. -/
def normalText (d : Document s) (text : Bytes) : Except DocumentError Bytes :=
  (encode.run ((unmarshal text).run d).state).answer

private theorem takesOver_iff {d : Document s} {text : Bytes} {p : s.Payload} :
    TakesOver d text p ↔ Payload.decode s text = .ok p ∧ Payload.DoubleFree p := by
  have taken := result_unmarshal text d
  unfold TakesOver
  cases h : Payload.decode s text with
  | error e =>
    rw [h] at taken
    rw [(Prod.mk.inj taken).1]
    constructor
    · rintro ⟨answered, -⟩
      cases answered
    · rintro ⟨read, -⟩
      cases read
  | ok q =>
    rw [h] at taken
    obtain ⟨answer, state⟩ := Prod.mk.inj taken
    rw [answer, state, run_decode_of_payload? rfl]
    simp only [true_and, Except.ok.injEq]

private theorem normalText_of_decode {text : Bytes} {p : s.Payload}
    (h : Payload.decode s text = .ok p)
    (d : Document s) : normalText d text = .ok (Payload.encode p) := by
  have taken := result_unmarshal text d
  rw [h] at taken
  rw [normalText, (Prod.mk.inj taken).2, run_encode_decoded]

/-- The normal text of what a document took over is compact and is let pass by its first byte. If
what was taken over is not nested too deeply and nothing in it is marked, then the normal text says
it and is its own normal text, and otherwise it does not say it. Texts with the same normal text are
those that say the same payload. -/
theorem normalText_is_faithful (d : Document s) (text : Bytes) (p : s.Payload)
    (h : TakesOver d text p) :
    ∃ normal, normalText d text = .ok normal ∧ normal = Json.print (Payload.toValue p) ∧
      (∀ (σ : Type) (t : σ), ((ofRaw s normal).run t).answer = .ok (raw normal)) ∧
      (∀ d' : Document s, (scanBytes normal).result d' = (.ok (), raw normal)) ∧
      ((decode.run (raw normal : Document s)).answer = .ok p ↔
        Payload.Shallow p ∧ Payload.Unmarked p) ∧
      (Payload.Shallow p → Payload.Unmarked p →
        ∀ d' : Document s, TakesOver d' normal p ∧ normalText d' normal = .ok normal) ∧
      ∀ (d' : Document s) (text' : Bytes) (p' : s.Payload), TakesOver d' text' p' →
        (normalText d' text' = .ok normal ↔ p' = p) := by
  obtain ⟨hd, hf⟩ := takesOver_iff.mp h
  have hp := Payload.normal_of_decode hd
  have head := Payload.head?_encode p
  have back := Payload.decode_encode_iff hp hf
  refine ⟨Payload.encode p, normalText_of_decode hd d, rfl, ?_, ?_, ?_, ?_, ?_⟩
  · intro σ t
    rw [answer_ofRaw, if_pos head]
  · intro d'
    rw [result_scanBytes, if_pos head]
  · rw [answer_decode, reading_raw_eq_ok_iff]
    exact back
  · intro hs hu d'
    have again := back.mpr ⟨hs, hu⟩
    exact ⟨takesOver_iff.mpr ⟨again, hf⟩, normalText_of_decode again d'⟩
  · intro d' text' p' h'
    obtain ⟨hd', hf'⟩ := takesOver_iff.mp h'
    rw [normalText_of_decode hd' d']
    constructor
    · intro he
      exact Payload.encode_inj hf' hf (Except.ok.inj he)
    · rintro rfl
      rfl

/-- A key in the wrong place, a key that is there twice and an escape that need not be one. -/
theorem normalText_of_scrambled_table :
    normalText (.empty : Document .table) (Json.asciiBytes
        ['\x7b', '"', 'b', '"', ':', '0', ',', ' ', '"', 'a', '"', ':', '"', '\\', 'u', '0', '0',
          '4', '1', '"', ',', '"', 'b', '"', ':', '[', '-', '2', ']', '\x7d']) =
      .ok (Json.asciiBytes ['\x7b', '"', 'a', '"', ':', '"', 'A', '"', ',', '"', 'b', '"', ':',
        '[', '-', '2', ']', '\x7d']) := by
  obtain ⟨normal, hn, rfl, -⟩ := normalText_is_faithful (.empty : Document .table)
    (Json.asciiBytes
      ['\x7b', '"', 'b', '"', ':', '0', ',', ' ', '"', 'a', '"', ':', '"', '\\', 'u', '0', '0',
        '4', '1', '"', ',', '"', 'b', '"', ':', '[', '-', '2', ']', '\x7d'])
    [("a", .string "A"), ("b", .list [.number (.integer ⟨-2, by decide, by decide⟩)])]
    ⟨by rfl, by rfl, trivial, ⟨trivial, trivial⟩, trivial⟩
  exact hn

private theorem print_nest (v : Value) (n : Nat) :
    Json.print (v.nest n) = List.replicate n 0x5B ++ (Json.print v ++ List.replicate n 0x5D) := by
  induction n generalizing v with
  | zero => simp [Value.nest]
  | succ n ih =>
    have one : Json.print (.list [v]) = 0x5B :: (Json.print v ++ [0x5D]) := by
      simp [Json.print, Json.printItems, Json.ascii]
    rw [Value.nest, ih, one, List.replicate_succ', List.replicate_succ]
    simp

private theorem encode_brackets (n : Nat) :
    Utf8.encode (String.ofList (List.replicate n '[' ++ List.replicate n ']')) =
      List.replicate n 0x5B ++ List.replicate n 0x5D := by
  have opening : Utf8.encodeChar '[' = [0x5B] := by decide
  have closing : Utf8.encodeChar ']' = [0x5D] := by decide
  simp [Utf8.encode, List.flatMap_replicate, opening, closing]

/-- The empty list inside 126 others, in the text of a box in a list, is taken over as it is, and no
key of a box is left. The normal text of the list is refused for its nesting. -/
theorem nested_lists_in_box_are_not_read_again :
    ∃ (text normal : Bytes) (p : Shape.list.Payload),
      text = Json.print (.list [.table [("$serde_json::private::RawValue",
        .string (String.ofList (List.replicate 127 '[' ++ List.replicate 127 ']')))]]) ∧
      TakesOver (.empty : Document .list) text p ∧ Payload.Keyless p ∧
      normalText (.empty : Document .list) text = .ok normal ∧
      ∃ e, (decode.run (raw normal : Document .list)).answer = .error (.undecodable .list e) ∧
        e.cause = .tooDeep := by
  have doubleFree : (Value.list []).DoubleFree := trivial
  have keyless : (Value.list []).Keyless := ⟨by rintro members ⟨⟩, trivial⟩
  have normal : (Value.list []).Normal := trivial
  have nesting := Value.nesting_nest (.list []) 126
  have inside : Utf8.encode (String.ofList (List.replicate 127 '[' ++ List.replicate 127 ']')) =
      Json.print (.nest (.list []) 126) := by
    rw [encode_brackets, print_nest, List.replicate_succ', List.replicate_succ, List.append_assoc]
    rfl
  have said : Json.unbox (Json.print (.nest (.list []) 126)) = .ok (.nest (.list []) 126) :=
    Json.unbox_eq_ok_iff.mpr
      ⟨_, (Json.spells_print (doubleFree.nest 126) (Nat.le_of_eq nesting)).parse,
      (keyless.nest 126).unmarked.opened_eq⟩
  have taken := Payload.decode_encode_box (inside ▸ said)
  rw [(normal.nest 126).normalize_eq] at taken
  have free : Payload.DoubleFree (s := .list) [.nest (.list []) 126] :=
    ⟨doubleFree.nest 126, trivial⟩
  have bare : Payload.Keyless (s := .list) [.nest (.list []) 126] :=
    ⟨by rintro members ⟨⟩, keyless.nest 126, trivial⟩
  have deep : ¬Payload.Shallow (s := .list) [.nest (.list []) 126] := by
    simp only [Payload.Shallow, Payload.toValue, Value.nesting, Value.nestingItems, nesting]
    decide
  obtain ⟨e, he, hc⟩ := Payload.decode_encode_of_not_shallow free bare.unmarked deep
  refine ⟨_, _, _, rfl, takesOver_iff.mpr ⟨taken, free⟩, bare, normalText_of_decode taken _, e, ?_,
    hc⟩
  rw [run_decode_raw_error he]

end SchemaDoc.Document
